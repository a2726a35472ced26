-- The derivative on plain trees, where nothing is reduced and nothing is cut
-- short. What a tree captures after the characters of a text is its parse of
-- that text.
import MarkedRegex.Proofs.Tree

namespace MarkedRegex.Tree

/-! ## Plain operations -/

def nullable : Tree → Bool
  | .empty | .star _ => true
  | .fail | .any | .charSet _ | .negatedSet _ => false
  | .sequence p q => p.nullable && q.nullable
  | .alternation p q => p.nullable || q.nullable
  | .mark _ _ p => p.nullable

/-- The empty matches of a tree, with every mark and its buffer. -/
def settle : Tree → Tree
  | .empty => .empty
  | .fail | .any | .charSet _ | .negatedSet _ => .fail
  | .sequence p q => .sequence p.settle q.settle
  | .alternation p q => .alternation p.settle q.settle
  | .star p => .star p.settle
  | .mark name buffer p => .mark name buffer p.settle

/-- What is left of a tree after a character. -/
def derive (c : Char) : Tree → Tree
  | .empty | .fail => .fail
  | .any => .empty
  | .charSet s => if s.contains c then .empty else .fail
  | .negatedSet s => if s.contains c then .fail else .empty
  | .sequence p q =>
    .alternation (.sequence (p.derive c) q) (.sequence p.settle (q.derive c))
  | .alternation p q => .alternation (p.derive c) (q.derive c)
  | .star p => .sequence (p.derive c) (.star p)
  | .mark name buffer p => .mark name (buffer.push c) (p.derive c)

/-- What is left of a tree after the characters of a text, one after the other. -/
def derivatives (t : Tree) (cs : List Char) : Tree := cs.foldl (fun t c => t.derive c) t

/-- The captures that a tree holds where it stops. -/
def captured : Tree → Option Captures
  | .empty | .star _ => some ∅
  | .fail | .any | .charSet _ | .negatedSet _ => none
  | .sequence p q => Captures.both p.captured q.captured
  | .alternation p q => Captures.first p.captured q.captured
  | .mark name buffer p =>
    Captures.both (some (Captures.single name (String.ofList buffer.text))) p.captured

/-! ## Their meaning -/

theorem captured_eq_meaning (t : Tree) : t.captured = t.meaning [] := by
  induction t with
  | empty => rfl
  | fail => rfl
  | any => rfl
  | charSet => rfl
  | negatedSet => rfl
  | sequence p q ihp ihq => rw [captured, ihp, ihq, meaning, Parse.sequence_nil]
  | alternation p q ihp ihq => rw [captured, ihp, ihq]; rfl
  | star p _ => rw [captured, meaning, Parse.star_nil]
  | mark name buffer p ih => rw [captured, ih, meaning, Parse.mark]; simp

theorem nullable_eq_isSome (t : Tree) : t.nullable = (t.meaning []).isSome := by
  rw [← captured_eq_meaning]
  induction t with
  | empty => rfl
  | fail => rfl
  | any => rfl
  | charSet => rfl
  | negatedSet => rfl
  | sequence p q ihp ihq => rw [nullable, ihp, ihq, captured, Captures.isSome_both]
  | alternation p q ihp ihq => rw [nullable, ihp, ihq, captured, Parse.isSome_first]
  | star => rfl
  | mark name buffer p ih =>
    rw [nullable, ih, captured, Captures.isSome_both]
    rfl

theorem meaning_settle (t : Tree) : t.settle.meaning = t.meaning.settled := by
  induction t with
  | empty => exact (Parse.settled_of_onlyEmpty _ Parse.onlyEmpty_empty).symm
  | fail => exact (Parse.settled_of_onlyEmpty _ Parse.onlyEmpty_fail).symm
  | any => exact (Parse.settled_one _).symm
  | charSet => exact (Parse.settled_one _).symm
  | negatedSet => exact (Parse.settled_one _).symm
  | sequence p q ihp ihq => rw [settle, meaning, ihp, ihq, meaning, Parse.settled_sequence]
  | alternation p q ihp ihq =>
    rw [settle, meaning, ihp, ihq, meaning, Parse.settled_alternation]
  | star p ih => rw [settle, meaning, ih, meaning, Parse.settled_star]
  | mark name buffer p ih => rw [settle, meaning, ih, meaning, Parse.settled_mark]

theorem meaning_derive (t : Tree) (c : Char) :
    (t.derive c).meaning = t.meaning.after (some c) := by
  induction t with
  | empty => rfl
  | fail => rfl
  | any => rw [derive, meaning, meaning, Parse.after_one]; rfl
  | charSet s =>
    have hafter : (charSet s).meaning.after (some c) = _ := after_isIn s c
    rw [derive, apply_ite meaning, hafter]
    rfl
  | negatedSet s =>
    have hafter : (negatedSet s).meaning.after (some c) = _ := after_not_isIn s c
    rw [derive, apply_ite meaning, hafter]
    rfl
  | sequence p q ihp ihq =>
    simp only [derive, meaning, ihp, ihq, meaning_settle, Parse.after_sequence]
  | alternation p q ihp ihq =>
    rw [derive, meaning, ihp, ihq]
    rfl
  | star p ih => rw [derive, meaning, ih, meaning, Parse.after_star]
  | mark name buffer p ih =>
    rw [derive, meaning, ih, meaning, after_holding]

theorem meaning_derivatives (t : Tree) (cs : List Char) (w : List Symbol) :
    (t.derivatives cs).meaning w = t.meaning (cs.map some ++ w) := by
  induction cs generalizing t with
  | nil => rfl
  | cons c cs ih =>
    have hstep : t.derivatives (c :: cs) = (t.derive c).derivatives cs := rfl
    rw [hstep, ih, meaning_derive]
    rfl

end MarkedRegex.Tree
