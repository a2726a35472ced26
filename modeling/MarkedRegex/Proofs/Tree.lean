-- Patterns as plain trees, and what a tree captures in a text. `parse` is the
-- reference and knows no derivative; `meaning` also reads characters outside
-- of every set, so it tells whether a part that no character fits is there.
import MarkedRegex.Pattern.Inspect
import MarkedRegex.Proofs.Parse.Language
import Mathlib.Data.List.ReduceOption

namespace MarkedRegex

/-! ## Trees -/

/-- The tree of a pattern. -/
inductive Tree where
  | empty
  | fail
  | any
  | charSet (set : CharSet)
  | negatedSet (set : CharSet)
  | sequence (left right : Tree)
  | alternation (left right : Tree)
  | star (inner : Tree)
  | mark (name : String) (buffer : MarkBuffer) (inner : Tree)
  deriving DecidableEq, Inhabited

/-- The tree of a pattern, with every shared part written out where it stands. -/
def Pattern.tree : Pattern → Tree
  | .empty => .empty
  | .fail => .fail
  | .any => .any
  | .charSet _ s => .charSet s
  | .negatedSet _ s => .negatedSet s
  | .sequence _ p q => .sequence p.tree q.tree
  | .alternation _ p q => .alternation p.tree q.tree
  | .star _ p => .star p.tree
  | .mark _ name buffer p => .mark name buffer p.tree

/-! ## What a tree captures -/

namespace Tree

/-- What a tree captures in a text: a sequence takes the first split that both parts match, the
longest left part first, an alternation its left branch if that one matches, a star nonempty rounds,
the longest first round first, and a mark the text it stands around, behind what it held before. -/
def parse : Tree → Parse Char
  | .empty => .empty
  | .fail => .fail
  | .any => .one fun _ => true
  | .charSet s => .one fun c => s.contains c
  | .negatedSet s => .one fun c => !s.contains c
  | .sequence p q => p.parse.sequence q.parse
  | .alternation p q => p.parse.alternation q.parse
  | .star p => p.parse.star
  | .mark name buffer p => p.parse.mark name fun s => buffer.text ++ s

/-- A character, or one that is outside of every set. -/
abbrev Symbol := Option Char

/-- Whether a symbol is a member of a set. -/
def Symbol.isIn (s : CharSet) (x : Symbol) : Bool := x.any s.contains

/-- What a tree captures in a text of symbols; marks record the characters among them. -/
def meaning : Tree → Parse Symbol
  | .empty => .empty
  | .fail => .fail
  | .any => .one fun _ => true
  | .charSet s => .one fun x => Symbol.isIn s x
  | .negatedSet s => .one fun x => !Symbol.isIn s x
  | .sequence p q => p.meaning.sequence q.meaning
  | .alternation p q => p.meaning.alternation q.meaning
  | .star p => p.meaning.star
  | .mark name buffer p => p.meaning.mark name fun w => buffer.text ++ w.reduceOption

/-! ## What is left of single characters and marks -/

theorem after_isIn (s : CharSet) (c : Char) :
    (Parse.one fun x => Symbol.isIn s x).after (some c) =
      if s.contains c then .empty else .fail :=
  Parse.after_one _ _

theorem after_not_isIn (s : CharSet) (c : Char) :
    (Parse.one fun x => !Symbol.isIn s x).after (some c) =
      if s.contains c then .fail else .empty := by
  rw [Parse.after_one]
  cases hs : s.contains c with
  | true => simp [Symbol.isIn, hs]
  | false => simp [Symbol.isIn, hs]

/-- A mark holds the character that it went through. -/
theorem after_holding (name : String) (buffer : MarkBuffer) (a : Parse Symbol) (c : Char) :
    (a.mark name fun w => buffer.text ++ w.reduceOption).after (some c) =
      (a.after (some c)).mark name fun w => (buffer.push c).text ++ w.reduceOption := by
  funext w
  simp [Parse.mark, Parse.after, List.append_assoc]

end Tree

/-! ## Texts of characters among texts of symbols -/

namespace Parse

variable {α β : Type} (f : α → β) (a b : Parse β)

/-- The parse of a text through its image. -/
def comap : Parse α := fun s => a (s.map f)

theorem comap_empty : comap f empty = empty := by
  funext s
  cases s <;> rfl

theorem comap_one (g : β → Bool) : comap f (one g) = one fun x => g (f x) := by
  funext s
  match s with
  | [] => rfl
  | [_] => rfl
  | _ :: _ :: _ => rfl

theorem comap_sequence : comap f (a.sequence b) = (comap f a).sequence (comap f b) := by
  funext s
  induction s generalizing a with
  | nil =>
    rw [sequence_nil]
    exact sequence_nil a b
  | cons x s ih =>
    rw [sequence_cons]
    have hafter : (comap f a).after x = comap f (a.after (f x)) := rfl
    rw [hafter, ← ih]
    exact sequence_cons a b (f x) (s.map f)

/-- A sequence looks at the texts no longer than the one it is given. -/
theorem sequence_congr {a b b' : Parse α} {s : List α}
    (h : ∀ v : List α, v.length ≤ s.length → b v = b' v) : a.sequence b s = a.sequence b' s := by
  induction s generalizing a with
  | nil => rw [sequence_nil, sequence_nil, h [] (Nat.le_refl _)]
  | cons x s ih =>
    rw [sequence_cons, sequence_cons, h (x :: s) (Nat.le_refl _),
      ih fun v hv => h v (Nat.le_succ_of_le hv)]

theorem comap_star : comap f a.star = (comap f a).star := by
  funext s
  induction hn : s.length using Nat.strong_induction_on generalizing s with
  | _ n ih =>
    cases s with
    | nil => rw [star_nil]; exact star_nil a
    | cons x s =>
      have hrest : ∀ v : List α, v.length ≤ s.length → comap f a.star v = (comap f a).star v := by
        intro v hv
        refine ih v.length ?_ v rfl
        rw [← hn, List.length_cons]
        omega
      calc comap f a.star (x :: s)
          = comap f ((a.after (f x)).sequence a.star) s := star_cons a (f x) (s.map f)
        _ = ((comap f a).after x).sequence (comap f a.star) s := by rw [comap_sequence]; rfl
        _ = ((comap f a).after x).sequence (comap f a).star s := sequence_congr hrest
        _ = (comap f a).star (x :: s) := (star_cons _ x s).symm

end Parse

/-- A text of characters is read alike as a text of symbols. -/
theorem Tree.parse_eq_comap_meaning (t : Tree) : t.parse = t.meaning.comap some := by
  induction t with
  | empty => exact (Parse.comap_empty some).symm
  | fail => rfl
  | any => rw [parse, meaning, Parse.comap_one]
  | charSet s => rw [parse, meaning, Parse.comap_one]; rfl
  | negatedSet s => rw [parse, meaning, Parse.comap_one]; rfl
  | sequence p q ihp ihq => rw [parse, meaning, Parse.comap_sequence, ihp, ihq]
  | alternation p q ihp ihq => rw [parse, ihp, ihq]; rfl
  | star p ih => rw [parse, meaning, Parse.comap_star, ih]
  | mark name buffer p ih =>
    funext s
    have hvalue : (s.map some).reduceOption = s := by simp [List.reduceOption]
    rw [parse, ih, meaning]
    simp only [Parse.mark, Parse.comap, hvalue]

/-! ## Patterns -/

namespace Pattern

/-- What a pattern captures in a text, by its tree. -/
def parse (p : Pattern) : Parse Char := p.tree.parse

/-- What a pattern captures in a text of symbols, by its tree. -/
def meaning (p : Pattern) : Parse Tree.Symbol := p.tree.meaning

theorem parse_eq_meaning (p : Pattern) (s : List Char) : p.parse s = p.meaning (s.map some) :=
  congrFun p.tree.parse_eq_comap_meaning s

section

variable (k : Nat) (p q : Pattern) (name : String) (buffer : MarkBuffer)

@[simp] theorem meaning_empty : meaning .empty = Parse.empty := rfl

@[simp] theorem meaning_fail : meaning .fail = Parse.fail := rfl

@[simp] theorem meaning_sequence :
    meaning (.sequence k p q) = p.meaning.sequence q.meaning := rfl

@[simp] theorem meaning_alternation :
    meaning (.alternation k p q) = p.meaning.alternation q.meaning := rfl

@[simp] theorem meaning_star : meaning (.star k p) = p.meaning.star := rfl

@[simp] theorem meaning_mark :
    meaning (.mark k name buffer p) =
      p.meaning.mark name fun w => buffer.text ++ w.reduceOption := rfl

end

/-! ## Attributes -/

/-- A pattern is nullable when it captures something in the empty text. -/
theorem nullable_eq_isSome (p : Pattern) : p.nullable = (p.meaning []).isSome := by
  induction p with
  | empty => rfl
  | fail => rfl
  | any => rfl
  | charSet => rfl
  | negatedSet => rfl
  | sequence _ p q ihp ihq =>
    rw [nullable, ihp, ihq, meaning_sequence, Parse.sequence_nil, Captures.isSome_both]
  | alternation _ p q ihp ihq =>
    rw [nullable, ihp, ihq, meaning_alternation, Parse.alternation, Parse.isSome_first]
  | star _ p _ => rw [nullable, meaning_star, Parse.star_nil]; rfl
  | mark _ name buffer p ih =>
    rw [nullable, ih, meaning_mark, Parse.mark, Captures.isSome_both]
    rfl

theorem meaning_nil_eq_none {p : Pattern} (h : p.nullable = false) : p.meaning [] = none := by
  rw [nullable_eq_isSome] at h
  simpa using h

/-- A pattern that cannot take in a character matches the empty text alone. -/
theorem onlyEmpty_of_not_consumes {p : Pattern} (h : p.consumes = false) :
    p.meaning.OnlyEmpty := by
  induction p with
  | empty => exact Parse.onlyEmpty_empty
  | fail => exact Parse.onlyEmpty_fail
  | any => simp [consumes] at h
  | charSet => simp [consumes] at h
  | negatedSet => simp [consumes] at h
  | sequence _ p q ihp ihq =>
    rw [consumes, Bool.or_eq_false_iff] at h
    exact (ihp h.1).sequence (ihq h.2)
  | alternation _ p q ihp ihq =>
    rw [consumes, Bool.or_eq_false_iff] at h
    intro x w
    rw [meaning_alternation, Parse.alternation, ihp h.1 x w, ihq h.2 x w]
    rfl
  | star _ p ih =>
    rw [meaning_star, Parse.star_of_onlyEmpty (ih h)]
    exact Parse.onlyEmpty_empty
  | mark _ name buffer p ih =>
    intro x w
    rw [meaning_mark, Parse.mark, ih h x w, Captures.both_none]

/-- Without marks, nothing is captured in the empty text. -/
theorem meaning_nil_of_not_hasMarks {p : Pattern} (hn : p.nullable = true)
    (hm : p.hasMarks = false) : p.meaning [] = some ∅ := by
  induction p with
  | empty => rfl
  | fail => simp [nullable] at hn
  | any => simp [nullable] at hn
  | charSet => simp [nullable] at hn
  | negatedSet => simp [nullable] at hn
  | sequence _ p q ihp ihq =>
    rw [nullable, Bool.and_eq_true] at hn
    rw [hasMarks, Bool.or_eq_false_iff] at hm
    rw [meaning_sequence, Parse.sequence_nil, ihp hn.1 hm.1, ihq hn.2 hm.2]
    rfl
  | alternation _ p q ihp ihq =>
    rw [nullable, Bool.or_eq_true] at hn
    rw [hasMarks, Bool.or_eq_false_iff] at hm
    rw [meaning_alternation, Parse.alternation]
    cases hp : p.nullable with
    | true => rw [ihp hp hm.1]; rfl
    | false =>
      have hq : q.nullable = true := by simpa [hp] using hn
      rw [meaning_nil_eq_none hp, ihq hq hm.2]
      rfl
  | star _ p _ => exact Parse.star_nil _
  | mark => simp [hasMarks] at hm

/-! ## Captures held -/

/-- Where the empty text does not match, neither side is there. -/
theorem capturedOnto_eq_of_nullable {p : Pattern} {rest : Captures}
    (h : p.nullable = true → p.capturedOnto rest = Captures.both (p.meaning []) (some rest)) :
    p.capturedOnto rest = Captures.both (p.meaning []) (some rest) := by
  cases hn : p.nullable with
  | true => exact h hn
  | false =>
    rw [meaning_nil_eq_none hn, Captures.none_both]
    unfold capturedOnto
    simp [hn]

/-- The captures of the empty text go in front of those that follow. -/
theorem capturedOnto_eq (p : Pattern) (rest : Captures) :
    p.capturedOnto rest = Captures.both (p.meaning []) (some rest) := by
  induction p generalizing rest with
  | empty => rfl
  | fail => rfl
  | any => rfl
  | charSet => rfl
  | negatedSet => rfl
  | sequence k p q ihp ihq =>
    refine capturedOnto_eq_of_nullable fun hn => ?_
    rw [capturedOnto, hn, ihq, meaning_sequence, Parse.sequence_nil, Captures.both_assoc]
    cases Captures.both (q.meaning []) (some rest) with
    | none => simp
    | some r => exact ihp r
  | alternation k p q ihp ihq =>
    refine capturedOnto_eq_of_nullable fun hn => ?_
    rw [capturedOnto, hn, ihp, ihq, meaning_alternation, Parse.alternation]
    cases p.meaning [] <;> rfl
  | star k p _ =>
    rw [capturedOnto, meaning_star, Parse.star_nil]
    rfl
  | mark k name buffer p ih =>
    refine capturedOnto_eq_of_nullable fun hn => ?_
    rw [capturedOnto, hn, ih, meaning_mark, Parse.mark, Captures.both_assoc]
    simp only [List.reduceOption_nil, List.append_nil]
    cases Captures.both (p.meaning []) (some rest) <;> rfl

/-- The captures that a pattern holds are those of the empty text. -/
theorem captured_eq_meaning (p : Pattern) : p.captured = p.meaning [] := by
  rw [captured, capturedOnto_eq, Captures.both_empty]

end Pattern

end MarkedRegex
