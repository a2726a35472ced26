-- The reductions of the constructors keep what a pattern captures. Whatever a
-- constructor gives, its meaning is the operation of that name on the meanings
-- of the arguments.
import MarkedRegex.Proofs.Build.Outcome
import MarkedRegex.Proofs.Tree

namespace MarkedRegex

open MarkedRegex.Tree (Symbol)

/-! ## Sets of symbols -/

namespace Tree.Symbol

variable (s t : CharSet) (x : Symbol)

theorem isIn_union : isIn (s.union t) x = (isIn s x || isIn t x) := by
  cases x with
  | none => rfl
  | some c => exact CharSet.contains_union s t c

theorem isIn_intersection : isIn (s.intersection t) x = (isIn s x && isIn t x) := by
  cases x with
  | none => rfl
  | some c => exact CharSet.contains_intersection s t c

theorem isIn_difference : isIn (s.difference t) x = (isIn s x && !isIn t x) := by
  cases x with
  | none => rfl
  | some c => exact CharSet.contains_difference s t c

theorem isIn_of_isEmpty {s : CharSet} (h : s.isEmpty = true) : isIn s x = false := by
  cases x with
  | none => rfl
  | some c =>
    have hcuts : s.cuts = [] := List.isEmpty_iff.mp h
    show Cuts.inside false s.cuts c.toNat = false
    rw [hcuts, Cuts.inside]

end Tree.Symbol

/-! ## Single characters -/

namespace Pattern

theorem meaning_any : meaning .any = Parse.one fun _ => true := rfl

theorem meaning_charSet (k : Nat) (s : CharSet) :
    meaning (.charSet k s) = Parse.one fun x => Symbol.isIn s x := rfl

theorem meaning_negatedSet (k : Nat) (s : CharSet) :
    meaning (.negatedSet k s) = Parse.one fun x => !Symbol.isIn s x := rfl

theorem meaning_of_isSingle {p : Pattern} (h : p.isSingle = true) :
    ∃ f, p.meaning = Parse.one f := by
  cases p with
  | any => exact ⟨_, meaning_any⟩
  | charSet k s => exact ⟨_, meaning_charSet k s⟩
  | negatedSet k s => exact ⟨_, meaning_negatedSet k s⟩
  | _ => simp [isSingle] at h

end Pattern

theorem OfSet.meaning {s : CharSet} {r : Pattern} (h : OfSet s r) :
    r.meaning = Parse.one fun x => Symbol.isIn s x := by
  cases h with
  | fail he => exact (Parse.one_eq_fail fun x => Symbol.isIn_of_isEmpty x he).symm
  | node k _ => exact Pattern.meaning_charSet k s

theorem OfNegatedSet.meaning {s : CharSet} {r : Pattern} (h : OfNegatedSet s r) :
    r.meaning = Parse.one fun x => !Symbol.isIn s x := by
  cases h with
  | any he => simp only [Symbol.isIn_of_isEmpty _ he, Bool.not_false, Pattern.meaning_any]
  | node k _ => exact Pattern.meaning_negatedSet k s

/-! ## Operators -/

theorem Sequenced.meaning {p q r : Pattern} (h : Sequenced p q r) :
    r.meaning = p.meaning.sequence q.meaning := by
  cases h with
  | failLeft => exact (Parse.fail_sequence _).symm
  | failRight => exact (Parse.sequence_fail _).symm
  | emptyLeft => exact (Parse.empty_sequence _).symm
  | emptyRight => exact (Parse.sequence_empty _).symm
  | settled q₂ i j k _ _ hp hq =>
    exact Parse.sequence_assoc_of_onlyEmpty _ (Pattern.onlyEmpty_of_not_consumes hp)
      (Pattern.onlyEmpty_of_not_consumes hq)
  | node => rfl

theorem Alternated.meaning {p q r : Pattern} (h : Alternated p q r) :
    r.meaning = p.meaning.alternation q.meaning := by
  cases h with
  | same => exact (Parse.alternation_self _).symm
  | failLeft => rfl
  | failRight => exact (Parse.alternation_fail _).symm
  | anyLeft hq =>
    obtain ⟨f, hf⟩ := Pattern.meaning_of_isSingle hq
    rw [hf, Pattern.meaning_any, Parse.alternation_one]
    simp only [Bool.true_or]
  | anyRight hp =>
    obtain ⟨f, hf⟩ := Pattern.meaning_of_isSingle hp
    rw [hf, Pattern.meaning_any, Parse.alternation_one]
    simp only [Bool.or_true]
  | sets hr =>
    rw [hr.meaning, Pattern.meaning_charSet, Pattern.meaning_charSet, Parse.alternation_one]
    simp only [Symbol.isIn_union]
  | negatedSets hr =>
    rw [hr.meaning, Pattern.meaning_negatedSet, Pattern.meaning_negatedSet, Parse.alternation_one]
    simp only [Symbol.isIn_intersection, Bool.not_and]
  | setNegatedSet hr =>
    rw [hr.meaning, Pattern.meaning_charSet, Pattern.meaning_negatedSet, Parse.alternation_one]
    simp only [Symbol.isIn_difference, Bool.not_and, Bool.not_not, Bool.or_comm]
  | negatedSetSet hr =>
    rw [hr.meaning, Pattern.meaning_charSet, Pattern.meaning_negatedSet, Parse.alternation_one]
    simp only [Symbol.isIn_difference, Bool.not_and, Bool.not_not]
  | node => rfl

theorem Starred.meaning {p r : Pattern} (h : Starred p r) : r.meaning = p.meaning.star := by
  cases h with
  | star k p => exact (Parse.star_star _).symm
  | dropped _ hc =>
    exact (Parse.star_of_onlyEmpty (Pattern.onlyEmpty_of_not_consumes hc)).symm
  | node => rfl

theorem Marked.meaning {name : String} {buffer : MarkBuffer} {p r : Pattern}
    (h : Marked name buffer p r) :
    r.meaning = p.meaning.mark name fun w => buffer.text ++ w.reduceOption := by
  cases h with
  | fail =>
    funext w
    exact (Captures.both_none _).symm
  | node => rfl

end MarkedRegex
