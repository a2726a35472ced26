-- A step keeps what a pattern captures: the settled form captures in the empty
-- text what the pattern does, and what is left after a character captures in
-- the rest of a text what the pattern does in the whole of it.
import MarkedRegex.Proofs.Build.Meaning
import MarkedRegex.Proofs.Residual

namespace MarkedRegex

namespace Pattern

theorem settled_meaning_of_not_nullable {p : Pattern} (h : p.nullable = false) :
    p.meaning.settled = Parse.fail := by
  funext w
  cases w with
  | nil => exact meaning_nil_eq_none h
  | cons x w => rfl

end Pattern

/-- A settled form keeps the empty text, with all that it captures. -/
theorem Settled.meaning {p r : Pattern} (h : Settled p r) : r.meaning = p.meaning.settled := by
  induction h with
  | fail hn => exact (Pattern.settled_meaning_of_not_nullable hn).symm
  | empty hn hm =>
    funext w
    cases w with
    | nil => exact (Pattern.meaning_nil_of_not_hasMarks hn hm).symm
    | cons x w => rfl
  | kept _ _ hc =>
    exact (Parse.settled_of_onlyEmpty _ (Pattern.onlyEmpty_of_not_consumes hc)).symm
  | sequence _ _ _ _ _ hr iha ihb =>
    rw [hr.meaning, iha, ihb, Pattern.meaning_sequence, Parse.settled_sequence]
  | alternation _ _ _ _ _ hr iha ihb =>
    rw [hr.meaning, iha, ihb, Pattern.meaning_alternation, Parse.settled_alternation]
  | star _ _ _ hr ih => rw [hr.meaning, ih, Pattern.meaning_star, Parse.settled_star]
  | mark _ _ _ hr ih => rw [hr.meaning, ih, Pattern.meaning_mark, Parse.settled_mark]

/-- What is left after a character captures what the pattern does behind that character. -/
theorem Residual.meaning {p r : Pattern} {c : Char} (h : Residual p c r) :
    r.meaning = p.meaning.after (some c) := by
  induction h with
  | dead hc => exact (funext fun w => Pattern.onlyEmpty_of_not_consumes hc (some _) w).symm
  | any c => rw [Pattern.meaning_any, Parse.after_one]; rfl
  | charSet k s c =>
    rw [Pattern.meaning_charSet, apply_ite Pattern.meaning, Tree.after_isIn]
    rfl
  | negatedSet k s c =>
    rw [Pattern.meaning_negatedSet, apply_ite Pattern.meaning, Tree.after_not_isIn]
    rfl
  | sequence _ hn _ hr iha =>
    rw [hr.meaning, iha, Pattern.meaning_sequence, Parse.after_sequence,
      Pattern.settled_meaning_of_not_nullable hn, Parse.fail_sequence, Parse.alternation_fail]
  | sequenceLeft _ _ _ hr _ iha ihq =>
    rw [hr.meaning, iha, Pattern.meaning_sequence, Parse.after_sequence, ← ihq,
      Pattern.meaning_fail, Parse.sequence_fail, Parse.alternation_fail]
  | sequenceBoth _ _ _ hhead _ _ he hrest hr iha ihtail =>
    rw [hr.meaning, hhead.meaning, hrest.meaning, iha, ihtail, he.meaning,
      Pattern.meaning_sequence, Parse.after_sequence]
  | alternation _ _ _ hr iha ihb =>
    rw [hr.meaning, iha, ihb]
    rfl
  | star _ _ hr ih => rw [hr.meaning, ih, Pattern.meaning_star, Parse.after_star]
  | mark _ _ hr ih => rw [hr.meaning, ih, Pattern.meaning_mark, Tree.after_holding]

end MarkedRegex
