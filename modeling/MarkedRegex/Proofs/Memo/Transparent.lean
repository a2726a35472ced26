-- The law of the memory: it does not show. Sharing can make what it gives
-- differ from the derivative as a tree, for the same node twice in a choice
-- becomes one, but no test and no match tells the two apart.
import MarkedRegex.Proofs.Reachable
import MarkedRegex.Proofs.WholeMatch

namespace MarkedRegex

/-! ## Patterns that matching does not tell apart -/

/-- Two patterns that every test, what they hold and every match are the same for. -/
structure Pattern.Interchangeable (p q : Pattern) : Prop where
  nullable : p.nullable = q.nullable
  isFail : p.isFail = q.isFail
  consumes : p.consumes = q.consumes
  captured : p.captured = q.captured
  matchWhole : ∀ s, p.matchWhole s = q.matchWhole s

theorem Pattern.interchangeable_of_meaning {p q : Pattern} (hp : p.Reduced) (hq : q.Reduced)
    (h : p.meaning = q.meaning) : p.Interchangeable q where
  nullable := by rw [nullable_eq_isSome, nullable_eq_isSome, h]
  isFail := hp.isFail_eq hq h
  consumes := hp.consumes_eq hq h
  captured := by rw [captured_eq_meaning, captured_eq_meaning, h]
  matchWhole := by
    intro s
    rw [matchWhole_eq_parse, matchWhole_eq_parse, parse_of_meaning (t := q.tree) h]
    rfl

/-- All that can be left of a reduced pattern after a character is interchangeable. -/
theorem Residual.interchangeable {p q r : Pattern} {c : Char} (hp : p.Reduced)
    (hq : Residual p c q) (hr : Residual p c r) : r.Interchangeable q := by
  have hmeaning : r.meaning = q.meaning := by rw [hr.meaning, hq.meaning]
  exact Pattern.interchangeable_of_meaning (hr.reduced hp) (hq.reduced hp) hmeaning

/-! ## Successive derivatives -/

/-- After each character, what is left holds the captures of the text so far. -/
theorem Pattern.steps_ensures (p : Pattern) (s : List Char) :
    (p.steps s).Ensures fun steps => steps.map (·.1.captured) = s.inits.tail.map p.parse := by
  induction s generalizing p with
  | nil => exact Derive.ensures_pure rfl
  | cons c s ih =>
    refine (p.derive_ensures c).bind fun r hr => ?_
    refine Derive.ensures_get.bind fun memo _ => ?_
    refine (ih r).bind fun rest hrest => Derive.ensures_pure ?_
    have hfirst : r.captured = p.parse [c] := by rw [captured_eq_parse, hr.parse]
    have hafter : r.parse = p.parse ∘ (c :: ·) := funext hr.parse
    rw [List.map_cons, hrest, hfirst, hafter]
    cases s <;> simp

/-! ## The law -/

/-- A memory does not show: behind any history, what it gives for a pattern and a character is
interchangeable with the derivative, and over a text it holds the same captures after every
character. -/
theorem a_memory_does_not_show_in_what_is_left (capacity : Nat) (history : List Request)
    {p : Pattern} (hp : Reachable p) :
    (∀ (c : Char) (m n : Nat),
      (((p.derive c).behind capacity history).run m).1.Interchangeable
        ((p.derivative c).run n).1) ∧
    (∀ (s : List Char) (m n : Nat),
      (((p.steps s).behind capacity history).run m).1.map (·.1.captured) =
        (((p.steps s).run' .off).run n).1.map (·.1.captured)) := by
  constructor
  · intro c m n
    have hplain := residual_of_derivative (Build.gives_run (p.derivative c) n)
    have hkept := (p.derive_ensures c).behind
      (Build.gives_run ((p.derive c).behind capacity history) m)
    exact hplain.interchangeable hp.reduced hkept
  · intro s m n
    have hplain := (p.steps_ensures s .off n Memo.sound_off).1
    have hkept := (p.steps_ensures s).behind
      (Build.gives_run ((p.steps s).behind capacity history) m)
    rw [hkept]
    exact hplain.symm

/-- A star of marks, behind a memory that was asked for it, cleared, and asked for it again. -/
theorem a_memory_that_was_cleared_does_not_show :
    let p := (((Expr.star (.mark "x" .any)).buildBehind []).run 0).1
    let history : List Request := [.derive p 'a', .clear, .derive p 'a']
    Reachable p ∧
      (((p.derive 'a').behind 2 history).run 2).1.Interchangeable ((p.derivative 'a').run 2).1 ∧
      (((p.steps ['a', 'b']).behind 2 history).run 2).1.map (·.1.captured) =
        (((p.steps ['a', 'b']).run' .off).run 2).1.map (·.1.captured) := by
  intro p history
  have hp : Reachable p := Expr.reachable_of_buildBehind (Build.gives_run _ 0)
  have hlaw := a_memory_does_not_show_in_what_is_left 2 history hp
  exact ⟨hp, hlaw.1 'a' 2 2, hlaw.2 ['a', 'b'] 2 2⟩

end MarkedRegex
