-- The law of refusals. Under limits a call checks, step by step, what is left
-- of the pattern, and gives up on the first that is over a limit. What is left
-- then, and the answer if nothing is over, are those of the same call with no
-- limit on size and depth.
import MarkedRegex.Proofs.Lockstep
import MarkedRegex.Proofs.Matcher
import MarkedRegex.Proofs.Tree.Attributes

namespace MarkedRegex

/-! ## Checking one pattern after the other -/

namespace Limits

variable {l : Limits} {e : LimitError}

theorem forM_check_eq_ok_iff {rs : List Pattern} :
    forM rs l.check = .ok () ↔ ∀ r ∈ rs, ¬l.Excludes r := by
  induction rs with
  | nil => simp [pure, Except.pure]
  | cons r rs ih =>
    rw [List.forM_cons, List.forall_mem_cons, ← check_eq_ok_iff_not_excludes, ← ih]
    cases l.check r with
    | error e => simp [bind, Except.bind]
    | ok _ => simp [bind, Except.bind]

/-- The first pattern that is refused tells the error. -/
theorem forM_check_eq_error {before after : List Pattern} {r : Pattern}
    (hbefore : ∀ r' ∈ before, ¬l.Excludes r') (hr : l.check r = .error e) :
    forM (before ++ r :: after) l.check = .error e := by
  rw [List.forM_append, forM_check_eq_ok_iff.mpr hbefore, List.forM_cons, hr]
  rfl

/-- A step under limits is the derivative, with the memory it leaves, and then the check. -/
theorem run_step (l : Limits) (p : Pattern) (c : Char) (memo : Memo) (n : Nat) :
    ((l.step p c).run.run memo).run n =
      match ((p.derive c).run memo).run n with
      | ((r, memo'), n') => (((l.check r).map fun _ => r, memo'), n') := by
  have hlift : ((liftM (p.derive c) : Limited Pattern).run.run memo).run n =
      (match ((p.derive c).run memo).run n with
      | ((r, memo'), n') => ((.ok r, memo'), n')) := rfl
  unfold step
  rw [Limited.run_bind, hlift]
  rcases ((p.derive c).run memo).run n with ⟨⟨r, memo'⟩, n'⟩
  simp only
  cases l.check r <;> rfl

end Limits

/-! ## Records -/

/-- Matching that keeps a record of what is left after each step, the latest last. -/
abbrev Recorded := StateT (List Pattern) Derive

namespace Recorded

/-- The derivative, kept on record. -/
def step (p : Pattern) (c : Char) : Recorded Pattern := do
  let next ← (p.derive c : Derive Pattern)
  modify (· ++ [next])
  return next

/-- Under limits the action is the other one until something that goes on record is refused: if
nothing is, it gives the related answer and leaves the same memory, and else it ends with the error
of the first pattern that is. -/
def CheckedBy (l : Limits) {α : Type} (act : Recorded α) (limited : Limited α)
    (related : α → α → Prop) : Prop :=
  ∀ (past : List Pattern) (memo : Memo) (n : Nat) x record memo' n',
    ((act.run past).run memo).run n = (((x, record), memo'), n') →
    ∃ new y, record = past ++ new ∧ related x y ∧
      (forM new l.check = .ok () → (limited.run.run memo).run n = ((.ok y, memo'), n')) ∧
      ∀ e, forM new l.check = .error e → ((limited.run.run memo).run n).1.1 = .error e

variable {α β : Type} {l : Limits} {related : α → α → Prop}

theorem checkedBy_pure {x y : α} (h : related x y) : CheckedBy l (pure x) (pure y) related := by
  intro past memo n x' record memo' n' hrun
  cases hrun
  refine ⟨[], y, (List.append_nil past).symm, h, fun _ => rfl, ?_⟩
  intro e he
  cases he

theorem CheckedBy.bind {act : Recorded α} {limited : Limited α} {f : α → Recorded β}
    {g : α → Limited β} {related' : β → β → Prop} (h : CheckedBy l act limited related)
    (hf : ∀ x y, related x y → CheckedBy l (f x) (g y) related') :
    CheckedBy l (act >>= f) (limited >>= g) related' := by
  intro past memo n x record memo' n' hrun
  rcases hact : ((act.run past).run memo).run n with ⟨⟨⟨x₁, record₁⟩, memo₁⟩, n₁⟩
  have hrest : (((f x₁).run record₁).run memo₁).run n₁ = (((x, record), memo'), n') := by
    rw [StateT.run_bind, StateT.run_bind, StateT.run_bind, hact] at hrun
    exact hrun
  obtain ⟨new₁, y₁, rfl, hxy, hok₁, herror₁⟩ := h past memo n x₁ record₁ memo₁ n₁ hact
  obtain ⟨new₂, y, rfl, hxy', hok₂, herror₂⟩ := hf x₁ y₁ hxy _ memo₁ n₁ x record memo' n' hrest
  refine ⟨new₁ ++ new₂, y, List.append_assoc _ _ _, hxy', ?_⟩
  rw [Limited.run_bind, List.forM_append]
  cases hcheck : forM new₁ l.check with
  | error e =>
    have hstop := herror₁ e hcheck
    rcases hlimited : (limited.run.run memo).run n with ⟨⟨answer, memo₂⟩, n₂⟩
    rw [hlimited] at hstop
    obtain rfl : answer = .error e := hstop
    refine ⟨fun hok => ?_, fun e' he' => ?_⟩
    · cases hok
    · cases he'
      rfl
  | ok _ =>
    rw [hok₁ hcheck]
    exact ⟨hok₂, herror₂⟩

/-- A step under limits checks what goes on record. -/
theorem checkedBy_step (l : Limits) (p : Pattern) (c : Char) :
    CheckedBy l (step p c) (l.step p c) fun r r' => r' = r := by
  intro past memo n x record memo' n' hrun
  have hrecorded : (((step p c).run past).run memo).run n =
      (match ((p.derive c).run memo).run n with
      | ((r, memo'), n') => (((r, past ++ [r]), memo'), n')) := rfl
  rw [l.run_step]
  rcases hderive : ((p.derive c).run memo).run n with ⟨⟨r, memo₁⟩, n₁⟩
  rw [hrecorded, hderive] at hrun
  cases hrun
  refine ⟨[x], x, rfl, rfl, ?_⟩
  rw [List.forM_cons, List.forM_nil]
  dsimp only
  cases l.check x with
  | error e =>
    refine ⟨fun hok => ?_, fun e' he' => ?_⟩
    · cases hok
    · cases he'
      rfl
  | ok _ =>
    refine ⟨fun _ => rfl, fun e' he' => ?_⟩
    cases he'

/-- A recorded action and the same one under limits are in step. Nothing changes on the way, so
there is only one world. -/
abbrev lockstep (l : Limits) : Lockstep Unit (· = ·) Recorded Limited where
  Related _ act limited related := CheckedBy l act limited (related ())
  pure := checkedBy_pure
  bind h hf := h.bind fun x y hxy => hf () x y rfl hxy

theorem lockstep_steps (l : Limits) :
    (lockstep l).Steps step l.step fun _ p p' => p' = p where
  related := by
    intro _ p p' h c
    rw [h]
    exact checkedBy_step l p c
  mono h _ := h
  isFail_eq h := congrArg Pattern.isFail h
  captured_eq h := congrArg Pattern.captured h

end Recorded

/-! ## Calls -/

/-- A call with no limit on size and depth: what it answers, what is left of the pattern after each
of its steps, in their order, and the memory and the serial number it ends with. -/
structure Course (α : Type) where
  answer : α
  residuals : List Pattern
  memo : Memo
  serial : Nat

namespace Matcher

/-- How a question goes if nothing is refused. -/
def course (m : Matcher) (q : Call) : Course q.Answer :=
  let (((answer, residuals), memo), serial) :=
    (((q.run Recorded.step m.pattern).run []).run m.memo).run m.serial
  { answer, residuals, memo, serial }

/-- The matcher with no limit on size and depth, and with the same memory. -/
def unlimited (m : Matcher) : Matcher :=
  { m with limits := { m.limits with maxSize := none, maxDepth := none } }

/-- A question is answered as without limits where nothing on the way is refused, and the first
refusal ends it elsewhere. -/
theorem ask_eq_of_course (m : Matcher) (q : Call) :
    (forM (m.course q).residuals m.limits.check = .ok () → m.ask q =
      (.ok (m.course q).answer,
        { m with memo := (m.course q).memo, serial := (m.course q).serial })) ∧
    ∀ e, forM (m.course q).residuals m.limits.check = .error e → (m.ask q).1 = .error e := by
  obtain ⟨pattern, limits, memo, serial⟩ := m
  rw [ask_eq_call]
  unfold call course
  simp only
  rcases hrun : (((q.run Recorded.step pattern).run []).run memo).run serial with
    ⟨⟨⟨answer, residuals⟩, memo'⟩, serial'⟩
  obtain ⟨_, _, rfl, rfl, hok, herror⟩ := (Recorded.lockstep_steps limits).call (w := ())
    (rfl : pattern = pattern) q [] memo serial answer residuals memo' serial' hrun
  constructor
  · intro h
    rw [hok h]
  · exact herror

/-- Without limits nothing is refused. -/
theorem unlimited_ask (m : Matcher) (q : Call) : m.unlimited.ask q =
    (.ok (m.course q).answer,
      { m.unlimited with memo := (m.course q).memo, serial := (m.course q).serial }) := by
  apply (m.unlimited.ask_eq_of_course q).1
  rw [Limits.forM_check_eq_ok_iff]
  intro r _
  rw [← Limits.check_eq_ok_iff_not_excludes]
  exact Limits.check_eq_ok rfl rfl r

/-- Where nothing is left that the limits exclude, they do not show. -/
theorem ask_of_not_excludes {m : Matcher} {q : Call}
    (h : ∀ r ∈ (m.course q).residuals, ¬m.limits.Excludes r) : m.ask q =
      (.ok (m.course q).answer,
        { m with memo := (m.course q).memo, serial := (m.course q).serial }) :=
  (m.ask_eq_of_course q).1 (Limits.forM_check_eq_ok_iff.mpr h)

theorem exists_error_iff (m : Matcher) (q : Call) :
    (∃ e, (m.ask q).1 = .error e) ↔ ∃ r ∈ (m.course q).residuals, m.limits.Excludes r := by
  constructor
  · rintro ⟨e, he⟩
    by_contra hnone
    push Not at hnone
    rw [ask_of_not_excludes hnone] at he
    cases he
  · rintro ⟨r, hr, hexcluded⟩
    cases hcheck : forM (m.course q).residuals m.limits.check with
    | ok _ => exact absurd hexcluded (Limits.forM_check_eq_ok_iff.mp hcheck r hr)
    | error e => exact ⟨e, (m.ask_eq_of_course q).2 e hcheck⟩

/-! ## The law -/

/-- Without limits on size and depth a call is answered, and what is left of the pattern on the way
is what a call from the same memory on checks, step by step, under limits; the pattern itself is not
checked. A call is refused exactly if the limits exclude something that is left. The error is the
one of the first such residual: that it is too large, or else that it is too deep, and by which
limit. If there is none, the call is answered as it is without limits, and leaves the same memory.
No call is refused where depths have no limit and sizes none below the cap at which they saturate.
-/
theorem a_call_is_refused_for_the_first_residual_over_a_limit (m : Matcher) (q : Call) :
    let course := m.course q
    (m.unlimited.ask q = (.ok course.answer,
      { m.unlimited with memo := course.memo, serial := course.serial })) ∧
    ((∃ e, (m.ask q).1 = .error e) ↔ ∃ r ∈ course.residuals, m.limits.Excludes r) ∧
    (∀ before r after, course.residuals = before ++ r :: after →
      (∀ r' ∈ before, ¬m.limits.Excludes r') →
      (∀ k ∈ m.limits.maxSize, k < r.size → (m.ask q).1 = .error (.tooLarge r.size k)) ∧
      ((∀ k ∈ m.limits.maxSize, r.size ≤ k) →
        ∀ k ∈ m.limits.maxDepth, k < r.depth → (m.ask q).1 = .error (.tooDeep r.depth k))) ∧
    ((∀ r ∈ course.residuals, ¬m.limits.Excludes r) →
      m.ask q = (.ok course.answer, { m with memo := course.memo, serial := course.serial })) ∧
    ((∀ k ∈ m.limits.maxSize, sizeCap ≤ k) → m.limits.maxDepth = none →
      (m.ask q).1 = .ok course.answer) := by
  intro course
  refine ⟨m.unlimited_ask q, m.exists_error_iff q, ?_, ask_of_not_excludes, ?_⟩
  · intro before r after hresiduals hbefore
    have hfirst : ∀ e, m.limits.check r = .error e → (m.ask q).1 = .error e := by
      intro e he
      apply (m.ask_eq_of_course q).2
      rw [show (m.course q).residuals = before ++ r :: after from hresiduals]
      exact Limits.forM_check_eq_error hbefore he
    constructor
    · intro k hk hlt
      exact hfirst _ (Limits.check_eq_tooLarge hk hlt)
    · intro hsize k hk hlt
      exact hfirst _ (Limits.check_eq_tooDeep hsize hk hlt)
  · intro hsize hdepth
    rw [ask_of_not_excludes]
    intro r _
    rw [← Limits.check_eq_ok_iff_not_excludes, Limits.check_eq_ok_iff, hdepth]
    refine ⟨fun k hk => ?_, nofun⟩
    have hcap : r.size ≤ sizeCap := by
      rw [r.size_eq_tree]
      exact min_le_right _ _
    exact Nat.le_trans hcap (hsize k hk)

/-- No size at all is allowed, and yet the pattern itself is not refused, but its failure behind `b`
is. -/
example :
    let p := (((Expr.char 'a').buildBehind []).run 0).1
    let m := ofPattern p { maxSize := some 0 }
    (m.ask (.matchWhole [])).1 = .ok none ∧
      (m.ask (.matchWhole ['b'])).1 = .error (.tooLarge 1 0) := by
  decide +kernel

end Matcher

end MarkedRegex
