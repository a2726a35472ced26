-- What a call goes through: the patterns it steps to, node by node, up to the one
-- that is refused, if one is. Keeping a record of them does not show in the
-- answer, nor in the memory.
import MarkedRegex.Proofs.Refusals

namespace MarkedRegex

/-- Matching under limits that keeps a record of what each step leads to, the latest last, also of
what is refused then. -/
abbrev Logged := ExceptT LimitError Recorded

/-- Answers of two runs: the same error, or related values. -/
inductive Agree {α : Type} (related : α → α → Prop) :
    Except LimitError α → Except LimitError α → Prop
  | ok {x y : α} : related x y → Agree related (.ok x) (.ok y)
  | error (e : LimitError) : Agree related (.error e) (.error e)

theorem Agree.eq {α : Type} {x y : Except LimitError α} (h : Agree (fun x y => y = x) x y) :
    y = x := by
  cases h with
  | ok h => rw [h]
  | error e => rfl

namespace Logged

variable {α β : Type}

/-- Runs from a record, a memory and a serial number. -/
def runFrom (act : Logged α) (past : List Pattern) (memo : Memo) (n : Nat) :
    ((Except LimitError α × List Pattern) × Memo) × Nat :=
  ((act.run.run past).run memo).run n

/-- The derivative, kept on record, and refused when it is over the limits. -/
def step (l : Limits) (p : Pattern) (c : Char) : Logged Pattern := do
  let next ← (Recorded.step p c : Recorded Pattern)
  match l.check next with
  | .ok () => return next
  | .error e => throw e

theorem runFrom_bind (act : Logged α) (f : α → Logged β) (past : List Pattern) (memo : Memo)
    (n : Nat) :
    (act >>= f).runFrom past memo n =
      match act.runFrom past memo n with
      | (((.ok x, record), memo'), n') => (f x).runFrom record memo' n'
      | (((.error e, record), memo'), n') => (((.error e, record), memo'), n') := by
  unfold runFrom
  rw [ExceptT.run_bind, StateT.run_bind, StateT.run_bind, StateT.run_bind]
  rcases ((act.run.run past).run memo).run n with ⟨⟨⟨_ | x, record⟩, memo'⟩, n'⟩ <;> rfl

/-- A step is the derivative, with the memory it leaves, then the record, and then the check. -/
theorem runFrom_step (l : Limits) (p : Pattern) (c : Char) (past : List Pattern) (memo : Memo)
    (n : Nat) :
    (step l p c).runFrom past memo n =
      match ((p.derive c).run memo).run n with
      | ((r, memo'), n') => ((((l.check r).map fun _ => r, past ++ [r]), memo'), n') := by
  have hlift : (liftM (Recorded.step p c) : Logged Pattern).runFrom past memo n =
      (match ((p.derive c).run memo).run n with
      | ((r, memo'), n') => (((.ok r, past ++ [r]), memo'), n')) := rfl
  unfold step
  rw [runFrom_bind, hlift]
  rcases ((p.derive c).run memo).run n with ⟨⟨r, memo'⟩, n'⟩
  simp only
  cases l.check r <;> rfl

/-! ## The record does not show -/

/-- Without its record, the run is that of the other action. -/
def Unlogs (logged : Logged α) (limited : Limited α) (related : α → α → Prop) : Prop :=
  ∀ past memo n answer record memo' n',
    logged.runFrom past memo n = (((answer, record), memo'), n') →
    ∃ answer', Agree related answer answer' ∧
      (limited.run.run memo).run n = ((answer', memo'), n')

variable {related : α → α → Prop} {related' : β → β → Prop}

theorem unlogs_pure {x y : α} (h : related x y) : Unlogs (pure x) (pure y) related := by
  intro past memo n answer record memo' n' hrun
  cases hrun
  exact ⟨.ok y, .ok h, rfl⟩

theorem Unlogs.bind {logged : Logged α} {limited : Limited α} {f : α → Logged β}
    {g : α → Limited β} (h : Unlogs logged limited related)
    (hf : ∀ x y, related x y → Unlogs (f x) (g y) related') :
    Unlogs (logged >>= f) (limited >>= g) related' := by
  intro past memo n answer record memo' n' hrun
  rcases hact : logged.runFrom past memo n with ⟨⟨⟨answer₁, record₁⟩, memo₁⟩, n₁⟩
  obtain ⟨answer₁', hagree, hlimited⟩ := h past memo n answer₁ record₁ memo₁ n₁ hact
  rw [runFrom_bind, hact] at hrun
  rw [Limited.run_bind, hlimited]
  cases hagree with
  | ok hxy => exact hf _ _ hxy record₁ memo₁ n₁ answer record memo' n' hrun
  | error e =>
    cases hrun
    exact ⟨.error e, .error e, rfl⟩

theorem unlogs_step (l : Limits) (p : Pattern) (c : Char) :
    Unlogs (step l p c) (l.step p c) fun r r' => r' = r := by
  intro past memo n answer record memo' n' hrun
  rw [runFrom_step] at hrun
  rw [l.run_step]
  rcases hderive : ((p.derive c).run memo).run n with ⟨⟨r, memo₁⟩, n₁⟩
  rw [hderive] at hrun
  cases hrun
  refine ⟨_, ?_, rfl⟩
  cases l.check r with
  | error e => exact .error e
  | ok _ => exact .ok rfl

/-- A logged action and the same one under limits are in step. -/
abbrev unlogging : Lockstep Unit (· = ·) Logged Limited where
  Related _ act limited related := Unlogs act limited (related ())
  pure := unlogs_pure
  bind h hf := h.bind fun x y hxy => hf () x y rfl hxy

theorem unlogging_steps (l : Limits) :
    unlogging.Steps (step l) l.step fun _ p p' => p' = p where
  related := by
    intro _ p p' h c
    rw [h]
    exact unlogs_step l p c
  mono h _ := h
  isFail_eq h := congrArg Pattern.isFail h
  captured_eq h := congrArg Pattern.captured h

end Logged

/-! ## Calls -/

namespace Matcher

/-- The call of a matcher, with a record. -/
def log (m : Matcher) (q : Call) : ((Except LimitError q.Answer × List Pattern) × Memo) × Nat :=
  (q.run (Logged.step m.limits) m.pattern).runFrom [] m.memo m.serial

/-- What a call steps to, in order. -/
def visits (m : Matcher) (q : Call) : List Pattern := (m.log q).1.1.2

theorem ask_eq_of_log {m : Matcher} {q : Call} {answer : Except LimitError q.Answer}
    {record : List Pattern} {memo : Memo} {n : Nat}
    (h : m.log q = (((answer, record), memo), n)) :
    m.ask q = (answer, { m with memo := memo, serial := n }) := by
  obtain ⟨answer', hagree, hlimited⟩ := (Logged.unlogging_steps m.limits).call (w := ())
    (rfl : m.pattern = m.pattern) q [] m.memo m.serial answer record memo n h
  rw [ask_eq_call]
  unfold call
  simp only [hlimited, hagree.eq]

end Matcher

end MarkedRegex
