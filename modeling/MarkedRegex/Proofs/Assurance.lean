-- What can be promised of work in a monad. A search takes its steps in any
-- monad, so its laws are proved once, from rules that the ways of working
-- share: with a memory, and with a memory under limits that may refuse a step.
import MarkedRegex.Matcher
import MarkedRegex.Proofs.Residual

namespace MarkedRegex

/-! ## Promises -/

/-- A way to promise that what an action gives is of a kind. An action that only gives a value keeps
every promise that the value keeps, and actions behind one another pass promises on. -/
structure Assurance (m : Type → Type) [Monad m] where
  Ensures : {α : Type} → m α → (α → Prop) → Prop
  pure : ∀ {α : Type} {x : α} {good : α → Prop}, good x → Ensures (Pure.pure x) good
  bind : ∀ {α β : Type} {act : m α} {f : α → m β} {good : α → Prop} {good' : β → Prop},
    Ensures act good → (∀ x, good x → Ensures (f x) good') → Ensures (act >>= f) good'

namespace Assurance

variable {m : Type → Type} [Monad m] (A : Assurance m)

theorem imp [LawfulMonad m] {α : Type} {act : m α} {good good' : α → Prop}
    (h : A.Ensures act good) (himp : ∀ x, good x → good' x) : A.Ensures act good' := by
  rw [← bind_pure act]
  exact A.bind h fun x hx => A.pure (himp x hx)

/-- Each step gives what can be left of its pattern after its character. -/
def Steps (step : Pattern → Char → m Pattern) : Prop :=
  ∀ p c, A.Ensures (step p c) (Residual p c)

end Assurance

/-! ## With a memory -/

/-- From a sound memory on, and leaving one. -/
abbrev Derive.assurance : Assurance Derive where
  Ensures := Derive.Ensures
  pure := Derive.ensures_pure
  bind := Derive.Ensures.bind

theorem Pattern.derive_steps : Derive.assurance.Steps derive := derive_ensures

/-! ## Under limits -/

namespace Limited

variable {α β : Type}

/-- What goes on behind an action goes on with its answer, its memory and its serial number. -/
theorem run_bind (act : Limited α) (f : α → Limited β) (memo : Memo) (n : Nat) :
    ((act >>= f).run.run memo).run n =
      match (act.run.run memo).run n with
      | ((.ok x, memo'), n') => ((f x).run.run memo').run n'
      | ((.error e, memo'), n') => ((.error e, memo'), n') := by
  rw [ExceptT.run_bind, StateT.run_bind, StateT.run_bind]
  rcases (act.run.run memo).run n with ⟨⟨_ | x, memo'⟩, n'⟩ <;> rfl

/-- An answer, if there is one, is of a kind; the memory stays sound in any case. -/
def Ensures (act : Limited α) (good : α → Prop) : Prop :=
  Derive.Ensures act.run fun answer => ∀ x, answer = .ok x → good x

/-- There is an answer, and it is of a kind. -/
def Answers (act : Limited α) (good : α → Prop) : Prop :=
  Derive.Ensures act.run fun answer => ∃ x, answer = .ok x ∧ good x

theorem ensures_pure {x : α} {good : α → Prop} (h : good x) : Ensures (pure x) good := by
  refine Derive.ensures_pure fun y hy => ?_
  cases hy
  exact h

theorem answers_pure {x : α} {good : α → Prop} (h : good x) : Answers (pure x) good :=
  Derive.ensures_pure ⟨x, rfl, h⟩

theorem ensures_throw {e : LimitError} {good : α → Prop} : Ensures (throw e) good := by
  refine Derive.ensures_pure fun y hy => ?_
  cases hy

theorem ensures_lift {act : Derive α} {good : α → Prop} (h : act.Ensures good) :
    Ensures (liftM act) good := by
  unfold Ensures
  refine Derive.Ensures.bind h fun x hx => Derive.ensures_pure fun y hy => ?_
  cases hy
  exact hx

theorem answers_lift {act : Derive α} {good : α → Prop} (h : act.Ensures good) :
    Answers (liftM act) good :=
  Derive.Ensures.bind h fun x hx => Derive.ensures_pure ⟨x, rfl, hx⟩

/-- An error goes through, and the memory with all it has learned. -/
theorem Ensures.bind {act : Limited α} {f : α → Limited β} {good : α → Prop} {good' : β → Prop}
    (h : Ensures act good) (hf : ∀ x, good x → Ensures (f x) good') :
    Ensures (act >>= f) good' := by
  unfold Ensures
  rw [ExceptT.run_bind]
  refine Derive.Ensures.bind h fun answer hanswer => ?_
  cases answer with
  | ok x => exact hf x (hanswer x rfl)
  | error e => exact ensures_throw

theorem Answers.bind {act : Limited α} {f : α → Limited β} {good : α → Prop} {good' : β → Prop}
    (h : Answers act good) (hf : ∀ x, good x → Answers (f x) good') :
    Answers (act >>= f) good' := by
  unfold Answers
  rw [ExceptT.run_bind]
  refine Derive.Ensures.bind h fun answer hanswer => ?_
  obtain ⟨x, rfl, hx⟩ := hanswer
  exact hf x hx

/-- Answers are right, where there are any. -/
abbrev assurance : Assurance Limited where
  Ensures := Ensures
  pure := ensures_pure
  bind := Ensures.bind

/-- There are answers, and they are right. -/
abbrev certainty : Assurance Limited where
  Ensures := Answers
  pure := answers_pure
  bind := Answers.bind

end Limited

namespace Limits

theorem step_steps (l : Limits) : Limited.assurance.Steps l.step := by
  intro p c
  refine Limited.Ensures.bind (Limited.ensures_lift (p.derive_ensures c)) fun r hr => ?_
  split
  · exact Limited.ensures_pure hr
  · exact Limited.ensures_throw

/-- Where size and depth have no limit, no pattern is refused. -/
theorem check_eq_ok {l : Limits} (hsize : l.maxSize = none) (hdepth : l.maxDepth = none)
    (p : Pattern) : l.check p = .ok () := by
  rw [check_eq_ok_iff, hsize, hdepth]
  exact ⟨nofun, nofun⟩

theorem step_answers {l : Limits} (hsize : l.maxSize = none) (hdepth : l.maxDepth = none) :
    Limited.certainty.Steps l.step := by
  intro p c
  refine Limited.Answers.bind (Limited.answers_lift (p.derive_ensures c)) fun r hr => ?_
  rw [check_eq_ok hsize hdepth]
  exact Limited.answers_pure hr

end Limits

end MarkedRegex
