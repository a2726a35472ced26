-- The law of matchers: an answer is the answer of the pattern. What was asked
-- before does not show in it, not even a question that was given up on, for
-- all that stays of one is a memory, and every step leaves that sound.
import MarkedRegex.Proofs.Calls

namespace MarkedRegex.Matcher

/-! ## Asking -/

/-- Asks a matcher a question. -/
def ask (m : Matcher) : (q : Call) → Except LimitError q.Answer × Matcher
  | .matchWhole text => m.matchWhole text
  | .matchGreedily text => m.matchGreedily text
  | .findFirst text => m.findFirst text
  | .findAll text => m.findAll text
  | .hasMatch text => m.hasMatch text

/-- The matcher after some questions, answered or not. -/
def askAll (m : Matcher) (earlier : List Call) : Matcher :=
  earlier.foldl (fun m q => (m.ask q).2) m

/-- A question is answered by its search, with the steps under limits. -/
theorem ask_eq_call (m : Matcher) (q : Call) : m.ask q = m.call fun step p => q.run step p := by
  cases q <;> rfl

/-! ## Between questions -/

/-- The matcher is for a pattern under limits, and has learned nothing wrong. -/
structure Serves (m : Matcher) (p : Pattern) (limits : Limits) : Prop where
  pattern : m.pattern = p
  limits : m.limits = limits
  memo : m.memo.Sound

theorem serves_ofPattern (p : Pattern) (limits : Limits) :
    (ofPattern p limits).Serves p limits where
  pattern := rfl
  limits := rfl
  memo := by
    show limits.memo.Sound
    unfold Limits.memo
    split
    · exact Memo.sound_ofCapacity _
    · exact Memo.sound_off

namespace Serves

variable {m : Matcher} {p : Pattern} {limits : Limits}

/-- A call gives what its search ensures, and leaves the matcher as good as before. -/
theorem call (h : m.Serves p limits) {α : Type}
    (act : (Pattern → Char → Limited Pattern) → Pattern → Limited α)
    {good : Except LimitError α → Prop} (hact : Derive.Ensures (act limits.step p).run good) :
    good (m.call act).1 ∧ (m.call act).2.Serves p limits := by
  obtain ⟨pattern, limits, memo, serial⟩ := m
  obtain ⟨rfl, rfl, hmemo⟩ := h
  obtain ⟨hgood, hsound⟩ := hact memo serial hmemo
  exact ⟨hgood, rfl, rfl, hsound⟩

/-- If a question is answered, it is answered right. -/
theorem ask (h : m.Serves p limits) (hp : p.Reduced) (q : Call) :
    (∀ x, (m.ask q).1 = .ok x → x = p.answer q) ∧ (m.ask q).2.Serves p limits := by
  have hrun : Limited.Ensures (q.run limits.step p) (· = p.answer q) :=
    q.run_ensures limits.step_steps hp
  rw [ask_eq_call]
  exact h.call (fun step p => q.run step p) hrun

theorem askAll (h : m.Serves p limits) (hp : p.Reduced) (earlier : List Call) :
    (m.askAll earlier).Serves p limits := by
  induction earlier generalizing m with
  | nil => exact h
  | cons q earlier ih => exact ih (h.ask hp q).2

/-- Where size and depth have no limit, every question is answered. -/
theorem ask_eq_ok (h : m.Serves p limits) (hp : p.Reduced) (hsize : limits.maxSize = none)
    (hdepth : limits.maxDepth = none) (q : Call) : (m.ask q).1 = .ok (p.answer q) := by
  have hrun : Limited.Answers (q.run limits.step p) (· = p.answer q) :=
    q.run_ensures (Limits.step_answers hsize hdepth) hp
  rw [ask_eq_call]
  obtain ⟨x, hx, rfl⟩ := (h.call (fun step p => q.run step p) hrun).1
  exact hx

end Serves

/-! ## The law -/

/-- If a matcher answers a question, it gives the answer of its pattern, whatever the limits are and
whatever was asked before, also where that ended in an error. Where size and depth have no limit, it
does answer. -/
theorem an_answer_is_that_of_the_pattern {p : Pattern} (hp : Reachable p) (limits : Limits)
    (earlier : List Call) (q : Call) :
    let answer := (((ofPattern p limits).askAll earlier).ask q).1
    (∀ x, answer = .ok x → x = p.answer q) ∧
      (limits.maxSize = none → limits.maxDepth = none → answer = .ok (p.answer q)) := by
  have hreduced := hp.reduced
  have hserves := (serves_ofPattern p limits).askAll hreduced earlier
  exact ⟨(hserves.ask hreduced q).1, fun hsize hdepth => hserves.ask_eq_ok hreduced hsize hdepth q⟩

/-- A star that may reach six nodes gives up on two characters, and what it learned of the first one
is still there when it is asked for that one alone. -/
theorem a_matcher_that_gave_up_still_answers :
    let p := (((Expr.star (.mark "x" .any)).buildBehind []).run 0).1
    let fresh := ofPattern p { maxSize := some 6 }
    let earlier := [Call.matchWhole ['a', 'b'], .findAll ['a', 'b']]
    Reachable p ∧
      (fresh.matchWhole ['a', 'b']).1 = .error (.tooLarge 9 6) ∧
      ((fresh.askAll earlier).ask (.matchWhole ['a'])).1 =
        .ok (some (Captures.single "x" "a")) ∧
      some (Captures.single "x" "a") = p.answer (.matchWhole ['a']) := by
  intro p fresh earlier
  have hp : Reachable p := Expr.reachable_of_buildBehind (Build.gives_run _ 0)
  have hanswer : ((fresh.askAll earlier).ask (.matchWhole ['a'])).1 =
      .ok (some (Captures.single "x" "a")) := by decide +kernel
  exact ⟨hp, by decide +kernel, hanswer,
    (an_answer_is_that_of_the_pattern hp { maxSize := some 6 } earlier (.matchWhole ['a'])).1 _
      hanswer⟩

end MarkedRegex.Matcher
