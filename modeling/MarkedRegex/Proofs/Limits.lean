-- The law of memories under limits: a memory never makes a limit pass that is
-- kept without one. What is left of a pattern with a memory is, character by
-- character, no larger and no deeper than what is left of it without.
import MarkedRegex.Proofs.Folding.Runs
import MarkedRegex.Proofs.Matcher
import MarkedRegex.Proofs.Memo.History

namespace MarkedRegex

/-! ## Residuals over a text -/

/-- What can be left of a pattern after each character of a text. -/
inductive Trail : Pattern → List Char → List Pattern → Prop
  | nil (p : Pattern) : Trail p [] []
  | cons {p q : Pattern} {c : Char} {s : List Char} {rs : List Pattern} : Residual p c q →
      Trail q s rs → Trail p (c :: s) (q :: rs)

theorem Pattern.steps_trail (p : Pattern) (s : List Char) :
    (p.steps s).Ensures fun steps => Trail p s (steps.map (·.1)) := by
  induction s generalizing p with
  | nil => exact Derive.ensures_pure (.nil p)
  | cons c s ih =>
    refine (p.derive_ensures c).bind fun r hr => ?_
    refine Derive.ensures_get.bind fun memo _ => ?_
    exact (ih r).bind fun rest hrest => Derive.ensures_pure (.cons hr hrest)

/-- What is left with a memory is no larger and no deeper than what is left without. -/
theorem Pairing.forall₂_trail {w : Pairing} {p p' : Pattern} {s : List Char} {rs' : List Pattern}
    (hp : w.Pairs p p') (h : Trail p' s rs') :
    List.Forall₂ (fun r' r => r'.size ≤ r.size ∧ r'.depth ≤ r.depth) rs'
      ((p.trail s).run w.next).1 := by
  induction h generalizing w p with
  | nil => exact .nil
  | @cons p' q' c s rs' hq _ ih =>
    obtain ⟨w', _, hnext, hpairs⟩ := gives_plainly hp hq
    have hrun : ((p.trail (c :: s)).run w.next).1 =
        ((p.plainly c).run w.next).1 ::
          ((((p.plainly c).run w.next).1.trail s).run w'.next).1 := by
      rw [← hnext]
      rfl
    rw [hrun]
    exact .cons ⟨hpairs.size_le, hpairs.folds.depth_le⟩ (ih hpairs)

/-! ## The law -/

namespace Matcher

theorem ofPattern_ask (p : Pattern) (limits : Limits) (q : Call) :
    ((ofPattern p limits).ask q).1 =
      (((q.run limits.step p).run.run limits.memo).run p.serialBound).1.1 := by
  rw [ask_eq_call]
  rfl

/-- Where a fresh matcher that remembers nothing answers a question, one that remembers answers it
alike under the same limits, whatever its capacity is. For after each character of a text, what is
left of a pattern behind any history of a memory is no larger and no deeper than without one. -/
theorem a_memory_passes_no_limit_that_is_kept_without_one {p : Pattern} (hp : Reachable p)
    (limits : Limits) (capacity : Nat) :
    (∀ (q : Call) (v : q.Answer),
      ((ofPattern p { limits with remember := false }).ask q).1 = .ok v →
      ((ofPattern p { limits with remember := true, capacity }).ask q).1 = .ok v) ∧
    ∀ (history : List Request) (s : List Char) (m n : Nat), p.serialBound ≤ n →
      List.Forall₂ (fun kept plain => kept.1.size ≤ plain.1.size ∧ kept.1.depth ≤ plain.1.depth)
        (((p.steps s).behind capacity history).run m).1 (((p.steps s).run' .off).run n).1 := by
  have hreduced := hp.reduced
  constructor
  · intro q v hv
    have hplain : ((ofPattern p { limits with remember := false }).ask q).1 =
        (((q.run limits.step p).run.run .off).run p.serialBound).1.1 := ofPattern_ask p _ q
    have hkept : ((ofPattern p { limits with remember := true, capacity }).ask q).1 =
        (((q.run limits.step p).run.run (.ofCapacity capacity)).run p.serialBound).1.1 :=
      ofPattern_ask p _ q
    have hpairs := Pairing.pairs_start hreduced (Nat.le_refl p.serialBound)
    have hsound := Memo.sound_ofCapacity capacity
    rw [hplain] at hv
    rcases hrun : ((q.run limits.step p).run.run .off).run p.serialBound with ⟨⟨answer, off⟩, next⟩
    rw [hrun] at hv
    obtain rfl : answer = .ok v := hv
    obtain ⟨_, _, _, _, y, _, _, hanswer, _, rfl⟩ :=
      q.follows limits hpairs _ p.serialBound hsound v off next hrun
    rw [hkept, hanswer]
  · intro history s m n hn
    have hpairs := Pairing.pairs_start hreduced hn
    have htrail := (p.steps_trail s).behind
      (Build.gives_run ((p.steps s).behind capacity history) m)
    have hsizes := Pairing.forall₂_trail hpairs htrail
    have hplain : (((p.steps s).run' .off).run n).1 =
        ((p.trail s).run n).1.map fun next => (next, Memo.off) := by
      rw [(p.steps_builds s).eq]
      rfl
    rw [hplain, List.forall₂_map_right_iff]
    rwa [List.forall₂_map_left_iff] at hsizes

/-- Two branches whose residuals are built apart without a memory and are one node with it: seven
nodes are enough without a memory, and with one the limit of six is kept as well. -/
theorem a_choice_that_a_memory_folds_stays_smaller :
    let tail := Expr.mark "x" (.star .any)
    let e := Expr.alternation (.sequence (.optional (.char 'b')) (.shared 0)) (.shared 0)
    let p := ((e.buildBehind [tail]).run 0).1
    let plain := fun size => ofPattern p { maxSize := some size, remember := false }
    let kept := fun size => ofPattern p { maxSize := some size, remember := true, capacity := 8 }
    Reachable p ∧
      ((plain 7).matchWhole ['a', 'c']).1 = .ok (some (Captures.single "x" "ac")) ∧
      ((kept 7).ask (.matchWhole ['a', 'c'])).1 = .ok (some (Captures.single "x" "ac")) ∧
      ((plain 6).matchWhole ['a', 'c']).1 = .error (.tooLarge 7 6) ∧
      ((kept 6).matchWhole ['a', 'c']).1 = .ok (some (Captures.single "x" "ac")) := by
  intro tail e p plain kept
  have hp : Reachable p := Expr.reachable_of_buildBehind (Build.gives_run _ 0)
  have hplain : ((plain 7).ask (.matchWhole ['a', 'c'])).1 =
      .ok (some (Captures.single "x" "ac")) := by decide +kernel
  have hlaw := a_memory_passes_no_limit_that_is_kept_without_one hp { maxSize := some 7 } 8
  exact ⟨hp, hplain, hlaw.1 (.matchWhole ['a', 'c']) _ hplain, by decide +kernel, by decide +kernel⟩

end Matcher

end MarkedRegex
