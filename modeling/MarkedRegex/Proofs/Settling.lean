-- The law of settling. What a pattern holds for the empty text stays with its
-- settled form, and nothing else does: a settled form takes in no character,
-- is no larger than the pattern, and has nothing left to settle.
import MarkedRegex.Proofs.Reachable
import MarkedRegex.Proofs.Residual.Cases
import MarkedRegex.Proofs.Tree.Attributes

namespace MarkedRegex

/-! ## Sizes of what is built -/

theorem OfSet.size_eq {s : CharSet} {r : Pattern} (h : OfSet s r) : r.tree.size = 1 := by
  cases h <;> rfl

theorem OfNegatedSet.size_eq {s : CharSet} {r : Pattern} (h : OfNegatedSet s r) :
    r.tree.size = 1 := by
  cases h <;> rfl

section

variable {p q r : Pattern}

/-- A sequence has one node more than its parts, at most. To gather captures takes a node apart
for the one it adds. -/
theorem Sequenced.size_le (h : Sequenced p q r) : r.tree.size ≤ 1 + p.tree.size + q.tree.size := by
  cases h with
  | failLeft | failRight | emptyLeft | emptyRight => omega
  | settled | node =>
    simp only [Pattern.tree, Tree.size_sequence]
    omega

theorem Alternated.size_le (h : Alternated p q r) :
    r.tree.size ≤ 1 + p.tree.size + q.tree.size := by
  have hq := q.tree.size_pos
  cases h with
  | same | failLeft | failRight | anyLeft | anyRight => omega
  | sets hr =>
    rw [hr.size_eq]
    omega
  | negatedSets hr | setNegatedSet hr | negatedSetSet hr =>
    rw [hr.size_eq]
    omega
  | node => simp only [Pattern.tree, Tree.size_alternation, Nat.le_refl]

theorem Starred.size_le (h : Starred p r) : r.tree.size ≤ 1 + p.tree.size := by
  cases h with
  | star => omega
  | dropped => exact Nat.le_add_right 1 _
  | node => simp only [Pattern.tree, Tree.size_star, Nat.le_refl]

theorem Marked.size_le {name : String} {buffer : MarkBuffer} (h : Marked name buffer p r) :
    r.tree.size ≤ 1 + p.tree.size := by
  cases h with
  | fail => omega
  | node => simp only [Pattern.tree, Tree.size_mark, Nat.le_refl]

/-! ## Settled forms -/

namespace Settled

/-- A settled form is no larger. Each node is rebuilt from settled parts, or is gone. -/
theorem tree_size_le (h : Settled p r) : r.tree.size ≤ p.tree.size := by
  induction h with
  | @fail p => exact p.tree.size_pos
  | @empty p => exact p.tree.size_pos
  | kept => exact Nat.le_refl _
  | sequence _ _ _ _ _ hr iha ihb =>
    have hnode := hr.size_le
    simp only [Pattern.tree, Tree.size_sequence]
    omega
  | alternation _ _ _ _ _ hr iha ihb =>
    have hnode := hr.size_le
    simp only [Pattern.tree, Tree.size_alternation]
    omega
  | star _ _ _ hr ih =>
    have hnode := hr.size_le
    simp only [Pattern.tree, Tree.size_star]
    omega
  | mark _ _ _ hr ih =>
    have hnode := hr.size_le
    simp only [Pattern.tree, Tree.size_mark]
    omega

theorem size_le (h : Settled p r) : r.size ≤ p.size := by
  rw [Pattern.size_eq_tree, Pattern.size_eq_tree]
  exact min_le_min_right sizeCap h.tree_size_le

theorem captured_eq (h : Settled p r) : r.captured = p.captured := by
  rw [Pattern.captured_eq_meaning, Pattern.captured_eq_meaning, h.meaning]
  rfl

theorem nullable_eq (h : Settled p r) : r.nullable = p.nullable := by
  rw [Pattern.nullable_eq_isSome, Pattern.nullable_eq_isSome, h.meaning]
  rfl

/-- Where there are no empty matches, and only there, nothing is left. -/
theorem eq_fail_iff (h : Settled p r) (hp : p.Reduced) : r = .fail ↔ p.nullable = false := by
  rw [← h.nullable_eq]
  constructor
  · rintro rfl
    rfl
  · intro hn
    by_contra hf
    have hnullable := (h.reduced hp).nullable_of_settled (h.consumes hp) hf
    simp [hn] at hnullable

end Settled

/-- Settling takes a reduced pattern that takes in no character as it is. It fails, is empty, or
holds captures. -/
theorem Pattern.Reduced.settle_eq (h : p.Reduced) (hc : p.consumes = false) :
    p.settle = pure p := by
  by_cases hf : p = .fail
  · subst hf
    rfl
  · by_cases he : p = .empty
    · subst he
      rfl
    · have hpart : p.IsPart := ⟨h, hf, he⟩
      exact hpart.settle hc

end

/-! ## The law -/

/-- The settled form of a pattern holds the captures that the pattern holds, and takes in no
character: no derivative of it is left. It fails exactly if the pattern does not accept the empty
text, and is empty where it neither fails nor has marks. It is no larger than the pattern, and
settling it again gives the node itself and builds nothing. -/
theorem a_settled_form_holds_the_captures_and_takes_in_nothing {p : Pattern} (hp : Reachable p)
    (n : Nat) :
    let r := (p.settle.run n).1
    r.captured = p.captured ∧
    (r.consumes = false ∧ ∀ c m, (r.derivative c).run m = (.fail, m)) ∧
    (r = .fail ↔ p.nullable = false) ∧
    (r ≠ .fail → r.hasMarks = false → r = .empty) ∧
    r.size ≤ p.size ∧
    ∀ m, r.settle.run m = (r, m) := by
  intro r
  have hr : Settled p r := settled_of_gives (Build.gives_run _ n)
  have hreduced : r.Reduced := hr.reduced hp.reduced
  have hc : r.consumes = false := hr.consumes hp.reduced
  refine ⟨hr.captured_eq, ⟨hc, fun c m => ?_⟩, hr.eq_fail_iff hp.reduced, fun hf hm => ?_,
    hr.size_le, fun m => ?_⟩
  · rw [Pattern.derivative_eq_plainly, Pattern.plainly_of_not_consumes c hc]
    rfl
  · exact hreduced.eq_empty_of_settled hc hm hf
  · rw [hreduced.settle_eq hc]
    rfl

/-- A mark that has taken in `a`, then stars around marks, one of them in a choice that would rather
take in `b`: the first mark stays with its text, the stars stay around marks of nothing, and a part
without marks is gone. -/
theorem a_mark_with_text_and_a_star_of_marks_settle :
    let e := Expr.sequence (.mark "x" (.star .any))
      (.sequence (.star (.alternation (.char 'b') (.mark "y" .empty))) (.star (.char 'c')))
    let p := (((Expr.derivatives e ['a']).buildBehind []).run 0).1
    let r := (p.settle.run 12).1
    Reachable p ∧
      (r.captured = p.captured ∧
        (r.consumes = false ∧ ∀ c m, (r.derivative c).run m = (.fail, m)) ∧
        (r = .fail ↔ p.nullable = false) ∧
        (r ≠ .fail → r.hasMarks = false → r = .empty) ∧
        r.size ≤ p.size ∧ ∀ m, r.settle.run m = (r, m)) ∧
      p.captured = some (Captures.single "x" "a") ∧
      (p.size, r.size, r.kind) = (12, 6, .sequence) := by
  intro e p r
  have hp : Reachable p := Expr.reachable_of_buildBehind (Build.gives_run _ 0)
  exact ⟨hp, a_settled_form_holds_the_captures_and_takes_in_nothing hp 12, by decide +kernel,
    by decide +kernel⟩

end MarkedRegex
