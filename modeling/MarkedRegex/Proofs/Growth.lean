-- The law of growth: a step makes at most the square of the nodes, and at most
-- twice the levels. So a pattern that limits accept bounds what is left of it,
-- which is built before they can refuse it.
import MarkedRegex.Limits
import MarkedRegex.Proofs.Levels
import MarkedRegex.Proofs.Settling
import Mathlib.Tactic.Ring

namespace MarkedRegex

section

variable {p q r : Pattern} {c : Char}

/-! ## Sizes -/

/-- A square has room for the squares of two parts, each part once more, and three nodes. -/
theorem add_squares_le {a b : Nat} (ha : 0 < a) (hb : 0 < b) :
    3 + a + b + a ^ 2 + b ^ 2 ≤ (1 + a + b) ^ 2 := by
  have hab : 0 < a * b := Nat.mul_pos ha hb
  have hsquare : (1 + a + b) ^ 2 = 1 + 2 * a + 2 * b + 2 * (a * b) + a ^ 2 + b ^ 2 := by ring
  omega

theorem add_square_le {a : Nat} (ha : 0 < a) : 2 + a + a ^ 2 ≤ (1 + a) ^ 2 := by
  have hsquare : (1 + a) ^ 2 = 1 + 2 * a + a ^ 2 := by ring
  omega

/-- A step squares the number of nodes at most. -/
theorem Residual.tree_size_le (h : Residual p c r) : r.tree.size ≤ p.tree.size ^ 2 := by
  induction h with
  | @dead p => exact Nat.one_le_pow _ _ p.tree.size_pos
  | any => exact Nat.le_refl 1
  | charSet => split <;> exact Nat.le_refl 1
  | negatedSet => split <;> exact Nat.le_refl 1
  | @sequence k p q a r c _ _ _ hr ih =>
    have hnode := hr.size_le
    have hsquare := add_squares_le p.tree.size_pos q.tree.size_pos
    simp only [Pattern.tree, Tree.size_sequence]
    omega
  | @sequenceLeft k p q a r c _ _ _ hr _ ih _ =>
    have hnode := hr.size_le
    have hsquare := add_squares_le p.tree.size_pos q.tree.size_pos
    simp only [Pattern.tree, Tree.size_sequence]
    omega
  | @sequenceBoth k p q a head tail e rest r c _ _ _ hhead _ _ he hrest hr ih iht =>
    have hnode := hr.size_le
    have hhead := hhead.size_le
    have hrest := hrest.size_le
    have he := he.tree_size_le
    have hsquare := add_squares_le p.tree.size_pos q.tree.size_pos
    simp only [Pattern.tree, Tree.size_sequence]
    omega
  | @alternation k p q a b r c _ _ _ hr iha ihb =>
    have hnode := hr.size_le
    have hsquare := add_squares_le p.tree.size_pos q.tree.size_pos
    simp only [Pattern.tree, Tree.size_alternation]
    omega
  | @star k p a r c _ _ hr ih =>
    have hnode := hr.size_le
    have hsquare := add_square_le p.tree.size_pos
    simp only [Pattern.tree, Tree.size_star] at hnode ⊢
    omega
  | @mark k name buffer p a r c _ _ hr ih =>
    have hnode := hr.size_le
    have hsquare := add_square_le p.tree.size_pos
    simp only [Pattern.tree, Tree.size_mark]
    omega

/-- The cap does not show: where a size has reached it, so has its square. -/
theorem Residual.size_le (h : Residual p c r) : r.size ≤ p.size ^ 2 := by
  have hnodes := h.tree_size_le
  rw [Pattern.size_eq_tree, Pattern.size_eq_tree]
  simp only [capped]
  rcases Nat.le_total p.tree.size sizeCap with hp | hp
  · rw [Nat.min_eq_left hp]
    exact (Nat.min_le_left _ _).trans hnodes
  · rw [Nat.min_eq_right hp]
    have hcap : sizeCap ≤ sizeCap ^ 2 := Nat.le_self_pow (by decide) sizeCap
    exact (Nat.min_le_right _ _).trans hcap

/-! ## Depths -/

namespace Pattern

theorem depth_of_not_consumes (h : p.consumes = false) : p.depth = 1 := by
  rw [depth_eq_tree]
  rw [consumes_eq_tree] at h
  exact Tree.depth_of_not_consumes h

theorem depth_sequence (hc : (Pattern.sequence k p q).consumes = true) :
    (Pattern.sequence k p q).depth = max p.depth q.depth + 1 := if_pos hc

theorem depth_alternation (hc : (Pattern.alternation k p q).consumes = true) :
    (Pattern.alternation k p q).depth = max p.depth q.depth + 1 := if_pos hc

theorem depth_star (hc : (Pattern.star k p).consumes = true) :
    (Pattern.star k p).depth = p.depth + 1 := if_pos hc

theorem depth_mark (hc : (Pattern.mark k name buffer p).consumes = true) :
    (Pattern.mark k name buffer p).depth = p.depth + 1 := if_pos hc

theorem depth_sequence_le (k : Nat) (p q : Pattern) :
    (Pattern.sequence k p q).depth ≤ max p.depth q.depth + 1 := by
  rw [depth]
  split <;> omega

theorem depth_alternation_le (k : Nat) (p q : Pattern) :
    (Pattern.alternation k p q).depth ≤ max p.depth q.depth + 1 := by
  rw [depth]
  split <;> omega

theorem depth_star_le (k : Nat) (p : Pattern) : (Pattern.star k p).depth ≤ p.depth + 1 := by
  rw [depth]
  split <;> omega

theorem depth_mark_le (k : Nat) (name : String) (buffer : MarkBuffer) (p : Pattern) :
    (Pattern.mark k name buffer p).depth ≤ p.depth + 1 := by
  rw [depth]
  split <;> omega

end Pattern

theorem OfSet.depth_eq {s : CharSet} (h : OfSet s r) : r.depth = 1 := by
  cases h <;> rfl

theorem OfNegatedSet.depth_eq {s : CharSet} (h : OfNegatedSet s r) : r.depth = 1 := by
  cases h <;> rfl

/-- A sequence is one level more. Parts that gather are one level together, as the first one was. -/
theorem Sequenced.depth_le (h : Sequenced p q r) : r.depth ≤ max p.depth q.depth + 1 := by
  cases h with
  | failLeft | failRight => exact Nat.le_add_left 1 _
  | emptyLeft | emptyRight => omega
  | @settled _ q₁ q₂ i j k _ _ hp hq₁ =>
    have hdepth : (Pattern.sequence j (.sequence i p q₁) q₂).depth =
        (Pattern.sequence k q₁ q₂).depth := by
      simp [Pattern.depth, Pattern.consumes, hp, hq₁, Pattern.depth_of_not_consumes hq₁]
    omega
  | node k => exact Pattern.depth_sequence_le k p q

theorem Alternated.depth_le (h : Alternated p q r) : r.depth ≤ max p.depth q.depth + 1 := by
  cases h with
  | same | failLeft | failRight | anyLeft | anyRight => omega
  | sets hr => exact hr.depth_eq.le.trans (Nat.le_add_left 1 _)
  | negatedSets hr | setNegatedSet hr | negatedSetSet hr =>
    exact hr.depth_eq.le.trans (Nat.le_add_left 1 _)
  | node k => exact Pattern.depth_alternation_le k p q

theorem Marked.depth_le {name : String} {buffer : MarkBuffer} (h : Marked name buffer p r) :
    r.depth ≤ p.depth + 1 := by
  cases h with
  | fail => exact Nat.le_add_left 1 _
  | node k => exact Pattern.depth_mark_le k name buffer p

/-- A step doubles the depth at most, for the settled form in front of a tail is one level. -/
theorem Residual.depth_le (h : Residual p c r) (hp : p.Reduced) : r.depth ≤ 2 * p.depth := by
  have hparts := Pattern.Reduced.invariant
  induction h with
  | dead hc =>
    rw [Pattern.depth_of_not_consumes hc]
    exact Nat.le_succ 1
  | any => exact Nat.le_succ 1
  | charSet => split <;> exact Nat.le_succ 1
  | negatedSet => split <;> exact Nat.le_succ 1
  | sequence hc _ _ hr ih =>
    have hleft := ih (hparts.sequenceParts hp).1
    have hnode := hr.depth_le
    rw [Pattern.depth_sequence hc]
    omega
  | sequenceLeft hc _ _ hr _ ih _ =>
    have hleft := ih (hparts.sequenceParts hp).1
    have hnode := hr.depth_le
    rw [Pattern.depth_sequence hc]
    omega
  | @sequenceBoth _ _ q _ _ _ _ _ _ _ hc _ _ hhead _ _ he hrest hr iha ihtail =>
    obtain ⟨hp, hq⟩ := hparts.sequenceParts hp
    have hleft := iha hp
    have hright := ihtail hq
    have hsettled := Pattern.depth_of_not_consumes (he.consumes hp)
    have hpos := q.depth_pos
    have hhead := hhead.depth_le
    have hrest := hrest.depth_le
    have hnode := hr.depth_le
    rw [Pattern.depth_sequence hc]
    omega
  | alternation hc _ _ hr iha ihb =>
    obtain ⟨hp, hq⟩ := hparts.alternationParts hp
    have hleft := iha hp
    have hright := ihb hq
    have hnode := hr.depth_le
    rw [Pattern.depth_alternation hc]
    omega
  | star hc _ hr ih =>
    have hinner := ih (hparts.starPart hp)
    have hnode := hr.depth_le
    rw [Pattern.depth_star hc] at hnode ⊢
    omega
  | mark hc _ hr ih =>
    have hinner := ih (hparts.markPart hp)
    have hnode := hr.depth_le
    rw [Pattern.depth_mark hc]
    omega

end

/-! ## The law -/

/-- What is left of a pattern after a character has no more nodes than the square of the size, and
is no more than twice as deep, whatever memory it comes from. So limits that accept a pattern bound
what is built before they can refuse it. -/
theorem a_step_squares_the_size_and_doubles_the_depth_at_most {p r : Pattern} {c : Char}
    (hp : Reachable p) (hr : p.Leaves c r) :
    (r.size ≤ p.size ^ 2 ∧ r.depth ≤ 2 * p.depth) ∧
    ∀ l : Limits, l.check p = .ok () →
      (∀ k ∈ l.maxSize, r.size ≤ k ^ 2) ∧ ∀ k ∈ l.maxDepth, r.depth ≤ 2 * k := by
  have hsize := hr.residual.size_le
  have hdepth := hr.residual.depth_le hp.reduced
  refine ⟨⟨hsize, hdepth⟩, fun l hl => ?_⟩
  obtain ⟨hmaxSize, hmaxDepth⟩ := Limits.check_eq_ok_iff.mp hl
  constructor
  · intro k hk
    exact hsize.trans (Nat.pow_le_pow_left (hmaxSize k hk) 2)
  · intro k hk
    exact hdepth.trans (Nat.mul_le_mul_left 2 (hmaxDepth k hk))

/-- Marks under a star in front of a mark, one character on: what a memory that has been asked
before gives for the next character is over the limits that just accept the pattern, and below the
square of the one and twice the other. -/
theorem captures_in_front_of_a_mark_outgrow_a_limit_within_the_bounds :
    let e := Expr.sequence (.star (.mark "x" .any)) (.mark "y" (.oneOrMore .any))
    let p := (((Expr.derivatives e ['a']).buildBehind []).run 0).1
    let r := (((p.derive 'b').behind 8 [.derive p 'b']).run 80).1
    let l : Limits := { maxSize := some 16, maxDepth := some 6 }
    (Reachable p ∧ p.Leaves 'b' r ∧ l.check p = .ok ()) ∧
      (r.size ≤ p.size ^ 2 ∧ r.depth ≤ 2 * p.depth) ∧
      (r.size ≤ 16 ^ 2 ∧ r.depth ≤ 2 * 6) ∧
      l.check r = .error (.tooLarge 26 16) ∧ r.depth = 7 := by
  intro e p r l
  have hp : Reachable p := Expr.reachable_of_buildBehind (Build.gives_run _ 0)
  have hr : p.Leaves 'b' r := .remembered 8 [.derive p 'b'] (Build.gives_run _ 80)
  have hl : l.check p = .ok () := by decide +kernel
  obtain ⟨hstep, hlimits⟩ := a_step_squares_the_size_and_doubles_the_depth_at_most hp hr
  obtain ⟨hsize, hdepth⟩ := hlimits l hl
  exact ⟨⟨hp, hr, hl⟩, hstep, ⟨hsize 16 rfl, hdepth 6 rfl⟩, by decide +kernel,
    by decide +kernel⟩

end MarkedRegex
