-- Cases of the constructors that need no look into them: failure and the empty
-- pattern, the same node twice, single characters, and the case of one new node.
import MarkedRegex.Proofs.Reduced

namespace MarkedRegex

/-! ## What the constructors do -/

namespace Build

variable {p q : Pattern}

@[simp] theorem fail_sequence (q : Pattern) : sequence .fail q = pure .fail := by
  cases q <;> rfl

@[simp] theorem sequence_fail (p : Pattern) : sequence p .fail = pure .fail := by
  cases p <;> rfl

@[simp] theorem empty_sequence (q : Pattern) : sequence .empty q = pure q := by
  cases q <;> rfl

@[simp] theorem sequence_empty (p : Pattern) : sequence p .empty = pure p := by
  cases p <;> rfl

theorem sequence_gathers {k : Nat} {q₁ q₂ : Pattern} (hf : p ≠ .fail) (he : p ≠ .empty)
    (hc : p.consumes = false) (hc₁ : q₁.consumes = false) :
    sequence p (.sequence k q₁ q₂) =
      (do let settled ← node (.sequence · p q₁); node (.sequence · settled q₂)) := by
  cases p <;> simp_all [sequence]

theorem sequence_eq_node (hpf : p ≠ .fail) (hpe : p ≠ .empty) (hqf : q ≠ .fail) (hqe : q ≠ .empty)
    (h : ∀ k q₁ q₂, q = .sequence k q₁ q₂ → p.consumes = true ∨ q₁.consumes = true) :
    sequence p q = node (.sequence · p q) := by
  fun_cases sequence p q <;> simp_all

@[simp] theorem alternation_self (p : Pattern) : alternation p p = pure p := by
  unfold alternation
  rw [if_pos rfl]

@[simp] theorem fail_alternation (q : Pattern) : alternation .fail q = pure q := by
  unfold alternation
  split
  · next heq => rw [heq]
  · rfl

@[simp] theorem alternation_fail (p : Pattern) : alternation p .fail = pure p := by
  unfold alternation
  split
  · rfl
  · cases p with
    | fail => contradiction
    | _ => rfl

theorem alternation_eq_node (hne : p ≠ q) (hpf : p ≠ .fail) (hqf : q ≠ .fail)
    (hs : ¬(p.isSingle = true ∧ q.isSingle = true)) :
    alternation p q = node (.alternation · p q) := by
  fun_cases alternation p q <;> simp_all [Pattern.isSingle]

theorem star_eq_node (hf : p ≠ .fail) (he : p ≠ .empty) (hs : ∀ k q, p ≠ .star k q)
    (h : p.hasMarks = true ∨ p.consumes = true) : star p = node (.star · p) := by
  fun_cases star p <;> simp_all

theorem markHolding_eq_node {name : String} {buffer : MarkBuffer} (hf : p ≠ .fail) :
    markHolding name buffer p = node (.mark · name buffer p) :=
  if_neg fun h => hf (Pattern.isFail_iff.mp h)

/-! ## Serial numbers of choices -/

/-- What sets of characters come out as has no serial number but the next one. -/
theorem below_ofSet (s : CharSet) (n : Nat) :
    n ≤ ((ofSet s).run n).2 ∧
      ((ofSet s).run n).1.serialBound ≤ ((ofSet s).run n).2 := by
  unfold ofSet
  split
  · exact ⟨Nat.le_refl n, Nat.zero_le n⟩
  · exact ⟨Nat.le_succ n, Nat.le_refl (n + 1)⟩

theorem below_ofNegatedSet (s : CharSet) (n : Nat) :
    n ≤ ((ofNegatedSet s).run n).2 ∧
      ((ofNegatedSet s).run n).1.serialBound ≤ ((ofNegatedSet s).run n).2 := by
  unfold ofNegatedSet
  split
  · exact ⟨Nat.le_refl n, Nat.zero_le n⟩
  · exact ⟨Nat.le_succ n, Nat.le_refl (n + 1)⟩

/-- What a choice comes out as is built when the next serial number is given. -/
theorem below_alternation {n : Nat} (hp : p.serialBound ≤ n) (hq : q.serialBound ≤ n) :
    n ≤ ((alternation p q).run n).2 ∧
      ((alternation p q).run n).1.serialBound ≤ ((alternation p q).run n).2 := by
  fun_cases alternation p q with
  | case1 => exact ⟨Nat.le_refl n, hp⟩
  | case2 => exact ⟨Nat.le_refl n, hq⟩
  | case3 => exact ⟨Nat.le_refl n, hp⟩
  | case4 | case5 | case6 | case7 => exact ⟨Nat.le_refl n, Nat.zero_le n⟩
  | case8 => exact below_ofSet _ n
  | case9 | case10 | case11 => exact below_ofNegatedSet _ n
  | case12 =>
    refine ⟨Nat.le_succ n, ?_⟩
    show max (n + 1) (max p.serialBound q.serialBound) ≤ n + 1
    omega

end Build

/-! ## What they come out as -/

theorem Sequenced.eq_fail_left {q r : Pattern} (h : Sequenced .fail q r) : r = .fail := by
  cases h with
  | failLeft | failRight => rfl
  | emptyRight hf | settled _ _ _ _ hf | node _ hf => exact absurd rfl hf

theorem Sequenced.eq_fail_right {p r : Pattern} (h : Sequenced p .fail r) : r = .fail := by
  cases h with
  | failLeft | failRight | emptyLeft => rfl
  | node _ _ _ hf => exact absurd rfl hf

namespace Alternated

variable {p q r : Pattern}

theorem isSingle (h : Alternated p q r) (hp : p.isSingle = true)
    (hq : q.isSingle = true) (hf : r ≠ .fail) : r.isSingle = true := by
  have hset : ∀ {s : CharSet}, OfSet s r → r.isSingle = true := by
    rintro s (_ | _)
    · exact absurd rfl hf
    · rfl
  have hnegated : ∀ {s : CharSet}, OfNegatedSet s r → r.isSingle = true := by
    rintro s (_ | _) <;> rfl
  cases h with
  | same => exact hp
  | failLeft => cases hp
  | failRight => cases hq
  | anyLeft | anyRight => rfl
  | sets hr => exact hset hr
  | negatedSets hr | setNegatedSet hr | negatedSetSet hr => exact hnegated hr
  | node k _ _ _ hs => exact absurd ⟨hp, hq⟩ hs

/-- A choice of which a branch matches does not fail. -/
theorem ne_fail (h : Alternated p q r) (hp : p.Reduced) (hf : p ≠ .fail) :
    r ≠ .fail := by
  rintro rfl
  obtain ⟨x, hx⟩ := hp.exists_accepted hf
  have hr : x ∈ Pattern.fail.meaning.accepts := by
    rw [h.meaning, Parse.accepts_alternation]
    exact Or.inl hx
  rw [Pattern.meaning_fail, Parse.accepts_fail] at hr
  exact Language.notMem_zero x hr

/-- A choice that is no choice between single characters is the same twice, or one node. -/
theorem eq_or_node (h : Alternated p q r) (hpf : p ≠ .fail) (hqf : q ≠ .fail)
    (hs : ¬(p.isSingle = true ∧ q.isSingle = true)) :
    (p = q ∧ r = p) ∨ (p ≠ q ∧ ∃ k, r = .alternation k p q) := by
  cases h with
  | same => exact Or.inl ⟨rfl, rfl⟩
  | failLeft => exact absurd rfl hpf
  | failRight => exact absurd rfl hqf
  | anyLeft hq => exact absurd ⟨rfl, hq⟩ hs
  | anyRight hp => exact absurd ⟨hp, rfl⟩ hs
  | sets | negatedSets | setNegatedSet | negatedSetSet => exact absurd ⟨rfl, rfl⟩ hs
  | node k hne => exact Or.inr ⟨hne, k, rfl⟩

theorem eq_right (h : Alternated .fail q r) : r = q := by
  cases h with
  | same | failLeft => rfl
  | failRight hf => exact absurd rfl hf
  | anyRight hs => cases hs
  | node _ _ hf => exact absurd rfl hf

theorem eq_left (h : Alternated p .fail r) : r = p := by
  cases h with
  | same | failRight => rfl
  | failLeft hf => exact absurd rfl hf
  | anyLeft hs => cases hs
  | node _ _ _ hf => exact absurd rfl hf

end Alternated

end MarkedRegex
