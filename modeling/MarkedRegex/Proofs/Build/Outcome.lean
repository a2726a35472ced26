-- What the constructors can give. Each constructor has its cases here once,
-- with what holds in each of them, so later proofs take a pattern that was
-- built apart without looking into the constructor again.
import MarkedRegex.Build

namespace MarkedRegex

/-! ## What an action gives -/

namespace Build

variable {α β : Type}

/-- What an action gives, from some serial number on. -/
def Gives (act : Build α) (x : α) : Prop := ∃ n, (act.run n).1 = x

theorem gives_run (act : Build α) (n : Nat) : act.Gives (act.run n).1 := ⟨n, rfl⟩

theorem gives_pure {x y : α} : Gives (pure x) y ↔ y = x := by
  constructor
  · rintro ⟨_, rfl⟩
    rfl
  · rintro rfl
    exact ⟨0, rfl⟩

theorem Gives.bind {act : Build α} {f : α → Build β} {y : β} (h : Gives (act >>= f) y) :
    ∃ x, act.Gives x ∧ (f x).Gives y := by
  obtain ⟨n, rfl⟩ := h
  exact ⟨(act.run n).1, gives_run act n, gives_run (f (act.run n).1) (act.run n).2⟩

theorem gives_node {form : Nat → Pattern} {p : Pattern} :
    (node form).Gives p ↔ ∃ n, p = form n := by
  constructor
  · rintro ⟨n, rfl⟩
    exact ⟨n, rfl⟩
  · rintro ⟨n, rfl⟩
    exact ⟨n, rfl⟩

end Build

namespace Pattern

/-- Whether a node stands for single characters. -/
def isSingle : Pattern → Bool
  | .any | .charSet .. | .negatedSet .. => true
  | .empty | .fail | .sequence .. | .alternation .. | .star .. | .mark .. => false

theorem isFail_iff {p : Pattern} : p.isFail = true ↔ p = .fail := by
  cases p <;> simp [isFail, kind]

end Pattern

/-! ## The cases of each constructor -/

/-- What a set of characters comes out as. -/
inductive OfSet (s : CharSet) : Pattern → Prop
  | fail : s.isEmpty = true → OfSet s .fail
  | node (k : Nat) : s.isEmpty = false → OfSet s (.charSet k s)

/-- What the characters outside a set come out as. -/
inductive OfNegatedSet (s : CharSet) : Pattern → Prop
  | any : s.isEmpty = true → OfNegatedSet s .any
  | node (k : Nat) : s.isEmpty = false → OfNegatedSet s (.negatedSet k s)

/-- What a sequence comes out as. -/
inductive Sequenced : Pattern → Pattern → Pattern → Prop
  | failLeft (q : Pattern) : Sequenced .fail q .fail
  | failRight {p : Pattern} : p ≠ .fail → Sequenced p .fail .fail
  | emptyLeft {q : Pattern} : q ≠ .fail → Sequenced .empty q q
  | emptyRight {p : Pattern} : p ≠ .fail → p ≠ .empty → Sequenced p .empty p
  /-- Two parts that only hold captures go into a sequence of their own. -/
  | settled {p q₁ : Pattern} (q₂ : Pattern) (i j k : Nat) : p ≠ .fail → p ≠ .empty →
      p.consumes = false → q₁.consumes = false →
      Sequenced p (.sequence k q₁ q₂) (.sequence j (.sequence i p q₁) q₂)
  | node {p q : Pattern} (k : Nat) : p ≠ .fail → p ≠ .empty → q ≠ .fail → q ≠ .empty →
      (∀ i q₁ q₂, q = .sequence i q₁ q₂ → p.consumes = true ∨ q₁.consumes = true) →
      Sequenced p q (.sequence k p q)

/-- What an alternation comes out as. -/
inductive Alternated : Pattern → Pattern → Pattern → Prop
  | same (p : Pattern) : Alternated p p p
  | failLeft {q : Pattern} : q ≠ .fail → Alternated .fail q q
  | failRight {p : Pattern} : p ≠ .fail → Alternated p .fail p
  | anyLeft {q : Pattern} : q.isSingle = true → Alternated .any q .any
  | anyRight {p : Pattern} : p.isSingle = true → Alternated p .any .any
  | sets {i j : Nat} {s t : CharSet} {r : Pattern} : OfSet (s.union t) r →
      Alternated (.charSet i s) (.charSet j t) r
  | negatedSets {i j : Nat} {s t : CharSet} {r : Pattern} : OfNegatedSet (s.intersection t) r →
      Alternated (.negatedSet i s) (.negatedSet j t) r
  | setNegatedSet {i j : Nat} {s t : CharSet} {r : Pattern} : OfNegatedSet (t.difference s) r →
      Alternated (.charSet i s) (.negatedSet j t) r
  | negatedSetSet {i j : Nat} {s t : CharSet} {r : Pattern} : OfNegatedSet (s.difference t) r →
      Alternated (.negatedSet i s) (.charSet j t) r
  | node {p q : Pattern} (k : Nat) : p ≠ q → p ≠ .fail → q ≠ .fail →
      ¬(p.isSingle = true ∧ q.isSingle = true) → Alternated p q (.alternation k p q)

/-- What a star comes out as. -/
inductive Starred : Pattern → Pattern → Prop
  | star (k : Nat) (p : Pattern) : Starred (.star k p) (.star k p)
  /-- No rounds are left of what takes in nothing and holds nothing. -/
  | dropped {p : Pattern} : p.hasMarks = false → p.consumes = false → Starred p .empty
  | node {p : Pattern} (k : Nat) : p ≠ .fail → p ≠ .empty → (∀ i q, p ≠ .star i q) →
      p.hasMarks = true ∨ p.consumes = true → Starred p (.star k p)

/-- What a mark comes out as. -/
inductive Marked (name : String) (buffer : MarkBuffer) : Pattern → Pattern → Prop
  | fail : Marked name buffer .fail .fail
  | node {p : Pattern} (k : Nat) : p ≠ .fail → Marked name buffer p (.mark k name buffer p)

/-! ## The constructors give one of their cases -/

namespace Build

variable {s : CharSet} {p q r : Pattern}

theorem ofSet_of_gives (h : (ofSet s).Gives r) : OfSet s r := by
  unfold ofSet at h
  split at h
  · next he =>
    rw [gives_pure.mp h]
    exact .fail he
  · next hne =>
    obtain ⟨k, rfl⟩ := gives_node.mp h
    exact .node k (by simpa using hne)

theorem ofNegatedSet_of_gives (h : (ofNegatedSet s).Gives r) : OfNegatedSet s r := by
  unfold ofNegatedSet at h
  split at h
  · next he =>
    rw [gives_pure.mp h]
    exact .any he
  · next hne =>
    obtain ⟨k, rfl⟩ := gives_node.mp h
    exact .node k (by simpa using hne)

theorem sequenced_of_gives (h : (sequence p q).Gives r) : Sequenced p q r := by
  revert h
  fun_cases sequence p q with
  | case1 =>
    intro h
    rw [gives_pure.mp h]
    exact .failLeft q
  | case2 _ hp =>
    intro h
    rw [gives_pure.mp h]
    exact .failRight hp
  | case3 _ hq =>
    intro h
    rw [gives_pure.mp h]
    exact .emptyLeft hq
  | case4 _ hf he =>
    intro h
    rw [gives_pure.mp h]
    exact .emptyRight hf he
  | case5 _ k q₁ q₂ hc hf he =>
    intro h
    rw [if_pos hc] at h
    obtain ⟨settled, hs, h⟩ := h.bind
    obtain ⟨i, rfl⟩ := gives_node.mp hs
    obtain ⟨j, rfl⟩ := gives_node.mp h
    simp only [Bool.and_eq_true, Bool.not_eq_true'] at hc
    exact .settled q₂ i j k hf he hc.1 hc.2
  | case6 _ k q₁ q₂ hc hf he =>
    intro h
    rw [if_neg hc] at h
    obtain ⟨j, rfl⟩ := gives_node.mp h
    refine .node j hf he (by simp) (by simp) ?_
    intro _ _ _ heq
    cases heq
    simpa [Classical.or_iff_not_imp_left] using hc
  | case7 _ _ hf he hqf hqe hqs =>
    intro h
    obtain ⟨k, rfl⟩ := gives_node.mp h
    exact .node k hf he hqf hqe fun i q₁ q₂ heq => absurd heq (hqs i q₁ q₂)

theorem alternated_of_gives (h : (alternation p q).Gives r) : Alternated p q r := by
  revert h
  fun_cases alternation p q with
  | case1 =>
    intro h
    rw [gives_pure.mp h]
    exact .same p
  | case2 _ hne =>
    intro h
    rw [gives_pure.mp h]
    exact .failLeft (Ne.symm hne)
  | case3 _ hf =>
    intro h
    rw [gives_pure.mp h]
    exact .failRight hf
  | case4 => intro h; rw [gives_pure.mp h]; exact .anyLeft rfl
  | case5 => intro h; rw [gives_pure.mp h]; exact .anyLeft rfl
  | case6 => intro h; rw [gives_pure.mp h]; exact .anyRight rfl
  | case7 => intro h; rw [gives_pure.mp h]; exact .anyRight rfl
  | case8 => exact fun h => .sets (ofSet_of_gives h)
  | case9 => exact fun h => .negatedSets (ofNegatedSet_of_gives h)
  | case10 => exact fun h => .setNegatedSet (ofNegatedSet_of_gives h)
  | case11 => exact fun h => .negatedSetSet (ofNegatedSet_of_gives h)
  | case12 _ _ hne hpf hqf h₁ h₂ h₃ h₄ h₅ h₆ h₇ h₈ =>
    intro h
    obtain ⟨k, rfl⟩ := gives_node.mp h
    refine .node k hne hpf hqf ?_
    rintro ⟨hp, hq⟩
    cases p with
    | any =>
      cases q with
      | any => exact hne rfl
      | charSet j t => exact h₁ j t rfl rfl
      | negatedSet j t => exact h₂ j t rfl rfl
      | _ => simp [Pattern.isSingle] at hq
    | charSet i s =>
      cases q with
      | any => exact h₃ i s rfl rfl
      | charSet j t => exact h₅ i s j t rfl rfl
      | negatedSet j t => exact h₇ i s j t rfl rfl
      | _ => simp [Pattern.isSingle] at hq
    | negatedSet i s =>
      cases q with
      | any => exact h₄ i s rfl rfl
      | charSet j t => exact h₈ i s j t rfl rfl
      | negatedSet j t => exact h₆ i s j t rfl rfl
      | _ => simp [Pattern.isSingle] at hq
    | _ => simp [Pattern.isSingle] at hp

theorem starred_of_gives (h : (star p).Gives r) : Starred p r := by
  revert h
  fun_cases star p with
  | case1 k p =>
    intro h
    rw [gives_pure.mp h]
    exact .star k p
  | case2 =>
    intro h
    rw [gives_pure.mp h]
    exact .dropped rfl rfl
  | case3 =>
    intro h
    rw [gives_pure.mp h]
    exact .dropped rfl rfl
  | case4 _ hc =>
    intro h
    rw [if_pos hc] at h
    rw [gives_pure.mp h]
    simp only [Bool.and_eq_true, Bool.not_eq_true'] at hc
    exact .dropped hc.1 hc.2
  | case5 _ hc hs he hf =>
    intro h
    rw [if_neg hc] at h
    obtain ⟨k, rfl⟩ := gives_node.mp h
    refine .node k hf he (fun i q => hs i q) ?_
    simpa [Classical.or_iff_not_imp_left] using hc

theorem marked_of_gives {name : String} {buffer : MarkBuffer}
    (h : (markHolding name buffer p).Gives r) : Marked name buffer p r := by
  unfold markHolding at h
  split at h
  · next hf =>
    obtain rfl := Pattern.isFail_iff.mp hf
    rw [gives_pure.mp h]
    exact .fail
  · next hf =>
    obtain ⟨k, rfl⟩ := gives_node.mp h
    exact .node k fun hp => hf (Pattern.isFail_iff.mpr hp)

end Build

end MarkedRegex
