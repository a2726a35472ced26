-- Sequences that could still gather. Constructors look no deeper than the head
-- of the right part, so captures that gather may be loose among themselves, but
-- what still takes in characters never has loose captures in front.
import MarkedRegex.Proofs.Canonical

namespace MarkedRegex

namespace Pattern

/-! ## Loose sequences -/

/-- Whether two parts that take in nothing stand in front of a third, and have not gone into a
sequence of their own. -/
def isLoose : Pattern → Bool
  | .sequence _ p (.sequence _ q _) => !p.consumes && !q.consumes
  | _ => false

theorem isLoose_sequence {k i : Nat} {p q₁ q₂ : Pattern} :
    (Pattern.sequence k p (.sequence i q₁ q₂)).isLoose = (!p.consumes && !q₁.consumes) := rfl

/-- What the constructor asks for where it does not gather. -/
theorem isLoose_eq_false_iff {k : Nat} {p q : Pattern} :
    (Pattern.sequence k p q).isLoose = false ↔
      ∀ i q₁ q₂, q = .sequence i q₁ q₂ → p.consumes = true ∨ q₁.consumes = true := by
  constructor
  · rintro h i q₁ q₂ rfl
    rwa [isLoose_sequence, Bool.and_eq_false_iff, Bool.not_eq_false', Bool.not_eq_false'] at h
  · intro h
    cases q with
    | sequence i q₁ q₂ =>
      rw [isLoose_sequence, Bool.and_eq_false_iff, Bool.not_eq_false', Bool.not_eq_false']
      exact h i q₁ q₂ rfl
    | _ => rfl

/-- What is loose takes in nothing, at every node. -/
def Leans (p : Pattern) : Prop := ∀ q ∈ p.nodes, q.isLoose = true → q.consumes = false

theorem leans_of_isLeaf {p : Pattern} (h : p.isLeaf = true) : p.Leans := by
  refine (forall_nodes_leaf h).mpr fun hloose => ?_
  cases p with
  | sequence => cases h
  | _ => cases hloose

end Pattern

section

variable {p q r : Pattern}

theorem OfSet.isLeaf {s : CharSet} (h : OfSet s r) : r.isLeaf = true := by
  cases h <;> rfl

theorem OfNegatedSet.isLeaf {s : CharSet} (h : OfNegatedSet s r) : r.isLeaf = true := by
  cases h <;> rfl

/-- Where two parts gather, what is left behind them is loose only if it was loose before. -/
theorem Sequenced.leans (h : Sequenced p q r) (hp : p.Leans) (hq : q.Leans) : r.Leans := by
  cases h with
  | failLeft | failRight => exact Pattern.leans_of_isLeaf rfl
  | emptyLeft => exact hq
  | emptyRight => exact hp
  | @settled p q₁ q₂ i j k _ _ hc hc₁ =>
    obtain ⟨hwhole, hq₁, hq₂⟩ := Pattern.forall_nodes_sequence.mp hq
    have hgathered : (Pattern.sequence i p q₁).consumes = false := by
      rw [Pattern.consumes, hc, hc₁, Bool.or_false]
    have hhead : (Pattern.sequence i p q₁).Leans :=
      Pattern.forall_nodes_sequence.mpr ⟨fun _ => hgathered, hp, hq₁⟩
    refine Pattern.forall_nodes_sequence.mpr ⟨fun hloose => ?_, hhead, hq₂⟩
    have hbefore : (Pattern.sequence k q₁ q₂).isLoose = true := by
      cases q₂ with
      | sequence => rwa [Pattern.isLoose_sequence, hgathered, ← hc₁] at hloose
      | _ => cases hloose
    have hrest := hwhole hbefore
    rw [Pattern.consumes, hc₁] at hrest
    rw [Pattern.consumes, hgathered, hrest]
  | node k _ _ _ _ h =>
    refine Pattern.forall_nodes_sequence.mpr ⟨fun hloose => ?_, hp, hq⟩
    rw [Pattern.isLoose_eq_false_iff.mpr h] at hloose
    cases hloose

theorem Alternated.leans (h : Alternated p q r) (hp : p.Leans) (hq : q.Leans) : r.Leans := by
  cases h with
  | same => exact hp
  | failLeft => exact hq
  | failRight => exact hp
  | anyLeft | anyRight => exact Pattern.leans_of_isLeaf rfl
  | sets hr => exact Pattern.leans_of_isLeaf hr.isLeaf
  | negatedSets hr | setNegatedSet hr | negatedSetSet hr => exact Pattern.leans_of_isLeaf hr.isLeaf
  | node k => exact Pattern.forall_nodes_alternation.mpr ⟨nofun, hp, hq⟩

theorem Starred.leans (h : Starred p r) (hp : p.Leans) : r.Leans := by
  cases h with
  | star => exact hp
  | dropped => exact Pattern.leans_of_isLeaf rfl
  | node k => exact Pattern.forall_nodes_star.mpr ⟨nofun, hp⟩

theorem Marked.leans {name : String} {buffer : MarkBuffer} (h : Marked name buffer p r)
    (hp : p.Leans) : r.Leans := by
  cases h with
  | fail => exact hp
  | node k => exact Pattern.forall_nodes_mark.mpr ⟨nofun, hp⟩

end

namespace Pattern

theorem Leans.invariant : Invariant Leans where
  empty := leans_of_isLeaf rfl
  fail := leans_of_isLeaf rfl
  any := leans_of_isLeaf rfl
  ofSet := fun h => leans_of_isLeaf h.isLeaf
  ofNegatedSet := fun h => leans_of_isLeaf h.isLeaf
  sequenceParts := fun h => (forall_nodes_sequence.mp h).2
  alternationParts := fun h => (forall_nodes_alternation.mp h).2
  starPart := fun h => (forall_nodes_star.mp h).2
  markPart := fun h => (forall_nodes_mark.mp h).2
  sequenced := Sequenced.leans
  alternated := Alternated.leans
  starred := Starred.leans
  marked := Marked.leans

end Pattern

end MarkedRegex
