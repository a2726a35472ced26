-- The reduced form that the constructors promise, and that settling and
-- derivatives keep. In a reduced pattern nothing is dead but the whole, so the
-- tests that matching prunes with are exact.
import MarkedRegex.Proofs.Residual.Invariant
import MarkedRegex.Proofs.Residual.Meaning

namespace MarkedRegex

open Computability

/-! ## Reduced form -/

/-- Patterns in which nothing is left to reduce. -/
inductive Pattern.Reduced : Pattern → Prop
  | empty : Reduced .empty
  | fail : Reduced .fail
  | any : Reduced .any
  | charSet (k : Nat) {s : CharSet} : s.isEmpty = false → Reduced (.charSet k s)
  | negatedSet (k : Nat) {s : CharSet} : s.isEmpty = false → Reduced (.negatedSet k s)
  | sequence (k : Nat) {p q : Pattern} : Reduced p → Reduced q → p ≠ .fail → p ≠ .empty →
      q ≠ .fail → q ≠ .empty → Reduced (.sequence k p q)
  | alternation (k : Nat) {p q : Pattern} : Reduced p → Reduced q → p ≠ .fail → q ≠ .fail →
      ¬(p = .empty ∧ q = .empty) → ¬(p.isSingle = true ∧ q.isSingle = true) →
      Reduced (.alternation k p q)
  | star (k : Nat) {p : Pattern} : Reduced p → p ≠ .fail → p ≠ .empty → (∀ i q, p ≠ .star i q) →
      p.hasMarks = true ∨ p.consumes = true → Reduced (.star k p)
  | mark (k : Nat) (name : String) (buffer : MarkBuffer) {p : Pattern} : Reduced p → p ≠ .fail →
      Reduced (.mark k name buffer p)

/-! ## Constructors give reduced patterns -/

section

variable {p q r : Pattern} {s : CharSet}

theorem OfSet.reduced (h : OfSet s r) : r.Reduced := by
  cases h with
  | fail => exact .fail
  | node k hs => exact .charSet k hs

theorem OfNegatedSet.reduced (h : OfNegatedSet s r) : r.Reduced := by
  cases h with
  | any => exact .any
  | node k hs => exact .negatedSet k hs

theorem Sequenced.reduced (h : Sequenced p q r) (hp : p.Reduced) (hq : q.Reduced) :
    r.Reduced := by
  cases h with
  | failLeft => exact .fail
  | failRight => exact .fail
  | emptyLeft => exact hq
  | emptyRight => exact hp
  | settled q₂ i j k hpf hpe _ _ =>
    cases hq with
    | sequence _ hq₁ hq₂ hf₁ he₁ hf₂ he₂ =>
      have hhead := Pattern.Reduced.sequence i hp hq₁ hpf hpe hf₁ he₁
      exact .sequence j hhead hq₂ (by simp) (by simp) hf₂ he₂
  | node k hpf hpe hqf hqe _ => exact .sequence k hp hq hpf hpe hqf hqe

theorem Alternated.reduced (h : Alternated p q r) (hp : p.Reduced) (hq : q.Reduced) :
    r.Reduced := by
  cases h with
  | same => exact hp
  | failLeft => exact hq
  | failRight => exact hp
  | anyLeft => exact .any
  | anyRight => exact .any
  | sets hr => exact hr.reduced
  | negatedSets hr => exact hr.reduced
  | setNegatedSet hr => exact hr.reduced
  | negatedSetSet hr => exact hr.reduced
  | node k hne hpf hqf hsingle =>
    have hempty : ¬(p = .empty ∧ q = .empty) := by
      rintro ⟨rfl, rfl⟩
      exact hne rfl
    exact .alternation k hp hq hpf hqf hempty hsingle

theorem Starred.reduced (h : Starred p r) (hp : p.Reduced) : r.Reduced := by
  cases h with
  | star => exact hp
  | dropped => exact .empty
  | node k hf he hs hlive => exact .star k hp hf he hs hlive

theorem Marked.reduced {name : String} {buffer : MarkBuffer} (h : Marked name buffer p r)
    (hp : p.Reduced) : r.Reduced := by
  cases h with
  | fail => exact .fail
  | node k hf => exact .mark k name buffer hp hf

end

/-! ## Steps keep reduced patterns reduced -/

theorem Pattern.Reduced.invariant : Invariant Pattern.Reduced where
  empty := .empty
  fail := .fail
  any := .any
  ofSet := OfSet.reduced
  ofNegatedSet := OfNegatedSet.reduced
  sequenceParts := fun h => by
    cases h with
    | sequence _ hp hq _ _ _ _ => exact ⟨hp, hq⟩
  alternationParts := fun h => by
    cases h with
    | alternation _ hp hq _ _ _ _ => exact ⟨hp, hq⟩
  starPart := fun h => by
    cases h with
    | star _ hp _ _ _ _ => exact hp
  markPart := fun h => by
    cases h with
    | mark _ _ _ hp _ => exact hp
  sequenced := Sequenced.reduced
  alternated := Alternated.reduced
  starred := Starred.reduced
  marked := Marked.reduced

theorem Settled.reduced {p r : Pattern} (h : Settled p r) (hp : p.Reduced) : r.Reduced :=
  Pattern.Reduced.invariant.settled h hp

theorem Residual.reduced {p r : Pattern} {c : Char} (h : Residual p c r) (hp : p.Reduced) :
    r.Reduced :=
  Pattern.Reduced.invariant.residual h hp

/-! ## Nothing but the whole is dead -/

/-- A set that is not empty has a member: the character of its first cut. -/
theorem CharSet.exists_contains {s : CharSet} (h : s.isEmpty = false) :
    ∃ c, s.contains c = true := by
  cases hcuts : s.cuts with
  | nil => simp [isEmpty, hcuts] at h
  | cons x rest =>
    have hlt : ∀ y ∈ rest, x < y := by
      have hinc := s.increasing
      rw [hcuts] at hinc
      exact (List.pairwise_cons.mp hinc).1
    have hinside : Cuts.inside false s.cuts x = true := by
      rw [hcuts]
      unfold Cuts.inside
      rw [if_neg (Nat.lt_irrefl x), Cuts.inside_of_lt hlt]
      rfl
    exact ⟨Char.ofNatAux x (s.scalar x hinside), hinside⟩

namespace Pattern.Reduced

/-- Some text of symbols matches a reduced pattern, unless it is failure itself. A negated set
takes in the symbol outside of every set. -/
theorem exists_accepted {p : Pattern} (h : p.Reduced) (hf : p ≠ .fail) :
    ∃ w, w ∈ p.meaning.accepts := by
  induction h with
  | empty => exact ⟨[], rfl⟩
  | fail => exact absurd rfl hf
  | any => exact ⟨[none], rfl⟩
  | charSet k hs =>
    obtain ⟨c, hc⟩ := CharSet.exists_contains hs
    exact ⟨[some c], Parse.mem_accepts_one.mpr ⟨some c, hc, rfl⟩⟩
  | negatedSet k hs => exact ⟨[none], rfl⟩
  | sequence k _ _ hpf _ hqf _ ihp ihq =>
    obtain ⟨u, hu⟩ := ihp hpf
    obtain ⟨v, hv⟩ := ihq hqf
    refine ⟨u ++ v, ?_⟩
    rw [meaning_sequence, Parse.accepts_sequence]
    exact Language.append_mem_mul hu hv
  | alternation k _ _ hpf _ _ _ ihp _ =>
    obtain ⟨u, hu⟩ := ihp hpf
    refine ⟨u, ?_⟩
    rw [meaning_alternation, Parse.accepts_alternation]
    exact Or.inl hu
  | star k _ _ _ _ _ _ =>
    refine ⟨[], ?_⟩
    rw [meaning_star, Parse.mem_accepts, Parse.star_nil]
    rfl
  | mark k name buffer _ hpf ih =>
    obtain ⟨u, hu⟩ := ih hpf
    refine ⟨u, ?_⟩
    rw [meaning_mark, Parse.accepts_mark]
    exact hu

/-- A reduced pattern is failure exactly if it matches nothing. -/
theorem isFail_iff {p : Pattern} (h : p.Reduced) : p.isFail = true ↔ p.meaning.accepts = 0 := by
  rw [Pattern.isFail_iff]
  constructor
  · rintro rfl
    exact Parse.accepts_fail
  · intro hdead
    by_contra hf
    obtain ⟨w, hw⟩ := h.exists_accepted hf
    rw [hdead] at hw
    exact Language.notMem_zero w hw

/-- What can take in a character does so in some text that matches. -/
theorem exists_nonempty {p : Pattern} (h : p.Reduced) (hc : p.consumes = true) :
    ∃ w ∈ p.meaning.accepts, w ≠ [] := by
  induction h with
  | empty => simp [consumes] at hc
  | fail => simp [consumes] at hc
  | any => exact ⟨[none], rfl, by simp⟩
  | charSet k hs =>
    obtain ⟨c, hc⟩ := CharSet.exists_contains hs
    exact ⟨[some c], Parse.mem_accepts_one.mpr ⟨some c, hc, rfl⟩, by simp⟩
  | negatedSet k hs => exact ⟨[none], rfl, by simp⟩
  | sequence k hp hq hpf _ hqf _ ihp ihq =>
    unfold consumes at hc
    rw [Bool.or_eq_true] at hc
    rw [meaning_sequence, Parse.accepts_sequence]
    rcases hc with hc | hc
    · obtain ⟨u, hu, hne⟩ := ihp hc
      obtain ⟨v, hv⟩ := hq.exists_accepted hqf
      exact ⟨u ++ v, Language.append_mem_mul hu hv, by simp [hne]⟩
    · obtain ⟨u, hu⟩ := hp.exists_accepted hpf
      obtain ⟨v, hv, hne⟩ := ihq hc
      exact ⟨u ++ v, Language.append_mem_mul hu hv, by simp [hne]⟩
  | alternation k _ _ _ _ _ _ ihp ihq =>
    unfold consumes at hc
    rw [Bool.or_eq_true] at hc
    rw [meaning_alternation, Parse.accepts_alternation]
    rcases hc with hc | hc
    · obtain ⟨u, hu, hne⟩ := ihp hc
      exact ⟨u, Or.inl hu, hne⟩
    · obtain ⟨u, hu, hne⟩ := ihq hc
      exact ⟨u, Or.inr hu, hne⟩
  | @star k p _ _ _ _ _ ih =>
    unfold consumes at hc
    obtain ⟨u, hu, hne⟩ := ih hc
    rw [meaning_star, Parse.accepts_star]
    have hround : p.meaning.accepts ≤ p.meaning.accepts∗ := le_kstar
    exact ⟨u, hround hu, hne⟩
  | mark k name buffer _ _ ih =>
    unfold consumes at hc
    rw [meaning_mark, Parse.accepts_mark]
    exact ih hc

/-- A reduced pattern consumes exactly if some text that is not empty matches it. -/
theorem consumes_iff {p : Pattern} (h : p.Reduced) :
    p.consumes = true ↔ ∃ w ∈ p.meaning.accepts, w ≠ [] := by
  constructor
  · exact h.exists_nonempty
  · rintro ⟨w, hw, hne⟩
    by_contra hc
    have honly := onlyEmpty_of_not_consumes (p := p) (by simpa using hc)
    cases w with
    | nil => exact hne rfl
    | cons x w =>
      rw [Parse.mem_accepts, honly x w] at hw
      cases hw

/-- Reduced patterns of one meaning are pruned alike. -/
theorem isFail_eq {p q : Pattern} (hp : p.Reduced) (hq : q.Reduced) (h : p.meaning = q.meaning) :
    p.isFail = q.isFail := by
  rw [Bool.eq_iff_iff, hp.isFail_iff, hq.isFail_iff, h]

theorem consumes_eq {p q : Pattern} (hp : p.Reduced) (hq : q.Reduced)
    (h : p.meaning = q.meaning) : p.consumes = q.consumes := by
  rw [Bool.eq_iff_iff, hp.consumes_iff, hq.consumes_iff, h]

end Pattern.Reduced

end MarkedRegex
