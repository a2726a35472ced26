-- Patterns with choices folded. A memory gives back nodes that are built anew
-- without one, so with it more choices are between a node and itself, and those
-- go away. The folded pattern means the same, and is no larger and no deeper.
import MarkedRegex.Proofs.Residual.Cases
import MarkedRegex.Proofs.Tree.Attributes

namespace MarkedRegex

namespace Pattern

/-! ## Standing for a settled tree -/

/-- The pattern can take the place of a tree, where no character is taken in. A star may only be
replaced by a star, for stars do not nest. -/
structure StandsFor (p : Pattern) (t : Tree) : Prop where
  settled : p.consumes = false
  meaning : p.meaning = t.meaning
  hasMarks : p.hasMarks = t.hasMarks
  size_le : p.tree.size ≤ t.size
  star : ∀ u, t = .star u → p.kind = .star

theorem standsFor_self {p : Pattern} (hc : p.consumes = false) : p.StandsFor p.tree where
  settled := hc
  meaning := rfl
  hasMarks := p.hasMarks_eq_tree
  size_le := Nat.le_refl _
  star := by
    intro u hu
    cases p with
    | star => rfl
    | _ => simp [tree] at hu

/-! ## Single characters -/

section

variable {p : Pattern} (h : p.isSingle = true)

include h

theorem consumes_of_isSingle : p.consumes = true := by
  cases p with
  | any | charSet | negatedSet => rfl
  | _ => cases h

theorem hasMarks_of_isSingle : p.hasMarks = false := by
  cases p with
  | any | charSet | negatedSet => rfl
  | _ => cases h

theorem size_of_isSingle : p.tree.size = 1 := by
  cases p with
  | any | charSet | negatedSet => rfl
  | _ => cases h

theorem depth_of_isSingle : p.depth = 1 := by
  cases p with
  | any | charSet | negatedSet => rfl
  | _ => cases h

end

end Pattern

/-! ## Folded patterns -/

/-- The second pattern is the first one with choices folded. Where no character is taken in, only
what it means counts; else the nodes are those of the first pattern, or one branch of a choice whose
branches fold to the same, and captures in front of what was in that branch go to those in front of
the choice. Each node, those for single characters apart, is folded to its partner wherever it
stands. -/
inductive Folds (partner : Pattern → Pattern) : Pattern → Pattern → Prop
  | single {p p' : Pattern} : p.isSingle = true → p'.isSingle = true → p'.meaning = p.meaning →
      Folds partner p p'
  | settled {p p' : Pattern} : p.consumes = false → p'.StandsFor p.tree → partner p = p' →
      Folds partner p p'
  | sequence {k k' : Nat} {p q p' q' : Pattern} : p.consumes = true ∨ q.consumes = true →
      Folds partner p p' → Folds partner q q' →
      partner (.sequence k p q) = .sequence k' p' q' →
      Folds partner (.sequence k p q) (.sequence k' p' q')
  /-- `s` holds the captures of `a`, and of `t` that stands in front of what `q` is folded to. -/
  | gathered {k j i : Nat} {a q s t r : Pattern} : a.consumes = false → q.consumes = true →
      Folds partner q (.sequence i t r) → (Pattern.sequence i t r).Reduced → t.consumes = false →
      s.StandsFor (.sequence a.tree t.tree) → partner (.sequence k a q) = .sequence j s r →
      Folds partner (.sequence k a q) (.sequence j s r)
  | alternation {k k' : Nat} {p q p' q' : Pattern} : p.consumes = true ∨ q.consumes = true →
      Folds partner p p' → Folds partner q q' →
      partner (.alternation k p q) = .alternation k' p' q' →
      Folds partner (.alternation k p q) (.alternation k' p' q')
  | folded {k : Nat} {p q r : Pattern} : p.consumes = true ∨ q.consumes = true →
      Folds partner p r → Folds partner q r → ¬(p.isSingle = true ∧ q.isSingle = true) →
      partner (.alternation k p q) = r → Folds partner (.alternation k p q) r
  | star {k k' : Nat} {p p' : Pattern} : p.consumes = true → Folds partner p p' →
      partner (.star k p) = .star k' p' → Folds partner (.star k p) (.star k' p')
  | mark {k k' : Nat} {name : String} {buffer : MarkBuffer} {p p' : Pattern} :
      p.consumes = true → Folds partner p p' →
      partner (.mark k name buffer p) = .mark k' name buffer p' →
      Folds partner (.mark k name buffer p) (.mark k' name buffer p')

namespace Folds

open Pattern (isSingle StandsFor)

variable {partner : Pattern → Pattern} {p p' : Pattern}

/-! ## What folding keeps -/

/-- Each node but those of single characters is folded to its partner. -/
theorem eq_partner (h : Folds partner p p') (hs : p.isSingle = false) : partner p = p' := by
  cases h with
  | single hp => simp [hs] at hp
  | settled _ _ heq | sequence _ _ _ heq | gathered _ _ _ _ _ _ heq | alternation _ _ _ heq
  | folded _ _ _ _ heq | star _ _ heq | mark _ _ heq => exact heq

theorem consumes (h : Folds partner p p') : p'.consumes = p.consumes := by
  induction h with
  | single hp hp' _ => rw [Pattern.consumes_of_isSingle hp, Pattern.consumes_of_isSingle hp']
  | settled hc hs _ => rw [hc, hs.settled]
  | sequence _ _ _ _ ihp ihq => rw [Pattern.consumes, ihp, ihq, Pattern.consumes]
  | gathered ha _ _ _ ht hs _ ihq =>
    rw [Pattern.consumes, ht, Bool.false_or] at ihq
    rw [Pattern.consumes, hs.settled, ihq, Pattern.consumes, ha]
  | alternation _ _ _ _ ihp ihq => rw [Pattern.consumes, ihp, ihq, Pattern.consumes]
  | folded _ _ _ _ _ ihp ihq => rw [Pattern.consumes, ← ihp, ← ihq, Bool.or_self]
  | star _ _ _ ih => rw [Pattern.consumes, ih, Pattern.consumes]
  | mark _ _ _ ih => rw [Pattern.consumes, ih, Pattern.consumes]

theorem isSingle (h : Folds partner p p') : p'.isSingle = p.isSingle := by
  have hsettled : ∀ {q : Pattern}, q.consumes = false → q.isSingle = false := by
    intro q hq
    by_contra hs
    rw [Pattern.consumes_of_isSingle (by simpa using hs)] at hq
    cases hq
  induction h with
  | single hp hp' _ => rw [hp, hp']
  | settled hc hs _ => rw [hsettled hc, hsettled hs.settled]
  | sequence | gathered | alternation | star | mark => rfl
  | folded _ _ _ hsingle _ ihp ihq =>
    rw [← ihp, ← ihq, and_self, Bool.not_eq_true] at hsingle
    exact hsingle

theorem meaning (h : Folds partner p p') : p'.meaning = p.meaning := by
  induction h with
  | single _ _ hm => exact hm
  | settled _ hs _ => exact hs.meaning
  | sequence _ _ _ _ ihp ihq => rw [Pattern.meaning_sequence, ihp, ihq]; rfl
  | @gathered k j i a q s t r ha _ _ _ ht hs _ ihq =>
    calc (Pattern.sequence j s r).meaning
        = (a.meaning.sequence t.meaning).sequence r.meaning := by
          rw [Pattern.meaning_sequence, hs.meaning]
          rfl
      _ = a.meaning.sequence (t.meaning.sequence r.meaning) :=
          Parse.sequence_assoc_of_onlyEmpty r.meaning (Pattern.onlyEmpty_of_not_consumes ha)
            (Pattern.onlyEmpty_of_not_consumes ht)
      _ = (Pattern.sequence k a q).meaning := by
          rw [Pattern.meaning_sequence, ← ihq, Pattern.meaning_sequence]
  | alternation _ _ _ _ ihp ihq => rw [Pattern.meaning_alternation, ihp, ihq]; rfl
  | folded _ _ _ _ _ ihp ihq =>
    rw [Pattern.meaning_alternation, ← ihp, ← ihq, Parse.alternation_self]
  | star _ _ _ ih => rw [Pattern.meaning_star, ih]; rfl
  | mark _ _ _ ih => rw [Pattern.meaning_mark, ih]; rfl

theorem nullable (h : Folds partner p p') : p'.nullable = p.nullable := by
  rw [Pattern.nullable_eq_isSome, Pattern.nullable_eq_isSome, h.meaning]

theorem hasMarks (h : Folds partner p p') : p'.hasMarks = p.hasMarks := by
  induction h with
  | single hp hp' _ => rw [Pattern.hasMarks_of_isSingle hp, Pattern.hasMarks_of_isSingle hp']
  | settled _ hs _ => rw [hs.hasMarks, Pattern.hasMarks_eq_tree]
  | sequence _ _ _ _ ihp ihq => rw [Pattern.hasMarks, ihp, ihq, Pattern.hasMarks]
  | gathered _ _ _ _ _ hs _ ihq =>
    rw [Pattern.hasMarks] at ihq
    rw [Pattern.hasMarks, hs.hasMarks, Tree.hasMarks_sequence, ← Pattern.hasMarks_eq_tree,
      ← Pattern.hasMarks_eq_tree, Bool.or_assoc, ihq, Pattern.hasMarks]
  | alternation _ _ _ _ ihp ihq => rw [Pattern.hasMarks, ihp, ihq, Pattern.hasMarks]
  | folded _ _ _ _ _ ihp ihq => rw [Pattern.hasMarks, ← ihp, ← ihq, Bool.or_self]
  | star _ _ _ ih => rw [Pattern.hasMarks, ih, Pattern.hasMarks]
  | mark => rfl

/-- Where no character is taken in, one pattern stands for the other. -/
theorem standsFor (h : Folds partner p p') (hc : p.consumes = false) : p'.StandsFor p.tree := by
  cases h with
  | single hs => simp [Pattern.consumes_of_isSingle hs] at hc
  | settled _ hs _ => exact hs
  | sequence hor | alternation hor | folded hor =>
    rw [Pattern.consumes, Bool.or_eq_false_iff] at hc
    simp [hc.1, hc.2] at hor
  | gathered _ hq => simp [Pattern.consumes, hq] at hc
  | star hp | mark hp => simp [Pattern.consumes, hp] at hc

/-! ## What folding lowers -/

theorem size_le (h : Folds partner p p') : p'.tree.size ≤ p.tree.size := by
  induction h with
  | single hp hp' _ => rw [Pattern.size_of_isSingle hp, Pattern.size_of_isSingle hp']
  | settled _ hs _ => exact hs.size_le
  | sequence _ _ _ _ ihp ihq =>
    simp only [Pattern.tree, Tree.size_sequence]
    omega
  | gathered _ _ _ _ _ hs _ ihq =>
    have hle := hs.size_le
    simp only [Pattern.tree, Tree.size_sequence] at ihq hle ⊢
    omega
  | alternation _ _ _ _ ihp ihq =>
    simp only [Pattern.tree, Tree.size_alternation]
    omega
  | folded _ _ _ _ _ ihp ihq =>
    simp only [Pattern.tree, Tree.size_alternation]
    omega
  | star _ _ _ ih =>
    simp only [Pattern.tree, Tree.size_star]
    omega
  | mark _ _ _ ih =>
    simp only [Pattern.tree, Tree.size_mark]
    omega

/-- A fold is no deeper. What was in front of a branch is as deep in front of the choice. -/
theorem depth_le (h : Folds partner p p') : p'.depth ≤ p.depth := by
  have hsettled : ∀ {q : Pattern}, q.consumes = false → q.depth = 1 := by
    intro q hq
    rw [Pattern.depth_eq_tree]
    exact Tree.depth_of_not_consumes (by rw [← Pattern.consumes_eq_tree, hq])
  induction h with
  | single hp hp' _ => rw [Pattern.depth_of_isSingle hp, Pattern.depth_of_isSingle hp']
  | settled hc hs _ => rw [hsettled hc, hsettled hs.settled]
  | sequence _ hp hq _ ihp ihq =>
    rw [Pattern.depth, hp.consumes, hq.consumes, Pattern.depth]
    split <;> omega
  | gathered ha hq hfolds _ ht hs _ ihq =>
    have hr := hfolds.consumes
    rw [Pattern.consumes, ht, Bool.false_or, hq] at hr
    rw [Pattern.depth, hr, hsettled ht] at ihq
    rw [Pattern.depth, hr, hsettled hs.settled, Pattern.depth, hq]
    simp only [Bool.or_true, if_true] at ihq ⊢
    omega
  | alternation _ hp hq _ ihp ihq =>
    rw [Pattern.depth, hp.consumes, hq.consumes, Pattern.depth]
    split <;> omega
  | folded hc _ _ _ _ ihp ihq =>
    rw [Pattern.depth, if_pos (by simpa using hc)]
    omega
  | star _ hp _ ih =>
    rw [Pattern.depth, hp.consumes, Pattern.depth]
    split <;> omega
  | mark _ hp _ ih =>
    rw [Pattern.depth, hp.consumes, Pattern.depth]
    split <;> omega

/-! ## Which nodes are told apart -/

/-- What is folded to failure fails itself. -/
theorem eq_fail_iff (h : Folds partner p p') (hp : p.Reduced) (hp' : p'.Reduced) :
    p' = .fail ↔ p = .fail := by
  have hfail := hp'.isFail_eq hp h.meaning
  rw [Bool.eq_iff_iff, Pattern.isFail_iff, Pattern.isFail_iff] at hfail
  exact hfail

theorem eq_empty_iff (h : Folds partner p p') (hp : p.Reduced) (hp' : p'.Reduced) :
    p' = .empty ↔ p = .empty := by
  have hempty : ∀ {q q' : Pattern}, q'.Reduced → q'.consumes = q.consumes →
      q'.hasMarks = q.hasMarks → (q' = .fail ↔ q = .fail) → q = .empty → q' = .empty := by
    rintro q q' hq' hc hm hf rfl
    exact hq'.eq_empty_of_settled hc hm (fun hfail => nomatch hf.mp hfail)
  have hfail := h.eq_fail_iff hp hp'
  exact ⟨hempty hp h.consumes.symm h.hasMarks.symm hfail.symm,
    hempty hp' h.consumes h.hasMarks hfail⟩

/-! ## Pairs that stay -/

/-- More pairs leave those as they are that stand in a pattern already. -/
theorem of_agree {partner' : Pattern → Pattern} {n : Nat}
    (hagree : ∀ q, q.serialBound ≤ n → partner' q = partner q) (h : Folds partner p p')
    (hp : p.serialBound ≤ n) : Folds partner' p p' := by
  induction h with
  | single hs hs' hm => exact .single hs hs' hm
  | settled hc hs heq => exact .settled hc hs (by rw [hagree _ hp, heq])
  | sequence hc _ _ heq ihp ihq =>
    have heq' := (hagree _ hp).trans heq
    simp only [Pattern.serialBound, Nat.max_le] at hp
    exact .sequence hc (ihp hp.2.1) (ihq hp.2.2) heq'
  | gathered ha hq _ hr ht hs heq ihq =>
    have heq' := (hagree _ hp).trans heq
    simp only [Pattern.serialBound, Nat.max_le] at hp
    exact .gathered ha hq (ihq hp.2.2) hr ht hs heq'
  | alternation hc _ _ heq ihp ihq =>
    have heq' := (hagree _ hp).trans heq
    simp only [Pattern.serialBound, Nat.max_le] at hp
    exact .alternation hc (ihp hp.2.1) (ihq hp.2.2) heq'
  | folded hc _ _ hs heq ihp ihq =>
    have heq' := (hagree _ hp).trans heq
    simp only [Pattern.serialBound, Nat.max_le] at hp
    exact .folded hc (ihp hp.2.1) (ihq hp.2.2) hs heq'
  | star hc _ heq ih =>
    have heq' := (hagree _ hp).trans heq
    simp only [Pattern.serialBound, Nat.max_le] at hp
    exact .star hc (ih hp.2) heq'
  | mark hc _ heq ih =>
    have heq' := (hagree _ hp).trans heq
    simp only [Pattern.serialBound, Nat.max_le] at hp
    exact .mark hc (ih hp.2) heq'

/-- With each node as its own partner, a pattern is folded to itself. -/
theorem refl (p : Pattern) : Folds id p p := by
  induction p with
  | empty | fail => exact .settled rfl (Pattern.standsFor_self rfl) rfl
  | any | charSet | negatedSet => exact .single rfl rfl rfl
  | sequence k p q ihp ihq =>
    cases hc : (Pattern.sequence k p q).consumes with
    | false => exact .settled hc (Pattern.standsFor_self hc) rfl
    | true => exact .sequence (by simpa [Pattern.consumes] using hc) ihp ihq rfl
  | alternation k p q ihp ihq =>
    cases hc : (Pattern.alternation k p q).consumes with
    | false => exact .settled hc (Pattern.standsFor_self hc) rfl
    | true => exact .alternation (by simpa [Pattern.consumes] using hc) ihp ihq rfl
  | star k p ih =>
    cases hc : p.consumes with
    | false => exact .settled hc (Pattern.standsFor_self hc) rfl
    | true => exact .star hc ih rfl
  | mark k name buffer p ih =>
    cases hc : p.consumes with
    | false => exact .settled hc (Pattern.standsFor_self hc) rfl
    | true => exact .mark hc ih rfl

end Folds

end MarkedRegex
