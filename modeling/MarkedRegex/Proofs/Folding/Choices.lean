-- Choices, stars and marks of folded patterns. The same node has one partner, so
-- a choice that goes away without a memory goes away with one, and where only
-- the partners are the same, the choice is folded.
import MarkedRegex.Proofs.Folding.Pairing

namespace MarkedRegex

/-! ## Choices in step -/

namespace Pairing

variable {w : Pairing} {p q p' q' r' : Pattern}

/-- What a choice without characters is folded to stands for it. -/
theorem standsFor_of_alternated (hp : p'.StandsFor p.tree) (hq : q'.StandsFor q.tree)
    (h : (p' = q' ∧ r' = p') ∨ ∃ k, r' = .alternation k p' q')
    (hmeaning : r'.meaning = p'.meaning.alternation q'.meaning) :
    r'.StandsFor (.alternation p.tree q.tree) where
  settled := by
    rcases h with ⟨-, rfl⟩ | ⟨k, rfl⟩
    · exact hp.settled
    · rw [Pattern.consumes, hp.settled, hq.settled, Bool.or_self]
  meaning := by rw [hmeaning, hp.meaning, hq.meaning]; rfl
  hasMarks := by
    rw [Tree.hasMarks_alternation, ← hp.hasMarks, ← hq.hasMarks]
    rcases h with ⟨rfl, rfl⟩ | ⟨k, rfl⟩
    · rw [Bool.or_self]
    · rfl
  size_le := by
    have hpl := hp.size_le
    have hql := hq.size_le
    rw [Tree.size_alternation]
    rcases h with ⟨-, rfl⟩ | ⟨k, rfl⟩
    · omega
    · rw [Pattern.tree, Tree.size_alternation]
      omega
  star := by simp

/-- Single characters are put together in both runs. Of other branches, the same node has one
partner, and a choice between two is a choice between their partners or is folded to one. -/
theorem gives_alternation (hp : w.Pairs p p') (hq : w.Pairs q q') (h : Alternated p' q' r') :
    w.Gives (Build.alternation p q) r' := by
  have hr' : r'.Reduced := h.reduced hp.reduced hq.reduced
  have hpb := hp.holds.below
  have hqb := hq.holds.below
  have hps := hp.folds.isSingle
  have hqs := hq.folds.isSingle
  by_cases hpf : p = .fail
  · obtain rfl := hp.eq_fail_iff.mpr hpf
    rw [hpf, Build.fail_alternation, h.eq_right]
    exact gives_pure hq
  by_cases hqf : q = .fail
  · obtain rfl := hq.eq_fail_iff.mpr hqf
    rw [hqf, Build.alternation_fail, h.eq_left]
    exact gives_pure hp
  have hpf' : p' ≠ .fail := mt hp.eq_fail_iff.mp hpf
  have hqf' : q' ≠ .fail := mt hq.eq_fail_iff.mp hqf
  by_cases hsingle : p.isSingle = true ∧ q.isSingle = true
  · have hr := Build.alternated_of_gives (Build.gives_run (Build.alternation p q) w.next)
    obtain ⟨hle, hbelow⟩ := Build.below_alternation hpb hqb
    have hrf := hr.ne_fail hp.holds.reduced hpf
    have hrf' := h.ne_fail hp.reduced hpf'
    refine ⟨{ w with next := ((Build.alternation p q).run w.next).2 }, ⟨hle, fun _ _ => rfl⟩, rfl,
      ⟨hbelow, hr.reduced hp.holds.reduced hq.holds.reduced⟩, hr', .single ?_ ?_ ?_⟩
    · exact hr.isSingle hsingle.1 hsingle.2 hrf
    · exact h.isSingle (hps.trans hsingle.1) (hqs.trans hsingle.2) hrf'
    · rw [h.meaning, hr.meaning, hp.folds.meaning, hq.folds.meaning]
  have hcases := h.eq_or_node hpf' hqf' (by rwa [hps, hqs])
  by_cases hne : p = q
  · subst hne
    have hps : p.isSingle = false := by simpa using hsingle
    have hpartner : p' = q' := by rw [← hp.folds.eq_partner hps, hq.folds.eq_partner hps]
    rw [Build.alternation_self]
    rcases hcases with ⟨-, rfl⟩ | ⟨hne', -⟩
    · exact gives_pure hp
    · exact absurd hpartner hne'
  rw [Build.alternation_eq_node hne hpf hqf hsingle]
  have hr := (Alternated.node w.next hne hpf hqf hsingle).reduced hp.holds.reduced hq.holds.reduced
  refine gives_node ?_ hr hr' fun partner hagree heq => ?_
  · simp only [Pattern.serialBound]
    omega
  have hpa := hp.folds.of_agree hagree hpb
  have hqa := hq.folds.of_agree hagree hqb
  by_cases hor : p.consumes = true ∨ q.consumes = true
  · rcases hcases with ⟨rfl, rfl⟩ | ⟨-, k, rfl⟩
    · exact .folded hor hpa hqa hsingle heq
    · exact .alternation hor hpa hqa heq
  · obtain ⟨hpc, hqc⟩ : p.consumes = false ∧ q.consumes = false := by simpa using hor
    refine .settled (by simp [Pattern.consumes, hpc, hqc]) ?_ heq
    exact standsFor_of_alternated (hp.folds.standsFor hpc) (hq.folds.standsFor hqc)
      (hcases.imp_right And.right) h.meaning

/-! ## Stars and marks -/

/-- A star of captures comes out as a star, and stands for one. -/
theorem standsFor_of_starred (hp : p'.StandsFor p.tree) (hm : p'.hasMarks = true)
    (h : Starred p' r') : r'.StandsFor (.star p.tree) := by
  have hmeaning : r'.meaning = (Tree.star p.tree).meaning := by
    rw [h.meaning, hp.meaning]
    rfl
  have hmarks : p'.hasMarks = (Tree.star p.tree).hasMarks := by rw [hp.hasMarks, Tree.hasMarks_star]
  have hle := hp.size_le
  cases h with
  | star k i =>
    refine ⟨hp.settled, hmeaning, hmarks, ?_, fun _ _ => rfl⟩
    rw [Tree.size_star]
    omega
  | dropped hm' => simp [hm] at hm'
  | node k =>
    refine ⟨hp.settled, hmeaning, hmarks, ?_, fun _ _ => rfl⟩
    rw [Pattern.tree, Tree.size_star, Tree.size_star]
    omega

/-- A star of captures is built when a pattern is settled, and is a star in both runs. Where nothing
is held there are no rounds, and both drop it. -/
theorem gives_star (hp : w.Pairs p p') (hc : p.consumes = false) (h : Starred p' r') :
    w.Gives (Build.star p) r' := by
  have hr' : r'.Reduced := h.reduced hp.reduced
  have hpb := hp.holds.below
  have hps := hp.folds.standsFor hc
  have hmarks : p'.hasMarks = p.hasMarks := hp.folds.hasMarks
  cases hm : p.hasMarks with
  | false =>
    have hdropped : r' = .empty := by
      cases h with
      | star k i =>
        cases hp.reduced with
        | star _ _ _ _ _ hlive =>
          have hconsumes := hps.settled
          rw [Pattern.hasMarks, hm] at hmarks
          rw [Pattern.consumes] at hconsumes
          simp [hmarks, hconsumes] at hlive
      | dropped => rfl
      | node _ _ _ _ hlive => simp [hmarks, hm, hps.settled] at hlive
    have hbuild : Build.star p = pure .empty := by
      by_cases hf : p = .fail
      · rw [hf]
        rfl
      · rw [hp.holds.reduced.eq_empty_of_settled hc hm hf]
        rfl
    rw [hbuild, hdropped]
    exact gives_pure w.pairs_empty
  | true =>
    have hmarks' : p'.hasMarks = true := hmarks.trans hm
    by_cases hform : ∃ k i, p = .star k i
    · obtain ⟨k, i, rfl⟩ := hform
      have hsame : r' = p' := by
        cases h with
        | star => rfl
        | dropped hm' => simp [hmarks'] at hm'
        | node _ _ _ hs =>
          have hkind := hps.star _ rfl
          cases p' with
          | star k' i' => exact absurd rfl (hs k' i')
          | _ => cases hkind
      rw [hsame]
      exact gives_pure hp
    · have hf : p ≠ .fail := by rintro rfl; cases hm
      have he : p ≠ .empty := by rintro rfl; cases hm
      have hs : ∀ k i, p ≠ .star k i := fun k i heq => hform ⟨k, i, heq⟩
      have hbuild : Build.star p = Build.node (.star · p) := by
        fun_cases Build.star p <;> simp_all
      have hr := Pattern.Reduced.star w.next hp.holds.reduced hf he hs (Or.inl hm)
      rw [hbuild]
      refine gives_settled ?_ hr hr' hc (standsFor_of_starred hps hmarks' h)
      simp only [Pattern.serialBound]
      omega

theorem gives_mark {name : String} {buffer : MarkBuffer} (hp : w.Pairs p p')
    (h : Marked name buffer p' r') : w.Gives (Build.markHolding name buffer p) r' := by
  have hr' : r'.Reduced := h.reduced hp.reduced
  have hpb := hp.holds.below
  cases h with
  | fail =>
    rw [hp.eq_fail_iff.mp rfl]
    exact gives_pure w.pairs_fail
  | node k hf' =>
    have hf : p ≠ .fail := mt hp.eq_fail_iff.mpr hf'
    have hbuild : Build.markHolding name buffer p = Build.node (.mark · name buffer p) := by
      unfold Build.markHolding
      rw [if_neg (mt Pattern.isFail_iff.mp hf)]
    rw [hbuild]
    refine gives_node ?_ (.mark _ name buffer hp.holds.reduced hf) hr' fun partner hagree heq => ?_
    · simp only [Pattern.serialBound]
      omega
    have hpa := hp.folds.of_agree hagree hpb
    cases hc : p.consumes with
    | true => exact .mark hc hpa heq
    | false =>
      have hs := hp.folds.standsFor hc
      refine .settled hc ⟨hs.settled, ?_, rfl, ?_, by simp [Pattern.tree]⟩ heq
      · rw [Pattern.meaning_mark, hs.meaning]
        rfl
      · have hle := hs.size_le
        simp only [Pattern.tree, Tree.size_mark]
        omega

end Pairing

end MarkedRegex
