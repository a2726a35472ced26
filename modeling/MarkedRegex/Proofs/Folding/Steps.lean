-- Steps of folded patterns. What is left of a pattern after a character, worked
-- out without a memory, is folded to anything that can be left of its partner,
-- so over a text no residual with a memory is larger or deeper than without.
import MarkedRegex.Proofs.Folding.Choices
import MarkedRegex.Proofs.Folding.Sequences

namespace MarkedRegex

/-! ## Parts of pairs -/

namespace Pairing

variable {w : Pairing} {p p' r' : Pattern} {c : Char}

/-- A sequence is folded part by part, or has captures in front that were gathered with more. -/
theorem Pairs.of_sequence {k : Nat} {q : Pattern} (h : w.Pairs (.sequence k p q) r')
    (hc : (Pattern.sequence k p q).consumes = true) :
    (∃ k' p' q', r' = .sequence k' p' q' ∧ w.Pairs p p' ∧ w.Pairs q q') ∨
      ∃ i j s t r, r' = .sequence j s r ∧ w.Gathers p t s ∧ w.Pairs q (.sequence i t r) := by
  obtain ⟨hph, hqh⟩ := h.holds.sequence
  cases h.folds with
  | single hs => cases hs
  | settled hdead => simp [hdead] at hc
  | sequence _ hp hq =>
    obtain ⟨hpp, hqp⟩ := h.reduced.parts
    exact Or.inl ⟨_, _, _, rfl, ⟨hph, hpp.reduced, hp⟩, ⟨hqh, hqp.reduced, hq⟩⟩
  | gathered hpc _ hq hred htc hs =>
    have hgathers := Gathers.mk h.holds.reduced.parts.1 hph.below hpc hred.parts.1 htc
      h.reduced.parts.1 hs
    exact Or.inr ⟨_, _, _, _, _, rfl, hgathers, hqh, hred, hq⟩

theorem Pairs.of_alternation {k : Nat} {q : Pattern} (h : w.Pairs (.alternation k p q) r')
    (hc : (Pattern.alternation k p q).consumes = true) :
    (∃ k' p' q', r' = .alternation k' p' q' ∧ w.Pairs p p' ∧ w.Pairs q q') ∨
      (w.Pairs p r' ∧ w.Pairs q r') := by
  obtain ⟨hph, hqh⟩ := h.holds.alternation
  cases h.folds with
  | single hs => cases hs
  | settled hdead => simp [hdead] at hc
  | alternation _ hp hq =>
    cases h.reduced with
    | alternation _ hpr hqr =>
      exact Or.inl ⟨_, _, _, rfl, ⟨hph, hpr, hp⟩, ⟨hqh, hqr, hq⟩⟩
  | folded _ hp hq => exact Or.inr ⟨⟨hph, h.reduced, hp⟩, ⟨hqh, h.reduced, hq⟩⟩

theorem Pairs.of_star {k : Nat} (h : w.Pairs (.star k p) r') (hc : p.consumes = true) :
    ∃ k' p', r' = .star k' p' ∧ w.Pairs p p' := by
  cases h.folds with
  | single hs => cases hs
  | settled hdead => simp [Pattern.consumes, hc] at hdead
  | star _ hp =>
    cases h.reduced with
    | star _ hpr => exact ⟨_, _, rfl, h.holds.star, hpr, hp⟩

theorem Pairs.of_mark {k : Nat} {name : String} {buffer : MarkBuffer}
    (h : w.Pairs (.mark k name buffer p) r') (hc : p.consumes = true) :
    ∃ k' p', r' = .mark k' name buffer p' ∧ w.Pairs p p' := by
  cases h.folds with
  | single hs => cases hs
  | settled hdead => simp [Pattern.consumes, hc] at hdead
  | mark _ hp =>
    cases h.reduced with
    | mark _ _ _ hpr => exact ⟨_, _, rfl, h.holds.mark, hpr, hp⟩

/-! ## Settling in step -/

/-- What needs no rebuilding is settled alike on both sides. -/
theorem gives_settleWith {work : Build Pattern} (hp : w.Pairs p p') (h : Settled p' r')
    (hwork : p.nullable = true → p.hasMarks = true → p.consumes = true → w.Gives work r') :
    w.Gives (p.settleWith work) r' := by
  unfold Pattern.settleWith
  split
  · next hn =>
    rw [h.eq_fail (hp.folds.nullable.trans (by simpa using hn))]
    exact gives_pure w.pairs_fail
  · next hn =>
    rw [Bool.not_eq_true', Bool.not_eq_false] at hn
    have hn' := hp.folds.nullable.trans hn
    split
    · next hm =>
      rw [h.eq_empty hn' (hp.folds.hasMarks.trans (by simpa using hm))]
      exact gives_pure w.pairs_empty
    · next hm =>
      rw [Bool.not_eq_true', Bool.not_eq_false] at hm
      split
      · next hc =>
        rw [h.eq_self hn' (hp.folds.hasMarks.trans hm)
          (hp.folds.consumes.trans (by simpa using hc))]
        exact gives_pure hp
      · next hc => exact hwork hn hm (by simpa using hc)

/-- Settling goes part by part on both sides. Captures in front are settled already, and so are
those that they were gathered from, so there it is only the right part that is settled in step. -/
theorem gives_settle (hp : w.Pairs p p') (h : Settled p' r') : w.Gives p.settle r' := by
  induction p generalizing w p' r' with
  | empty | fail | any | charSet | negatedSet => exact gives_settleWith hp h nofun
  | sequence k p q ihp ihq =>
    refine gives_settleWith hp h fun hn hm hc => ?_
    have hn' := hp.folds.nullable.trans hn
    have hm' := hp.folds.hasMarks.trans hm
    have hc' := hp.folds.consumes.trans hc
    rcases hp.of_sequence hc with ⟨_, _, _, rfl, hx, hy⟩ | ⟨i, _, s, t, r, rfl, hgathers, hq⟩
    · obtain ⟨a, b, ha, hb, hr⟩ := h.of_sequence hn' hm' hc'
      refine (ihp hx ha).bind fun w₁ a hle₁ ha => ?_
      refine (ihq (hy.mono hle₁) hb).bind fun w₂ b hle₂ hb => ?_
      exact gives_sequence (ha.mono hle₂) hb hr
    · have hs := hgathers.isPart
      have hsc := hgathers.standsFor.settled
      have ht := hgathers.behind
      have htc := hgathers.settledBehind
      obtain ⟨s', b, hs', hb, hr⟩ := h.of_sequence hn' hm' hc'
      obtain rfl := hs'.eq_self (hs.nullable hsc) (hs.hasMarks hsc) hsc
      have hrest : Sequenced t b ((Build.sequence t b).run 0).1 :=
        Build.sequenced_of_gives (Build.gives_run _ 0)
      have hrc : r.consumes = true := by simpa [Pattern.consumes, hsc] using hc'
      rw [Pattern.nullable, Bool.and_eq_true] at hn'
      have hqs := Settled.sequence (k := i) (by simp [Pattern.nullable, ht.nullable htc, hn'.2])
        (by simp [Pattern.hasMarks, ht.hasMarks htc]) (by simp [Pattern.consumes, hrc])
        (ht.settled htc) hb hrest
      have hfront : p.settleBy (fun work => work) = pure p :=
        hgathers.front.settle hgathers.settled
      rw [hfront, pure_bind]
      refine (ihq hq hqs).bind fun w₁ y hle hy => ?_
      exact gives_gathered (hgathers.mono hle) (hb.reduced hp.reduced.parts.2.reduced) hy hrest hr
  | alternation k p q ihp ihq =>
    refine gives_settleWith hp h fun hn hm hc => ?_
    rcases hp.of_alternation hc with ⟨_, _, _, rfl, hx, hy⟩ | ⟨hx, hy⟩
    · obtain ⟨a, b, ha, hb, hr⟩ := h.of_alternation (hp.folds.nullable.trans hn)
        (hp.folds.hasMarks.trans hm) (hp.folds.consumes.trans hc)
      refine (ihp hx ha).bind fun w₁ a hle₁ ha => ?_
      refine (ihq (hy.mono hle₁) hb).bind fun w₂ b hle₂ hb => ?_
      exact gives_alternation (ha.mono hle₂) hb hr
    · refine (ihp hx h).bind fun w₁ a hle₁ ha => ?_
      refine (ihq (hy.mono hle₁) h).bind fun w₂ b hle₂ hb => ?_
      exact gives_alternation (ha.mono hle₂) hb (.same _)
  | star k p ih =>
    refine gives_settleWith hp h fun _ hm hc => ?_
    obtain ⟨_, _, rfl, hx⟩ := hp.of_star hc
    obtain ⟨a, ha, hr⟩ := h.of_star (hx.folds.hasMarks.trans hm) (hx.folds.consumes.trans hc)
    have hac := ha.consumes hx.reduced
    refine (ih hx ha).bind fun w₁ a hle ha => ?_
    exact gives_star ha (ha.folds.consumes.symm.trans hac) hr
  | mark k name buffer p ih =>
    refine gives_settleWith hp h fun hn _ hc => ?_
    obtain ⟨_, _, rfl, hx⟩ := hp.of_mark hc
    obtain ⟨a, ha, hr⟩ := h.of_mark (hx.folds.nullable.trans hn) (hx.folds.consumes.trans hc)
    exact (ih hx ha).bind fun w₁ a hle ha => gives_mark ha hr

/-! ## Differentiating in step -/

/-- A character that is taken in leaves nothing behind in both runs, or fails both. -/
theorem gives_of_isSingle {r : Pattern} (hp : w.Pairs p p') (hs : p.isSingle = true)
    (hr : Residual p c r) (hr' : Residual p' c r') : w.Gives (pure r) r' := by
  have hmeaning : r'.meaning = r.meaning := by rw [hr'.meaning, hp.folds.meaning, hr.meaning]
  have hne : (Pattern.empty).meaning ≠ Pattern.fail.meaning := by
    intro heq
    cases congrFun heq []
  rcases hr.of_isSingle hs with rfl | rfl
  · rcases hr'.of_isSingle (hp.folds.isSingle.trans hs) with rfl | rfl
    · exact gives_pure w.pairs_empty
    · exact absurd hmeaning.symm hne
  · rcases hr'.of_isSingle (hp.folds.isSingle.trans hs) with rfl | rfl
    · exact absurd hmeaning hne
    · exact gives_pure w.pairs_fail

/-- What is left of a pattern that takes in nothing is failure on both sides; of another one, it is
what the work on the node gives. -/
theorem gives_ask {work : Build Pattern} (hp : w.Pairs p p') (h : Residual p' c r')
    (hwork : p.consumes = true → w.Gives work r') : w.Gives (MonadDerive.ask p c work) r' := by
  by_cases hc : p.consumes = true
  · by_cases hleaf : p.isLeaf = true
    · rw [MonadDerive.ask_of_isLeaf hc hleaf]
      exact hwork hc
    · rw [MonadDerive.ask_of_not_isLeaf hc (by simpa using hleaf)]
      exact hwork hc
  · have hdead : p.consumes = false := by simpa using hc
    rw [MonadDerive.ask_of_not_consumes hdead, h.eq_fail (hp.folds.consumes.trans hdead)]
    exact gives_pure w.pairs_fail

/-- What is left of a pattern, worked out part by part, is folded to anything that can be left of
what the pattern is folded to. Behind captures, only what is left of the right part counts. -/
theorem gives_plainly (hp : w.Pairs p p') (h : Residual p' c r') : w.Gives (p.plainly c) r' := by
  induction p generalizing w p' r' with
  | empty | fail => exact gives_ask hp h nofun
  | any => exact gives_ask hp h fun _ => gives_of_isSingle hp rfl (.any c) h
  | charSet k s => exact gives_ask hp h fun _ => gives_of_isSingle hp rfl (.charSet k s c) h
  | negatedSet k s => exact gives_ask hp h fun _ => gives_of_isSingle hp rfl (.negatedSet k s c) h
  | sequence k p q ihp ihq =>
    refine gives_ask hp h fun hc => ?_
    have hc' := hp.folds.consumes.trans hc
    rcases hp.of_sequence hc with ⟨_, _, _, rfl, hx, hy⟩ | ⟨i, _, s, t, r, rfl, hgathers, hq⟩
    · have hn := hx.folds.nullable
      cases h with
      | dead hdead => simp [hdead] at hc'
      | sequence _ hn' ha hhead =>
        refine (ihp hx ha).bind fun w₁ a hle₁ ha => ?_
        refine (gives_sequence ha (hy.mono hle₁) hhead).bind fun w₂ head hle₂ hhead => ?_
        rw [if_neg (by simp [← hn, hn'])]
        exact gives_pure hhead
      | sequenceLeft _ hn' ha hhead htail =>
        refine (ihp hx ha).bind fun w₁ a hle₁ ha => ?_
        have hy₁ := hy.mono hle₁
        refine (gives_sequence ha hy₁ hhead).bind fun w₂ head hle₂ hhead => ?_
        rw [if_pos (hn.symm.trans hn')]
        refine (ihq (hy₁.mono hle₂) htail).bind fun w₃ tail hle₃ htail => ?_
        rw [if_pos (Pattern.isFail_iff.mpr (htail.eq_fail_iff.mp rfl))]
        exact gives_pure (hhead.mono hle₃)
      | sequenceBoth _ hn' ha hhead htail hlive hsettled hrest hr =>
        refine (ihp hx ha).bind fun w₁ a hle₁ ha => ?_
        have hy₁ := hy.mono hle₁
        refine (gives_sequence ha hy₁ hhead).bind fun w₂ head hle₂ hhead => ?_
        rw [if_pos (hn.symm.trans hn')]
        refine (ihq (hy₁.mono hle₂) htail).bind fun w₃ tail hle₃ htail => ?_
        rw [if_neg (mt Pattern.isFail_iff.mp (mt htail.eq_fail_iff.mpr hlive))]
        have hx₃ := hx.mono (le_trans hle₁ (le_trans hle₂ hle₃))
        refine (gives_settle hx₃ hsettled).bind fun w₄ settled hle₄ hsettled => ?_
        refine (gives_sequence hsettled (htail.mono hle₄) hrest).bind fun w₅ rest hle₅ hrest => ?_
        exact gives_alternation (hhead.mono (le_trans hle₃ (le_trans hle₄ hle₅))) hrest hr
    · have hsc := hgathers.standsFor.settled
      have ht := hgathers.behind
      have htc := hgathers.settledBehind
      have hrc : r.consumes = true := by simpa [Pattern.consumes, hsc] using hc'
      obtain ⟨tail, htail, hr⟩ := h.exists_behind hgathers.isPart hsc
      have hrest : Sequenced t tail ((Build.sequence t tail).run 0).1 :=
        Build.sequenced_of_gives (Build.gives_run _ 0)
      rw [Pattern.deriveNode_in_front hgathers.front hgathers.settled]
      refine (ihq hq (htail.in_front ht htc hrc hrest)).bind fun w₁ y hle hy => ?_
      exact gives_gathered (hgathers.mono hle) (htail.reduced hp.reduced.parts.2.reduced) hy hrest
        hr
  | alternation k p q ihp ihq =>
    refine gives_ask hp h fun hc => ?_
    have hc' := hp.folds.consumes.trans hc
    rcases hp.of_alternation hc with ⟨_, _, _, rfl, hx, hy⟩ | ⟨hx, hy⟩
    · cases h with
      | dead hdead => simp [hdead] at hc'
      | alternation _ ha hb hr =>
        refine (ihp hx ha).bind fun w₁ a hle₁ ha => ?_
        refine (ihq (hy.mono hle₁) hb).bind fun w₂ b hle₂ hb => ?_
        exact gives_alternation (ha.mono hle₂) hb hr
    · refine (ihp hx h).bind fun w₁ a hle₁ ha => ?_
      refine (ihq (hy.mono hle₁) h).bind fun w₂ b hle₂ hb => ?_
      exact gives_alternation (ha.mono hle₂) hb (.same _)
  | star k p ih =>
    refine gives_ask hp h fun hc => ?_
    have hc' := hp.folds.consumes.trans hc
    obtain ⟨_, _, rfl, hx⟩ := hp.of_star hc
    cases h with
    | dead hdead => simp [hdead] at hc'
    | star _ ha hr =>
      refine (ih hx ha).bind fun w₁ a hle ha => ?_
      exact gives_sequence ha (hp.mono hle) hr
  | mark k name buffer p ih =>
    refine gives_ask hp h fun hc => ?_
    have hc' := hp.folds.consumes.trans hc
    obtain ⟨_, _, rfl, hx⟩ := hp.of_mark hc
    cases h with
    | dead hdead => simp [hdead] at hc'
    | mark _ ha hr => exact (ih hx ha).bind fun w₁ a hle ha => gives_mark ha hr

end Pairing

end MarkedRegex
