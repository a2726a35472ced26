-- Cases of settled forms and of what is left after a character. A part that
-- only holds captures is settled as it is, and stays where it is in front of
-- what is left behind it.
import MarkedRegex.Proofs.Build.Cases
import MarkedRegex.Proofs.Residual.Plain

namespace MarkedRegex

/-! ## Cases -/

section

variable {p r : Pattern} {c : Char}

theorem Settled.eq_fail (h : Settled p r) (hn : p.nullable = false) : r = .fail := by
  cases h with
  | fail => rfl
  | empty hn' | kept hn' => simp [hn] at hn'
  | sequence hn' | alternation hn' => simp [hn] at hn'
  | star => simp [Pattern.nullable] at hn
  | mark hn' => simp [Pattern.nullable, hn'] at hn

theorem Settled.eq_empty (h : Settled p r) (hn : p.nullable = true) (hm : p.hasMarks = false) :
    r = .empty := by
  cases h with
  | fail hn' => simp [hn] at hn'
  | empty => rfl
  | kept _ hm' => simp [hm] at hm'
  | sequence _ hm' | alternation _ hm' => simp [hm] at hm'
  | star hm' => simp [Pattern.hasMarks, hm'] at hm
  | mark => simp [Pattern.hasMarks] at hm

theorem Settled.eq_self (h : Settled p r) (hn : p.nullable = true) (hm : p.hasMarks = true)
    (hc : p.consumes = false) : r = p := by
  cases h with
  | fail hn' => simp [hn] at hn'
  | empty _ hm' => simp [hm] at hm'
  | kept => rfl
  | sequence _ _ hc' | alternation _ _ hc' => simp [hc] at hc'
  | star _ hc' | mark _ hc' => simp [Pattern.consumes, hc'] at hc

theorem Settled.of_sequence {k : Nat} {q : Pattern} (h : Settled (.sequence k p q) r)
    (hn : (Pattern.sequence k p q).nullable = true) (hm : (Pattern.sequence k p q).hasMarks = true)
    (hc : (Pattern.sequence k p q).consumes = true) :
    ∃ a b, Settled p a ∧ Settled q b ∧ Sequenced a b r := by
  cases h with
  | fail hn' => simp [hn] at hn'
  | empty _ hm' => simp [hm] at hm'
  | kept _ _ hc' => simp [hc] at hc'
  | sequence _ _ _ ha hb hr => exact ⟨_, _, ha, hb, hr⟩

theorem Settled.of_alternation {k : Nat} {q : Pattern} (h : Settled (.alternation k p q) r)
    (hn : (Pattern.alternation k p q).nullable = true)
    (hm : (Pattern.alternation k p q).hasMarks = true)
    (hc : (Pattern.alternation k p q).consumes = true) :
    ∃ a b, Settled p a ∧ Settled q b ∧ Alternated a b r := by
  cases h with
  | fail hn' => simp [hn] at hn'
  | empty _ hm' => simp [hm] at hm'
  | kept _ _ hc' => simp [hc] at hc'
  | alternation _ _ _ ha hb hr => exact ⟨_, _, ha, hb, hr⟩

theorem Settled.of_star {k : Nat} (h : Settled (.star k p) r) (hm : p.hasMarks = true)
    (hc : p.consumes = true) : ∃ a, Settled p a ∧ Starred a r := by
  cases h with
  | fail hn' => cases hn'
  | empty _ hm' => simp [Pattern.hasMarks, hm] at hm'
  | kept _ _ hc' => simp [Pattern.consumes, hc] at hc'
  | star _ _ ha hr => exact ⟨_, ha, hr⟩

theorem Settled.of_mark {k : Nat} {name : String} {buffer : MarkBuffer}
    (h : Settled (.mark k name buffer p) r) (hn : p.nullable = true) (hc : p.consumes = true) :
    ∃ a, Settled p a ∧ Marked name buffer a r := by
  cases h with
  | fail hn' => simp [Pattern.nullable, hn] at hn'
  | empty _ hm' => cases hm'
  | kept _ _ hc' => simp [Pattern.consumes, hc] at hc'
  | mark _ _ ha hr => exact ⟨_, ha, hr⟩

/-- A settled form takes in no character. -/
theorem Settled.consumes (h : Settled p r) (hp : p.Reduced) : r.consumes = false := by
  by_contra hc
  obtain ⟨w, hw, hne⟩ := (h.reduced hp).exists_nonempty (by simpa using hc)
  cases w with
  | nil => exact hne rfl
  | cons x w =>
    rw [Parse.mem_accepts, h.meaning] at hw
    cases hw

theorem Residual.eq_fail (h : Residual p c r) (hc : p.consumes = false) : r = .fail := by
  cases h with
  | dead => rfl
  | any | charSet | negatedSet => cases hc
  | sequence hc' | sequenceLeft hc' | sequenceBoth hc' | alternation hc' => simp [hc] at hc'
  | star hc' | mark hc' => simp [Pattern.consumes, hc'] at hc

theorem Residual.of_isSingle (h : Residual p c r) (hs : p.isSingle = true) :
    r = .empty ∨ r = .fail := by
  cases h with
  | dead => exact Or.inr rfl
  | any => exact Or.inl rfl
  | charSet | negatedSet => split <;> simp
  | _ => cases hs

end

/-! ## Parts that hold captures -/

namespace Pattern

variable {a : Pattern} {c : Char}

/-- A reduced pattern that takes in no character and is not failure is nullable. -/
theorem Reduced.nullable_of_settled {p : Pattern} (h : p.Reduced) (hc : p.consumes = false)
    (hf : p ≠ .fail) : p.nullable = true := by
  obtain ⟨w, hw⟩ := h.exists_accepted hf
  cases w with
  | nil => rwa [nullable_eq_isSome]
  | cons x w =>
    rw [Parse.mem_accepts, onlyEmpty_of_not_consumes hc x w] at hw
    cases hw

/-- Without marks, it is empty. -/
theorem Reduced.eq_empty_of_settled {p : Pattern} (h : p.Reduced) (hc : p.consumes = false)
    (hm : p.hasMarks = false) (hf : p ≠ .fail) : p = .empty := by
  induction h with
  | empty => rfl
  | fail => exact absurd rfl hf
  | any | charSet | negatedSet => simp [consumes] at hc
  | sequence k _ _ hpf hpe _ _ ihp _ =>
    rw [consumes, Bool.or_eq_false_iff] at hc
    rw [hasMarks, Bool.or_eq_false_iff] at hm
    exact absurd (ihp hc.1 hm.1 hpf) hpe
  | alternation k _ _ hpf hqf hempty _ ihp ihq =>
    rw [consumes, Bool.or_eq_false_iff] at hc
    rw [hasMarks, Bool.or_eq_false_iff] at hm
    exact absurd ⟨ihp hc.1 hm.1 hpf, ihq hc.2 hm.2 hqf⟩ hempty
  | star k _ _ _ _ hlive _ =>
    rw [consumes] at hc
    rw [hasMarks] at hm
    simp [hc, hm] at hlive
  | mark => simp [hasMarks] at hm

/-- A reduced pattern that can be a part of a sequence. -/
structure IsPart (p : Pattern) : Prop where
  reduced : p.Reduced
  ne_fail : p ≠ .fail
  ne_empty : p ≠ .empty

theorem Reduced.parts {k : Nat} {p q : Pattern} (h : (Pattern.sequence k p q).Reduced) :
    p.IsPart ∧ q.IsPart := by
  cases h with
  | sequence _ hp hq hpf hpe hqf hqe => exact ⟨⟨hp, hpf, hpe⟩, ⟨hq, hqf, hqe⟩⟩

theorem IsPart.sequence {p q : Pattern} (hp : p.IsPart) (hq : q.IsPart) (k : Nat) :
    (Pattern.sequence k p q).IsPart where
  reduced := .sequence k hp.reduced hq.reduced hp.ne_fail hp.ne_empty hq.ne_fail hq.ne_empty
  ne_fail := by simp
  ne_empty := by simp

theorem IsPart.nullable (h : a.IsPart) (hc : a.consumes = false) : a.nullable = true :=
  h.reduced.nullable_of_settled hc h.ne_fail

theorem IsPart.hasMarks (h : a.IsPart) (hc : a.consumes = false) : a.hasMarks = true := by
  by_contra hm
  exact h.ne_empty (h.reduced.eq_empty_of_settled hc (by simpa using hm) h.ne_fail)

theorem IsPart.settled (h : a.IsPart) (hc : a.consumes = false) : Settled a a :=
  .kept (h.nullable hc) (h.hasMarks hc) hc

theorem IsPart.settle (h : a.IsPart) (hc : a.consumes = false) : a.settle = pure a := by
  unfold Pattern.settle Pattern.settleBy Pattern.settleWith
  simp [h.nullable hc, h.hasMarks hc, hc]

/-! ## Captures in front of a sequence -/

/-- Where captures are in front, they stay in front of what is left behind them. -/
theorem deriveNode_in_front {k : Nat} {q : Pattern} (ha : a.IsPart) (hac : a.consumes = false) :
    (Pattern.sequence k a q).deriveNodeIn Build c = q.plainly c >>= Build.sequence a := by
  have hleft : (MonadDerive.ask a c (a.deriveNodeIn Build c) : Build Pattern) = pure .fail :=
    MonadDerive.ask_of_not_consumes hac
  have hsettled : (MonadDerive.settle a : Build Pattern) = pure a := ha.settle hac
  have hright : MonadDerive.ask q c (q.deriveNodeIn Build c) = q.plainly c := rfl
  simp only [deriveNodeIn, hleft, hsettled, hright, monadLift_self, pure_bind,
    Build.fail_sequence, ha.nullable hac, if_true, Build.fail_alternation, bind_pure]
  refine bind_congr fun tail => ?_
  split
  · next hf => rw [isFail_iff.mp hf, Build.sequence_fail]
  · rfl

end Pattern

namespace Residual

variable {k : Nat} {s q tail r : Pattern} {c : Char}

/-- What is left of a sequence with captures in front has the captures in front. -/
theorem exists_behind (hs : s.IsPart) (hsc : s.consumes = false)
    (h : Residual (.sequence k s q) c r) : ∃ tail, Residual q c tail ∧ Sequenced s tail r := by
  cases h with
  | dead hc =>
    rw [Pattern.consumes, Bool.or_eq_false_iff] at hc
    exact ⟨.fail, .dead hc.2, .failRight hs.ne_fail⟩
  | sequence _ hn => simp [hs.nullable hsc] at hn
  | sequenceLeft _ _ ha hr hq =>
    obtain rfl := ha.eq_fail hsc
    obtain rfl := hr.eq_fail_left
    exact ⟨.fail, hq, .failRight hs.ne_fail⟩
  | sequenceBoth _ _ ha hhead hq _ he hrest hr =>
    obtain rfl := ha.eq_fail hsc
    obtain rfl := hhead.eq_fail_left
    obtain rfl := he.eq_self (hs.nullable hsc) (hs.hasMarks hsc) hsc
    obtain rfl := hr.eq_right
    exact ⟨_, hq, hrest⟩

theorem in_front (hs : s.IsPart) (hsc : s.consumes = false) (hqc : q.consumes = true)
    (hq : Residual q c tail) (hr : Sequenced s tail r) : Residual (.sequence k s q) c r := by
  have hc : (Pattern.sequence k s q).consumes = true := by simp [Pattern.consumes, hqc]
  have hdead : Residual s c .fail := .dead hsc
  by_cases htail : tail = .fail
  · subst htail
    rw [hr.eq_fail_right]
    exact .sequenceLeft hc (hs.nullable hsc) hdead (.failLeft q) hq
  · have hchoice : Alternated .fail r r := by
      by_cases hf : r = .fail
      · rw [hf]
        exact .same .fail
      · exact .failLeft hf
    exact .sequenceBoth hc (hs.nullable hsc) hdead (.failLeft q) hq htail (hs.settled hsc) hr
      hchoice

end Residual

end MarkedRegex
