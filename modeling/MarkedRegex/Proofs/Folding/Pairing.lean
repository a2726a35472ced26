-- Two runs in step. A pairing knows what the run without a memory has built so
-- far, and the partner of each node: the node that the run with a memory has in
-- its place. Partners stay, for what is built gets a serial number of its own.
import MarkedRegex.Proofs.Folding.Folds

namespace MarkedRegex

/-! ## Pairs -/

/-- The partners of the nodes that a run has built so far, those with serial numbers below
`next`. -/
structure Pairing where
  next : Nat
  partner : Pattern → Pattern
  partner_empty : partner .empty = .empty
  partner_fail : partner .fail = .fail

namespace Pairing

/-- More is built, and partners stay. -/
instance : Preorder Pairing where
  le w w' := w.next ≤ w'.next ∧ ∀ q, q.serialBound ≤ w.next → w'.partner q = w.partner q
  le_refl w := ⟨Nat.le_refl _, fun _ _ => rfl⟩
  le_trans u v w huv hvw := by
    refine ⟨Nat.le_trans huv.1 hvw.1, fun q hq => ?_⟩
    rw [hvw.2 q (Nat.le_trans hq huv.1), huv.2 q hq]

/-- The pattern is reduced, and built so far. -/
structure Holds (w : Pairing) (p : Pattern) : Prop where
  below : p.serialBound ≤ w.next
  reduced : p.Reduced

/-- `p` is built so far, and folded to `p'`. -/
structure Pairs (w : Pairing) (p p' : Pattern) : Prop where
  holds : w.Holds p
  reduced : p'.Reduced
  folds : Folds w.partner p p'

/-- From `w` on, `act` builds a pattern that is folded to `p'`, with partners for what is new. -/
def Gives (w : Pairing) (act : Build Pattern) (p' : Pattern) : Prop :=
  ∃ w', w ≤ w' ∧ (act.run w.next).2 = w'.next ∧ w'.Pairs (act.run w.next).1 p'

section

variable {w w' : Pairing} {p q p' q' : Pattern}

theorem Holds.mono (h : w.Holds p) (hle : w ≤ w') : w'.Holds p :=
  ⟨Nat.le_trans h.below hle.1, h.reduced⟩

theorem Pairs.mono (h : w.Pairs p p') (hle : w ≤ w') : w'.Pairs p p' :=
  ⟨h.holds.mono hle, h.reduced, h.folds.of_agree hle.2 h.holds.below⟩

theorem Holds.sequence {k : Nat} (h : w.Holds (.sequence k p q)) : w.Holds p ∧ w.Holds q := by
  have hbelow := h.below
  simp only [Pattern.serialBound, Nat.max_le] at hbelow
  cases h.reduced with
  | sequence _ hp hq _ _ _ _ => exact ⟨⟨hbelow.2.1, hp⟩, ⟨hbelow.2.2, hq⟩⟩

theorem Holds.alternation {k : Nat} (h : w.Holds (.alternation k p q)) :
    w.Holds p ∧ w.Holds q := by
  have hbelow := h.below
  simp only [Pattern.serialBound, Nat.max_le] at hbelow
  cases h.reduced with
  | alternation _ hp hq _ _ _ _ => exact ⟨⟨hbelow.2.1, hp⟩, ⟨hbelow.2.2, hq⟩⟩

theorem Holds.star {k : Nat} (h : w.Holds (.star k p)) : w.Holds p := by
  have hbelow := h.below
  simp only [Pattern.serialBound, Nat.max_le] at hbelow
  cases h.reduced with
  | star _ hp _ _ _ _ => exact ⟨hbelow.2, hp⟩

theorem Holds.mark {k : Nat} {name : String} {buffer : MarkBuffer}
    (h : w.Holds (.mark k name buffer p)) : w.Holds p := by
  have hbelow := h.below
  simp only [Pattern.serialBound, Nat.max_le] at hbelow
  cases h.reduced with
  | mark _ _ _ hp _ => exact ⟨hbelow.2, hp⟩

theorem Pairs.eq_fail_iff (h : w.Pairs p p') : p' = .fail ↔ p = .fail :=
  h.folds.eq_fail_iff h.holds.reduced h.reduced

theorem Pairs.eq_empty_iff (h : w.Pairs p p') : p' = .empty ↔ p = .empty :=
  h.folds.eq_empty_iff h.holds.reduced h.reduced

theorem Pairs.isPart_iff (h : w.Pairs p p') : p'.IsPart ↔ p.IsPart := by
  constructor
  · exact fun hp' => ⟨h.holds.reduced, mt h.eq_fail_iff.mpr hp'.ne_fail,
      mt h.eq_empty_iff.mpr hp'.ne_empty⟩
  · exact fun hp => ⟨h.reduced, mt h.eq_fail_iff.mp hp.ne_fail, mt h.eq_empty_iff.mp hp.ne_empty⟩

theorem pairs_empty (w : Pairing) : w.Pairs .empty .empty :=
  ⟨⟨Nat.zero_le _, .empty⟩, .empty,
    .settled rfl (Pattern.standsFor_self rfl) w.partner_empty⟩

theorem pairs_fail (w : Pairing) : w.Pairs .fail .fail :=
  ⟨⟨Nat.zero_le _, .fail⟩, .fail, .settled rfl (Pattern.standsFor_self rfl) w.partner_fail⟩

theorem gives_pure (h : w.Pairs p p') : w.Gives (pure p) p' := ⟨w, le_refl w, rfl, h⟩

theorem Gives.bind {act : Build Pattern} {f : Pattern → Build Pattern} (h : w.Gives act p')
    (hf : ∀ w' p, w ≤ w' → w'.Pairs p p' → w'.Gives (f p) q') : w.Gives (act >>= f) q' := by
  obtain ⟨w₁, hle₁, hnext₁, hp⟩ := h
  obtain ⟨w₂, hle₂, hnext₂, hq⟩ := hf w₁ _ hle₁ hp
  have hrun : (act >>= f).run w.next = (f (act.run w.next).1).run w₁.next := by
    rw [← hnext₁]
    rfl
  refine ⟨w₂, le_trans hle₁ hle₂, ?_, ?_⟩
  · rw [hrun, hnext₂]
  · rw [hrun]
    exact hq

/-! ## New nodes -/

/-- A node was built that needs no partner. -/
def skip (w : Pairing) : Pairing := { w with next := w.next + 1 }

theorem le_skip (w : Pairing) : w ≤ w.skip := ⟨Nat.le_succ _, fun _ _ => rfl⟩

theorem gives_node_bind {form : Nat → Pattern} {f : Pattern → Build Pattern}
    (h : w.skip.Gives (f (form w.next)) q') : w.Gives (Build.node form >>= f) q' := by
  obtain ⟨w', hle, hnext, hq⟩ := h
  exact ⟨w', le_trans w.le_skip hle, hnext, hq⟩

/-- A new node has a partner of its own. -/
theorem gives_node {form : Nat → Pattern} (hbound : (form w.next).serialBound = w.next + 1)
    (hr : (form w.next).Reduced) (hr' : p'.Reduced)
    (hfolds : ∀ partner : Pattern → Pattern,
      (∀ q, q.serialBound ≤ w.next → partner q = w.partner q) →
      partner (form w.next) = p' → Folds partner (form w.next) p') :
    w.Gives (Build.node form) p' := by
  have hnew : ∀ q : Pattern, q.serialBound ≤ w.next → q ≠ form w.next := by
    rintro q hq rfl
    omega
  let partner : Pattern → Pattern := fun q => if q = form w.next then p' else w.partner q
  have hagree : ∀ q, q.serialBound ≤ w.next → partner q = w.partner q :=
    fun q hq => if_neg (hnew q hq)
  let w' : Pairing :=
    { next := w.next + 1
      partner
      partner_empty := (hagree .empty (Nat.zero_le _)).trans w.partner_empty
      partner_fail := (hagree .fail (Nat.zero_le _)).trans w.partner_fail }
  refine ⟨w', ⟨Nat.le_succ _, hagree⟩, rfl, ⟨Nat.le_of_eq hbound, hr⟩, hr', ?_⟩
  exact hfolds partner hagree (if_pos rfl)

/-- What takes in no character is paired with what stands for it. -/
theorem gives_settled {form : Nat → Pattern} (hbound : (form w.next).serialBound = w.next + 1)
    (hr : (form w.next).Reduced) (hr' : p'.Reduced) (hc : (form w.next).consumes = false)
    (hs : p'.StandsFor (form w.next).tree) : w.Gives (Build.node form) p' :=
  gives_node hbound hr hr' fun _ _ heq => .settled hc hs heq

end

end Pairing

end MarkedRegex
