-- Searches in step. A search under limits that goes on without a memory goes on
-- with one: each pattern it reaches is folded, so it passes no limit that the
-- other does not pass, and tests and captures are the same.
import MarkedRegex.Proofs.Folding.Steps
import MarkedRegex.Proofs.Lockstep

namespace MarkedRegex

/-! ## Sizes and depths -/

namespace Pairing

variable {w : Pairing} {p p' : Pattern}

theorem Pairs.size_le (h : w.Pairs p p') : p'.size ≤ p.size := by
  rw [Pattern.size_eq_tree, Pattern.size_eq_tree]
  exact min_le_min_right sizeCap h.folds.size_le

theorem Pairs.captured_eq (h : w.Pairs p p') : p'.captured = p.captured := by
  rw [Pattern.captured_eq_meaning, Pattern.captured_eq_meaning, h.folds.meaning]

theorem Pairs.isFail_eq (h : w.Pairs p p') : p'.isFail = p.isFail :=
  h.reduced.isFail_eq h.holds.reduced h.folds.meaning

/-- Nothing was built yet but what is there when a run starts. -/
def start (n : Nat) : Pairing where
  next := n
  partner := id
  partner_empty := rfl
  partner_fail := rfl

theorem pairs_start {n : Nat} (hp : p.Reduced) (hn : p.serialBound ≤ n) :
    (start n).Pairs p p :=
  ⟨⟨hn, hp⟩, hp, .refl p⟩

end Pairing

namespace Limits

/-- Where a pattern passes no limit, what it is folded to passes none. -/
theorem check_of_pairs {l : Limits} {w : Pairing} {p p' : Pattern} (h : w.Pairs p p')
    (hp : l.check p = .ok ()) : l.check p' = .ok () := by
  rw [check_eq_ok_iff] at hp ⊢
  constructor
  · intro k hk
    exact Nat.le_trans h.size_le (hp.1 k hk)
  · intro k hk
    exact Nat.le_trans h.folds.depth_le (hp.2 k hk)

end Limits

/-! ## Actions under limits -/

/-- Where the first action answers, without a memory, the second one answers as well, from any sound
memory on, and the answers are related in what is paired then. -/
def Limited.Follows {α : Type} (w : Pairing) (plain kept : Limited α)
    (related : Pairing → α → α → Prop) : Prop :=
  ∀ (memo : Memo) (n : Nat), memo.Sound → ∀ x off next,
    (plain.run.run .off).run w.next = ((.ok x, off), next) →
    off = .off ∧ ∃ w', w ≤ w' ∧ w'.next = next ∧ ∃ y memo' n',
      (kept.run.run memo).run n = ((.ok y, memo'), n') ∧ memo'.Sound ∧ related w' x y

namespace Limited

variable {α β : Type} {w : Pairing} {related : Pairing → α → α → Prop}

theorem follows_pure {x y : α} (h : related w x y) : Follows w (pure x) (pure y) related := by
  intro memo n hm x' off next hrun
  cases hrun
  exact ⟨rfl, w, le_refl w, rfl, y, memo, n, rfl, hm, h⟩

theorem Follows.bind {plain kept : Limited α} {f g : α → Limited β}
    {related' : Pairing → β → β → Prop} (h : Follows w plain kept related)
    (hf : ∀ w' x y, w ≤ w' → related w' x y → Follows w' (f x) (g y) related') :
    Follows w (plain >>= f) (kept >>= g) related' := by
  intro memo n hm x off next hrun
  rw [run_bind] at hrun
  rcases hplain : (plain.run.run .off).run w.next with ⟨⟨answer, off₁⟩, next₁⟩
  rw [hplain] at hrun
  cases answer with
  | error e => cases hrun
  | ok x₁ =>
    obtain ⟨rfl, w₁, hle₁, rfl, y, memo₁, n₁, hkept, hm₁, hxy⟩ := h memo n hm _ _ _ hplain
    obtain ⟨hoff, w₂, hle₂, hnext, hrest⟩ := hf w₁ _ _ hle₁ hxy memo₁ n₁ hm₁ _ _ _ hrun
    refine ⟨hoff, w₂, le_trans hle₁ hle₂, hnext, ?_⟩
    rw [run_bind, hkept]
    exact hrest

theorem follows_throw {e : LimitError} {kept : Limited α} : Follows w (throw e) kept related := by
  intro memo n hm x off next hrun
  cases hrun

theorem follows_derive {p p' : Pattern} (h : w.Pairs p p') (c : Char) :
    Follows w (liftM (p.derive c)) (liftM (p'.derive c)) fun w' r r' => w'.Pairs r r' := by
  intro memo n hm x off next hrun
  have hplain : ((p.derive c).run .off).run w.next =
      ((((p.plainly c).run w.next).1, .off), ((p.plainly c).run w.next).2) := by
    rw [p.derive_builds c]
    rfl
  have hlift : ((liftM (p.derive c) : Limited Pattern).run.run .off).run w.next =
      ((.ok (((p.derive c).run .off).run w.next).1.1, (((p.derive c).run .off).run w.next).1.2),
        (((p.derive c).run .off).run w.next).2) := rfl
  rw [hlift, hplain] at hrun
  cases hrun
  obtain ⟨hresidual, hm'⟩ := p'.derive_ensures c memo n hm
  obtain ⟨w', hle, hnext, hpairs⟩ := Pairing.gives_plainly h hresidual
  exact ⟨rfl, w', hle, hnext.symm, _, _, _, rfl, hm', hpairs⟩

/-- A step under limits is followed by one on what the pattern is folded to. -/
theorem follows_step (l : Limits) {p p' : Pattern} (h : w.Pairs p p') (c : Char) :
    Follows w (l.step p c) (l.step p' c) fun w' r r' => w'.Pairs r r' := by
  refine (follows_derive h c).bind fun w' r r' _ hr => ?_
  cases hcheck : l.check r with
  | error e => exact follows_throw
  | ok _ =>
    rw [Limits.check_of_pairs hr hcheck]
    exact follows_pure hr

/-! ## Searches under limits -/

/-- An action under limits and one that follows it are in step. -/
abbrev lockstep : Lockstep Pairing (· ≤ ·) Limited Limited where
  Related := Follows
  pure := follows_pure
  bind := Follows.bind

theorem lockstep_steps (l : Limits) : lockstep.Steps l.step l.step Pairing.Pairs where
  related := follows_step l
  mono := Pairing.Pairs.mono
  isFail_eq := Pairing.Pairs.isFail_eq
  captured_eq := Pairing.Pairs.captured_eq

end Limited

/-- Each question is answered with a memory as it is without one. -/
theorem Call.follows (l : Limits) {w : Pairing} {p p' : Pattern} (h : w.Pairs p p') (q : Call) :
    Limited.Follows w (q.run l.step p) (q.run l.step p') fun _ x y => y = x :=
  (Limited.lockstep_steps l).call h q

end MarkedRegex
