-- Two runs of a search in step with one another. A search takes its steps in any
-- monad, so it runs on both sides alike, and what relates the single steps
-- relates the runs of all searches.
import MarkedRegex.Proofs.Calls

namespace MarkedRegex

/-! ## Related actions -/

/-- A way to relate actions of two monads in a world, which grows as they go on. Related values make
related actions, and actions behind one another pass the relation on. -/
structure Lockstep (W : Type) (Grows : W → W → Prop) (m m' : Type → Type) [Monad m]
    [Monad m'] where
  Related : {α : Type} → W → m α → m' α → (W → α → α → Prop) → Prop
  pure : ∀ {α : Type} {w : W} {x y : α} {related : W → α → α → Prop}, related w x y →
    Related w (Pure.pure x) (Pure.pure y) related
  bind : ∀ {α β : Type} {w : W} {act : m α} {act' : m' α} {f : α → m β} {g : α → m' β}
    {related : W → α → α → Prop} {related' : W → β → β → Prop}, Related w act act' related →
    (∀ w' x y, Grows w w' → related w' x y → Related w' (f x) (g y) related') →
    Related w (act >>= f) (act' >>= g) related'

namespace Lockstep

variable {W : Type} {Grows : W → W → Prop} {m m' : Type → Type} [Monad m] [Monad m']

/-- Patterns that are paired stay paired, and no search tells them apart before the next step. A
step from two of them leads to two that are paired again. -/
structure Steps (L : Lockstep W Grows m m') (step : Pattern → Char → m Pattern)
    (step' : Pattern → Char → m' Pattern) (Pairs : W → Pattern → Pattern → Prop) : Prop where
  related : ∀ {w p p'}, Pairs w p p' → ∀ c, L.Related w (step p c) (step' p' c) Pairs
  mono : ∀ {w w' p p'}, Pairs w p p' → Grows w w' → Pairs w' p p'
  isFail_eq : ∀ {w p p'}, Pairs w p p' → p'.isFail = p.isFail
  captured_eq : ∀ {w p p'}, Pairs w p p' → p'.captured = p.captured

/-! ## Related searches -/

namespace Steps

variable {L : Lockstep W Grows m m'} {step : Pattern → Char → m Pattern}
  {step' : Pattern → Char → m' Pattern} {Pairs : W → Pattern → Pattern → Prop} {w : W}
  {p p' : Pattern}

theorem runWhole (h : L.Steps step step' Pairs) (hp : Pairs w p p') (s : List Char) :
    L.Related w (runWhole step p s) (MarkedRegex.runWhole step' p' s) fun _ x y => y = x := by
  induction s generalizing w p p' with
  | nil => exact L.pure (h.captured_eq hp)
  | cons c s ih =>
    rw [MarkedRegex.runWhole, MarkedRegex.runWhole, h.isFail_eq hp]
    split
    · exact L.pure rfl
    · exact L.bind (h.related hp c) fun w' r r' _ hr => ih hr

theorem runGreedily (h : L.Steps step step' Pairs) (hp : Pairs w p p') (s : List Char)
    (taken : Nat) :
    L.Related w (runGreedily step p s taken) (MarkedRegex.runGreedily step' p' s taken)
      fun _ x y => y = x := by
  induction s generalizing w p p' taken with
  | nil => exact L.pure (by rw [h.captured_eq hp])
  | cons c s ih =>
    rw [MarkedRegex.runGreedily, MarkedRegex.runGreedily]
    refine L.bind (h.related hp c) fun w' r r' _ hr => ?_
    rw [h.isFail_eq hr]
    split
    · exact L.pure (by rw [h.captured_eq hp])
    · exact ih hr (taken + 1)

theorem seek (h : L.Steps step step' Pairs) (hp : Pairs w p p') (s : List Char) (skipped : Nat) :
    L.Related w (seek step p s skipped) (MarkedRegex.seek step' p' s skipped)
      fun _ x y => y = x := by
  induction s generalizing w skipped with
  | nil => exact L.pure rfl
  | cons c s ih =>
    rw [MarkedRegex.seek, MarkedRegex.seek]
    refine L.bind (h.runGreedily hp (c :: s) 0) fun w' reach reach' hgrows hreach => ?_
    rw [hreach]
    split
    · exact L.pure rfl
    · exact ih (h.mono hp hgrows) (skipped + 1)

theorem find (h : L.Steps step step' Pairs) (hp : Pairs w p p') (s : List Char) :
    L.Related w (find step p s) (MarkedRegex.find step' p' s) fun _ x y => y = x := by
  unfold MarkedRegex.find
  split
  · refine L.bind (h.runWhole hp s) fun _ captures captures' _ hcaptures => ?_
    exact L.pure (by rw [hcaptures])
  · exact h.seek hp s 0

/-- The loop over the text goes on from shorter and shorter rests, on both sides from the same. -/
theorem findAllFrom (h : L.Steps step step' Pairs) (hp : Pairs w p p') (here : Position) :
    L.Related w (findAllFrom step p here) (MarkedRegex.findAllFrom step' p' here)
      fun _ x y => y = x := by
  induction hn : here.text.length using Nat.strongRecOn generalizing w here with
  | _ n ih =>
    rw [MarkedRegex.findAllFrom, MarkedRegex.findAllFrom]
    refine L.bind (h.find hp here.text) fun w' found found' hgrows hfound => ?_
    subst hfound
    cases found' with
    | none => exact L.pure rfl
    | some span =>
      simp only
      split
      · exact L.pure rfl
      · next next hnext =>
        have hlt := Span.length_resume_lt hnext
        refine L.bind (ih _ (by omega) (h.mono hp hgrows) next rfl) fun _ rest rest' _ hrest => ?_
        exact L.pure (by rw [hrest])

/-- Related steps give every question related answers. -/
theorem call (h : L.Steps step step' Pairs) (hp : Pairs w p p') (q : Call) :
    L.Related w (q.run step p) (q.run step' p') fun _ x y => y = x := by
  cases q with
  | matchWhole s => exact h.runWhole hp s
  | matchGreedily s =>
    refine L.bind (h.runGreedily hp s 0) fun _ reach reach' _ hreach => ?_
    exact L.pure (by rw [hreach])
  | findFirst s =>
    refine L.bind (h.find hp s) fun _ found found' _ hfound => ?_
    exact L.pure (by rw [hfound])
  | findAll s => exact h.findAllFrom hp ⟨0, s⟩
  | hasMatch s =>
    refine L.bind (h.find hp s) fun _ found found' _ hfound => ?_
    exact L.pure (by rw [hfound])

end Steps

end Lockstep

end MarkedRegex
