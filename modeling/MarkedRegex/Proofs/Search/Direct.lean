-- The direct search: which matches there are in a text, given what trying each
-- position gives. The first position that succeeds gives a match, and the
-- search goes on behind it. Where trying is a function, there is one answer.
import MarkedRegex.Proofs.Positions

namespace MarkedRegex

/-- What trying a text can give: the captures, if it succeeds, and the text that is left. -/
abbrev Tries := List Char → Option Captures × List Char → Prop

/-- A position that is tried, from the offset `start` on: one with text behind it, or the only one
of the empty text. -/
structure IsTried (s : List Char) (start : Nat) (here : Position) : Prop where
  isIn : here.IsIn s
  start_le : start ≤ here.offset
  inside : here.offset < byteLength s ∨ s = []

theorem IsTried.of_le {s : List Char} {start start' : Nat} {here : Position}
    (h : IsTried s start here) (hle : start' ≤ start) : IsTried s start' here :=
  ⟨h.isIn, Nat.le_trans hle h.start_le, h.inside⟩

/-! ## The first match -/

section

variable (tries : Tries) (s : List Char)

/-- The match at the first position from `start` on that succeeds, or none if all of them fail. -/
inductive Leftmost (start : Nat) : Option Match → Prop
  | nowhere : (∀ here, IsTried s start here → ∃ rest, tries here.text (none, rest)) →
      Leftmost start none
  | found {m : Match} : IsTried s start m.position →
      tries (m.text ++ m.rest) (some m.captures, m.rest) →
      (∀ here, IsTried s start here → here.offset < m.start →
        ∃ rest, tries here.text (none, rest)) →
      Leftmost start (some m)

/-- The matches from `start` on, one behind the other, until none is found or the text is used
up. -/
inductive Successive : Nat → List Match → Prop
  | nil {start : Nat} : Leftmost tries s start none → Successive start []
  | last {start : Nat} {m : Match} : Leftmost tries s start (some m) →
      byteLength s ≤ m.resume → Successive start [m]
  | more {start : Nat} {m : Match} {ms : List Match} : Leftmost tries s start (some m) →
      m.resume < byteLength s → Successive m.resume ms → Successive start (m :: ms)

end

section

variable {tries : Tries} {s : List Char} {start : Nat}

theorem Leftmost.isTried {m : Match} (h : Leftmost tries s start (some m)) :
    IsTried s start m.position := by
  cases h with
  | found htried _ _ => exact htried

/-- Trying the position of a match succeeds. -/
theorem Leftmost.succeeds {m : Match} (h : Leftmost tries s start (some m)) :
    tries (m.text ++ m.rest) (some m.captures, m.rest) := by
  cases h with
  | found _ hfound _ => exact hfound

/-- Every match is the first one from some offset on. -/
theorem Successive.exists_leftmost {ms : List Match} (h : Successive tries s start ms) :
    ∀ m ∈ ms, ∃ start', start ≤ start' ∧ Leftmost tries s start' (some m) := by
  induction h with
  | nil _ => simp
  | last hfirst _ =>
    rw [List.forall_mem_singleton]
    exact ⟨_, Nat.le_refl _, hfirst⟩
  | @more start m ms hfirst _ _ ih =>
    rw [List.forall_mem_cons]
    refine ⟨⟨start, Nat.le_refl _, hfirst⟩, fun m' hm' => ?_⟩
    obtain ⟨start', hle, hfirst'⟩ := ih m' hm'
    have hstart : start ≤ m.start := hfirst.isTried.start_le
    exact ⟨start', Nat.le_trans hstart (Nat.le_trans m.start_le_resume hle), hfirst'⟩

/-! ## There is one answer -/

/-- Trying a text gives one thing. -/
def Tries.Functional (tries : Tries) : Prop := ∀ text r r', tries text r → tries text r' → r = r'

/-- Where a match was found, an earlier one cannot be. -/
theorem Leftmost.start_le (hfun : tries.Functional) {m m' : Match}
    (h : Leftmost tries s start (some m)) (h' : Leftmost tries s start (some m')) :
    m.start ≤ m'.start := by
  cases h with
  | found _ _ hfirst =>
    rw [← Nat.not_lt]
    intro hlt
    obtain ⟨rest, hfail⟩ := hfirst m'.position h'.isTried hlt
    have := hfun _ _ _ hfail h'.succeeds
    simp at this

theorem Leftmost.not_none (hfun : tries.Functional) {m : Match}
    (h : Leftmost tries s start none) (h' : Leftmost tries s start (some m)) : False := by
  cases h with
  | nowhere hfails =>
    obtain ⟨rest, hfail⟩ := hfails m.position h'.isTried
    have := hfun _ _ _ hfail h'.succeeds
    simp at this

theorem Leftmost.unique (hfun : tries.Functional) {found found' : Option Match}
    (h : Leftmost tries s start found) (h' : Leftmost tries s start found') : found = found' := by
  cases found with
  | none =>
    cases found' with
    | none => rfl
    | some m' => exact (h.not_none hfun h').elim
  | some m =>
    cases found' with
    | none => exact (h'.not_none hfun h).elim
    | some m' =>
      have hstart : m.start = m'.start :=
        Nat.le_antisymm (h.start_le hfun h') (h'.start_le hfun h)
      have hposition : m.position = m'.position :=
        h.isTried.isIn.eq_of_offset_eq h'.isTried.isIn hstart
      have htext : m.text ++ m.rest = m'.text ++ m'.rest := congrArg Position.text hposition
      have hfound' := h'.succeeds
      rw [← htext] at hfound'
      have hr := hfun _ _ _ h.succeeds hfound'
      simp only [Prod.mk.injEq, Option.some.injEq] at hr
      rw [Match.eq_of_position_eq hposition hr.2 hr.1]

theorem Successive.unique (hfun : tries.Functional) {ms ms' : List Match}
    (h : Successive tries s start ms) (h' : Successive tries s start ms') : ms = ms' := by
  induction h generalizing ms' with
  | nil hnone =>
    cases h' with
    | nil => rfl
    | last hfirst' _ => exact (hnone.not_none hfun hfirst').elim
    | more hfirst' _ _ => exact (hnone.not_none hfun hfirst').elim
  | last hfirst hend =>
    cases h' with
    | nil hnone' => exact (hnone'.not_none hfun hfirst).elim
    | last hfirst' _ => rw [Option.some.inj (hfirst.unique hfun hfirst')]
    | more hfirst' hlt _ =>
      obtain rfl := Option.some.inj (hfirst.unique hfun hfirst')
      omega
  | more hfirst hlt _ ih =>
    cases h' with
    | nil hnone' => exact (hnone'.not_none hfun hfirst).elim
    | last hfirst' hend =>
      obtain rfl := Option.some.inj (hfirst.unique hfun hfirst')
      omega
    | more hfirst' _ hrest =>
      obtain rfl := Option.some.inj (hfirst.unique hfun hfirst')
      rw [ih hrest]

end

end MarkedRegex
