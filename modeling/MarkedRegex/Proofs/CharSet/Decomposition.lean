-- Sets taken apart into runs. A list of runs that stand apart from each other and
-- hold the members of a set is the only one of that set: its runs are those that
-- no other run goes beyond. The ranges of a set are this list.
import MarkedRegex.Proofs.CharSet.Runs
import Mathlib.Data.Char
import Mathlib.Data.List.Perm.Basic
import Mathlib.Tactic.MkIffOfInductiveProp

namespace MarkedRegex

namespace CharSet

variable {s t : CharSet} {lo hi c : Char} {runs others : List (Char × Char)}

theorem le_iff_toNat_le : lo ≤ hi ↔ lo.toNat ≤ hi.toNat := Iff.rfl

theorem lt_iff_toNat_lt : lo < hi ↔ lo.toNat < hi.toNat := Iff.rfl

/-! ## Runs -/

/-- Every code point from `lo` to `hi` is that of a member, so none of them is a surrogate. -/
structure IsRun (s : CharSet) (lo hi : Char) : Prop where
  le : lo ≤ hi
  members : ∀ n, lo.toNat ≤ n → n ≤ hi.toNat → ∃ c ∈ s, c.toNat = n

/-- A run that no other run goes beyond. -/
structure IsMaximalRun (s : CharSet) (lo hi : Char) : Prop extends IsRun s lo hi where
  maximal : ∀ lo' hi', s.IsRun lo' hi' → lo' ≤ lo → hi ≤ hi' → lo' = lo ∧ hi' = hi

theorem isRun_self (h : c ∈ s) : s.IsRun c c :=
  ⟨le_refl c, fun _ hlo hhi => ⟨c, h, Nat.le_antisymm hlo hhi⟩⟩

theorem IsRun.mono (h : s.IsRun lo hi) (hst : ∀ c ∈ s, c ∈ t) : t.IsRun lo hi where
  le := h.le
  members n hlo hhi := (h.members n hlo hhi).imp fun c hc => ⟨hst c hc.1, hc.2⟩

theorem IsRun.mem (h : s.IsRun lo hi) (hlo : lo ≤ c) (hhi : c ≤ hi) : c ∈ s := by
  obtain ⟨d, hd, hcode⟩ := h.members c.toNat hlo hhi
  rwa [← Char.toNat_inj.mp hcode]

/-! ## Decompositions -/

/-- The runs hold the members and nothing else. They stand in order, and at least one code point
stands between any two. -/
@[mk_iff]
structure Decomposes (runs : List (Char × Char)) (s : CharSet) : Prop where
  apart : runs.Pairwise fun r r' => r.2.toNat + 1 < r'.1.toNat
  isRun : ∀ r ∈ runs, s.IsRun r.1 r.2
  covers : ∀ c ∈ s, ∃ r ∈ runs, r.1 ≤ c ∧ c ≤ r.2

namespace Decomposes

theorem mem_iff (h : Decomposes runs s) : c ∈ s ↔ ∃ r ∈ runs, r.1 ≤ c ∧ c ≤ r.2 := by
  refine ⟨h.covers c, ?_⟩
  rintro ⟨r, hr, hlo, hhi⟩
  exact (h.isRun r hr).mem hlo hhi

theorem eq_or_apart (h : Decomposes runs s) {r r' : Char × Char} (hr : r ∈ runs)
    (hr' : r' ∈ runs) :
    r = r' ∨ r.2.toNat + 1 < r'.1.toNat ∨ r'.2.toNat + 1 < r.1.toNat := by
  have hapart := List.pairwise_iff_getElem.mp h.apart
  obtain ⟨i, hi, rfl⟩ := List.mem_iff_getElem.mp hr
  obtain ⟨j, hj, rfl⟩ := List.mem_iff_getElem.mp hr'
  rcases Nat.lt_trichotomy i j with hij | rfl | hji
  · exact Or.inr (Or.inl (hapart i j hi hj hij))
  · exact Or.inl rfl
  · exact Or.inr (Or.inr (hapart j i hj hi hji))

/-- A run of the set lies within one run of the list. If it went beyond, the code point right behind
that one would be of a member, but no run may start there. -/
theorem exists_of_isRun (h : Decomposes runs s) (hrun : s.IsRun lo hi) :
    ∃ r ∈ runs, r.1 ≤ lo ∧ hi ≤ r.2 := by
  obtain ⟨r, hr, hlo, hin⟩ := h.covers lo (hrun.mem (le_refl lo) hrun.le)
  refine ⟨r, hr, hlo, not_lt.mp fun hout => ?_⟩
  rw [lt_iff_toNat_lt] at hout
  rw [le_iff_toNat_le] at hin
  obtain ⟨d, hd, hcode⟩ := hrun.members (r.2.toNat + 1) (by omega) hout
  obtain ⟨r', hr', hlo', hhi'⟩ := h.covers d hd
  have hle := (h.isRun r hr).le
  rw [le_iff_toNat_le] at hlo' hhi' hle
  rcases h.eq_or_apart hr hr' with rfl | hapart | hapart <;> omega

/-- The runs of the list are the maximal ones: one that goes beyond another cannot stand apart from
it. -/
theorem mem_iff_isMaximalRun (h : Decomposes runs s) :
    (lo, hi) ∈ runs ↔ s.IsMaximalRun lo hi := by
  constructor
  · intro hmem
    refine ⟨h.isRun _ hmem, fun lo' hi' hrun hlo hhi => ?_⟩
    obtain ⟨r, hr, hlo', hhi'⟩ := h.exists_of_isRun hrun
    obtain rfl : r = (lo, hi) := by
      have hle : lo ≤ hi := (h.isRun _ hmem).le
      refine (h.eq_or_apart hr hmem).resolve_right ?_
      simp only [le_iff_toNat_le] at *
      omega
    exact ⟨le_antisymm hlo hlo', le_antisymm hhi' hhi⟩
  · intro hmax
    obtain ⟨r, hr, hlo, hhi⟩ := h.exists_of_isRun hmax.toIsRun
    obtain ⟨rfl, rfl⟩ := hmax.maximal r.1 r.2 (h.isRun r hr) hlo hhi
    exact hr

theorem nodup (h : Decomposes runs s) : runs.Nodup := by
  refine h.apart.imp_of_mem fun {r r'} hr _ hapart heq => ?_
  have hle := (h.isRun r hr).le
  rw [le_iff_toNat_le] at hle
  subst heq
  omega

/-- A set has one decomposition. -/
theorem unique (h : Decomposes runs s) (h' : Decomposes others s) : runs = others := by
  have hperm : runs.Perm others := by
    refine (List.perm_ext_iff_of_nodup h.nodup h'.nodup).mpr fun r => ?_
    rw [h.mem_iff_isMaximalRun, h'.mem_iff_isMaximalRun]
  refine hperm.eq_of_pairwise (fun r r' hr hr' hapart hapart' => ?_) h.apart h'.apart
  have hle := (h.isRun r hr).le
  have hle' := (h'.isRun r' hr').le
  rw [le_iff_toNat_le] at hle hle'
  omega

end Decomposes

/-! ## Ranges -/

/-- Each number of a stretch is the code point of a member. -/
theorem toNat_of_stretch {xy : Nat × Nat} {n : Nat} (hxy : xy ∈ Cuts.stretches s.cuts)
    (hn : xy.1 ≤ n ∧ n < xy.2) : (Char.ofNat n).toNat = n :=
  toNat_ofNat (s.scalar n (inside_iff_stretch.mpr ⟨xy, hxy, hn⟩))

theorem decomposes_ranges (s : CharSet) : Decomposes s.ranges s where
  apart := by
    unfold ranges
    rw [List.pairwise_map]
    refine (Cuts.apart_stretches s.increasing).imp_of_mem fun {xy xy'} hxy hxy' hapart => ?_
    obtain ⟨hlt, -, hlast⟩ := ends_of_stretch hxy
    obtain ⟨-, hfirst, -⟩ := ends_of_stretch hxy'
    simp only [hlast, hfirst]
    omega
  isRun := by
    intro r hr
    refine ⟨run_le hr, fun n hlo hhi => ?_⟩
    obtain ⟨xy, hxy, rfl⟩ := List.mem_map.mp hr
    obtain ⟨hlt, hfirst, hlast⟩ := ends_of_stretch hxy
    simp only [hfirst, hlast] at hlo hhi
    have hn : xy.1 ≤ n ∧ n < xy.2 := by omega
    have hcode := toNat_of_stretch hxy hn
    refine ⟨Char.ofNat n, ?_, hcode⟩
    rw [mem_iff, contains, hcode]
    exact inside_iff_stretch.mpr ⟨xy, hxy, hn⟩
  covers c hc := contains_iff_run.mp hc

end CharSet

end MarkedRegex
