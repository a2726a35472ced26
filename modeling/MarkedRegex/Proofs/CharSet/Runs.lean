-- Sets as runs of characters. Members tell a set, for its cuts stand where
-- membership switches, and a character is a member where it lies in a run.
import MarkedRegex.CharSet

namespace MarkedRegex

/-! ## Cuts -/

namespace Cuts

variable {now : Bool} {cuts xs ys : List Nat} {n : Nat}

theorem inside_head {x : Nat} (h : Increasing (x :: xs)) : inside now (x :: xs) x = !now := by
  rw [inside, if_neg (Nat.lt_irrefl x)]
  exact inside_of_lt (List.pairwise_cons.mp h).1

/-- What is inside tells the cuts: at the smaller of two different heads, only one of the lists
would switch. -/
theorem eq_of_inside_eq (now : Bool) (hx : Increasing xs) (hy : Increasing ys)
    (h : ∀ n, inside now xs n = inside now ys n) : xs = ys := by
  induction xs generalizing now ys with
  | nil =>
    cases ys with
    | nil => rfl
    | cons y ys =>
      have hhead := h y
      rw [inside_head hy] at hhead
      simp [inside] at hhead
  | cons x xs ih =>
    cases ys with
    | nil =>
      have hhead := h x
      rw [inside_head hx] at hhead
      simp [inside] at hhead
    | cons y ys =>
      obtain rfl : x = y := by
        rcases Nat.lt_trichotomy x y with hlt | heq | hlt
        · have hhead := h x
          rw [inside_head hx, inside, if_pos hlt] at hhead
          simp at hhead
        · exact heq
        · have hhead := h y
          rw [inside_head hy, inside, if_pos hlt] at hhead
          simp at hhead
      obtain ⟨hltx, hx⟩ := List.pairwise_cons.mp hx
      obtain ⟨hlty, hy⟩ := List.pairwise_cons.mp hy
      congr 1
      refine ih (!now) hx hy fun n => ?_
      by_cases hn : n < x
      · rw [inside_of_lt fun z hz => Nat.lt_trans hn (hltx z hz),
          inside_of_lt fun z hz => Nat.lt_trans hn (hlty z hz)]
      · have hbehind := h n
        rwa [inside, inside, if_neg hn, if_neg hn] at hbehind

/-- Where nothing is inside from some number on, the cuts come in pairs, and each pair bounds a
stretch: a cut on its own would leave everything behind it inside. -/
theorem inside_iff_stretch {k : Nat} (h : Increasing cuts)
    (hend : ∀ n, k ≤ n → inside false cuts n = false) :
    inside false cuts n = true ↔ ∃ xy ∈ stretches cuts, xy.1 ≤ n ∧ n < xy.2 := by
  fun_induction stretches cuts with
  | case1 x y rest ih =>
    obtain ⟨hx, htail⟩ := List.pairwise_cons.mp h
    obtain ⟨hy, hrest⟩ := List.pairwise_cons.mp htail
    have hxy : x < y := hx y List.mem_cons_self
    have hbehind : ∀ n, inside false (x :: y :: rest) n =
        if n < x then false else if n < y then true else inside false rest n := fun _ => rfl
    have hrestEnd : ∀ n, k ≤ n → inside false rest n = false := by
      intro n hn
      by_cases hlt : n < y
      · exact inside_of_lt fun z hz => Nat.lt_trans hlt (hy z hz)
      · have hrestDecides := hend n hn
        rwa [hbehind, if_neg (by omega), if_neg hlt] at hrestDecides
    rw [hbehind]
    simp only [List.mem_cons, exists_eq_or_imp]
    rw [← ih hrest hrestEnd]
    by_cases hltx : n < x
    · have hnone : inside false rest n = false :=
        inside_of_lt fun z hz => Nat.lt_trans (Nat.lt_trans hltx hxy) (hy z hz)
      rw [if_pos hltx, hnone]
      refine iff_of_false Bool.false_ne_true ?_
      rintro (hin | hin)
      · omega
      · cases hin
    · by_cases hlty : n < y
      · rw [if_neg hltx, if_pos hlty]
        exact iff_of_true rfl (Or.inl ⟨Nat.le_of_not_lt hltx, hlty⟩)
      · rw [if_neg hltx, if_neg hlty]
        exact (or_iff_right fun hin => hlty hin.2).symm
  | case2 cuts hcuts =>
    cases cuts with
    | nil => simp [inside]
    | cons x rest =>
      cases rest with
      | nil =>
        have hall := hend (max k x) (Nat.le_max_left k x)
        have hx : ¬max k x < x := Nat.not_lt.mpr (Nat.le_max_right k x)
        simp [inside, hx] at hall
      | cons y rest => exact absurd rfl (hcuts x y rest)

theorem lt_of_mem_stretches {xy : Nat × Nat} (h : Increasing cuts) (hxy : xy ∈ stretches cuts) :
    xy.1 < xy.2 := by
  fun_induction stretches cuts with
  | case1 x y rest ih =>
    obtain ⟨hx, htail⟩ := List.pairwise_cons.mp h
    rcases List.mem_cons.mp hxy with rfl | hxy
    · exact hx y List.mem_cons_self
    · exact ih (List.pairwise_cons.mp htail).2 hxy
  | case2 cuts hcuts => cases hxy

theorem fst_mem_of_mem_stretches {xy : Nat × Nat} (hxy : xy ∈ stretches cuts) : xy.1 ∈ cuts := by
  fun_induction stretches cuts with
  | case1 x y rest ih =>
    rcases List.mem_cons.mp hxy with rfl | hxy
    · exact List.mem_cons_self
    · exact List.mem_cons_of_mem _ (List.mem_cons_of_mem _ (ih hxy))
  | case2 cuts hcuts => cases hxy

/-- A stretch starts behind the number after the last of an earlier one. -/
theorem apart_stretches (h : Increasing cuts) :
    (stretches cuts).Pairwise fun xy xy' => xy.2 < xy'.1 := by
  fun_induction stretches cuts with
  | case1 x y rest ih =>
    obtain ⟨hy, hrest⟩ := List.pairwise_cons.mp (List.pairwise_cons.mp h).2
    exact List.pairwise_cons.mpr ⟨fun xy hxy => hy _ (fst_mem_of_mem_stretches hxy), ih hrest⟩
  | case2 cuts hcuts => exact .nil

end Cuts

/-! ## Sets -/

namespace CharSet

variable {s t : CharSet} {c : Char} {n : Nat}

theorem toNat_ofNat (h : n.isValidChar) : (Char.ofNat n).toNat = n := by
  rw [Char.ofNat, dif_pos h]
  rfl

/-- Sets with the same members are the same. -/
theorem eq_of_contains_eq (h : ∀ c, s.contains c = t.contains c) : s = t := by
  have hcuts : s.cuts = t.cuts := by
    refine Cuts.eq_of_inside_eq false s.increasing t.increasing fun n => ?_
    by_cases hn : n.isValidChar
    · have hc := h (Char.ofNat n)
      unfold contains at hc
      rwa [toNat_ofNat hn] at hc
    · have hout (s : CharSet) : Cuts.inside false s.cuts n = false := by
        rw [← Bool.not_eq_true]
        exact fun hin => hn (s.scalar n hin)
      rw [hout s, hout t]
  cases s
  cases t
  simp_all

/-- No code point is a member from the end of Unicode on, so each stretch of a set ends. -/
theorem inside_iff_stretch :
    Cuts.inside false s.cuts n = true ↔
      ∃ xy ∈ Cuts.stretches s.cuts, xy.1 ≤ n ∧ n < xy.2 := by
  refine Cuts.inside_iff_stretch (k := 0x110000) s.increasing fun n hn => ?_
  rw [← Bool.not_eq_true]
  intro hin
  have hvalid := s.scalar n hin
  simp only [Nat.isValidChar] at hvalid
  omega

/-- The first and the last code point of a stretch are characters. -/
theorem ends_of_stretch {xy : Nat × Nat} (h : xy ∈ Cuts.stretches s.cuts) :
    xy.1 < xy.2 ∧ (Char.ofNat xy.1).toNat = xy.1 ∧
      (Char.ofNat (xy.2 - 1)).toNat = xy.2 - 1 := by
  have hlt := Cuts.lt_of_mem_stretches s.increasing h
  have hvalid {n : Nat} (hn : xy.1 ≤ n ∧ n < xy.2) : n.isValidChar :=
    s.scalar n (inside_iff_stretch.mpr ⟨xy, h, hn⟩)
  exact ⟨hlt, toNat_ofNat (hvalid ⟨Nat.le_refl _, hlt⟩), toNat_ofNat (hvalid (by omega))⟩

theorem run_le {run : Char × Char} (h : run ∈ s.ranges) : run.1.toNat ≤ run.2.toNat := by
  obtain ⟨xy, hxy, rfl⟩ := List.mem_map.mp h
  obtain ⟨hlt, hfirst, hlast⟩ := ends_of_stretch hxy
  simp only [hfirst, hlast]
  omega

/-- A character is a member where it lies in a run. -/
theorem contains_iff_run :
    s.contains c = true ↔ ∃ run ∈ s.ranges, run.1.toNat ≤ c.toNat ∧ c.toNat ≤ run.2.toNat := by
  unfold contains
  rw [inside_iff_stretch]
  constructor
  · rintro ⟨xy, hxy, hc⟩
    obtain ⟨hlt, hfirst, hlast⟩ := ends_of_stretch hxy
    refine ⟨_, List.mem_map.mpr ⟨xy, hxy, rfl⟩, ?_⟩
    simp only [hfirst, hlast]
    omega
  · rintro ⟨run, hrun, hc⟩
    obtain ⟨xy, hxy, rfl⟩ := List.mem_map.mp hrun
    obtain ⟨hlt, hfirst, hlast⟩ := ends_of_stretch hxy
    simp only [hfirst, hlast] at hc
    exact ⟨xy, hxy, by omega⟩

/-- A set with one member is the set of that one. -/
theorem eq_singleton_of_single? (h : s.single? = some c) : s = singleton c := by
  unfold single? at h
  split at h
  · next x y hcuts =>
    split at h
    · next hy =>
      have hin : Cuts.inside false s.cuts x = true := by simp [hcuts, Cuts.inside, hy]
      obtain rfl : Char.ofNat x = c := Option.some.inj h
      have hx : (Char.ofNat x).toNat = x := toNat_ofNat (s.scalar x hin)
      refine eq_of_contains_eq fun d => ?_
      have hd : d = Char.ofNat x ↔ d.toNat = x := by rw [← Char.toNat_inj, hx]
      rw [contains_singleton, Bool.eq_iff_iff, decide_eq_true_eq, hd, contains, hcuts, hy]
      simp only [Cuts.inside]
      grind
    · cases h
  · cases h

end CharSet

end MarkedRegex
