-- The law of sets of characters. Membership follows what was done to sets and
-- tells them apart, and a pass over the members in order finds the ranges.
import MarkedRegex.Proofs.CharSet.Decomposition

namespace MarkedRegex

namespace CharSet

variable {s t : CharSet} {c d : Char} {cs : List Char} {runs : List (Char × Char)}

/-! ## Members -/

@[simp] theorem mem_union : c ∈ s.union t ↔ c ∈ s ∨ c ∈ t := by simp [mem_iff]

@[simp] theorem mem_intersection : c ∈ s.intersection t ↔ c ∈ s ∧ c ∈ t := by simp [mem_iff]

@[simp] theorem mem_difference : c ∈ s.difference t ↔ c ∈ s ∧ c ∉ t := by simp [mem_iff]

@[simp] theorem mem_insert : c ∈ s.insert d ↔ c ∈ s ∨ c = d := by simp [mem_iff]

@[simp] theorem mem_extend : c ∈ s.extend cs ↔ c ∈ s ∨ c ∈ cs := by simp [mem_iff]

@[simp] theorem mem_ofList : c ∈ ofList cs ↔ c ∈ cs := by simp [mem_iff]

@[simp] theorem mem_range {lo hi : Char} : c ∈ range lo hi ↔ lo ≤ c ∧ c ≤ hi := by
  simp [mem_iff, le_iff_toNat_le]

theorem eq_iff_mem_iff : s = t ↔ ∀ c, c ∈ s ↔ c ∈ t :=
  ⟨fun h _ => h ▸ Iff.rfl, fun h => eq_of_contains_eq fun c => Bool.eq_iff_iff.mpr (h c)⟩

/-! ## Members in order -/

theorem mem_stretch {xy : Nat × Nat} (hxy : xy ∈ Cuts.stretches s.cuts) :
    c ∈ (List.range' xy.1 (xy.2 - xy.1)).map Char.ofNat ↔ xy.1 ≤ c.toNat ∧ c.toNat < xy.2 := by
  simp only [List.mem_map, List.mem_range'_1]
  constructor
  · rintro ⟨n, hn, rfl⟩
    have hn : xy.1 ≤ n ∧ n < xy.2 := by omega
    rwa [toNat_of_stretch hxy hn]
  · intro hc
    exact ⟨c.toNat, by omega, Char.ofNat_toNat c⟩

@[simp] theorem mem_toList : c ∈ s.toList ↔ c ∈ s := by
  rw [toList, List.mem_flatMap, mem_iff, contains, inside_iff_stretch]
  exact exists_congr fun xy => and_congr_right fun hxy => mem_stretch hxy

theorem pairwise_lt_toList (s : CharSet) : s.toList.Pairwise (· < ·) := by
  refine List.pairwise_flatMap.mpr ⟨fun xy hxy => ?_, ?_⟩
  · rw [List.pairwise_map]
    refine List.Pairwise.imp_of_mem (fun {m n} hm hn hlt => ?_) List.pairwise_lt_range'
    rw [List.mem_range'_1] at hm hn
    rwa [lt_iff_toNat_lt, toNat_of_stretch hxy (by omega), toNat_of_stretch hxy (by omega)]
  · refine (Cuts.apart_stretches s.increasing).imp_of_mem fun {xy xy'} hxy hxy' hapart => ?_
    intro c hc d hd
    have hbefore := ((mem_stretch hxy).mp hc).2
    have hbehind := ((mem_stretch hxy').mp hd).1
    rw [lt_iff_toNat_lt]
    omega

theorem ofList_toList (s : CharSet) : ofList s.toList = s := by
  simp [eq_iff_mem_iff]

/-! ## Runs in one pass -/

/-- One turn of the pass: a character right behind the last run becomes its end, and any other
character starts a run. -/
def addToRuns (runs : List (Char × Char)) (c : Char) : List (Char × Char) :=
  match runs.getLast? with
  | some (lo, hi) =>
    if hi.toNat + 1 = c.toNat then runs.dropLast ++ [(lo, c)] else runs ++ [(c, c)]
  | none => runs ++ [(c, c)]

/-- The runs of characters that come in order. -/
def runsOf (cs : List Char) : List (Char × Char) := cs.foldl addToRuns []

theorem addToRuns_append (lo hi : Char) :
    addToRuns (runs ++ [(lo, hi)]) c =
      if hi.toNat + 1 = c.toNat then runs ++ [(lo, c)] else runs ++ [(lo, hi)] ++ [(c, c)] := by
  simp [addToRuns]

/-- What a decomposition says of its last run and of those before it. -/
theorem decomposes_concat_iff {lo hi : Char} :
    Decomposes (runs ++ [(lo, hi)]) s ↔
      (runs.Pairwise (fun r r' => r.2.toNat + 1 < r'.1.toNat) ∧
        ∀ r ∈ runs, r.2.toNat + 1 < lo.toNat) ∧
      ((∀ r ∈ runs, s.IsRun r.1 r.2) ∧ s.IsRun lo hi) ∧
      ∀ c ∈ s, (∃ r ∈ runs, r.1 ≤ c ∧ c ≤ r.2) ∨ lo ≤ c ∧ c ≤ hi := by
  simp only [decomposes_iff, List.pairwise_append, List.pairwise_singleton, List.mem_append,
    List.mem_singleton, or_imp, forall_and, forall_eq, or_and_right, exists_or, exists_eq_left,
    true_and]

/-- A character may start a run where no run reaches it. -/
theorem Decomposes.start (h : Decomposes runs s) (hc : ∀ r ∈ runs, r.2.toNat + 1 < c.toNat) :
    Decomposes (runs ++ [(c, c)]) (s.insert c) := by
  have hself : (s.insert c).IsRun c c := isRun_self (mem_insert.mpr (Or.inr rfl))
  refine decomposes_concat_iff.mpr ⟨⟨h.apart, hc⟩, ⟨fun r hr => ?_, hself⟩, fun d hd => ?_⟩
  · exact (h.isRun r hr).mono fun d hd => mem_insert.mpr (Or.inl hd)
  · rcases mem_insert.mp hd with hd | rfl
    · exact Or.inl (h.covers d hd)
    · exact Or.inr ⟨le_refl d, le_refl d⟩

theorem IsRun.grow {lo hi : Char} (h : s.IsRun lo hi) (hc : hi.toNat + 1 = c.toNat) :
    (s.insert c).IsRun lo c := by
  have hle := h.le
  rw [le_iff_toNat_le] at hle
  refine ⟨le_iff_toNat_le.mpr (by omega), fun n hlo hhi => ?_⟩
  by_cases hn : n = c.toNat
  · exact ⟨c, mem_insert.mpr (Or.inr rfl), hn.symm⟩
  · obtain ⟨d, hd, hcode⟩ := h.members n hlo (by omega)
    exact ⟨d, mem_insert.mpr (Or.inl hd), hcode⟩

/-- The last run may take in the character right behind it. -/
theorem Decomposes.grow {lo hi : Char} (h : Decomposes (runs ++ [(lo, hi)]) s)
    (hc : hi.toNat + 1 = c.toNat) : Decomposes (runs ++ [(lo, c)]) (s.insert c) := by
  obtain ⟨hapart, ⟨hruns, hlast⟩, hcovers⟩ := decomposes_concat_iff.mp h
  have hgrown := hlast.grow hc
  refine decomposes_concat_iff.mpr ⟨hapart, ⟨fun r hr => ?_, hgrown⟩, fun d hd => ?_⟩
  · exact (hruns r hr).mono fun d hd => mem_insert.mpr (Or.inl hd)
  · rcases mem_insert.mp hd with hd | rfl
    · have hend : hi ≤ c := le_iff_toNat_le.mpr (by omega)
      exact (hcovers d hd).imp_right fun hin => ⟨hin.1, le_trans hin.2 hend⟩
    · exact Or.inr ⟨hgrown.le, le_refl d⟩

/-- A turn of the pass takes in a character behind all members so far. Where it starts a run, the
last run ends before it and not right before it, and all others end before the last. -/
theorem decomposes_addToRuns (h : Decomposes runs s) (hc : ∀ d ∈ s, d < c) :
    Decomposes (addToRuns runs c) (s.insert c) := by
  rcases List.eq_nil_or_concat runs with rfl | ⟨before, ⟨lo, hi⟩, rfl⟩
  · exact h.start (by simp)
  · rw [List.concat_eq_append] at h ⊢
    rw [addToRuns_append]
    split
    · next hnext => exact h.grow hnext
    · next hnext =>
      obtain ⟨⟨-, hbehind⟩, ⟨-, hlast⟩, -⟩ := decomposes_concat_iff.mp h
      have hle := hlast.le
      have hlt := hc hi (hlast.mem hle (le_refl hi))
      rw [le_iff_toNat_le] at hle
      rw [lt_iff_toNat_lt] at hlt
      have hnear : hi.toNat + 1 < c.toNat := by omega
      refine h.start (List.forall_mem_append.mpr ⟨fun r hr => ?_, by simpa using hnear⟩)
      have hapart := hbehind r hr
      omega

/-- The whole pass takes in characters that come in order, behind all members so far. -/
theorem decomposes_foldl (h : Decomposes runs s) (hbehind : ∀ d ∈ s, ∀ c ∈ cs, d < c)
    (hcs : cs.Pairwise (· < ·)) : Decomposes (cs.foldl addToRuns runs) (s.extend cs) := by
  induction cs generalizing runs s with
  | nil => exact h
  | cons c cs ih =>
    obtain ⟨hfirst, hcs⟩ := List.pairwise_cons.mp hcs
    refine ih (decomposes_addToRuns h fun d hd => hbehind d hd c List.mem_cons_self) ?_ hcs
    intro d hd e he
    rcases mem_insert.mp hd with hd | rfl
    · exact hbehind d hd e (List.mem_cons_of_mem _ he)
    · exact hfirst e he

/-- The pass over the members gives a decomposition, and a set has only one. -/
theorem runsOf_toList (s : CharSet) : runsOf s.toList = s.ranges := by
  have hempty : Decomposes [] (∅ : CharSet) := ⟨.nil, by simp, by simp [mem_iff]⟩
  have hpass := decomposes_foldl hempty (by simp [mem_iff]) s.pairwise_lt_toList
  have hset : (∅ : CharSet).extend s.toList = s := s.ofList_toList
  rw [hset] at hpass
  exact hpass.unique s.decomposes_ranges

end CharSet

/-! ## The law -/

/-- A set is told by its members. A union, an intersection, a difference, a collected or extended
set and a range, which goes on behind the surrogates, have the members that set theory gives them,
and sets with the same members are equal. The ranges of a set are what one pass over its members in
order finds: the runs of consecutive code points that no other run goes beyond. They ascend with a
gap between any two, and the members are the characters that lie in one of them. -/
theorem sets_are_told_by_their_members_and_fall_into_maximal_runs (a b : CharSet) :
    (∀ c, c ∈ a.union b ↔ c ∈ a ∨ c ∈ b) ∧
    (∀ c, c ∈ a.intersection b ↔ c ∈ a ∧ c ∈ b) ∧
    (∀ c, c ∈ a.difference b ↔ c ∈ a ∧ c ∉ b) ∧
    (∀ cs c, c ∈ CharSet.ofList cs ↔ c ∈ cs) ∧
    (∀ cs c, c ∈ a.extend cs ↔ c ∈ a ∨ c ∈ cs) ∧
    (∀ lo hi c, c ∈ CharSet.range lo hi ↔ lo ≤ c ∧ c ≤ hi) ∧
    ((a == b) = true ↔ ∀ c, c ∈ a ↔ c ∈ b) ∧
    a.toList.Pairwise (· < ·) ∧ (∀ c, c ∈ a.toList ↔ c ∈ a) ∧
    CharSet.runsOf a.toList = a.ranges ∧
    a.ranges.Pairwise (fun r r' => r.2.toNat + 1 < r'.1.toNat) ∧
    (∀ lo hi, (lo, hi) ∈ a.ranges ↔ a.IsMaximalRun lo hi) ∧
    (∀ c, c ∈ a ↔ ∃ r ∈ a.ranges, r.1 ≤ c ∧ c ≤ r.2) := by
  have hranges := a.decomposes_ranges
  exact ⟨fun _ => CharSet.mem_union, fun _ => CharSet.mem_intersection,
    fun _ => CharSet.mem_difference, fun _ _ => CharSet.mem_ofList, fun _ _ => CharSet.mem_extend,
    fun _ _ _ => CharSet.mem_range, beq_iff_eq.trans CharSet.eq_iff_mem_iff,
    a.pairwise_lt_toList, fun _ => CharSet.mem_toList, a.runsOf_toList,
    hranges.apart, fun _ _ => hranges.mem_iff_isMaximalRun, fun _ => hranges.mem_iff⟩

-- the characters on both sides of the surrogates are neighbours, but their code points are not
example : ((CharSet.range 'a' 'c').union (CharSet.range '\ud7ff' '\ue000')).ranges =
    [('a', 'c'), ('\ud7ff', '\ud7ff'), ('\ue000', '\ue000')] := by
  decide +kernel

end MarkedRegex
