-- The law of dictionaries: merging makes them a monoid, and each has one form.
-- A merge goes through both lists of entries side by side, and an answer is
-- found by halving the list; both rest on the order of the names.
import MarkedRegex.Proofs.Captures.ByteOrder
import MarkedRegex.Proofs.Captures.Merge

namespace MarkedRegex

namespace Entries

variable {as bs es : List (String × List String)} {e : String × List String}

/-! ## Entries in front of all others -/

theorem put_of_lt (h : ∀ x ∈ es, e.1 < x.1) : put e.1 e.2 es = e :: es := by
  cases es with
  | nil => rfl
  | cons x es => rw [put, if_pos (h x List.mem_cons_self)]

theorem name_of_mem_merge (h : e ∈ merge as bs) : (∃ x ∈ as, x.1 = e.1) ∨ ∃ x ∈ bs, x.1 = e.1 := by
  induction as generalizing e with
  | nil => exact Or.inr ⟨e, h, rfl⟩
  | cons a as ih =>
    rcases name_of_mem_put h with hname | ⟨x, hx, hname⟩
    · exact Or.inl ⟨a, List.mem_cons_self, hname.symm⟩
    · rw [← hname]
      exact (ih hx).imp_left fun ⟨y, hy, hname⟩ => ⟨y, List.mem_cons_of_mem _ hy, hname⟩

theorem lt_of_mem_merge {name : String} (ha : ∀ x ∈ as, name < x.1) (hb : ∀ x ∈ bs, name < x.1)
    (h : e ∈ merge as bs) : name < e.1 := by
  rcases name_of_mem_merge h with ⟨x, hx, hname⟩ | ⟨x, hx, hname⟩
  · exact hname ▸ ha x hx
  · exact hname ▸ hb x hx

/-- An entry of the first list goes first if its name is less than all others. -/
theorem merge_cons_left (ha : ∀ x ∈ as, e.1 < x.1) (hb : ∀ x ∈ bs, e.1 < x.1) :
    merge (e :: as) bs = e :: merge as bs :=
  put_of_lt fun _ hx => lt_of_mem_merge ha hb hx

/-- An entry of the second list goes first if its name is less than those of the first list. -/
theorem merge_cons_right (ha : ∀ x ∈ as, e.1 < x.1) : merge as (e :: bs) = e :: merge as bs := by
  induction as with
  | nil => rfl
  | cons a as ih =>
    obtain ⟨hlt, ha⟩ := List.forall_mem_cons.mp ha
    have hput : merge (a :: as) (e :: bs) = put a.1 a.2 (merge as (e :: bs)) := rfl
    rw [hput, ih ha, put, if_neg hlt.not_gt, if_pos hlt]
    rfl

/-- Entries of one name in front of both lists become one. -/
theorem merge_cons_both {values : List String} (ha : ∀ x ∈ as, e.1 < x.1) :
    merge (e :: as) ((e.1, values) :: bs) = (e.1, e.2 ++ values) :: merge as bs := by
  have hput : merge (e :: as) ((e.1, values) :: bs) =
      put e.1 e.2 (merge as ((e.1, values) :: bs)) := rfl
  have hright : merge as ((e.1, values) :: bs) = (e.1, values) :: merge as bs :=
    merge_cons_right ha
  rw [hput, hright, put, if_neg (lt_irrefl _), if_neg (lt_irrefl _)]

/-! ## Merging as a loop -/

/-- Goes through two lists of entries side by side. Each round puts the entry whose name is less
behind those that are merged already, or both as one where they share their name. -/
def mergeLoop (merged : List (String × List String)) :
    List (String × List String) → List (String × List String) → List (String × List String)
  | [], [] => merged
  | a :: as, [] => mergeLoop (merged ++ [a]) as []
  | [], b :: bs => mergeLoop (merged ++ [b]) [] bs
  | a :: as, b :: bs =>
    match compareBytes a.1 b.1 with
    | .lt => mergeLoop (merged ++ [a]) as (b :: bs)
    | .gt => mergeLoop (merged ++ [b]) (a :: as) bs
    | .eq => mergeLoop (merged ++ [(a.1, a.2 ++ b.2)]) as bs
termination_by as bs => as.length + bs.length

/-- A list without entries leaves the other one as it is. -/
def mergeByLoop (as bs : List (String × List String)) : List (String × List String) :=
  if as.isEmpty then bs else if bs.isEmpty then as else mergeLoop [] as bs

/-- What is merged already stays in front of the merge of what is left. -/
theorem mergeLoop_eq {merged : List (String × List String)} (ha : Ordered as) (hb : Ordered bs) :
    mergeLoop merged as bs = merged ++ merge as bs := by
  fun_induction mergeLoop merged as bs with
  | case1 merged => exact (List.append_nil merged).symm
  | case2 merged a as ih =>
    obtain ⟨-, has⟩ := List.pairwise_cons.mp ha
    rw [ih has hb, merge_nil ha, merge_nil has, List.append_assoc]
    rfl
  | case3 merged b bs ih =>
    rw [ih ha (List.pairwise_cons.mp hb).2, List.append_assoc]
    rfl
  | case4 merged a as b bs hcompare ih =>
    obtain ⟨hfirst, has⟩ := List.pairwise_cons.mp ha
    rw [compareBytes_eq_compare, compare_lt_iff_lt] at hcompare
    have hless : ∀ x ∈ b :: bs, a.1 < x.1 := by
      refine List.forall_mem_cons.mpr ⟨hcompare, fun x hx => ?_⟩
      exact hcompare.trans ((List.pairwise_cons.mp hb).1 x hx)
    rw [ih has hb, merge_cons_left hfirst hless, List.append_assoc]
    rfl
  | case5 merged a as b bs hcompare ih =>
    rw [compareBytes_eq_compare, compare_gt_iff_gt] at hcompare
    have hless : ∀ x ∈ a :: as, b.1 < x.1 := by
      refine List.forall_mem_cons.mpr ⟨hcompare, fun x hx => ?_⟩
      exact hcompare.trans ((List.pairwise_cons.mp ha).1 x hx)
    rw [ih ha (List.pairwise_cons.mp hb).2, merge_cons_right hless, List.append_assoc]
    rfl
  | case6 merged a as b bs hcompare ih =>
    obtain ⟨hfirst, has⟩ := List.pairwise_cons.mp ha
    obtain ⟨name, values⟩ := b
    rw [compareBytes_eq_compare, compare_eq_iff_eq] at hcompare
    obtain rfl : a.1 = name := hcompare
    rw [ih has (List.pairwise_cons.mp hb).2, merge_cons_both hfirst, List.append_assoc]
    rfl

theorem mergeByLoop_eq (ha : Ordered as) (hb : Ordered bs) : mergeByLoop as bs = merge as bs := by
  unfold mergeByLoop
  split
  · next h =>
    rw [List.isEmpty_iff.mp h]
    rfl
  · split
    · next h => rw [List.isEmpty_iff.mp h, merge_nil ha]
    · exact mergeLoop_eq ha hb

/-! ## What can be built -/

/-- The lists of entries that can be had: without entries, with one value under one name, and what
merging gives. -/
inductive Made : List (String × List String) → Prop
  | empty : Made []
  | single (name value : String) : Made [(name, [value])]
  | merge {as bs : List (String × List String)} : Made as → Made bs → Made (mergeByLoop as bs)

theorem Made.ordered (h : Made es) : Ordered es := by
  induction h with
  | empty => exact .nil
  | single => exact List.pairwise_singleton _ _
  | merge _ _ iha ihb =>
    rw [mergeByLoop_eq iha ihb]
    exact ordered_merge ihb

theorem Made.filled (h : Made es) : Filled es := by
  induction h with
  | empty => simp [Filled]
  | single => simp [Filled]
  | merge ha hb iha ihb =>
    rw [mergeByLoop_eq ha.ordered hb.ordered]
    exact filled_merge iha ihb

/-- Values under one name are merged from one value each. -/
theorem made_values (name : String) {values : List String} (h : values ≠ []) :
    Made [(name, values)] := by
  induction values with
  | nil => exact absurd rfl h
  | cons v values ih =>
    cases values with
    | nil => exact .single name v
    | cons w values =>
      have hmade := Made.merge (.single name v) (ih (by simp))
      rwa [mergeByLoop_eq (List.pairwise_singleton _ _) (List.pairwise_singleton _ _),
        merge_cons_both (by simp)] at hmade

theorem made_of_ordered (hordered : Ordered es) (hfilled : Filled es) : Made es := by
  induction es with
  | nil => exact .empty
  | cons e es ih =>
    obtain ⟨hfirst, hrest⟩ := List.pairwise_cons.mp hordered
    obtain ⟨hvalues, hfilled⟩ := List.forall_mem_cons.mp hfilled
    have hmade := Made.merge (made_values e.1 hvalues) (ih hrest hfilled)
    rwa [mergeByLoop_eq (List.pairwise_singleton _ _) hrest, merge_cons_left (by simp) hfirst]
      at hmade

/-- The names of ordered entries increase byte by byte. -/
theorem ordered_iff : Ordered es ↔ es.Pairwise fun x y => utf8 x.1 < utf8 y.1 := by
  simp only [Ordered, utf8_lt_iff]

/-! ## Searching by halves -/

/-- Looks for a name between two indices, by the entry in the middle and then in one of the
halves. -/
def searchBetween (es : List (String × List String)) (name : String) (lo hi : Nat)
    (hhi : hi ≤ es.length) : Option Nat :=
  if hlt : lo < hi then
    let mid := lo + (hi - lo) / 2
    have hmid : mid < es.length := by omega
    match compareBytes es[mid].1 name with
    | .eq => some mid
    | .lt => searchBetween es name (mid + 1) hi hhi
    | .gt => searchBetween es name lo mid (by omega)
  else none
termination_by hi - lo

/-- The index of the entry of a name. -/
def search (es : List (String × List String)) (name : String) : Option Nat :=
  searchBetween es name 0 es.length (Nat.le_refl _)

/-- Ordered entries have their names in the order of their indices. -/
theorem Ordered.lt_iff_lt (h : Ordered es) {i j : Nat} (hi : i < es.length) (hj : j < es.length) :
    es[i].1 < es[j].1 ↔ i < j := by
  have hmono := List.pairwise_iff_getElem.mp h
  constructor
  · intro hlt
    rcases Nat.lt_trichotomy i j with hij | rfl | hji
    · exact hij
    · exact absurd hlt (lt_irrefl _)
    · exact absurd (hmono j i hj hi hji) hlt.not_gt
  · exact hmono i j hi hj

/-- A name is found at an index exactly if it stands there. -/
theorem searchBetween_eq_some_iff (h : Ordered es) {name : String} {lo hi i : Nat}
    {hhi : hi ≤ es.length} :
    searchBetween es name lo hi hhi = some i ↔
      lo ≤ i ∧ i < hi ∧ ∃ hi : i < es.length, es[i].1 = name := by
  fun_induction searchBetween es name lo hi hhi with
  | case1 lo hi hhi hlt mid hmid hcompare =>
    rw [compareBytes_eq_compare, compare_eq_iff_eq] at hcompare
    constructor
    · intro heq
      obtain rfl : mid = i := Option.some.inj heq
      exact ⟨by omega, by omega, hmid, hcompare⟩
    · rintro ⟨-, -, hi, rfl⟩
      have hlo := (h.lt_iff_lt hmid hi).not.mp hcompare.not_lt
      have hge := (h.lt_iff_lt hi hmid).not.mp hcompare.not_gt
      rw [Option.some_inj]
      omega
  | case2 lo hi hhi hlt mid hmid hcompare ih =>
    rw [compareBytes_eq_compare, compare_lt_iff_lt] at hcompare
    rw [ih]
    constructor
    · rintro ⟨hlo, hhi, hname⟩
      exact ⟨by omega, hhi, hname⟩
    · rintro ⟨-, hhi, hi, rfl⟩
      exact ⟨(h.lt_iff_lt hmid hi).mp hcompare, hhi, hi, rfl⟩
  | case3 lo hi hhi hlt mid hmid hcompare ih =>
    rw [compareBytes_eq_compare, compare_gt_iff_gt] at hcompare
    rw [ih]
    constructor
    · rintro ⟨hlo, hhi, hname⟩
      exact ⟨hlo, by omega, hname⟩
    · rintro ⟨hlo, -, hi, rfl⟩
      exact ⟨hlo, (h.lt_iff_lt hi hmid).mp hcompare, hi, rfl⟩
  | case4 => 
    simp only [reduceCtorEq, false_iff]
    rintro ⟨hlo, hhi, -⟩
    omega

theorem search_eq_some_iff (h : Ordered es) {name : String} {i : Nat} :
    search es name = some i ↔ (es.map (·.1))[i]? = some name := by
  rw [search, searchBetween_eq_some_iff h]
  simp [List.getElem?_eq_some_iff]

/-- The values at the index that is found for a name. -/
def valuesBySearch (es : List (String × List String)) (name : String) : List String :=
  match search es name with
  | some i => (es[i]?.map (·.2)).getD []
  | none => []

theorem valuesAt_of_getElem? (h : Ordered es) {i : Nat} {name : String} {values : List String}
    (hi : es[i]? = some (name, values)) : valuesAt name es = values := by
  induction es generalizing i with
  | nil => simp at hi
  | cons e es ih =>
    obtain ⟨hfirst, hrest⟩ := List.pairwise_cons.mp h
    cases i with
    | zero =>
      obtain rfl : e = (name, values) := by simpa using hi
      rw [valuesAt_cons, if_pos rfl]
    | succ i =>
      rw [List.getElem?_cons_succ] at hi
      have hlt : e.1 < name := hfirst _ (List.mem_of_getElem? hi)
      rw [valuesAt_cons, if_neg hlt.ne', ih hrest hi]

theorem valuesBySearch_eq (h : Ordered es) (name : String) :
    valuesBySearch es name = valuesAt name es := by
  unfold valuesBySearch
  cases hs : search es name with
  | some i =>
    have hname := (search_eq_some_iff h).mp hs
    rw [List.getElem?_map, Option.map_eq_some_iff] at hname
    obtain ⟨⟨_, values⟩, hentry, rfl⟩ := hname
    simp [hentry, valuesAt_of_getElem? h hentry]
  | none =>
    refine (valuesAt_eq_nil_of_notMem fun hname => ?_).symm
    obtain ⟨i, hi⟩ := List.mem_iff_getElem?.mp hname
    rw [(search_eq_some_iff h).mpr hi] at hs
    cases hs

end Entries

/-! ## The law -/

/-- Dictionaries form a monoid, and each of them has one form. Their entries are what is made of
single values by the merging loop: names increase byte by byte, and none is without a value. A merge
answers each name with the values of both sides, those of the first in front; so merging is
associative, an empty dictionary changes nothing, and dictionaries that answer alike are the same.
The search by halves finds a name exactly where it stands, and gives its values. -/
theorem dictionaries_form_a_monoid_and_have_one_form (a b c : Captures) :
    (∀ es, Entries.Made es ↔ ∃ d : Captures, d.entries = es) ∧
    (let es := Entries.mergeByLoop a.entries b.entries;
      es = (a.merge b).entries ∧ es.Pairwise (fun x y => utf8 x.1 < utf8 y.1) ∧
        ∀ e ∈ es, e.2 ≠ []) ∧
    (∀ name, (a.merge b).get name = a.get name ++ b.get name) ∧
    (∀ name i, Entries.search a.entries name = some i ↔ a.names[i]? = some name) ∧
    (∀ name, Entries.valuesBySearch a.entries name = a.get name) ∧
    (∀ name, a.contains name = true ↔ name ∈ a.names) ∧
    (a.merge b).merge c = a.merge (b.merge c) ∧
    (∅ : Captures).merge a = a ∧ a.merge ∅ = a ∧
    (a = b ↔ ∀ name, a.get name = b.get name) := by
  have hmade : ∀ es, Entries.Made es ↔ ∃ d : Captures, d.entries = es := by
    intro es
    constructor
    · exact fun h => ⟨⟨es, h.ordered, h.filled⟩, rfl⟩
    · rintro ⟨d, rfl⟩
      exact Entries.made_of_ordered d.ordered d.filled
  have hloop : Entries.mergeByLoop a.entries b.entries = (a.merge b).entries :=
    Entries.mergeByLoop_eq a.ordered b.ordered
  have hresult := Entries.Made.merge ((hmade _).mpr ⟨a, rfl⟩) ((hmade _).mpr ⟨b, rfl⟩)
  exact ⟨hmade, ⟨hloop, Entries.ordered_iff.mp hresult.ordered, hresult.filled⟩,
    Captures.get_merge a b, fun _ _ => Entries.search_eq_some_iff a.ordered,
    Entries.valuesBySearch_eq a.ordered, fun _ => Captures.contains_iff,
    Captures.merge_assoc a b c, Captures.empty_merge a, Captures.merge_empty a,
    fun h _ => h ▸ rfl, Captures.ext_get⟩

end MarkedRegex
