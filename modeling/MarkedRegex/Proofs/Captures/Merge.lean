-- The algebra of merging. A dictionary is told by what it answers for each
-- name, and merging answers with the values of both sides, left before right.
-- So merging is associative, as an equation between dictionaries.
import MarkedRegex.Captures

namespace MarkedRegex

/-! ## Answers of entries -/

namespace Entries

/-- The values that stand under a name. -/
def valuesAt (name : String) (es : List (String × List String)) : List String :=
  (es.lookup name).getD []

@[simp] theorem valuesAt_nil (name : String) : valuesAt name [] = [] := rfl

theorem valuesAt_cons (name n : String) (vs : List String) (rest : List (String × List String)) :
    valuesAt name ((n, vs) :: rest) = if name = n then vs else valuesAt name rest := by
  unfold valuesAt
  rw [List.lookup_cons]
  by_cases h : name = n
  · simp [h]
  · have hne : (name == n) = false := by simpa using h
    simp [hne, h]

/-- A name in front of all others has no values. -/
theorem valuesAt_eq_nil {name : String} {es : List (String × List String)}
    (h : ∀ e ∈ es, name < e.1) : valuesAt name es = [] := by
  have hnone : es.lookup name = none := by
    rw [List.lookup_eq_none_iff]
    intro e he
    simpa using String.ne_of_lt (h e he)
  rw [valuesAt, hnone]
  rfl

/-- A name that does not stand has no values. -/
theorem valuesAt_eq_nil_of_notMem {name : String} {es : List (String × List String)}
    (h : name ∉ es.map (·.1)) : valuesAt name es = [] := by
  induction es with
  | nil => rfl
  | cons e es ih =>
    obtain ⟨hne, hrest⟩ := not_or.mp (mt List.mem_cons.mpr h)
    rw [valuesAt_cons, if_neg hne, ih hrest]

theorem valuesAt_ne_nil {es : List (String × List String)} (hfilled : Filled es) {name : String}
    (h : name ∈ es.map (·.1)) : valuesAt name es ≠ [] := by
  induction es with
  | nil => simp at h
  | cons e es ih =>
    obtain ⟨hfirst, hrest⟩ := List.forall_mem_cons.mp hfilled
    rw [valuesAt_cons]
    split
    · exact hfirst
    · next hne => exact ih hrest ((List.mem_cons.mp h).resolve_left hne)

theorem valuesAt_put {name : String} {values : List String} {es : List (String × List String)}
    (h : Ordered es) (m : String) :
    valuesAt m (put name values es) =
      if m = name then values ++ valuesAt m es else valuesAt m es := by
  induction es with
  | nil => simp [put, valuesAt_cons]
  | cons a rest ih =>
    obtain ⟨n, vs⟩ := a
    obtain ⟨hfirst, hrest⟩ := List.pairwise_cons.mp h
    have hbehind : valuesAt n rest = [] := valuesAt_eq_nil hfirst
    rw [put]
    split
    · next hlt =>
      have hnone : valuesAt name ((n, vs) :: rest) = [] :=
        valuesAt_eq_nil fun e he => by
          rcases List.mem_cons.mp he with rfl | he
          · exact hlt
          · exact String.lt_trans hlt (hfirst e he)
      rw [valuesAt_cons]
      split
      · next hm => rw [hm, hnone, List.append_nil]
      · rfl
    · next hge =>
      split
      · next hgt =>
        have hne : n ≠ name := String.ne_of_lt hgt
        rw [valuesAt_cons, valuesAt_cons, ih hrest]
        by_cases hm : m = n
        · simp [hm, hne]
        · simp [hm]
      · next hle =>
        obtain rfl : name = n := String.le_antisymm (String.not_lt.mp hle) (String.not_lt.mp hge)
        rw [valuesAt_cons, valuesAt_cons]
        by_cases hm : m = name
        · simp [hm]
        · simp [hm]

theorem valuesAt_merge {as bs : List (String × List String)} (ha : Ordered as) (hb : Ordered bs)
    (m : String) : valuesAt m (merge as bs) = valuesAt m as ++ valuesAt m bs := by
  induction as with
  | nil => rfl
  | cons a rest ih =>
    obtain ⟨n, vs⟩ := a
    obtain ⟨hfirst, hrest⟩ := List.pairwise_cons.mp ha
    have hcons : merge ((n, vs) :: rest) bs = put n vs (merge rest bs) := rfl
    rw [hcons, valuesAt_put (ordered_merge hb), ih hrest, valuesAt_cons]
    by_cases hm : m = n
    · simp [hm, valuesAt_eq_nil hfirst]
    · simp [hm]

/-- The first name of ordered entries with values is the least name that has values. -/
theorem head_le_of_valuesAt {n m : String} {vs : List String} {rest : List (String × List String)}
    (h : Ordered ((n, vs) :: rest)) (hm : valuesAt m ((n, vs) :: rest) ≠ []) : n ≤ m := by
  rw [← String.not_lt]
  intro hlt
  refine hm (valuesAt_eq_nil fun e he => ?_)
  rcases List.mem_cons.mp he with rfl | he
  · exact hlt
  · exact String.lt_trans hlt ((List.pairwise_cons.mp h).1 e he)

/-- Ordered entries, none of them without a value, are told by their values under each name. -/
theorem eq_of_valuesAt_eq {as bs : List (String × List String)} (ha : Ordered as) (hb : Ordered bs)
    (fa : Filled as) (fb : Filled bs) (h : ∀ m, valuesAt m as = valuesAt m bs) : as = bs := by
  induction as generalizing bs with
  | nil =>
    cases bs with
    | nil => rfl
    | cons b rest =>
      have hval := h b.1
      rw [valuesAt_cons, if_pos rfl, valuesAt_nil] at hval
      exact absurd hval.symm (fb b List.mem_cons_self)
  | cons a as ih =>
    obtain ⟨n, vs⟩ := a
    have hvs : valuesAt n ((n, vs) :: as) = vs := by simp [valuesAt_cons]
    have hne : vs ≠ [] := fa (n, vs) List.mem_cons_self
    cases bs with
    | nil => exact absurd (hvs.symm.trans (h n)) hne
    | cons b bs =>
      obtain ⟨m, ws⟩ := b
      have hws : valuesAt m ((m, ws) :: bs) = ws := by simp [valuesAt_cons]
      have hme : ws ≠ [] := fb (m, ws) List.mem_cons_self
      obtain rfl : n = m := String.le_antisymm
        (head_le_of_valuesAt ha (by rw [h m, hws]; exact hme))
        (head_le_of_valuesAt hb (by rw [← h n, hvs]; exact hne))
      obtain rfl : vs = ws := by rw [← hvs, h n, hws]
      obtain ⟨ha₁, ha₂⟩ := List.pairwise_cons.mp ha
      obtain ⟨hb₁, hb₂⟩ := List.pairwise_cons.mp hb
      obtain rfl : as = bs := by
        refine ih ha₂ hb₂ (List.forall_mem_cons.mp fa).2 (List.forall_mem_cons.mp fb).2 fun k => ?_
        have hk := h k
        rw [valuesAt_cons, valuesAt_cons] at hk
        by_cases hkn : k = n
        · rw [hkn, valuesAt_eq_nil ha₁, valuesAt_eq_nil hb₁]
        · simpa [hkn] using hk
      rfl

end Entries

/-! ## Dictionaries -/

namespace Captures

/-- A name that stands has values. -/
theorem get_ne_nil {c : Captures} {name : String} (h : name ∈ c.names) : c.get name ≠ [] :=
  Entries.valuesAt_ne_nil c.filled h

theorem contains_iff {c : Captures} {name : String} : c.contains name = true ↔ name ∈ c.names := by
  rw [contains, Bool.not_eq_true', List.isEmpty_eq_false_iff]
  refine ⟨fun h => Decidable.byContradiction fun hname => ?_, get_ne_nil⟩
  exact h (Entries.valuesAt_eq_nil_of_notMem hname)

/-- Merging answers with the values of both sides, those of the first in front. -/
@[simp] theorem get_merge (a b : Captures) (name : String) :
    (a.merge b).get name = a.get name ++ b.get name :=
  Entries.valuesAt_merge a.ordered b.ordered name

/-- A dictionary is told by what it answers. -/
theorem ext_get {a b : Captures} (h : ∀ name, a.get name = b.get name) : a = b :=
  ext (Entries.eq_of_valuesAt_eq a.ordered b.ordered a.filled b.filled h)

theorem merge_assoc (a b c : Captures) : (a.merge b).merge c = a.merge (b.merge c) := by
  apply ext_get
  intro name
  simp only [get_merge, List.append_assoc]

@[simp] theorem both_empty (a : Option Captures) : both a (some ∅) = a := by
  cases a with
  | none => rfl
  | some a => rw [both_some, merge_empty]

@[simp] theorem empty_both (a : Option Captures) : both (some ∅) a = a := by
  cases a <;> rfl

theorem first_eq_or (a b : Option Captures) : first a b = a.or b := by
  cases a <;> rfl

theorem both_assoc (a b c : Option Captures) : both (both a b) c = both a (both b c) := by
  cases a with
  | none => rfl
  | some a =>
    cases b with
    | none => simp
    | some b =>
      cases c with
      | none => simp
      | some c => simp [merge_assoc]

@[simp] theorem isSome_both (a b : Option Captures) :
    (both a b).isSome = (a.isSome && b.isSome) := by
  cases a <;> cases b <;> rfl

end Captures

end MarkedRegex
