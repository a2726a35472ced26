-- What a table of derivatives holds, as a list. Each entry stands in the slot of
-- its own node and character, no other entry has both, and the size is the
-- number of the entries; adding one keeps it so.
import MarkedRegex.Memo.Table
import Mathlib.Data.List.Basic

namespace MarkedRegex.MemoTable

variable {t : MemoTable} {p q r : Pattern} {c d : Char} {a b e : MemoEntry}

/-! ## The entries of a table -/

/-- All entries, slot by slot. -/
def entries (t : MemoTable) : List MemoEntry := t.slots.toList.flatMap (·.2)

/-- The entries that stand in other slots than that of a node and a character. -/
def others (t : MemoTable) (p : Pattern) (c : Char) : List MemoEntry :=
  (t.slots.toList.filter (!slot p c == ·.1)).flatMap (·.2)

@[simp] theorem entries_empty : (∅ : MemoTable).entries = [] := rfl

theorem mem_entries :
    e ∈ t.entries ↔ ∃ (s : Nat) (es : List MemoEntry), t.slots[s]? = some es ∧ e ∈ es := by
  simp [entries, Std.TreeMap.mem_toList_iff_getElem?_eq_some]

theorem mem_others : e ∈ t.others p c ↔
    ∃ (s : Nat) (es : List MemoEntry), t.slots[s]? = some es ∧ slot p c ≠ s ∧ e ∈ es := by
  simp [others, Std.TreeMap.mem_toList_iff_getElem?_eq_some, and_assoc]

theorem mem_bucket : e ∈ t.bucket p c ↔ ∃ es, t.slots[slot p c]? = some es ∧ e ∈ es := by
  unfold bucket
  cases t.slots[slot p c]? <;> simp

/-- A slot stands in one place of the list of slots. -/
theorem flatMap_filter_slot (t : MemoTable) (p : Pattern) (c : Char) :
    (t.slots.toList.filter (slot p c == ·.1)).flatMap (·.2) = t.bucket p c := by
  have hmem (v : List MemoEntry) : (slot p c, v) ∈ t.slots.toList ↔ t.slots[slot p c]? = some v :=
    Std.TreeMap.mem_toList_iff_getElem?_eq_some
  unfold bucket
  cases hslot : t.slots[slot p c]? with
  | none =>
    have hnone : t.slots.toList.filter (slot p c == ·.1) = [] := by
      rw [List.filter_eq_nil_iff]
      rintro ⟨s, v⟩ hs hkey
      obtain rfl : slot p c = s := by simpa using hkey
      rw [hmem v, hslot] at hs
      cases hs
    simp [hnone]
  | some es =>
    obtain ⟨before, after, hlist⟩ := List.append_of_mem ((hmem es).mpr hslot)
    have hdistinct := Std.TreeMap.distinct_keys_toList (t := t.slots)
    rw [hlist, List.pairwise_append, List.pairwise_cons] at hdistinct
    obtain ⟨-, ⟨hafter, -⟩, hbefore⟩ := hdistinct
    have hbefore' : before.filter (slot p c == ·.1) = [] := by
      rw [List.filter_eq_nil_iff]
      intro s hs hkey
      refine hbefore s hs _ List.mem_cons_self ?_
      exact Nat.compare_eq_eq.mpr (eq_of_beq hkey).symm
    have hafter' : after.filter (slot p c == ·.1) = [] := by
      rw [List.filter_eq_nil_iff]
      intro s hs hkey
      exact hafter s hs (Nat.compare_eq_eq.mpr (eq_of_beq hkey))
    simp [hlist, hbefore', hafter']

theorem entries_perm (t : MemoTable) (p : Pattern) (c : Char) :
    t.entries.Perm (t.bucket p c ++ t.others p c) := by
  have hparts := List.filter_append_perm (slot p c == ·.1) t.slots.toList
  have hentries := hparts.symm.flatMap_right (·.2)
  rw [List.flatMap_append, flatMap_filter_slot] at hentries
  exact hentries

theorem entries_insert_perm (t : MemoTable) (p r : Pattern) (c : Char) :
    (t.insert p c r).entries.Perm
      (⟨p, c, r⟩ :: (t.bucket p c).filter (fun e => !isFor p c e) ++ t.others p c) := by
  have hslots := Std.TreeMap.toList_insert_perm (t := t.slots) (k := slot p c)
    (v := ⟨p, c, r⟩ :: (t.bucket p c).filter fun e => !isFor p c e)
  simp only [Bool.not_eq_true, Bool.decide_eq_false] at hslots
  exact hslots.flatMap_right (·.2)

theorem size_insert (t : MemoTable) (p r : Pattern) (c : Char) :
    (t.insert p c r).size = if (t.find? p c).isSome then t.size else t.size + 1 := rfl

/-- Adding an entry brings in no other one. -/
theorem mem_entries_insert (h : e ∈ (t.insert p c r).entries) :
    e = ⟨p, c, r⟩ ∨ e ∈ t.entries := by
  rw [(entries_insert_perm t p r c).mem_iff] at h
  rw [(entries_perm t p c).mem_iff]
  simp only [List.cons_append, List.mem_cons, List.mem_append, List.mem_filter] at h ⊢
  rcases h with h | ⟨h, -⟩ | h
  · exact Or.inl h
  · exact Or.inr (Or.inl h)
  · exact Or.inr (Or.inr h)

/-! ## Tables in order -/

/-- Entries that are for different nodes or characters. -/
def Apart (a b : MemoEntry) : Prop := ¬(a.node = b.node ∧ a.char = b.char)

theorem Apart.symm (h : Apart a b) : Apart b a := fun ⟨hnode, hchar⟩ => h ⟨hnode.symm, hchar.symm⟩

/-- Each entry is in its own slot, no two are for the same node and character, and the size counts
them. -/
structure InOrder (t : MemoTable) : Prop where
  slot_eq : ∀ {s : Nat} {es : List MemoEntry}, t.slots[s]? = some es →
    ∀ e ∈ es, slot e.node e.char = s
  apart : t.entries.Pairwise Apart
  size_eq : t.size = t.entries.length

theorem inOrder_empty : InOrder ∅ where
  slot_eq := by
    intro s es h
    simp [show (∅ : MemoTable).slots = ∅ from rfl] at h
  apart := List.Pairwise.nil
  size_eq := rfl

namespace InOrder

theorem pairwise_bucket (h : t.InOrder) (p : Pattern) (c : Char) :
    (t.bucket p c ++ t.others p c).Pairwise Apart :=
  ((entries_perm t p c).pairwise_iff Apart.symm).mp h.apart

/-- The entry for a node and a character stands alone in its slot. -/
theorem bucket_eq_append (h : t.InOrder) (he : e ∈ t.bucket p c) (hfor : isFor p c e = true) :
    ∃ before after, t.bucket p c = before ++ e :: after ∧ (∀ a ∈ before, isFor p c a = false) ∧
      ∀ a ∈ after, isFor p c a = false := by
  obtain ⟨before, after, hlist⟩ := List.append_of_mem he
  have hapart := (List.pairwise_append.mp (h.pairwise_bucket p c)).1
  rw [hlist, List.pairwise_append, List.pairwise_cons] at hapart
  obtain ⟨-, ⟨hafter, -⟩, hbefore⟩ := hapart
  obtain ⟨rfl, rfl⟩ := isFor_iff.mp hfor
  have hother {a : MemoEntry} (ha : Apart e a) : isFor e.node e.char a = false := by
    rw [← Bool.not_eq_true, isFor_iff]
    exact fun hkey => ha ⟨hkey.2.symm, hkey.1.symm⟩
  refine ⟨before, after, hlist, fun a ha => ?_, fun a ha => hother (hafter a ha)⟩
  exact hother (hbefore a ha e List.mem_cons_self).symm

/-- An entry is found under its own node and character. -/
theorem find?_eq_some (h : t.InOrder) (he : e ∈ t.entries) :
    t.find? e.node e.char = some e.result := by
  obtain ⟨s, es, hs, hes⟩ := mem_entries.mp he
  have hbucket : e ∈ t.bucket e.node e.char := by
    rw [mem_bucket, h.slot_eq hs e hes]
    exact ⟨es, hs, hes⟩
  have hself : isFor e.node e.char e = true := isFor_iff.mpr ⟨rfl, rfl⟩
  obtain ⟨before, after, hlist, hbefore, -⟩ := h.bucket_eq_append hbucket hself
  have hnone : before.find? (isFor e.node e.char) = none := by simpa using hbefore
  unfold find?
  rw [hlist, List.find?_append, hnone, List.find?_cons, hself]
  rfl

/-- Without the entry for a node and a character, their slot is shorter by one. -/
theorem length_filter_bucket (h : t.InOrder) (p : Pattern) (c : Char) :
    ((t.bucket p c).filter fun e => !isFor p c e).length +
      (if (t.find? p c).isSome then 1 else 0) = (t.bucket p c).length := by
  unfold find?
  cases hfind : (t.bucket p c).find? (isFor p c) with
  | none =>
    have hall : ∀ a ∈ t.bucket p c, (!isFor p c a) = true := by
      simpa using List.find?_eq_none.mp hfind
    rw [List.filter_eq_self.mpr hall]
    rfl
  | some e =>
    obtain ⟨before, after, hlist, hbefore, hafter⟩ :=
      h.bucket_eq_append (List.mem_of_find?_eq_some hfind) (List.find?_some hfind)
    have hbefore' : before.filter (fun e => !isFor p c e) = before := by simpa using hbefore
    have hafter' : after.filter (fun e => !isFor p c e) = after := by simpa using hafter
    rw [hlist, List.filter_append, List.filter_cons, List.find?_some hfind, hbefore', hafter']
    simp
    omega

/-- An entry goes into the place of an earlier one, if there is one, and else is one more. -/
theorem insert (h : t.InOrder) (p r : Pattern) (c : Char) : (t.insert p c r).InOrder where
  slot_eq := by
    intro s es hs e he
    unfold MemoTable.insert at hs
    rw [Std.TreeMap.getElem?_insert] at hs
    simp only [Nat.compare_eq_eq] at hs
    split at hs
    · next hslot =>
      cases hs
      rcases List.mem_cons.mp he with rfl | he
      · exact hslot
      · obtain ⟨es, hs, hes⟩ := mem_bucket.mp (List.mem_filter.mp he).1
        rw [← hslot]
        exact h.slot_eq hs e hes
    · exact h.slot_eq hs e he
  apart := by
    refine ((entries_insert_perm t p r c).pairwise_iff Apart.symm).mpr ?_
    have hold := h.pairwise_bucket p c
    rw [List.cons_append, List.pairwise_cons]
    constructor
    · intro a ha hkey
      rcases List.mem_append.mp ha with ha | ha
      · have hfor : isFor p c a = true := isFor_iff.mpr ⟨hkey.2.symm, hkey.1.symm⟩
        simp [hfor] at ha
      · obtain ⟨s, es, hs, hslot, hes⟩ := mem_others.mp ha
        have hown := h.slot_eq hs a hes
        rw [← hkey.1, ← hkey.2] at hown
        exact hslot hown
    · exact hold.sublist (List.filter_sublist.append (List.Sublist.refl _))
  size_eq := by
    have hbucket := (entries_perm t p c).length_eq
    have hinsert := (entries_insert_perm t p r c).length_eq
    have hslot := h.length_filter_bucket p c
    rw [← h.size_eq] at hbucket
    simp only [List.cons_append, List.length_append, List.length_cons] at hbucket hinsert
    rw [hinsert, size_insert]
    split
    · next hfound =>
      rw [if_pos hfound] at hslot
      omega
    · next hmissing =>
      rw [if_neg hmissing] at hslot
      omega

end InOrder

end MarkedRegex.MemoTable
