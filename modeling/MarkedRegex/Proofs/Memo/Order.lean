-- The law of the table: it is in order at every moment, also while calls are at
-- work. It holds no more entries than its capacity and than there were misses,
-- each under its own node and character, and each as the work on its node gave
-- it. The steps come first, then the run by induction on the moments.
import MarkedRegex.Proofs.Expr.Tree
import MarkedRegex.Proofs.Memo.Moments
import MarkedRegex.Proofs.Memo.Table

namespace MarkedRegex

/-! ## One entry more -/

namespace MemoTable

variable {t : MemoTable} {p r : Pattern} {c : Char} {e : MemoEntry}

/-- The table that holds one entry more, where a full one is emptied before. -/
def add (capacity : Nat) (t : MemoTable) (p : Pattern) (c : Char) (r : Pattern) : MemoTable :=
  if capacity = 0 then ∅ else if capacity ≤ t.size then (∅ : MemoTable).insert p c r
  else t.insert p c r

theorem size_insert_le (t : MemoTable) (p r : Pattern) (c : Char) :
    (t.insert p c r).size ≤ t.size + 1 := by
  rw [size_insert]
  split <;> omega

theorem InOrder.add (h : t.InOrder) (capacity : Nat) (p r : Pattern) (c : Char) :
    (t.add capacity p c r).InOrder := by
  unfold MemoTable.add
  split
  · exact inOrder_empty
  · split
    · exact inOrder_empty.insert p r c
    · exact h.insert p r c

theorem size_add_le (capacity : Nat) (t : MemoTable) (p r : Pattern) (c : Char) :
    (t.add capacity p c r).size ≤ capacity ∧ (t.add capacity p c r).size ≤ t.size + 1 := by
  have hempty := size_insert_le ∅ p r c
  have hfull := size_insert_le t p r c
  rw [size_empty] at hempty
  unfold add
  split
  · simp
  · split <;> omega

theorem mem_entries_add {capacity : Nat} (h : e ∈ (t.add capacity p c r).entries) :
    e = ⟨p, c, r⟩ ∨ e ∈ t.entries := by
  unfold add at h
  split at h
  · simp at h
  · split at h
    · exact (mem_entries_insert h).imp_right (by simp)
    · exact mem_entries_insert h

end MemoTable

namespace Memo

variable {m : Memo} {t : MemoTable} {p r : Pattern} {c : Char}

theorem table_store (h : m.table = some t) :
    (m.store p c r).table = some (t.add m.capacity p c r) := by
  obtain ⟨table, capacity, hits, misses⟩ := m
  obtain rfl : table = some t := h
  simp only [store, makeRoom, MemoTable.add]
  rcases Nat.eq_zero_or_pos capacity with rfl | hpos
  · simp
  · rw [if_pos hpos, if_neg (Nat.ne_of_gt hpos)]
    split <;> rfl

theorem store_of_off (h : m.table = none) : m.store p c r = m := by
  obtain ⟨table, capacity, hits, misses⟩ := m
  obtain rfl : table = none := h
  rfl

@[simp] theorem capacity_store : (m.store p c r).capacity = m.capacity := by
  obtain ⟨_ | t, capacity, hits, misses⟩ := m <;> rfl

@[simp] theorem hits_store : (m.store p c r).hits = m.hits := by
  obtain ⟨_ | t, capacity, hits, misses⟩ := m <;> rfl

@[simp] theorem misses_store : (m.store p c r).misses = m.misses := by
  obtain ⟨_ | t, capacity, hits, misses⟩ := m <;> rfl

theorem entryCount_eq (h : m.table = some t) : m.entryCount = t.size := by
  simp [entryCount, h]

end Memo

/-! ## Moments in order -/

/-- A table in order that holds at most as many entries as its capacity, and as many as there were
misses that are no longer at work. -/
structure Moment.InOrder (capacity : Nat) (s : Moment) : Prop where
  exists_table : ∃ t, s.memo.table = some t ∧ t.InOrder
  capacity_eq : s.memo.capacity = capacity
  entryCount_le : s.memo.entryCount ≤ capacity
  misses_ge : s.memo.entryCount + s.pending.length ≤ s.memo.misses

/-- The counts of hits and misses do not decrease. -/
def Moment.CountsUp (s t : Moment) : Prop :=
  s.memo.hits ≤ t.memo.hits ∧ s.memo.misses ≤ t.memo.misses

variable {capacity : Nat} {s t u : Moment}

theorem Moment.inOrder_start (capacity : Nat) :
    Moment.InOrder capacity ⟨[], .ofCapacity capacity⟩ where
  exists_table := ⟨∅, rfl, MemoTable.inOrder_empty⟩
  capacity_eq := rfl
  entryCount_le := Nat.zero_le _
  misses_ge := Nat.le_refl _

theorem Moment.CountsUp.trans (h : s.CountsUp t) (h' : t.CountsUp u) : s.CountsUp u :=
  ⟨Nat.le_trans h.1 h'.1, Nat.le_trans h.2 h'.2⟩

theorem Happening.inOrder (h : Happening s t) (hs : s.InOrder capacity) : t.InOrder capacity := by
  obtain ⟨table, htable, horder⟩ := hs.exists_table
  have hcount := hs.entryCount_le
  have hmisses := hs.misses_ge
  cases h with
  | clear memo =>
    have hcleared : memo.clear.table = some ∅ := by
      show memo.table.map (fun _ => ∅) = some ∅
      rw [show memo.table = some table from htable]
      rfl
    refine ⟨⟨∅, hcleared, MemoTable.inOrder_empty⟩, hs.capacity_eq, ?_, ?_⟩
    · simp [Memo.entryCount_eq hcleared]
    · simp [Memo.entryCount_eq hcleared]
  | change h =>
    cases h with
    | hit _ => exact ⟨⟨table, htable, horder⟩, hs.capacity_eq, hcount, hmisses⟩
    | miss n _ _ _ =>
      refine ⟨⟨table, htable, horder⟩, hs.capacity_eq, hcount, ?_⟩
      exact Nat.succ_le_succ hmisses
    | store pending memo f =>
      have hstored := memo.table_store (p := f.node) (c := f.char) (r := f.result) htable
      have hsize := table.size_add_le memo.capacity f.node f.result f.char
      have hcapacity : memo.capacity = capacity := hs.capacity_eq
      rw [Memo.entryCount_eq htable, List.length_cons] at hmisses
      refine ⟨⟨_, hstored, horder.add _ _ _ _⟩, ?_, ?_, ?_⟩
      · simpa using hcapacity
      · rw [Memo.entryCount_eq hstored, ← hcapacity]
        exact hsize.1
      · rw [Memo.entryCount_eq hstored, Memo.misses_store]
        simp only at hmisses ⊢
        omega

theorem Happening.countsUp (h : Happening s t) : s.CountsUp t := by
  cases h with
  | clear memo => exact ⟨Nat.le_refl _, Nat.le_refl _⟩
  | change h =>
    cases h with
    | hit _ => exact ⟨Nat.le_succ _, Nat.le_refl _⟩
    | miss n _ _ _ => exact ⟨Nat.le_refl _, Nat.le_succ _⟩
    | store pending memo f => exact ⟨by simp, by simp⟩

/-! ## Where entries come from -/

/-- A call at work has started at one of the moments, from the memory there. -/
def Frame.StartsIn (moments : List Moment) (f : Frame) : Prop :=
  ∃ s ∈ moments, s.pending.head? = some f ∧ s.memo = f.memo

/-- An entry is what the work gave on a node that was asked for at one of the moments. -/
def MemoEntry.WorkedOutIn (moments : List Moment) (e : MemoEntry) : Prop :=
  ∃ f : Frame, f.StartsIn moments ∧ e = ⟨f.node, f.char, f.result⟩

/-- All calls at work have started by now, and the entries were worked out before. -/
def Moment.Accounted (past : List Moment) (s : Moment) : Prop :=
  (∀ f ∈ s.pending, f.StartsIn (past ++ [s])) ∧
    ∀ t, s.memo.table = some t → ∀ e ∈ t.entries, e.WorkedOutIn past

variable {past : List Moment}

theorem Frame.StartsIn.mono {f : Frame} (h : f.StartsIn past) : f.StartsIn (past ++ [s]) := by
  obtain ⟨start, hstart, hf⟩ := h
  exact ⟨start, List.mem_append_left _ hstart, hf⟩

theorem MemoEntry.WorkedOutIn.mono {e : MemoEntry} (h : e.WorkedOutIn past) :
    e.WorkedOutIn (past ++ [s]) := by
  obtain ⟨f, hf, he⟩ := h
  exact ⟨f, hf.mono, he⟩

/-- An entry is new only where the latest call at work has stored what it gave. -/
theorem Happening.accounted (h : Happening s t) (hs : s.Accounted past) :
    t.Accounted (past ++ [s]) := by
  obtain ⟨hpending, hentries⟩ := hs
  cases h with
  | clear memo =>
    refine ⟨nofun, fun table htable e he => ?_⟩
    obtain ⟨_, _, rfl⟩ : ∃ old, memo.table = some old ∧ ∅ = table := by
      simpa [Memo.clear] using htable
    cases he
  | change h =>
    cases h with
    | hit _ =>
      exact ⟨fun f hf => (hpending f hf).mono, fun table ht e he => (hentries table ht e he).mono⟩
    | miss n _ _ _ =>
      refine ⟨?_, fun table ht e he => (hentries table ht e he).mono⟩
      refine List.forall_mem_cons.mpr ⟨?_, fun f hf => (hpending f hf).mono⟩
      exact ⟨_, List.mem_append_right _ List.mem_cons_self, rfl, rfl⟩
    | store pending memo f =>
      have hlatest := hpending f List.mem_cons_self
      refine ⟨fun g hg => (hpending g (List.mem_cons_of_mem _ hg)).mono, fun table ht e he => ?_⟩
      cases hold : memo.table with
      | none =>
        simp only [Memo.store_of_off hold, hold] at ht
        cases ht
      | some old =>
        simp only [memo.table_store hold] at ht
        cases ht
        rcases MemoTable.mem_entries_add he with rfl | he
        · exact ⟨f, hlatest, rfl⟩
        · exact (hentries old hold e he).mono

/-- In order, and accounted for by the moments before. -/
def Moment.Regular (capacity : Nat) (past : List Moment) (s : Moment) : Prop :=
  s.InOrder capacity ∧ s.Accounted past

theorem Happening.regular (h : Happening s t) (hs : s.Regular capacity past) :
    t.Regular capacity (past ++ [s]) :=
  ⟨h.inOrder hs.1, h.accounted hs.2⟩

/-! ## The law -/

/-- The moments of a history follow one another from the fresh memory to the one it leaves, each by
one happening. At every one of them, also while calls are at work, the table is in order: each entry
is in the slot of its own node and character and found there, no two are for the same ones, and the
size counts them. It holds at most as many as its capacity, and at most as many as there have been
misses. Each entry is what the work on its node gave, which started at an earlier moment from the
memory as it was then. The counts of hits and misses never decrease, and a call that hits changes
nothing but the count of hits. -/
theorem a_memory_is_in_order_at_every_moment (capacity : Nat) (history : List Request) (n : Nat) :
    let moments := Request.moments capacity history n
    (moments.head? = some ⟨[], .ofCapacity capacity⟩ ∧ moments.IsChain Happening ∧
      moments.getLast? = some ⟨[], Request.memoBehind capacity history n⟩) ∧
    (∀ before s after, moments = before ++ s :: after →
      (∃ t, s.memo.table = some t ∧ t.InOrder ∧ s.memo.entryCount = t.entries.length ∧
        ∀ e ∈ t.entries, s.memo.find? e.node e.char = some e.result ∧ e.WorkedOutIn before) ∧
      s.memo.entryCount ≤ capacity ∧ s.memo.entryCount ≤ s.memo.misses) ∧
    moments.Pairwise Moment.CountsUp ∧
    ∀ (p : Pattern) (c : Char) (memo : Memo) (r : Pattern) (k : Nat), p.consumes = true →
      p.isLeaf = false → memo.find? p c = some r →
      ((p.derive c).run memo).run k = ((r, memo.countHit), k) ∧
        memo.countHit.table = memo.table := by
  intro moments
  obtain ⟨later, hmoments, hpasses⟩ := Request.passes_moments capacity history n
  rw [show moments = _ from hmoments]
  refine ⟨⟨rfl, hpasses.isChain, hpasses.getLast?_eq⟩, ?_, ?_, ?_⟩
  · intro before s after hsplit
    have hfresh : Moment.Accounted [] ⟨[], .ofCapacity capacity⟩ := by
      refine ⟨nofun, fun table htable e he => ?_⟩
      cases htable
      cases he
    obtain ⟨horder, -, hentries⟩ := hpasses.keeps (Moment.Regular capacity) Happening.regular
      ⟨Moment.inOrder_start capacity, hfresh⟩ hsplit
    obtain ⟨table, htable, htableOrder⟩ := horder.exists_table
    refine ⟨⟨table, htable, htableOrder, ?_, fun e he => ⟨?_, hentries table htable e he⟩⟩, ?_, ?_⟩
    · rw [Memo.entryCount_eq htable, htableOrder.size_eq]
    · rw [Memo.find?, htable]
      exact htableOrder.find?_eq_some he
    · exact horder.entryCount_le
    · have hmisses := horder.misses_ge
      omega
  · exact hpasses.pairwise Moment.CountsUp.trans Happening.countsUp
  · intro p c memo r k hconsumes hleaf hfind
    refine ⟨?_, rfl⟩
    exact Pattern.run_derive_of_find? hconsumes hleaf hfind k

/-- A star of marks, in a memory that holds one entry: asked for twice, it is found the second time.
-/
theorem a_memory_of_one_entry_finds_it_again :
    let p := (((Expr.star (.mark "x" .any)).buildBehind []).run 0).1
    let memo := Request.memoBehind 1 [.derive p 'a'] 2
    let r := (((p.derive 'a').run memo).run 9).1.1
    p.consumes = true ∧ p.isLeaf = false ∧ memo.find? p 'a' = some r ∧ memo.entryCount = 1 ∧
      ((p.derive 'a').run memo).run 9 = ((r, memo.countHit), 9) := by
  intro p memo r
  have hfind : memo.find? p 'a' = some r := by decide +kernel
  have hlaw := a_memory_is_in_order_at_every_moment 1 [.derive p 'a'] 2
  have hhit := hlaw.2.2.2 p 'a' memo r 9 (by decide +kernel) (by decide +kernel) hfind
  exact ⟨by decide +kernel, by decide +kernel, hfind, by decide +kernel, hhit.1⟩

end MarkedRegex
