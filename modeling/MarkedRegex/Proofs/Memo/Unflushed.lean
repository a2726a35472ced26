-- A memory that had room for all its misses. As long as there are no more of
-- them than its capacity, each adds one entry and nothing is lost, for the calls
-- at work are for nodes that have no entry yet: the work on a node asks for
-- smaller nodes only.
import MarkedRegex.Proofs.Memo.Order

namespace MarkedRegex

/-! ## Memories that find more and more -/

namespace Memo

variable {m m' m'' : Memo} {p q r : Pattern} {c d : Char}

/-- The capacity stays, and misses are only added. -/
def Grows (m m' : Memo) : Prop := m'.capacity = m.capacity ∧ m.misses ≤ m'.misses

/-- What the one memory finds, the other one finds as well. -/
def Within (m m' : Memo) : Prop := ∀ p c r, m.find? p c = some r → m'.find? p c = some r

/-- There is room for an entry of every miss so far. -/
def HasRoom (m : Memo) : Prop := m.misses ≤ m.capacity

theorem Grows.refl (m : Memo) : m.Grows m := ⟨rfl, Nat.le_refl _⟩

theorem Grows.trans (h : m.Grows m') (h' : m'.Grows m'') : m.Grows m'' :=
  ⟨h'.1.trans h.1, Nat.le_trans h.2 h'.2⟩

/-- A memory that has room at the end has had it before. -/
theorem Grows.hasRoom (h : m.Grows m') (hroom : m'.HasRoom) : m.HasRoom := by
  unfold HasRoom at *
  rw [← h.1]
  exact Nat.le_trans h.2 hroom

theorem Within.refl (m : Memo) : m.Within m := fun _ _ _ h => h

theorem Within.trans (h : m.Within m') (h' : m'.Within m'') : m.Within m'' :=
  fun p c r hfind => h' p c r (h p c r hfind)

/-- A table with room takes an entry in and keeps all others. -/
theorem table_store_of_room {t : MemoTable} (ht : m.table = some t)
    (hroom : m.entryCount < m.capacity) : (m.store p c r).table = some (t.insert p c r) := by
  rw [entryCount_eq ht] at hroom
  rw [table_store ht, MemoTable.add, if_neg (by omega), if_neg (by omega)]

theorem find?_store_of_room (hon : m.isOn = true) (hroom : m.entryCount < m.capacity) :
    (m.store p c r).find? q d = if p = q ∧ c = d then some r else m.find? q d := by
  obtain ⟨t, ht⟩ := Option.isSome_iff_exists.mp hon
  unfold find?
  rw [table_store_of_room ht hroom, ht]
  exact t.find?_insert p q c d r

theorem entryCount_store_of_room (hon : m.isOn = true) (hroom : m.entryCount < m.capacity)
    (hnew : m.find? p c = none) : (m.store p c r).entryCount = m.entryCount + 1 := by
  obtain ⟨t, ht⟩ := Option.isSome_iff_exists.mp hon
  have hmissing : t.find? p c = none := by
    rw [find?, ht] at hnew
    exact hnew
  rw [entryCount_eq (table_store_of_room ht hroom), entryCount_eq ht, MemoTable.size_insert,
    hmissing]
  rfl

theorem isOn_store (hon : m.isOn = true) : (m.store p c r).isOn = true := by
  obtain ⟨t, ht⟩ := Option.isSome_iff_exists.mp hon
  rw [isOn, table_store ht]
  rfl

end Memo

/-! ## Moments with an entry for each miss -/

/-- Each miss has left an entry or is still at work, and then its node has none yet and is smaller
than those of the calls before it. -/
structure Moment.Complete (s : Moment) : Prop where
  isOn : s.memo.isOn = true
  misses_eq : s.memo.entryCount + s.pending.length = s.memo.misses
  absent : ∀ f ∈ s.pending, s.memo.find? f.node f.char = none
  ascending : s.pending.Pairwise fun f g => sizeOf f.node < sizeOf g.node

variable {s t u : Moment} {moments : List Moment}

theorem Change.grows (h : Change s t) : s.memo.Grows t.memo := by
  cases h with
  | hit _ => exact .refl _
  | miss n _ _ _ => exact ⟨rfl, Nat.le_succ _⟩
  | store pending memo f => exact ⟨Memo.capacity_store, by simp⟩

/-- A miss adds a call that has no entry, and the latest call adds the entry that it lacked. -/
theorem Change.complete (h : Change s t) (hs : s.Complete) (hroom : t.memo.HasRoom) :
    t.Complete ∧ s.memo.Within t.memo := by
  obtain ⟨hon, hmisses, habsent, hascending⟩ := hs
  cases h with
  | hit _ => exact ⟨⟨hon, hmisses, habsent, hascending⟩, .refl _⟩
  | miss n _ hnew hsmall =>
    refine ⟨⟨hon, ?_, ?_, ?_⟩, fun _ _ _ hfind => hfind⟩
    · exact congrArg (· + 1) hmisses
    · exact List.forall_mem_cons.mpr ⟨hnew, habsent⟩
    · exact List.pairwise_cons.mpr ⟨hsmall, hascending⟩
  | store pending memo f =>
    obtain ⟨hnew, habsent⟩ := List.forall_mem_cons.mp habsent
    obtain ⟨hlarger, hascending⟩ := List.pairwise_cons.mp hascending
    have hspace : memo.entryCount < memo.capacity := by
      simp only [Memo.HasRoom, Memo.misses_store, Memo.capacity_store] at hroom
      simp only [List.length_cons] at hmisses
      omega
    refine ⟨⟨Memo.isOn_store hon, ?_, ?_, hascending⟩, ?_⟩
    · rw [Memo.entryCount_store_of_room hon hspace hnew, Memo.misses_store]
      simp only [List.length_cons] at hmisses ⊢
      omega
    · intro g hg
      rw [Memo.find?_store_of_room hon hspace, if_neg]
      · exact habsent g hg
      · rintro ⟨hnode, -⟩
        have hlt := hlarger g hg
        rw [hnode] at hlt
        exact Nat.lt_irrefl _ hlt
    · intro p c r hfind
      rw [Memo.find?_store_of_room hon hspace, if_neg]
      · exact hfind
      · rintro ⟨rfl, rfl⟩
        rw [hnew] at hfind
        cases hfind

theorem Passes.grows (h : Passes Change s moments u) : s.memo.Grows u.memo := by
  induction h with
  | nil => exact .refl _
  | cons hfirst _ ih => exact hfirst.grows.trans ih

theorem Passes.complete (h : Passes Change s moments u) (hs : s.Complete)
    (hroom : u.memo.HasRoom) : u.Complete ∧ s.memo.Within u.memo := by
  induction h with
  | nil => exact ⟨hs, .refl _⟩
  | cons hfirst hrest ih =>
    obtain ⟨ht, hfirstWithin⟩ := hfirst.complete hs (hrest.grows.hasRoom hroom)
    obtain ⟨hu, hrestWithin⟩ := ih ht hroom
    exact ⟨hu, hfirstWithin.trans hrestWithin⟩

/-! ## The derivative -/

/-- A memory between calls that has an entry for each miss. -/
abbrev Memo.Complete (m : Memo) : Prop := Moment.Complete ⟨[], m⟩

theorem Memo.complete_ofCapacity (capacity : Nat) : (Memo.ofCapacity capacity).Complete :=
  ⟨rfl, rfl, nofun, .nil⟩

namespace Watched

variable {α : Type} {watched : Watched α} {act : Derive α} {pending : List Frame}
  {memo memo' : Memo} {n n' : Nat} {x : α}

/-- What is watched goes through moments. -/
theorem Shows.passes {R : Moment → Moment → Prop} (h : Shows R pending watched act)
    (hrun : (act.run memo).run n = ((x, memo'), n')) :
    ∃ moments, Passes R ⟨pending, memo⟩ moments ⟨pending, memo'⟩ := by
  rcases hwatched : ((watched.run ⟨pending, []⟩).run memo).run n with ⟨⟨⟨y, watch⟩, memo₁⟩, n₁⟩
  obtain ⟨hact, moments, -, hpasses⟩ := h [] memo n y watch memo₁ n₁ hwatched
  rw [hrun] at hact
  cases hact
  exact ⟨moments, hpasses⟩

end Watched

namespace Pattern

variable {p r : Pattern} {c : Char} {memo memo' : Memo} {n n' : Nat}

theorem derive_passes (hrun : ((p.derive c).run memo).run n = ((r, memo'), n')) :
    ∃ moments, Passes Change ⟨[], memo⟩ moments ⟨[], memo'⟩ := by
  have hshows : Watched.Shows Change [] (Watched.derive p c) (p.derive c) :=
    Watched.shows_derive p c nofun
  exact hshows.passes hrun

theorem derive_grows (hrun : ((p.derive c).run memo).run n = ((r, memo'), n')) :
    memo.Grows memo' := by
  obtain ⟨moments, hpasses⟩ := derive_passes hrun
  exact hpasses.grows

theorem derive_complete (hrun : ((p.derive c).run memo).run n = ((r, memo'), n'))
    (h : memo.Complete) (hroom : memo'.HasRoom) : memo'.Complete ∧ memo.Within memo' := by
  obtain ⟨moments, hpasses⟩ := derive_passes hrun
  exact hpasses.complete h hroom

/-- Behind its derivative, a node with parts that takes in characters has its entry. -/
theorem find?_of_derive (hrun : ((p.derive c).run memo).run n = ((r, memo'), n'))
    (hconsumes : p.consumes = true) (hleaf : p.isLeaf = false) (h : memo.Complete)
    (hroom : memo'.HasRoom) : memo'.find? p c = some r := by
  cases hfind : memo.find? p c with
  | some found =>
    rw [run_derive_of_find? hconsumes hleaf hfind] at hrun
    cases hrun
    exact hfind
  | none =>
    rw [derive_eq_remember hconsumes hleaf, Derive.run_remember,
      MonadDerive.answer_of_miss h.isOn hfind, Derive.run_workOut] at hrun
    let frame : Frame := ⟨p, c, memo.countMiss, n⟩
    have hmiss : Change ⟨[], memo⟩ ⟨[frame], memo.countMiss⟩ := .miss n h.isOn hfind nofun
    have hshows : Watched.Shows Change [frame] (p.deriveNodeIn Watched c) (p.deriveNode c) :=
      Watched.watching.deriveNodeIn p c [frame] (by simp [frame])
    rcases hwork : ((p.deriveNode c).run memo.countMiss).run n with ⟨⟨r₁, memo₁⟩, n₁⟩
    rw [hwork] at hrun
    cases hrun
    have hroom₁ : memo₁.HasRoom := by
      simpa [Memo.HasRoom] using hroom
    obtain ⟨moments, hpasses⟩ := hshows.passes hwork
    obtain ⟨hstart, -⟩ := hmiss.complete h (hpasses.grows.hasRoom hroom₁)
    obtain ⟨hstop, -⟩ := hpasses.complete hstart hroom₁
    have hspace : memo₁.entryCount < memo₁.capacity := by
      have hmisses := hstop.misses_eq
      simp only [Memo.HasRoom, List.length_singleton] at hroom₁ hmisses
      omega
    rw [Memo.find?_store_of_room hstop.isOn hspace, if_pos ⟨rfl, rfl⟩]

end Pattern

end MarkedRegex
