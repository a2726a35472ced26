-- What is remembered while differentiating: a table of derivatives, if there
-- is to be one, its capacity, and how often it could and could not answer.
import MarkedRegex.Build
import MarkedRegex.Memo.Table

namespace MarkedRegex

/-! ## The memory -/

/-- A table of derivatives, or none, with its capacity and the counts of its hits and misses. A
table that has reached its capacity is emptied before the next entry goes in. The counts stand for
counters of 64 bits: a derivative adds one at a time, and 2^64 of them are out of reach. -/
structure Memo where
  table : Option MemoTable
  capacity : Nat
  hits : Nat := 0
  misses : Nat := 0

namespace Memo

/-- A memory that keeps nothing. -/
def off : Memo := { table := none, capacity := 0 }

/-- An empty memory of some capacity. -/
def ofCapacity (capacity : Nat) : Memo := { table := some ∅, capacity }

instance : Inhabited Memo := ⟨off⟩

/-- How many derivatives a table holds unless it is told otherwise. -/
def defaultCapacity : Nat := 4096

def isOn (m : Memo) : Bool := m.table.isSome

def entryCount (m : Memo) : Nat := (m.table.map (·.size)).getD 0

def find? (m : Memo) (p : Pattern) (c : Char) : Option Pattern := m.table.bind (·.find? p c)

theorem isOn_of_find? {m : Memo} {p r : Pattern} {c : Char} (h : m.find? p c = some r) :
    m.isOn = true := by
  unfold find? at h
  unfold isOn
  cases ht : m.table with
  | none => simp [ht] at h
  | some t => rfl

/-- What a memory can say to a question: what it holds, that it holds nothing, or that it has no
table. -/
theorem hit_or_miss_or_off (m : Memo) (p : Pattern) (c : Char) :
    (∃ r, m.find? p c = some r) ∨ (m.isOn = true ∧ m.find? p c = none) ∨ m.isOn = false := by
  by_cases hon : m.isOn = true
  · cases hfind : m.find? p c with
    | some r => exact Or.inl ⟨r, rfl⟩
    | none => exact Or.inr (Or.inl ⟨hon, rfl⟩)
  · exact Or.inr (Or.inr (by simpa using hon))

/-- The memory with an empty table; its counts stay. -/
def clear (m : Memo) : Memo := { m with table := m.table.map fun _ => ∅ }

def countHit (m : Memo) : Memo := { m with hits := m.hits + 1 }

def countMiss (m : Memo) : Memo := { m with misses := m.misses + 1 }

/-- The table with room for one more entry: emptied, if it has reached its capacity. -/
def makeRoom (capacity : Nat) (t : MemoTable) : MemoTable := if capacity ≤ t.size then ∅ else t

/-- The memory with one more entry. A table of no capacity stays empty. -/
def store (m : Memo) (p : Pattern) (c : Char) (result : Pattern) : Memo :=
  match m with
  | { table := none, .. } => m
  | { table := some t, capacity, hits, misses } =>
    let t := makeRoom capacity t
    { table := some (if 0 < capacity then t.insert p c result else t), capacity, hits, misses }

end Memo

end MarkedRegex
