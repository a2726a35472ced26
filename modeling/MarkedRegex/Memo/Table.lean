-- A table of derivatives that are already worked out, by node and character.
-- The serial number of the node and the character choose a slot; inside it,
-- entries are told apart by the node itself.
import MarkedRegex.Pattern
import Std.Data.TreeMap

namespace MarkedRegex

/-- A derivative that is worked out: of which node, by which character, and what it is. -/
structure MemoEntry where
  node : Pattern
  char : Char
  result : Pattern
  deriving DecidableEq

/-- Derivatives by slot, and how many there are. -/
structure MemoTable where
  slots : Std.TreeMap Nat (List MemoEntry)
  size : Nat

namespace MemoTable

/-! ## Operations -/

instance : EmptyCollection MemoTable := ⟨{ slots := ∅, size := 0 }⟩
instance : Inhabited MemoTable := ⟨∅⟩

/-- The slot of a node and a character; nodes with different serial numbers share none. -/
def slot (p : Pattern) (c : Char) : Nat := p.serial * 0x110000 + c.toNat

def isFor (p : Pattern) (c : Char) (e : MemoEntry) : Bool := e.char = c && e.node = p

/-- The entries in the slot of a node and a character. -/
def bucket (t : MemoTable) (p : Pattern) (c : Char) : List MemoEntry :=
  (t.slots[slot p c]?).getD []

def find? (t : MemoTable) (p : Pattern) (c : Char) : Option Pattern :=
  ((t.bucket p c).find? (isFor p c)).map (·.result)

/-- The table with one more entry, in the place of an earlier one for the same node and
character. -/
def insert (t : MemoTable) (p : Pattern) (c : Char) (result : Pattern) : MemoTable where
  slots := t.slots.insert (slot p c)
    (⟨p, c, result⟩ :: (t.bucket p c).filter fun e => !isFor p c e)
  size := if (t.find? p c).isSome then t.size else t.size + 1

/-! ## Laws -/

theorem isFor_iff {p : Pattern} {c : Char} {e : MemoEntry} :
    isFor p c e = true ↔ e.char = c ∧ e.node = p := by
  simp [isFor]

@[simp] theorem find?_empty (p : Pattern) (c : Char) : (∅ : MemoTable).find? p c = none := by
  have h : (∅ : MemoTable).slots = ∅ := rfl
  simp [find?, bucket, h]

@[simp] theorem size_empty : (∅ : MemoTable).size = 0 := rfl

theorem bucket_insert (t : MemoTable) (p q : Pattern) (c d : Char) (result : Pattern) :
    (t.insert p c result).bucket q d =
      if slot p c = slot q d then
        ⟨p, c, result⟩ :: (t.bucket p c).filter fun e => !isFor p c e
      else t.bucket q d := by
  unfold bucket insert
  rw [Std.TreeMap.getElem?_insert]
  simp only [Nat.compare_eq_eq]
  split <;> rfl

theorem find?_insert (t : MemoTable) (p q : Pattern) (c d : Char) (result : Pattern) :
    (t.insert p c result).find? q d = if p = q ∧ c = d then some result else t.find? q d := by
  unfold find?
  rw [bucket_insert]
  by_cases h : p = q ∧ c = d
  · obtain ⟨rfl, rfl⟩ := h
    simp [isFor]
  · have hne : isFor q d ⟨p, c, result⟩ = false := by
      cases hb : isFor q d ⟨p, c, result⟩ with
      | false => rfl
      | true => exact absurd (isFor_iff.mp hb).symm (by simpa using h)
    rw [if_neg h]
    by_cases hs : slot p c = slot q d
    · have hbucket : t.bucket p c = t.bucket q d := by simp only [bucket, hs]
      have htest : ∀ e, (!isFor p c e && isFor q d e) = isFor q d e := by
        intro e
        cases he : isFor q d e with
        | false => simp
        | true =>
          obtain ⟨h₁, h₂⟩ := isFor_iff.mp he
          simp only [isFor, h₁, h₂]
          grind
      simp [hs, hne, hbucket, List.find?_filter, -Bool.and_eq_true, htest]
    · rw [if_neg hs]

end MemoTable

end MarkedRegex
