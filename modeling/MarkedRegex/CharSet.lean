-- Sets of characters. A set is the list of code points where membership
-- switches, so a range costs two numbers and equal sets are equal lists.
-- Surrogate code points are never members.
import MarkedRegex.CharSet.Cuts

namespace MarkedRegex

/-- A set of characters, kept as the code points where membership switches. -/
structure CharSet where
  cuts : List Nat
  increasing : Cuts.Increasing cuts
  scalar : ∀ n, Cuts.inside false cuts n = true → n.isValidChar
  deriving DecidableEq

namespace CharSet

/-! ## Membership -/

def contains (s : CharSet) (c : Char) : Bool := Cuts.inside false s.cuts c.toNat

instance : Membership Char CharSet := ⟨fun s c => s.contains c = true⟩

instance (c : Char) (s : CharSet) : Decidable (c ∈ s) :=
  inferInstanceAs (Decidable (s.contains c = true))

def isEmpty (s : CharSet) : Bool := s.cuts.isEmpty

/-- The number of members. -/
def size (s : CharSet) : Nat := Cuts.count s.cuts

/-- The only member, if there is exactly one. -/
def single? (s : CharSet) : Option Char :=
  match s.cuts with
  | [x, y] => if y = x + 1 then some (Char.ofNat x) else none
  | _ => none

/-- The runs of consecutive code points, each with its first and last member. -/
def ranges (s : CharSet) : List (Char × Char) :=
  (Cuts.stretches s.cuts).map fun (x, y) => (Char.ofNat x, Char.ofNat (y - 1))

/-- The members in order. -/
def toList (s : CharSet) : List Char :=
  (Cuts.stretches s.cuts).flatMap fun (x, y) => (List.range' x (y - x)).map Char.ofNat

/-! ## Building sets -/

def empty : CharSet where
  cuts := []
  increasing := .nil
  scalar := by simp [Cuts.inside]

instance : EmptyCollection CharSet := ⟨empty⟩
instance : Inhabited CharSet := ⟨empty⟩

/-- The first surrogate code point. -/
def gapStart : Nat := 0xD800

/-- The first code point after the surrogates. -/
def gapEnd : Nat := 0xE000

theorem toNat_valid (c : Char) : c.toNat < gapStart ∨ gapEnd ≤ c.toNat ∧ c.toNat < 0x110000 := by
  have h : c.toNat.isValidChar := c.valid
  simp only [Nat.isValidChar] at h
  simp only [gapStart, gapEnd]
  omega

/-- The characters from `lo` to `hi`, both included; none when `hi` comes before `lo`.
A range across the surrogates is cut open there. -/
def range (lo hi : Char) : CharSet :=
  if h : hi.toNat < lo.toNat then ∅
  else if g : lo.toNat < gapStart ∧ gapEnd ≤ hi.toNat then
    { cuts := [lo.toNat, gapStart, gapEnd, hi.toNat + 1]
      increasing := by
        have := g.1
        have := g.2
        simp [Cuts.Increasing, gapStart, gapEnd] at *
        omega
      scalar := by
        intro n hn
        have := toNat_valid hi
        simp only [Cuts.inside, gapStart, gapEnd] at *
        simp only [Nat.isValidChar]
        grind }
  else
    { cuts := [lo.toNat, hi.toNat + 1]
      increasing := by
        simp [Cuts.Increasing]
        omega
      scalar := by
        intro n hn
        have := toNat_valid lo
        have := toNat_valid hi
        simp only [Cuts.inside, gapStart, gapEnd] at *
        simp only [Nat.isValidChar]
        grind }

def singleton (c : Char) : CharSet := range c c

/-- The characters that `op` keeps, given membership in two sets. -/
def combine (op : Bool → Bool → Bool) (hop : op false false = false) (s t : CharSet) : CharSet where
  cuts := Cuts.sweep op false false s.cuts t.cuts
  increasing := Cuts.increasing_sweep s.increasing t.increasing
  scalar := by
    intro n hn
    have h := Cuts.inside_sweep op false false s.increasing t.increasing n
    rw [hop, hn] at h
    cases hs : Cuts.inside false s.cuts n with
    | true => exact s.scalar n hs
    | false =>
      cases ht : Cuts.inside false t.cuts n with
      | true => exact t.scalar n ht
      | false => simp [hs, ht, hop] at h

def union (s t : CharSet) : CharSet := combine (fun a b => a || b) rfl s t

def intersection (s t : CharSet) : CharSet := combine (fun a b => a && b) rfl s t

/-- The members of `s` that are not in `t`. -/
def difference (s t : CharSet) : CharSet := combine (fun a b => a && !b) rfl s t

def insert (s : CharSet) (c : Char) : CharSet := s.union (singleton c)

def extend (s : CharSet) (cs : List Char) : CharSet := cs.foldl insert s

def ofList (cs : List Char) : CharSet := extend ∅ cs

/-! ## Laws of membership -/

theorem mem_iff {s : CharSet} {c : Char} : c ∈ s ↔ s.contains c = true := Iff.rfl

@[simp] theorem contains_empty (c : Char) : (∅ : CharSet).contains c = false := rfl

theorem contains_combine {op : Bool → Bool → Bool} {hop : op false false = false}
    (s t : CharSet) (c : Char) :
    (combine op hop s t).contains c = op (s.contains c) (t.contains c) := by
  have h := Cuts.inside_sweep op false false s.increasing t.increasing c.toNat
  rw [hop] at h
  exact h

@[simp] theorem contains_union (s t : CharSet) (c : Char) :
    (s.union t).contains c = (s.contains c || t.contains c) := contains_combine s t c

@[simp] theorem contains_intersection (s t : CharSet) (c : Char) :
    (s.intersection t).contains c = (s.contains c && t.contains c) := contains_combine s t c

@[simp] theorem contains_difference (s t : CharSet) (c : Char) :
    (s.difference t).contains c = (s.contains c && !t.contains c) := contains_combine s t c

/-- A range holds the characters between its ends, on both sides of the surrogates. -/
@[simp] theorem contains_range (lo hi c : Char) :
    (range lo hi).contains c = decide (lo.toNat ≤ c.toNat ∧ c.toNat ≤ hi.toNat) := by
  have hc := toNat_valid c
  unfold range
  split
  · rw [contains_empty, eq_comm, decide_eq_false_iff_not]
    omega
  · split
    · simp only [contains, Cuts.inside]
      simp only [gapStart, gapEnd] at *
      grind
    · simp only [contains, Cuts.inside]
      grind

@[simp] theorem contains_singleton (a c : Char) : (singleton a).contains c = decide (c = a) := by
  rw [singleton, contains_range]
  simp only [decide_eq_decide]
  constructor
  · intro h
    exact Char.toNat_inj.mp (by omega)
  · rintro rfl
    simp

@[simp] theorem contains_insert (s : CharSet) (a c : Char) :
    (s.insert a).contains c = (s.contains c || decide (c = a)) := by
  simp [insert]

@[simp] theorem contains_extend (s : CharSet) (cs : List Char) (c : Char) :
    (s.extend cs).contains c = (s.contains c || decide (c ∈ cs)) := by
  induction cs generalizing s with
  | nil => simp [extend]
  | cons a cs ih =>
    have h : s.extend (a :: cs) = (s.insert a).extend cs := rfl
    rw [h, ih]
    simp [Bool.or_assoc]

@[simp] theorem contains_ofList (cs : List Char) (c : Char) :
    (ofList cs).contains c = decide (c ∈ cs) := by
  simp [ofList]

end CharSet

end MarkedRegex
