-- Limits on the patterns a matcher may reach, and the errors when one of them
-- is passed.
import MarkedRegex.Memo

namespace MarkedRegex

/-! ## Errors -/

/-- Why a matcher gave up: a pattern it reached has too many nodes or is nested too deep. -/
inductive LimitError where
  | tooLarge (size limit : Nat)
  | tooDeep (depth limit : Nat)
  deriving DecidableEq

def LimitError.message : LimitError → String
  | .tooLarge size limit => s!"pattern state too large ({size} nodes, limit {limit})"
  | .tooDeep depth limit => s!"pattern state too deep ({depth} levels, limit {limit})"

/-! ## Limits -/

/-- The largest size and depth of a pattern that is reached, where none is no limit; whether
derivatives are remembered, and how many. -/
structure Limits where
  maxSize : Option Nat := some 0x100000
  maxDepth : Option Nat := some 512
  remember : Bool := true
  capacity : Nat := Memo.defaultCapacity
  deriving DecidableEq

namespace Limits

/-- No limit on size or depth. -/
def unlimited : Limits := { maxSize := none, maxDepth := none }

/-- The memory that the limits ask for. -/
def memo (l : Limits) : Memo := if l.remember then .ofCapacity l.capacity else .off

/-- The limit, if there is one and `n` is over it. -/
def passed (limit : Option Nat) (n : Nat) : Option Nat := limit.filter (· < n)

/-- Refuses a pattern over the limits, for its size first. -/
def check (l : Limits) (p : Pattern) : Except LimitError Unit :=
  match passed l.maxSize p.size with
  | some limit => .error (.tooLarge p.size limit)
  | none =>
    match passed l.maxDepth p.depth with
    | some limit => .error (.tooDeep p.depth limit)
    | none => .ok ()

/-! ## What the limits refuse -/

/-- The pattern is over the limit on sizes, or over the one on depths. -/
def Excludes (l : Limits) (p : Pattern) : Prop :=
  (∃ k ∈ l.maxSize, k < p.size) ∨ ∃ k ∈ l.maxDepth, k < p.depth

theorem passed_eq_some_iff {limit : Option Nat} {n k : Nat} :
    passed limit n = some k ↔ k ∈ limit ∧ k < n := by
  simp [passed, Option.filter_eq_some_iff]

theorem passed_eq_none_iff {limit : Option Nat} {n : Nat} :
    passed limit n = none ↔ ∀ k ∈ limit, n ≤ k := by
  simp [passed, Option.filter_eq_none_iff]

section

variable {l : Limits} {p : Pattern} {k : Nat}

theorem check_eq_tooLarge (hk : k ∈ l.maxSize) (hlt : k < p.size) :
    l.check p = .error (.tooLarge p.size k) := by
  unfold check
  rw [passed_eq_some_iff.mpr ⟨hk, hlt⟩]

theorem check_eq_tooDeep (hsize : ∀ k ∈ l.maxSize, p.size ≤ k) (hk : k ∈ l.maxDepth)
    (hlt : k < p.depth) : l.check p = .error (.tooDeep p.depth k) := by
  unfold check
  rw [passed_eq_none_iff.mpr hsize, passed_eq_some_iff.mpr ⟨hk, hlt⟩]

theorem check_eq_ok_iff :
    l.check p = .ok () ↔ (∀ k ∈ l.maxSize, p.size ≤ k) ∧ ∀ k ∈ l.maxDepth, p.depth ≤ k := by
  rw [← passed_eq_none_iff, ← passed_eq_none_iff]
  unfold check
  cases passed l.maxSize p.size <;> cases passed l.maxDepth p.depth <;> simp

/-- All that the limits do not exclude is accepted. -/
theorem check_eq_ok_iff_not_excludes : l.check p = .ok () ↔ ¬l.Excludes p := by
  rw [check_eq_ok_iff]
  simp only [Excludes, not_or, not_exists, not_and, Nat.not_lt]

end

end Limits

end MarkedRegex
