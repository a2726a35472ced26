-- Parses: what is captured in each text, or nothing where the text does not
-- match. The laws say what is left of a parse after one symbol, and which
-- reductions keep a parse as it is.
import MarkedRegex.Proofs.Captures.Merge
import Mathlib.Computability.Language

namespace MarkedRegex

open Computability

variable {α : Type}

/-! ## Splits of a text -/

/-- The ways to cut a text in two, the longest first part first. -/
def splits : List α → List (List α × List α)
  | [] => [([], [])]
  | x :: xs => (splits xs).map (fun (u, v) => (x :: u, v)) ++ [([], x :: xs)]

theorem mem_splits {s u v : List α} : (u, v) ∈ splits s ↔ u ++ v = s := by
  induction s generalizing u with
  | nil => simp [splits]
  | cons x xs ih =>
    simp only [splits, List.mem_append, List.mem_map, List.mem_singleton, Prod.mk.injEq]
    constructor
    · rintro (⟨⟨u', v'⟩, h, rfl, rfl⟩ | ⟨rfl, rfl⟩)
      · rw [List.cons_append, ih.mp h]
      · rfl
    · intro h
      cases u with
      | nil => exact Or.inr ⟨rfl, h⟩
      | cons y u =>
        rw [List.cons_append, List.cons.injEq] at h
        obtain ⟨rfl, h⟩ := h
        exact Or.inl ⟨(u, v), ih.mpr h, rfl, rfl⟩

theorem length_le_of_mem_splits {s u v : List α} (h : (u, v) ∈ splits s) :
    v.length ≤ s.length := by
  rw [← mem_splits.mp h, List.length_append]
  omega

/-- What is captured in each text; nothing in a text that does not match. -/
abbrev Parse (α : Type) := List α → Option Captures

namespace Parse

/-! ## Operations -/

/-- The empty text, without captures. -/
def empty : Parse α
  | [] => some ∅
  | _ :: _ => none

/-- No text. -/
def fail : Parse α := fun _ => none

/-- One symbol that is accepted, without captures. -/
def one (accepts : α → Bool) : Parse α
  | [x] => if accepts x then some ∅ else none
  | _ => none

/-- The captures of both parts, at the first split that has them. -/
def sequence (a b : Parse α) : Parse α := fun s =>
  (splits s).findSome? fun (u, v) => Captures.both (a u) (b v)

/-- The captures of the left one, or else those of the right one. -/
def alternation (a b : Parse α) : Parse α := fun s => Captures.first (a s) (b s)

/-- The empty text, or a nonempty first round and the rounds behind it, at the first split that
has them. -/
def star (a : Parse α) : Parse α
  | [] => some ∅
  | x :: xs =>
    (splits xs).attach.findSome? fun ⟨(u, v), _⟩ => Captures.both (a (x :: u)) (star a v)
termination_by s => s.length
decreasing_by exact Nat.lt_succ_of_le (length_le_of_mem_splits (by assumption))

/-- One more value under a name, in front of the other captures. -/
def mark (name : String) (value : List α → List Char) (a : Parse α) : Parse α := fun s =>
  Captures.both (some (Captures.single name (String.ofList (value s)))) (a s)

/-- What is left of a parse after one symbol. -/
def after (a : Parse α) (x : α) : Parse α := fun s => a (x :: s)

/-- The empty text alone, with what it captures. -/
def settled (a : Parse α) : Parse α
  | [] => a []
  | _ :: _ => none

/-- No nonempty text matches. -/
def OnlyEmpty (a : Parse α) : Prop := ∀ x s, a (x :: s) = none

/-! ## What is left after one symbol -/

section

variable (a b c : Parse α) (x : α)

@[simp] theorem first_none (r : Option Captures) : Captures.first none r = r := rfl

@[simp] theorem first_none_right (r : Option Captures) : Captures.first r none = r := by
  cases r <;> rfl

@[simp] theorem first_self (r : Option Captures) : Captures.first r r = r := by
  cases r <;> rfl

@[simp] theorem isSome_first (r r' : Option Captures) :
    (Captures.first r r').isSome = (r.isSome || r'.isSome) := by
  cases r <;> rfl

theorem sequence_nil : sequence a b [] = Captures.both (a []) (b []) := by
  simp [sequence, splits]

/-- The first part goes on with the symbol, or else it is empty. -/
theorem sequence_cons (s : List α) :
    sequence a b (x :: s) =
      Captures.first (sequence (after a x) b s) (Captures.both (a []) (b (x :: s))) := by
  unfold sequence
  rw [splits, List.findSome?_append, List.findSome?_map]
  rw [List.findSome?_singleton, Captures.first_eq_or]
  rfl

@[simp] theorem star_nil : star a [] = some ∅ := by
  rw [star]

theorem star_cons (s : List α) : star a (x :: s) = sequence (after a x) (star a) s := by
  rw [star, sequence]
  conv => rhs; rw [← List.attach_map_subtype_val (splits s)]
  rw [List.findSome?_map]
  rfl

/-- Either the first part goes on, or it is empty and the second part takes the symbol. -/
theorem after_sequence :
    after (sequence a b) x =
      alternation (sequence (after a x) b) (sequence (settled a) (after b x)) := by
  funext s
  have hsettled : sequence (settled a) (after b x) s = Captures.both (a []) (b (x :: s)) := by
    cases s with
    | nil => exact sequence_nil _ _
    | cons y s =>
      have hdead : sequence (after (settled a) y) (after b x) s = none := by
        rw [sequence, List.findSome?_eq_none_iff]
        intro _ _
        rfl
      rw [sequence_cons, hdead]
      rfl
  rw [alternation, hsettled]
  exact sequence_cons a b x s

theorem after_star : after (star a) x = sequence (after a x) (star a) :=
  funext fun s => star_cons a x s

/-! ## Parts that match the empty text alone -/

theorem onlyEmpty_settled : OnlyEmpty (settled a) := fun _ _ => rfl

theorem settled_of_onlyEmpty (h : OnlyEmpty a) : settled a = a := by
  funext s
  cases s with
  | nil => rfl
  | cons x s => exact (h x s).symm

@[simp] theorem fail_sequence : sequence fail b = fail := by
  funext s
  rw [sequence, List.findSome?_eq_none_iff.mpr]
  · rfl
  · intro _ _
    rfl

@[simp] theorem sequence_fail : sequence a fail = fail := by
  funext s
  rw [sequence, List.findSome?_eq_none_iff.mpr]
  · rfl
  · intro _ _
    exact Captures.both_none _

/-- A part that is empty leaves the whole text to the one behind it. -/
theorem sequence_of_onlyEmpty (h : OnlyEmpty a) (s : List α) :
    sequence a b s = Captures.both (a []) (b s) := by
  cases s with
  | nil => exact sequence_nil a b
  | cons x s =>
    have hafter : after a x = fail := funext fun s => h x s
    rw [sequence_cons, hafter, fail_sequence]
    rfl

variable {a b}

theorem OnlyEmpty.sequence (ha : OnlyEmpty a) (hb : OnlyEmpty b) : OnlyEmpty (sequence a b) := by
  intro x s
  rw [sequence_of_onlyEmpty a b ha, hb x s, Captures.both_none]

/-- Empty parts may stand on either side of the split. -/
theorem sequence_assoc_of_onlyEmpty (ha : OnlyEmpty a) (hb : OnlyEmpty b) :
    sequence (sequence a b) c = sequence a (sequence b c) := by
  funext s
  calc sequence (sequence a b) c s
      = Captures.both (Captures.both (a []) (b [])) (c s) := by
        rw [sequence_of_onlyEmpty _ c (ha.sequence hb), sequence_nil]
    _ = Captures.both (a []) (Captures.both (b []) (c s)) := Captures.both_assoc _ _ _
    _ = sequence a (sequence b c) s := by
        rw [sequence_of_onlyEmpty a _ ha, sequence_of_onlyEmpty b c hb]

/-- Rounds of a star take at least one symbol. -/
theorem star_of_onlyEmpty (h : OnlyEmpty a) : star a = empty := by
  funext s
  cases s with
  | nil => exact star_nil a
  | cons x s =>
    have hafter : after a x = fail := funext fun s => h x s
    rw [star_cons, hafter, fail_sequence]
    rfl

variable (a b)

theorem onlyEmpty_fail : OnlyEmpty (fail : Parse α) := fun _ _ => rfl

theorem onlyEmpty_empty : OnlyEmpty (empty : Parse α) := fun _ _ => rfl

@[simp] theorem empty_sequence : sequence empty b = b := by
  funext s
  rw [sequence_of_onlyEmpty _ b onlyEmpty_empty]
  exact Captures.empty_both (b s)

@[simp] theorem sequence_empty : sequence a empty = a := by
  funext s
  induction s generalizing a with
  | nil => rw [sequence_nil]; exact Captures.both_empty (a [])
  | cons x s ih =>
    rw [sequence_cons, ih (after a x)]
    have hrest : Captures.both (a []) (empty (x :: s)) = none := Captures.both_none _
    rw [hrest, first_none_right]
    rfl

theorem settled_sequence : settled (sequence a b) = sequence (settled a) (settled b) := by
  funext s
  rw [sequence_of_onlyEmpty _ _ (onlyEmpty_settled a)]
  cases s with
  | nil => exact sequence_nil a b
  | cons x s => exact (Captures.both_none _).symm

theorem settled_alternation :
    settled (alternation a b) = alternation (settled a) (settled b) := by
  funext s
  cases s <;> rfl

theorem settled_star : settled (star a) = star (settled a) := by
  rw [star_of_onlyEmpty (onlyEmpty_settled a)]
  funext s
  cases s with
  | nil => exact star_nil a
  | cons x s => rfl

theorem settled_mark (name : String) (value : List α → List Char) :
    settled (mark name value a) = mark name value (settled a) := by
  funext s
  cases s with
  | nil => rfl
  | cons x s => exact (Captures.both_none _).symm

/-! ## Alternatives -/

@[simp] theorem alternation_fail : alternation a fail = a := by
  funext s
  exact first_none_right (a s)

@[simp] theorem alternation_self : alternation a a = a := by
  funext s
  exact first_self (a s)

theorem alternation_one (f g : α → Bool) :
    alternation (one f) (one g) = one fun x => f x || g x := by
  funext s
  match s with
  | [] => rfl
  | [x] =>
    by_cases hf : f x
    · simp [alternation, one, hf, Captures.first]
    · simp [alternation, one, hf]
  | _ :: _ :: _ => rfl

theorem one_eq_fail {f : α → Bool} (h : ∀ x, f x = false) : one f = fail := by
  funext s
  match s with
  | [] => rfl
  | [x] => simp [one, fail, h x]
  | _ :: _ :: _ => rfl

theorem settled_one (f : α → Bool) : settled (one f) = fail := by
  funext s
  cases s <;> rfl

theorem after_one (f : α → Bool) : after (one f) x = if f x then empty else fail := by
  funext s
  cases s with
  | nil =>
    by_cases h : f x
    · simp [after, one, empty, h]
    · simp [after, one, fail, h]
  | cons y s =>
    by_cases h : f x
    · simp [after, one, empty, h]
    · simp [after, one, fail, h]

end

end Parse

end MarkedRegex
