-- The texts that a parse accepts, as a language. Every operation on parses is
-- the operation on languages of the same name, so what is known about stars
-- of languages holds for stars of parses, captures included.
import MarkedRegex.Proofs.Parse

namespace MarkedRegex.Parse

open Computability

variable {α : Type} (a b : Parse α)

/-! ## The language of a parse -/

/-- The texts in which something is captured, be it nothing at all. -/
def accepts : Language α := {s | (a s).isSome}

theorem mem_accepts {a : Parse α} {s : List α} : s ∈ a.accepts ↔ (a s).isSome := Iff.rfl

@[simp] theorem accepts_fail : (fail : Parse α).accepts = 0 := by
  ext s
  simp [mem_accepts, fail]

@[simp] theorem accepts_empty : (empty : Parse α).accepts = 1 := by
  ext s
  cases s <;> simp [mem_accepts, empty]

theorem mem_accepts_one {f : α → Bool} {s : List α} :
    s ∈ (one f).accepts ↔ ∃ x, f x = true ∧ s = [x] := by
  match s with
  | [] => simp [mem_accepts, one]
  | [x] => simp [mem_accepts, one]
  | _ :: _ :: _ => simp [mem_accepts, one]

@[simp] theorem accepts_sequence : (a.sequence b).accepts = a.accepts * b.accepts := by
  ext s
  rw [mem_accepts, sequence, List.findSome?_isSome_iff, Language.mem_mul]
  constructor
  · rintro ⟨⟨u, v⟩, hsplit, h⟩
    rw [Captures.isSome_both, Bool.and_eq_true] at h
    exact ⟨u, h.1, v, h.2, mem_splits.mp hsplit⟩
  · rintro ⟨u, hu, v, hv, rfl⟩
    refine ⟨(u, v), mem_splits.mpr rfl, ?_⟩
    rw [Captures.isSome_both, Bool.and_eq_true]
    exact ⟨hu, hv⟩

@[simp] theorem accepts_alternation : (a.alternation b).accepts = a.accepts + b.accepts := by
  ext s
  rw [mem_accepts, alternation, isSome_first, Bool.or_eq_true]
  rfl

@[simp] theorem accepts_mark (name : String) (value : List α → List Char) :
    (a.mark name value).accepts = a.accepts := by
  ext s
  rw [mem_accepts, mark, Captures.isSome_both]
  rfl

theorem mem_accepts_after {a : Parse α} {x : α} {s : List α} :
    s ∈ (a.after x).accepts ↔ x :: s ∈ a.accepts := Iff.rfl

/-- A round of the text at least one symbol long, and the rounds behind it. -/
theorem mem_accepts_star_cons {a : Parse α} {x : α} {s : List α} :
    x :: s ∈ a.star.accepts ↔
      ∃ u v, u ++ v = s ∧ x :: u ∈ a.accepts ∧ v ∈ a.star.accepts := by
  rw [mem_accepts, star_cons, ← mem_accepts, accepts_sequence, Language.mem_mul]
  constructor
  · rintro ⟨u, hu, v, hv, h⟩
    exact ⟨u, v, h, hu, hv⟩
  · rintro ⟨u, v, h, hu, hv⟩
    exact ⟨u, hu, v, hv, h⟩

/-- A text is gone through in rounds, by induction on its length: what is behind the first round is
shorter. -/
@[simp] theorem accepts_star : a.star.accepts = a.accepts∗ := by
  ext s
  constructor
  · intro h
    induction hn : s.length using Nat.strong_induction_on generalizing s with
    | _ n ih =>
      cases s with
      | nil => exact Language.nil_mem_kstar _
      | cons x s =>
        obtain ⟨u, v, rfl, hu, hv⟩ := mem_accepts_star_cons.mp h
        have hrest : v ∈ a.accepts∗ := by
          refine ih v.length ?_ v hv rfl
          rw [← hn, List.length_cons, List.length_append]
          omega
        have hmul : (x :: u) ++ v ∈ a.accepts * a.accepts∗ := Language.append_mem_mul hu hrest
        exact (mul_kstar_le_kstar : a.accepts * a.accepts∗ ≤ a.accepts∗) hmul
  · intro h
    obtain ⟨rounds, rfl, hrounds⟩ := Language.mem_kstar_iff_exists_nonempty.mp h
    clear h
    induction rounds with
    | nil => simp [mem_accepts]
    | cons u rounds ih =>
      obtain ⟨⟨hu, hne⟩, hrest⟩ := List.forall_mem_cons.mp hrounds
      cases u with
      | nil => exact absurd rfl hne
      | cons x u => exact mem_accepts_star_cons.mpr ⟨u, rounds.flatten, rfl, hu, ih hrest⟩

/-! ## Stars of stars -/

theorem splits_eq_cons (s : List α) : ∃ rest, splits s = (s, []) :: rest := by
  induction s with
  | nil => exact ⟨[], rfl⟩
  | cons x s ih =>
    obtain ⟨rest, h⟩ := ih
    exact ⟨_, by rw [splits, h]; rfl⟩

/-- A second part that may be empty adds nothing where the first part can take in all that both
together can. -/
theorem sequence_eq_left {a b : Parse α} {s : List α} (hb : b [] = some ∅)
    (h : ∀ u v, u ++ v = s → u ∈ a.accepts → v ∈ b.accepts → s ∈ a.accepts) :
    a.sequence b s = a s := by
  cases has : a s with
  | some r =>
    obtain ⟨rest, hrest⟩ := splits_eq_cons s
    simp [sequence, hrest, has, hb]
  | none =>
    rw [sequence, List.findSome?_eq_none_iff]
    rintro ⟨u, v⟩ hsplit
    rw [← Option.not_isSome_iff_eq_none, Captures.isSome_both, Bool.and_eq_true]
    rintro ⟨hu, hv⟩
    have hs : (a s).isSome := h u v (mem_splits.mp hsplit) hu hv
    simp [has] at hs

/-- One round of a star over a star takes in all that its rounds together can. -/
theorem star_star : a.star.star = a.star := by
  funext s
  cases s with
  | nil => rw [star_nil, star_nil]
  | cons x s =>
    rw [star_cons]
    refine sequence_eq_left (star_nil _) fun u v huv hu hv => ?_
    rw [mem_accepts_after, accepts_star] at hu ⊢
    rw [accepts_star, accepts_star, kstar_idem] at hv
    have hmul := Language.append_mem_mul hu hv
    rwa [kstar_mul_kstar, List.cons_append, huv] at hmul

end MarkedRegex.Parse
