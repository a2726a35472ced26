-- Sets of numbers kept as the points where membership switches. A list of
-- cuts is read from the left: each cut turns membership over. The laws say
-- what a number is inside of after two lists are swept together.

namespace MarkedRegex.Cuts

/-! ## Reading a list of cuts -/

/-- Whether `n` is inside, when `now` holds before the first cut. -/
def inside (now : Bool) : List Nat → Nat → Bool
  | [], _ => now
  | x :: xs, n => if n < x then now else inside (!now) xs n

/-- How many numbers lie inside, when none do before the first cut. -/
def count : List Nat → Nat
  | x :: y :: rest => (y - x) + count rest
  | _ => 0

/-- The stretches inside, each with its first number and the number after its last. -/
def stretches : List Nat → List (Nat × Nat)
  | x :: y :: rest => (x, y) :: stretches rest
  | _ => []

/-! ## Sweeping two lists together -/

/-- A cut at `x`, left out where membership stays the same. -/
def switch (x : Nat) (before after : Bool) (rest : List Nat) : List Nat :=
  if before = after then rest else x :: rest

/-- The cuts of the numbers that `op` keeps, given membership in two lists. -/
def sweep (op : Bool → Bool → Bool) (v w : Bool) : List Nat → List Nat → List Nat
  | [], [] => []
  | x :: xs, [] => switch x (op v w) (op (!v) w) (sweep op (!v) w xs [])
  | [], y :: ys => switch y (op v w) (op v (!w)) (sweep op v (!w) [] ys)
  | x :: xs, y :: ys =>
    if x < y then switch x (op v w) (op (!v) w) (sweep op (!v) w xs (y :: ys))
    else if y < x then switch y (op v w) (op v (!w)) (sweep op v (!w) (x :: xs) ys)
    else switch x (op v w) (op (!v) (!w)) (sweep op (!v) (!w) xs ys)
termination_by xs ys => xs.length + ys.length

/-- The cuts stand in strictly increasing order. -/
def Increasing (cuts : List Nat) : Prop := cuts.Pairwise (· < ·)

/-! ## Laws -/

theorem inside_of_lt {now : Bool} {cuts : List Nat} {n : Nat} (h : ∀ x ∈ cuts, n < x) :
    inside now cuts n = now := by
  cases cuts with
  | nil => rfl
  | cons x xs => simp [inside, h x (by simp)]

theorem mem_switch {x z : Nat} {before after : Bool} {rest : List Nat}
    (h : z ∈ switch x before after rest) : z = x ∨ z ∈ rest := by
  unfold switch at h
  split at h
  · exact Or.inr h
  · simpa using h

theorem mem_sweep {op : Bool → Bool → Bool} {v w : Bool} {xs ys : List Nat} {z : Nat}
    (h : z ∈ sweep op v w xs ys) : z ∈ xs ∨ z ∈ ys := by
  fun_induction sweep op v w xs ys with
  | case1 => simp at h
  | case2 v w x xs ih =>
    rcases mem_switch h with rfl | h
    · simp
    · rcases ih h with h | h <;> simp_all
  | case3 v w y ys ih =>
    rcases mem_switch h with rfl | h
    · simp
    · rcases ih h with h | h <;> simp_all
  | case4 v w x xs y ys _ ih =>
    rcases mem_switch h with rfl | h
    · simp
    · rcases ih h with h | h
      · simp [h]
      · exact Or.inr h
  | case5 v w x xs y ys _ _ ih =>
    rcases mem_switch h with rfl | h
    · simp
    · rcases ih h with h | h
      · exact Or.inl h
      · simp [h]
  | case6 v w x xs y ys _ _ ih =>
    rcases mem_switch h with rfl | h
    · simp
    · rcases ih h with h | h <;> simp [h]

theorem increasing_switch {x : Nat} {before after : Bool} {rest : List Nat}
    (hlt : ∀ z ∈ rest, x < z) (h : Increasing rest) : Increasing (switch x before after rest) := by
  unfold switch
  split
  · exact h
  · exact List.pairwise_cons.mpr ⟨hlt, h⟩

theorem increasing_sweep {op : Bool → Bool → Bool} {v w : Bool} {xs ys : List Nat}
    (hx : Increasing xs) (hy : Increasing ys) : Increasing (sweep op v w xs ys) := by
  fun_induction sweep op v w xs ys with
  | case1 => exact hx
  | case2 v w x xs ih =>
    have ⟨hlt, hxs⟩ := List.pairwise_cons.mp hx
    refine increasing_switch (fun z hz => ?_) (ih hxs hy)
    rcases mem_sweep hz with h | h
    · exact hlt z h
    · simp at h
  | case3 v w y ys ih =>
    have ⟨hlt, hys⟩ := List.pairwise_cons.mp hy
    refine increasing_switch (fun z hz => ?_) (ih hx hys)
    rcases mem_sweep hz with h | h
    · simp at h
    · exact hlt z h
  | case4 v w x xs y ys hxy ih =>
    have ⟨hlt, hxs⟩ := List.pairwise_cons.mp hx
    have ⟨hlt', _⟩ := List.pairwise_cons.mp hy
    refine increasing_switch (fun z hz => ?_) (ih hxs hy)
    rcases mem_sweep hz with h | h
    · exact hlt z h
    · rcases List.mem_cons.mp h with rfl | h
      · exact hxy
      · exact Nat.lt_trans hxy (hlt' z h)
  | case5 v w x xs y ys _ hyx ih =>
    have ⟨hlt, _⟩ := List.pairwise_cons.mp hx
    have ⟨hlt', hys⟩ := List.pairwise_cons.mp hy
    refine increasing_switch (fun z hz => ?_) (ih hx hys)
    rcases mem_sweep hz with h | h
    · rcases List.mem_cons.mp h with rfl | h
      · exact hyx
      · exact Nat.lt_trans hyx (hlt z h)
    · exact hlt' z h
  | case6 v w x xs y ys hxy hyx ih =>
    have ⟨hlt, hxs⟩ := List.pairwise_cons.mp hx
    have ⟨hlt', hys⟩ := List.pairwise_cons.mp hy
    obtain rfl : x = y := by omega
    refine increasing_switch (fun z hz => ?_) (ih hxs hys)
    rcases mem_sweep hz with h | h
    · exact hlt z h
    · exact hlt' z h

theorem inside_switch {x n : Nat} {before after : Bool} {rest : List Nat}
    (hlt : ∀ z ∈ rest, x < z) :
    inside before (switch x before after rest) n =
      if n < x then before else inside after rest n := by
  by_cases hb : before = after
  · subst hb
    by_cases hn : n < x
    · simp [switch, hn, inside_of_lt fun z hz => Nat.lt_trans hn (hlt z hz)]
    · simp [switch, hn]
  · have : after = !before := by cases before <;> cases after <;> simp_all
    simp [switch, inside, this]

/-- A number is inside a sweep exactly when `op` says so of the two lists. -/
theorem inside_sweep (op : Bool → Bool → Bool) (v w : Bool) {xs ys : List Nat}
    (hx : Increasing xs) (hy : Increasing ys) (n : Nat) :
    inside (op v w) (sweep op v w xs ys) n = op (inside v xs n) (inside w ys n) := by
  fun_induction sweep op v w xs ys with
  | case1 => rfl
  | case2 v w x xs ih =>
    have ⟨hlt, hxs⟩ := List.pairwise_cons.mp hx
    rw [inside_switch (fun z hz => by
      rcases mem_sweep hz with h | h
      · exact hlt z h
      · simp at h), ih hxs hy]
    by_cases hn : n < x <;> simp [inside, hn]
  | case3 v w y ys ih =>
    have ⟨hlt, hys⟩ := List.pairwise_cons.mp hy
    rw [inside_switch (fun z hz => by
      rcases mem_sweep hz with h | h
      · simp at h
      · exact hlt z h), ih hx hys]
    by_cases hn : n < y <;> simp [inside, hn]
  | case4 v w x xs y ys hxy ih =>
    have ⟨hlt, hxs⟩ := List.pairwise_cons.mp hx
    have ⟨hlt', _⟩ := List.pairwise_cons.mp hy
    rw [inside_switch (fun z hz => by
      rcases mem_sweep hz with h | h
      · exact hlt z h
      · rcases List.mem_cons.mp h with rfl | h
        · exact hxy
        · exact Nat.lt_trans hxy (hlt' z h)), ih hxs hy]
    by_cases hn : n < x
    · simp [inside, hn, Nat.lt_trans hn hxy]
    · simp [inside, hn]
  | case5 v w x xs y ys _ hyx ih =>
    have ⟨hlt, _⟩ := List.pairwise_cons.mp hx
    have ⟨hlt', hys⟩ := List.pairwise_cons.mp hy
    rw [inside_switch (fun z hz => by
      rcases mem_sweep hz with h | h
      · rcases List.mem_cons.mp h with rfl | h
        · exact hyx
        · exact Nat.lt_trans hyx (hlt z h)
      · exact hlt' z h), ih hx hys]
    by_cases hn : n < y
    · simp [inside, hn, Nat.lt_trans hn hyx]
    · simp [inside, hn]
  | case6 v w x xs y ys hxy hyx ih =>
    have ⟨hlt, hxs⟩ := List.pairwise_cons.mp hx
    have ⟨hlt', hys⟩ := List.pairwise_cons.mp hy
    obtain rfl : x = y := by omega
    rw [inside_switch (fun z hz => by
      rcases mem_sweep hz with h | h
      · exact hlt z h
      · exact hlt' z h), ih hxs hys]
    by_cases hn : n < x <;> simp [inside, hn]

end MarkedRegex.Cuts
