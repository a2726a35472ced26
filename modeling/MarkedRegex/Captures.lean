-- What marks captured: each name with its values in match order, names in
-- order. `merge` joins what two parts captured, `both` does so when both are
-- there, and `first` takes the left of two alternatives when it is there.

namespace MarkedRegex

/-! ## Entries in name order -/

namespace Entries

/-- Names strictly increase, so each stands at most once. -/
def Ordered (es : List (String × List String)) : Prop := es.Pairwise fun a b => a.1 < b.1

/-- No name stands without a value. -/
def Filled (es : List (String × List String)) : Prop := ∀ e ∈ es, e.2 ≠ []

/-- Puts values under a name, before those that are there already. -/
def put (name : String) (values : List String) :
    List (String × List String) → List (String × List String)
  | [] => [(name, values)]
  | (n, vs) :: rest =>
    if name < n then (name, values) :: (n, vs) :: rest
    else if n < name then (n, vs) :: put name values rest
    else (n, values ++ vs) :: rest

/-- The entries of both lists by name; under a shared name the values of the first list come
first. -/
def merge (as bs : List (String × List String)) : List (String × List String) :=
  as.foldr (fun e es => put e.1 e.2 es) bs

theorem name_of_mem_put {name : String} {values : List String} {es : List (String × List String)}
    {e : String × List String} (h : e ∈ put name values es) :
    e.1 = name ∨ ∃ a ∈ es, a.1 = e.1 := by
  induction es with
  | nil => simp_all [put]
  | cons a rest ih =>
    obtain ⟨n, vs⟩ := a
    rw [put] at h
    split at h
    · rcases List.mem_cons.mp h with rfl | h
      · exact Or.inl rfl
      · exact Or.inr ⟨e, h, rfl⟩
    · split at h
      · rcases List.mem_cons.mp h with rfl | h
        · exact Or.inr ⟨_, List.mem_cons_self, rfl⟩
        · rcases ih h with h | ⟨a, ha, he⟩
          · exact Or.inl h
          · exact Or.inr ⟨a, List.mem_cons_of_mem _ ha, he⟩
      · rcases List.mem_cons.mp h with rfl | h
        · exact Or.inr ⟨_, List.mem_cons_self, rfl⟩
        · exact Or.inr ⟨e, List.mem_cons_of_mem _ h, rfl⟩

theorem ordered_put {name : String} {values : List String} {es : List (String × List String)}
    (h : Ordered es) : Ordered (put name values es) := by
  induction es with
  | nil => exact List.pairwise_singleton _ _
  | cons a rest ih =>
    obtain ⟨n, vs⟩ := a
    have ⟨hfirst, hrest⟩ := List.pairwise_cons.mp h
    rw [put]
    split
    · next hlt =>
      refine List.pairwise_cons.mpr ⟨fun e he => ?_, h⟩
      rcases List.mem_cons.mp he with rfl | he
      · exact hlt
      · exact String.lt_trans hlt (hfirst e he)
    · split
      · next hgt =>
        refine List.pairwise_cons.mpr ⟨fun e he => ?_, ih hrest⟩
        rcases name_of_mem_put he with he | ⟨a, ha, he⟩
        · exact he ▸ hgt
        · exact he ▸ hfirst a ha
      · exact List.pairwise_cons.mpr ⟨hfirst, hrest⟩

theorem filled_put {name : String} {values : List String} {es : List (String × List String)}
    (hv : values ≠ []) (h : Filled es) : Filled (put name values es) := by
  induction es with
  | nil => simpa [Filled, put] using hv
  | cons a rest ih =>
    obtain ⟨n, vs⟩ := a
    obtain ⟨hfirst, hrest⟩ := List.forall_mem_cons.mp h
    rw [put]
    split
    · exact List.forall_mem_cons.mpr ⟨hv, h⟩
    · split
      · exact List.forall_mem_cons.mpr ⟨hfirst, ih hrest⟩
      · exact List.forall_mem_cons.mpr ⟨by simp [hv], hrest⟩

theorem ordered_merge {as bs : List (String × List String)} (h : Ordered bs) :
    Ordered (merge as bs) := by
  induction as with
  | nil => exact h
  | cons a as ih => exact ordered_put ih

theorem filled_merge {as bs : List (String × List String)} (ha : Filled as) (hb : Filled bs) :
    Filled (merge as bs) := by
  induction as with
  | nil => exact hb
  | cons a as ih =>
    obtain ⟨hfirst, hrest⟩ := List.forall_mem_cons.mp ha
    exact filled_put hfirst (ih hrest)

/-- Entries put one after the other in front of those behind them stay as they are. -/
theorem merge_nil {es : List (String × List String)} (h : Ordered es) : merge es [] = es := by
  induction es with
  | nil => rfl
  | cons a rest ih =>
    obtain ⟨hfirst, hrest⟩ := List.pairwise_cons.mp h
    have hcons : merge (a :: rest) [] = put a.1 a.2 (merge rest []) := rfl
    rw [hcons, ih hrest]
    cases rest with
    | nil => rfl
    | cons b rest => simp [put, hfirst b List.mem_cons_self]

end Entries

/-! ## Captures -/

/-- Names with the values captured under them, in name order. -/
structure Captures where
  entries : List (String × List String)
  ordered : Entries.Ordered entries
  filled : Entries.Filled entries
  deriving DecidableEq

namespace Captures

def empty : Captures where
  entries := []
  ordered := .nil
  filled := by simp [Entries.Filled]

instance : EmptyCollection Captures := ⟨empty⟩
instance : Inhabited Captures := ⟨empty⟩

/-- One value under one name. -/
def single (name value : String) : Captures where
  entries := [(name, [value])]
  ordered := List.pairwise_singleton _ _
  filled := by simp [Entries.Filled]

/-- What two parts captured; under a shared name the values of the first come first. -/
def merge (a b : Captures) : Captures where
  entries := Entries.merge a.entries b.entries
  ordered := Entries.ordered_merge b.ordered
  filled := Entries.filled_merge a.filled b.filled

/-- There only if both are; then their merge. -/
def both (a b : Option Captures) : Option Captures := do
  return (← a).merge (← b)

/-- The left one if it is there, otherwise the right one. -/
def first (a b : Option Captures) : Option Captures := a <|> b

/-! ## Questions -/

/-- The number of names. -/
def size (c : Captures) : Nat := c.entries.length

def isEmpty (c : Captures) : Bool := c.entries.isEmpty

def names (c : Captures) : List String := c.entries.map (·.1)

/-- The values captured under a name, in match order; none if it was never captured. -/
def get (c : Captures) (name : String) : List String := (c.entries.lookup name).getD []

def contains (c : Captures) (name : String) : Bool := !(c.get name).isEmpty

/-- The last value captured under a name. -/
def last? (c : Captures) (name : String) : Option String := (c.get name).getLast?

/-- The entries as `{name=[value,value], …}`, nothing in them escaped. -/
def render (c : Captures) : String :=
  let entry := fun (e : String × List String) => e.1 ++ "=[" ++ ",".intercalate e.2 ++ "]"
  "\x7b" ++ ", ".intercalate (c.entries.map entry) ++ "\x7d"

/-! ## Laws -/

theorem ext {a b : Captures} (h : a.entries = b.entries) : a = b := by
  cases a
  cases b
  simp_all

@[simp] theorem entries_empty : (∅ : Captures).entries = [] := rfl

@[simp] theorem empty_merge (a : Captures) : (∅ : Captures).merge a = a := rfl

@[simp] theorem merge_empty (a : Captures) : a.merge ∅ = a := ext (Entries.merge_nil a.ordered)

@[simp] theorem both_none (a : Option Captures) : both a none = none := by
  cases a <;> rfl

@[simp] theorem none_both (b : Option Captures) : both none b = none := rfl

@[simp] theorem both_some (a b : Captures) : both (some a) (some b) = some (a.merge b) := rfl

end Captures

end MarkedRegex
