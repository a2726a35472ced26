-- What a tree captures, as pieces of the text. A part captures pieces of what
-- it takes in, so those of the second part of a sequence stand behind those of
-- the first, and those of what a mark stands around are inside of its own.
import MarkedRegex.Proofs.Search.Matches
import MarkedRegex.Proofs.Tree.Attributes

namespace MarkedRegex

/-! ## Places in a text -/

/-- A value, and the offsets that it stands between in a text. -/
structure Place where
  start : Nat
  stop : Nat
  value : List Char

/-- The second place is behind the first one or inside of it. -/
def Place.Follows (a b : Place) : Prop :=
  a.stop ≤ b.start ∨ (a.start ≤ b.start ∧ b.stop ≤ a.stop)

/-- Values that stand in a text, each of them at a place that follows those of the values before
it. -/
def Placed (s : List Char) (values : List String) : Prop :=
  ∃ places : List Place, places.map (fun x => String.ofList x.value) = values ∧
    (∀ x ∈ places, IsPiece s x.start x.stop x.value) ∧ places.Pairwise Place.Follows

section

variable {s u v w : List Char} {i j : Nat} {values values' : List String}

theorem IsPiece.whole (s : List Char) : IsPiece s 0 (byteLength s) s :=
  ⟨[], [], by simp, rfl, by simp⟩

theorem IsPiece.stop_le (h : IsPiece s i j w) : j ≤ byteLength s := by
  obtain ⟨before, after, rfl, rfl, rfl⟩ := h
  simp only [byteLength_append]
  omega

theorem IsPiece.append_right (h : IsPiece u i j w) (v : List Char) : IsPiece (u ++ v) i j w := by
  obtain ⟨before, after, rfl, hstart, hstop⟩ := h
  exact ⟨before, after ++ v, by simp, hstart, hstop⟩

theorem IsPiece.append_left (h : IsPiece v i j w) (u : List Char) :
    IsPiece (u ++ v) (byteLength u + i) (byteLength u + j) w := by
  obtain ⟨before, after, rfl, rfl, rfl⟩ := h
  exact ⟨u ++ before, after, by simp, byteLength_append u before, by omega⟩

theorem Placed.nil (s : List Char) : Placed s [] := ⟨[], rfl, by simp, .nil⟩

/-- What stands in the second of two texts stands behind what stands in the first one. -/
theorem Placed.append (hu : Placed u values) (hv : Placed v values') :
    Placed (u ++ v) (values ++ values') := by
  obtain ⟨ps, rfl, hps, hpairwise⟩ := hu
  obtain ⟨qs, rfl, hqs, hpairwise'⟩ := hv
  let shift : Place → Place := fun x => ⟨byteLength u + x.start, byteLength u + x.stop, x.value⟩
  refine ⟨ps ++ qs.map shift, by simp [shift], ?_, ?_⟩
  · intro x hx
    rcases List.mem_append.mp hx with hx | hx
    · exact (hps x hx).append_right v
    · obtain ⟨y, hy, rfl⟩ := List.mem_map.mp hx
      exact (hqs y hy).append_left u
  · refine List.pairwise_append.mpr ⟨hpairwise, ?_, ?_⟩
    · refine List.pairwise_map.mpr (hpairwise'.imp ?_)
      intro a b hab
      simp only [Place.Follows, shift] at hab ⊢
      omega
    · intro a ha b hb
      obtain ⟨y, -, rfl⟩ := List.mem_map.mp hb
      have hstop := (hps a ha).stop_le
      exact Or.inl (Nat.le_trans hstop (Nat.le_add_right _ _))

/-- All that stands in a text is inside of the whole of it. -/
theorem Placed.cons_whole (h : Placed s values) : Placed s (String.ofList s :: values) := by
  obtain ⟨places, rfl, hplaces, hpairwise⟩ := h
  refine ⟨⟨0, byteLength s, s⟩ :: places, rfl, ?_, List.pairwise_cons.mpr ⟨?_, hpairwise⟩⟩
  · exact List.forall_mem_cons.mpr ⟨IsPiece.whole s, hplaces⟩
  · intro x hx
    exact Or.inr ⟨Nat.zero_le _, (hplaces x hx).stop_le⟩

end

/-! ## What trees capture -/

theorem Captures.get_single (name value m : String) :
    (single name value).get m = if m = name then [value] else [] :=
  Entries.valuesAt_cons m name [value] []

theorem Captures.both_eq_some {a b : Option Captures} {r : Captures} (h : both a b = some r) :
    ∃ c d, a = some c ∧ b = some d ∧ c.merge d = r := by
  cases a with
  | none => cases h
  | some c =>
    cases b with
    | none => cases h
    | some d => exact ⟨c, d, rfl, rfl, Option.some.inj h⟩

theorem Parse.exists_of_sequence {α : Type} {a b : Parse α} {s : List α} {r : Captures}
    (h : a.sequence b s = some r) :
    ∃ u v c d, u ++ v = s ∧ a u = some c ∧ b v = some d ∧ c.merge d = r := by
  obtain ⟨⟨u, v⟩, hsplit, hboth⟩ := List.exists_of_findSome?_eq_some h
  obtain ⟨c, d, hc, hd, hr⟩ := Captures.both_eq_some hboth
  exact ⟨u, v, c, d, mem_splits.mp hsplit, hc, hd, hr⟩

namespace Tree

/-- Every mark of the tree is allowed, by its name and what it holds. -/
def EveryMark (allowed : String → MarkBuffer → Prop) : Tree → Prop
  | .empty | .fail | .any | .charSet _ | .negatedSet _ => True
  | .sequence p q | .alternation p q => p.EveryMark allowed ∧ q.EveryMark allowed
  | .star p => p.EveryMark allowed
  | .mark name buffer p => allowed name buffer ∧ p.EveryMark allowed

section

variable {allowed : String → MarkBuffer → Prop}

theorem everyMark_of_not_hasMarks {t : Tree} (h : t.hasMarks = false) : t.EveryMark allowed := by
  induction t with
  | empty | fail | any | charSet | negatedSet => trivial
  | sequence p q ihp ihq | alternation p q ihp ihq =>
    obtain ⟨hp, hq⟩ : p.hasMarks = false ∧ q.hasMarks = false := by simpa using h
    exact ⟨ihp hp, ihq hq⟩
  | star p ih =>
    rw [hasMarks_star] at h
    exact ih h
  | mark => simp at h

theorem EveryMark.settle {t : Tree} (h : t.EveryMark allowed) : t.settle.EveryMark allowed := by
  induction t with
  | empty | fail | any | charSet | negatedSet => trivial
  | sequence p q ihp ihq | alternation p q ihp ihq => exact ⟨ihp h.1, ihq h.2⟩
  | star p ih => exact ih h
  | mark name buffer p ih => exact ⟨h.1, ih h.2⟩

/-- What holds without captures, of captures one behind the other, and of captures with one more
mark around them, holds of all that a tree captures. The rounds of a star behind the first one are
shorter than the text. -/
theorem parse_induction (good : List Char → Captures → Prop) (hempty : ∀ s, good s ∅)
    (hmerge : ∀ {u v c d}, good u c → good v d → good (u ++ v) (c.merge d))
    (hmark : ∀ {name buffer s c}, allowed name buffer → good s c →
      good s ((Captures.single name (String.ofList (buffer.text ++ s))).merge c))
    {t : Tree} (ht : t.EveryMark allowed) {s : List Char} {c : Captures}
    (h : t.parse s = some c) : good s c := by
  have hone : ∀ {f : Char → Bool} {s c}, Parse.one f s = some c → good s c := by
    intro f s c h
    obtain rfl : c = ∅ := by
      unfold Parse.one at h
      grind
    exact hempty s
  induction t generalizing s c with
  | empty =>
    cases s with
    | nil =>
      cases h
      exact hempty []
    | cons x s => cases h
  | fail => cases h
  | any | charSet | negatedSet => exact hone h
  | sequence p q ihp ihq =>
    obtain ⟨u, v, c, d, rfl, hc, hd, rfl⟩ := Parse.exists_of_sequence h
    exact hmerge (ihp ht.1 hc) (ihq ht.2 hd)
  | alternation p q ihp ihq =>
    rw [parse, Parse.alternation, Captures.first_eq_or] at h
    rcases Option.or_eq_some_iff.mp h with h | ⟨-, h⟩
    · exact ihp ht.1 h
    · exact ihq ht.2 h
  | star p ih =>
    induction hn : s.length using Nat.strong_induction_on generalizing s c with
    | _ n ihn =>
      cases s with
      | nil =>
        rw [parse, Parse.star_nil] at h
        cases h
        exact hempty []
      | cons x s =>
        rw [parse, Parse.star_cons] at h
        obtain ⟨u, v, c, d, rfl, hc, hd, rfl⟩ := Parse.exists_of_sequence h
        have hrounds : good v d := by
          refine ihn v.length ?_ hd rfl
          rw [← hn, List.length_cons, List.length_append]
          omega
        exact hmerge (ih ht hc) hrounds
  | mark name buffer p ih =>
    obtain ⟨_, d, hvalue, hd, rfl⟩ := Captures.both_eq_some h
    cases hvalue
    exact hmark ht.1 (ih ht.2 hd)

/-- Marks that hold nothing yet capture pieces of the text. -/
theorem placed_of_parse {t : Tree} (ht : t.EveryMark fun _ buffer => buffer = ∅) {s : List Char}
    {c : Captures} (h : t.parse s = some c) (name : String) : Placed s (c.get name) := by
  revert name
  refine parse_induction (fun s c => ∀ name, Placed s (c.get name)) ?_ ?_ ?_ ht h
  · exact fun s _ => Placed.nil s
  · intro u v c d hc hd name
    rw [Captures.get_merge]
    exact (hc name).append (hd name)
  · rintro m _ s c rfl hc name
    rw [Captures.get_merge, Captures.get_single]
    split
    · exact (hc name).cons_whole
    · exact hc name

/-- Nothing is captured under a name that no mark has. -/
theorem named_of_parse {names : String → Prop} {t : Tree}
    (ht : t.EveryMark fun name _ => names name) {s : List Char} {c : Captures}
    (h : t.parse s = some c) {name : String} (hname : c.get name ≠ []) : names name := by
  revert name
  refine parse_induction (fun _ c => ∀ {name}, c.get name ≠ [] → names name) ?_ ?_ ?_ ht h
  · exact fun _ _ hname => absurd rfl hname
  · intro u v c d hc hd name hname
    rw [Captures.get_merge, ne_eq, List.append_eq_nil_iff, not_and_or] at hname
    exact hname.elim hc hd
  · intro m buffer s c hm hc name hname
    rw [Captures.get_merge, Captures.get_single] at hname
    split at hname
    · next heq => exact heq ▸ hm
    · exact hc hname

end

end Tree

end MarkedRegex
