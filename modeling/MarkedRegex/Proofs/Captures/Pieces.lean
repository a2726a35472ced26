-- The law of captured values: each of them is a piece of the match, those under
-- one name stand in match order, and only names of marks occur. A mark starts
-- with an empty buffer, so it can hold nothing but what the match took in.
import MarkedRegex.Proofs.Captures.Placed
import MarkedRegex.Proofs.Expr.Tree

namespace MarkedRegex

/-! ## Names of marks -/

namespace Pattern

theorem mem_insertName {n m : String} {ms : List String} :
    m ∈ insertName n ms ↔ m = n ∨ m ∈ ms := by
  induction ms with
  | nil => simp [insertName]
  | cons k ms ih =>
    rw [insertName]
    split
    · simp
    · split
      · rw [List.mem_cons, ih, List.mem_cons]
        grind
      · next hge hle =>
        obtain rfl : n = k := String.le_antisymm (String.not_lt.mp hle) (String.not_lt.mp hge)
        simp

theorem subset_markNamesInto (p : Pattern) (found : List String) :
    found ⊆ p.markNamesInto found := by
  induction p generalizing found with
  | empty | fail | any | charSet | negatedSet => exact List.Subset.refl _
  | sequence k p q ihp ihq | alternation k p q ihp ihq =>
    rw [markNamesInto]
    split
    · exact List.Subset.trans (ihq found) (ihp _)
    · exact List.Subset.refl _
  | star k p ih =>
    rw [markNamesInto]
    split
    · exact ih found
    · exact List.Subset.refl _
  | mark k name buffer p ih =>
    intro m hm
    exact mem_insertName.mpr (Or.inr (ih found hm))

/-- The names in the list are those that were found before, and those of the marks. -/
theorem everyMark_of_markNamesInto {names : String → Prop} {p : Pattern} {found : List String}
    (h : ∀ name ∈ p.markNamesInto found, names name) :
    p.tree.EveryMark fun name _ => names name := by
  induction p generalizing found with
  | empty | fail | any | charSet | negatedSet => trivial
  | sequence k p q ihp ihq | alternation k p q ihp ihq =>
    cases hm : p.hasMarks || q.hasMarks with
    | false => exact Tree.everyMark_of_not_hasMarks (by simpa [← hasMarks_eq_tree, tree] using hm)
    | true =>
      rw [markNamesInto, if_pos hm] at h
      exact ⟨ihp h, ihq fun name hname => h name (p.subset_markNamesInto _ hname)⟩
  | star k p ih =>
    cases hm : p.hasMarks with
    | false => exact Tree.everyMark_of_not_hasMarks (by simpa [← hasMarks_eq_tree, tree] using hm)
    | true =>
      rw [markNamesInto, if_pos hm] at h
      exact ih h
  | mark k name buffer p ih =>
    have hname : names name := h name (mem_insertName.mpr (Or.inl rfl))
    exact ⟨hname, ih fun m hm => h m (mem_insertName.mpr (Or.inr hm))⟩

/-- Every mark of a pattern is among its names of marks. -/
theorem everyMark_mem_markNames (p : Pattern) :
    p.tree.EveryMark fun name _ => name ∈ p.markNames :=
  everyMark_of_markNamesInto fun _ hname => hname

end Pattern

/-! ## Expressions without derivatives -/

namespace Expr

/-- Whether a derivative is taken somewhere in an expression. -/
def derives : Expr → Bool
  | .derivatives .. => true
  | .empty | .fail | .any | .char _ | .text _ | .oneOf _ | .noneOf _ | .range .. | .shared _
  | .current => false
  | .sequence p q | .alternation p q | .grow _ p q => p.derives || q.derives
  | .star p | .optional p | .oneOrMore p | .mark _ p | .settle p => p.derives

end Expr

/-- No mark of the trees at hand holds anything. -/
structure Bindings.Blank (env : Bindings Tree) : Prop where
  shared : ∀ t ∈ env.shared, t.EveryMark fun _ buffer => buffer = ∅
  current : env.current.EveryMark fun _ buffer => buffer = ∅

theorem Tree.blank_text (cs : List Char) : (text cs).EveryMark fun _ buffer => buffer = ∅ := by
  induction cs with
  | nil => trivial
  | cons c cs ih => exact ⟨trivial, ih⟩

namespace Expr

/-- Without a derivative, the marks of an expression hold nothing. -/
theorem blank_tree {e : Expr} {env : Bindings Tree} (he : e.derives = false) (henv : env.Blank) :
    (e.tree env).EveryMark fun _ buffer => buffer = ∅ := by
  induction e generalizing env with
  | empty | fail | any | char | oneOf | noneOf | range => trivial
  | text cs => exact Tree.blank_text cs
  | sequence p q ihp ihq | alternation p q ihp ihq =>
    rw [derives, Bool.or_eq_false_iff] at he
    exact ⟨ihp he.1 henv, ihq he.2 henv⟩
  | star p ih => exact ih he henv
  | optional p ih => exact ⟨trivial, ih he henv⟩
  | oneOrMore p ih => exact ⟨ih he henv, ih he henv⟩
  | mark name p ih => exact ⟨rfl, ih he henv⟩
  | derivatives => cases he
  | settle p ih => exact (ih he henv).settle
  | shared i =>
    rw [tree, Array.getD_eq_getD_getElem?]
    cases ht : env.shared[i]? with
    | none => trivial
    | some t => exact henv.shared t (Array.mem_of_getElem? ht)
  | current => exact henv.current
  | grow times start body ihs ihb =>
    rw [derives, Bool.or_eq_false_iff] at he
    have hstep : ∀ t : Tree, (t.EveryMark fun _ buffer => buffer = ∅) →
        (body.tree { env with current := t }).EveryMark fun _ buffer => buffer = ∅ :=
      fun t ht => ihb he.2 ⟨henv.shared, ht⟩
    rw [tree]
    induction times with
    | zero => exact ihs he.1 henv
    | succ n ih =>
      rw [Function.iterate_succ_apply']
      exact hstep _ ih

theorem blank_trees {es : List Expr} {env : Bindings Tree} (hes : ∀ e ∈ es, e.derives = false)
    (henv : env.Blank) : (trees env es).Blank := by
  induction es generalizing env with
  | nil => exact henv
  | cons e es ih =>
    obtain ⟨he, hes⟩ := List.forall_mem_cons.mp hes
    refine ih hes ⟨?_, henv.current⟩
    intro t ht
    rcases Array.mem_push.mp ht with ht | rfl
    · exact henv.shared t ht
    · exact blank_tree he henv

theorem blank_treeBehind {defs : List Expr} {e : Expr} (h : ∀ d ∈ e :: defs, d.derives = false) :
    (e.treeBehind defs).EveryMark fun _ buffer => buffer = ∅ := by
  obtain ⟨he, hdefs⟩ := List.forall_mem_cons.mp h
  have hempty : Bindings.Blank { shared := #[], current := .fail } := ⟨by simp, trivial⟩
  exact blank_tree he (blank_trees hdefs hempty)

end Expr

/-! ## What is captured -/

/-- What may be captured in a text: names in strictly increasing order, all of them in a list, with
values that stand in the text. -/
structure Records (names : List String) (s : List Char) (c : Captures) : Prop where
  increasing : c.names.Pairwise (· < ·)
  named : ∀ name ∈ c.names, name ∈ names
  valued : ∀ name ∈ c.names, c.get name ≠ []
  placed : ∀ name, Placed s (c.get name)

theorem Expr.records_of_matchWhole {defs : List Expr} {e : Expr} {p : Pattern} {s : List Char}
    {c : Captures} (hplain : ∀ d ∈ e :: defs, d.derives = false)
    (hp : (e.buildBehind defs).Gives p) (h : p.matchWhole s = some c) :
    Records p.markNames s c where
  increasing := List.pairwise_map.mpr c.ordered
  named := by
    intro name hname
    rw [Pattern.matchWhole_eq_parse] at h
    exact Tree.named_of_parse p.everyMark_mem_markNames h (Captures.get_ne_nil hname)
  valued := fun _ => Captures.get_ne_nil
  placed := by
    rw [Pattern.matchWhole_eq_parse, Pattern.parse_of_meaning (Expr.meaning_of_buildBehind hp)] at h
    exact Tree.placed_of_parse (Expr.blank_treeBehind hplain) h

/-! ## The law -/

/-- Where no derivative was taken, what a match captures are pieces of its text. The values under a
name are in match order: each stands behind those before it, or inside of them. Names increase, each
of them is the name of a mark, and none is without a value. -/
theorem captured_values_are_pieces_of_the_match {defs : List Expr} {e : Expr}
    (hplain : ∀ d ∈ e :: defs, d.derives = false) (n : Nat) (s : List Char) :
    let p := ((e.buildBehind defs).run n).1
    (∀ m ∈ p.findAll s, Records p.markNames m.text m.captures) ∧
      ∀ c, p.matchWhole s = some c → Records p.markNames s c := by
  intro p
  have hp : (e.buildBehind defs).Gives p := Build.gives_run _ n
  refine ⟨fun m hm => ?_, fun c hc => Expr.records_of_matchWhole hplain hp hc⟩
  have hreduced := (Expr.reachable_of_buildBehind hp).reduced
  obtain ⟨_, _, hfirst⟩ := (Pattern.findAll_successive hreduced s).exists_leftmost m hm
  exact Expr.records_of_matchWhole hplain hp hfirst.longest.2.1

/-- Two marks of one name under a star, one inside of the other: a round captures two characters,
and the second one of them again. -/
theorem a_mark_inside_of_another_captures_a_piece_of_it :
    let inner := Expr.mark "x" .any
    let e := Expr.star (.mark "x" (.sequence .any (.shared 0)))
    let p := ((e.buildBehind [inner]).run 0).1
    let s := ['é', 'b', 'c', 'd']
    (∀ d ∈ [e, inner], d.derives = false) ∧
      (∀ c, p.matchWhole s = some c → Records p.markNames s c) ∧
      (p.matchWhole s).map (·.get "x") = some ["éb", "b", "cd", "d"] := by
  intro inner e p s
  have hplain : ∀ d ∈ [e, inner], d.derives = false := by decide
  exact ⟨hplain, (captured_values_are_pieces_of_the_match hplain 0 s).2, by decide +kernel⟩

end MarkedRegex
