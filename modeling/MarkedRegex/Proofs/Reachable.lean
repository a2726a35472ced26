-- The patterns that can be had: what the constructors give, settled forms of
-- it, and what is left of it after characters, without a memory or through one
-- with any history. All of them are reduced.
import MarkedRegex.Proofs.Expr.Tree
import MarkedRegex.Proofs.Memo.History
import MarkedRegex.Proofs.Reduced

namespace MarkedRegex

/-! ## Reachable patterns -/

/-- Patterns that constructors, settling and derivatives can give. -/
inductive Reachable : Pattern → Prop
  | empty : Reachable .empty
  | fail : Reachable .fail
  | any : Reachable .any
  | char (c : Char) {r : Pattern} : (Build.char c).Gives r → Reachable r
  | oneOf (cs : List Char) {r : Pattern} : (Build.oneOf cs).Gives r → Reachable r
  | noneOf (cs : List Char) {r : Pattern} : (Build.noneOf cs).Gives r → Reachable r
  | range (lo hi : Char) {r : Pattern} : (Build.range lo hi).Gives r → Reachable r
  | sequence {p q r : Pattern} : Reachable p → Reachable q → (Build.sequence p q).Gives r →
      Reachable r
  | alternation {p q r : Pattern} : Reachable p → Reachable q → (Build.alternation p q).Gives r →
      Reachable r
  | star {p r : Pattern} : Reachable p → (Build.star p).Gives r → Reachable r
  | mark (name : String) {p r : Pattern} : Reachable p → (Build.mark name p).Gives r → Reachable r
  | settle {p r : Pattern} : Reachable p → p.settle.Gives r → Reachable r
  | derivative (c : Char) {p r : Pattern} : Reachable p → (p.derivative c).Gives r → Reachable r
  /-- A derivative asked of a memory. -/
  | derive (c : Char) (capacity : Nat) (history : List Request) {p r : Pattern} : Reachable p →
      ((p.derive c).behind capacity history).Gives r → Reachable r

/-! ## What is built is reachable -/

namespace Reachable

theorem text {cs : List Char} {r : Pattern} (h : (Build.text cs).Gives r) : Reachable r := by
  induction cs generalizing r with
  | nil =>
    rw [Build.gives_pure.mp h]
    exact .empty
  | cons c cs ih =>
    obtain ⟨rest, hrest, h⟩ := h.bind
    obtain ⟨first, hfirst, h⟩ := h.bind
    exact .sequence (.char c hfirst) (ih hrest) h

theorem derivatives {cs : List Char} {p r : Pattern} (hp : Reachable p)
    (h : (p.derivatives cs).Gives r) : Reachable r := by
  induction cs generalizing p with
  | nil =>
    rw [Build.gives_pure.mp h]
    exact hp
  | cons c cs ih =>
    obtain ⟨q, hq, h⟩ := h.bind
    exact ih (.derivative c hp hq) h

theorem iterate {step : Pattern → Build Pattern}
    (hstep : ∀ {p r : Pattern}, Reachable p → (step p).Gives r → Reachable r) {n : Nat}
    {p r : Pattern} (hp : Reachable p) (h : (Build.iterate step n p).Gives r) : Reachable r := by
  induction n generalizing p with
  | zero =>
    rw [Build.gives_pure.mp h]
    exact hp
  | succ n ih =>
    obtain ⟨q, hq, h⟩ := h.bind
    exact ih (hstep hp hq) h

end Reachable

/-- The nodes at hand are reachable. -/
structure Scope.Reachable (scope : Scope) : Prop where
  shared : ∀ p ∈ scope.shared, MarkedRegex.Reachable p
  current : MarkedRegex.Reachable scope.current

namespace Expr

theorem reachable_of_build {e : Expr} {scope : Scope} {r : Pattern} (hs : scope.Reachable)
    (h : (e.build scope).Gives r) : Reachable r := by
  induction e generalizing scope r with
  | empty => rw [Build.gives_pure.mp h]; exact .empty
  | fail => rw [Build.gives_pure.mp h]; exact .fail
  | any => rw [Build.gives_pure.mp h]; exact .any
  | char c => exact .char c h
  | text cs => exact .text h
  | oneOf cs => exact .oneOf cs h
  | noneOf cs => exact .noneOf cs h
  | range lo hi => exact .range lo hi h
  | sequence p q ihp ihq =>
    obtain ⟨a, ha, h⟩ := h.bind
    obtain ⟨b, hb, h⟩ := h.bind
    exact .sequence (ihp hs ha) (ihq hs hb) h
  | alternation p q ihp ihq =>
    obtain ⟨a, ha, h⟩ := h.bind
    obtain ⟨b, hb, h⟩ := h.bind
    exact .alternation (ihp hs ha) (ihq hs hb) h
  | star p ih =>
    obtain ⟨a, ha, h⟩ := h.bind
    exact .star (ih hs ha) h
  | optional p ih =>
    obtain ⟨a, ha, h⟩ := h.bind
    exact .alternation .empty (ih hs ha) h
  | oneOrMore p ih =>
    obtain ⟨a, ha, h⟩ := h.bind
    obtain ⟨b, hb, h⟩ := h.bind
    exact .sequence (ih hs ha) (.star (ih hs ha) hb) h
  | mark name p ih =>
    obtain ⟨a, ha, h⟩ := h.bind
    exact .mark name (ih hs ha) h
  | derivatives p cs ih =>
    obtain ⟨a, ha, h⟩ := h.bind
    exact (ih hs ha).derivatives h
  | settle p ih =>
    obtain ⟨a, ha, h⟩ := h.bind
    exact .settle (ih hs ha) h
  | shared i =>
    rw [Build.gives_pure.mp h, Array.getD_eq_getD_getElem?]
    cases hp : scope.shared[i]? with
    | none => exact .fail
    | some p => exact hs.shared p (Array.mem_of_getElem? hp)
  | current =>
    rw [Build.gives_pure.mp h]
    exact hs.current
  | grow times start body ihs ihb =>
    obtain ⟨first, hfirst, h⟩ := h.bind
    refine Reachable.iterate ?_ (ihs hs hfirst) h
    intro p r hp hr
    have hs' : Scope.Reachable { scope with current := p } := ⟨hs.shared, hp⟩
    exact ihb hs' hr

theorem reachable_of_buildAll {es : List Expr} {scope scope' : Scope} (hs : scope.Reachable)
    (h : (buildAll scope es).Gives scope') : scope'.Reachable := by
  induction es generalizing scope with
  | nil =>
    rw [Build.gives_pure.mp h]
    exact hs
  | cons e es ih =>
    obtain ⟨p, hp, h⟩ := h.bind
    have hs' : Scope.Reachable { scope with shared := scope.shared.push p } := by
      refine ⟨?_, hs.current⟩
      intro q hq
      rcases Array.mem_push.mp hq with hq | rfl
      · exact hs.shared q hq
      · exact reachable_of_build hs hp
    exact ih hs' h

/-- What an expression builds behind definitions is reachable. -/
theorem reachable_of_buildBehind {defs : List Expr} {e : Expr} {r : Pattern}
    (h : (e.buildBehind defs).Gives r) : Reachable r := by
  obtain ⟨scope, hscope, h⟩ := h.bind
  have hempty : Scope.Reachable {} := ⟨by simp, .fail⟩
  exact reachable_of_build (reachable_of_buildAll hempty hscope) h

end Expr

/-! ## What holds of all that is reachable -/

theorem CharSet.isEmpty_singleton (c : Char) : (singleton c).isEmpty = false := by
  unfold singleton range
  split
  · omega
  · split <;> rfl

theorem OfSet.of_char {c : Char} {r : Pattern} (h : (Build.char c).Gives r) :
    OfSet (CharSet.singleton c) r := by
  obtain ⟨k, rfl⟩ := Build.gives_node.mp h
  exact .node k (CharSet.isEmpty_singleton c)

/-- What the constructors keep holds of all that is reachable. -/
theorem Invariant.reachable {good : Pattern → Prop} (hgood : Invariant good) {p : Pattern}
    (h : Reachable p) : good p := by
  induction h with
  | empty => exact hgood.empty
  | fail => exact hgood.fail
  | any => exact hgood.any
  | char c h => exact hgood.ofSet (OfSet.of_char h)
  | oneOf cs h => exact hgood.ofSet (Build.ofSet_of_gives h)
  | noneOf cs h => exact hgood.ofNegatedSet (Build.ofNegatedSet_of_gives h)
  | range lo hi h => exact hgood.ofSet (Build.ofSet_of_gives h)
  | sequence _ _ h ihp ihq => exact hgood.sequenced (Build.sequenced_of_gives h) ihp ihq
  | alternation _ _ h ihp ihq => exact hgood.alternated (Build.alternated_of_gives h) ihp ihq
  | star _ h ih => exact hgood.starred (Build.starred_of_gives h) ih
  | mark name _ h ih => exact hgood.marked (Build.marked_of_gives h) ih
  | settle _ h ih => exact hgood.settled (settled_of_gives h) ih
  | derivative c _ h ih => exact hgood.residual (residual_of_derivative h) ih
  | derive c capacity history _ h ih =>
    exact hgood.residual ((Pattern.derive_ensures _ c).behind h) ih

theorem Reachable.reduced {p : Pattern} (h : Reachable p) : p.Reduced :=
  Pattern.Reduced.invariant.reachable h

end MarkedRegex
