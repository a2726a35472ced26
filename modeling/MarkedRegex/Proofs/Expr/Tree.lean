-- The tree of an expression: its calls one for one, nothing reduced, shared
-- nodes written out. Building reduces at every call, but what it gives means
-- what the tree does and captures the same.
import MarkedRegex.Expr
import MarkedRegex.Proofs.Residual.Meaning
import MarkedRegex.Proofs.Tree.Derivative

namespace MarkedRegex

/-! ## Trees of expressions -/

/-- What the nodes that an expression can refer to stand for. -/
structure Bindings (α : Type) where
  shared : Array α
  current : α

/-- The characters of a text, one after the other, and then nothing. -/
def Tree.text : List Char → Tree
  | [] => .empty
  | c :: cs => .sequence (.charSet (CharSet.singleton c)) (text cs)

namespace Expr

/-- The tree of an expression, call by call. -/
def tree (env : Bindings Tree) : Expr → Tree
  | .empty => .empty
  | .fail => .fail
  | .any => .any
  | .char c => .charSet (CharSet.singleton c)
  | .text cs => Tree.text cs
  | .oneOf cs => .charSet (CharSet.ofList cs)
  | .noneOf cs => .negatedSet (CharSet.ofList cs)
  | .range lo hi => .charSet (CharSet.range lo hi)
  | .sequence p q => .sequence (p.tree env) (q.tree env)
  | .alternation p q => .alternation (p.tree env) (q.tree env)
  | .star p => .star (p.tree env)
  | .optional p => .alternation .empty (p.tree env)
  | .oneOrMore p => .sequence (p.tree env) (.star (p.tree env))
  | .mark name p => .mark name ∅ (p.tree env)
  | .derivatives p cs => (p.tree env).derivatives cs
  | .settle p => (p.tree env).settle
  | .shared i => env.shared.getD i .fail
  | .current => env.current
  | .grow times start body =>
    (fun t => body.tree { env with current := t })^[times] (start.tree env)

/-- The trees of expressions in order; each can refer to those before it. -/
def trees (env : Bindings Tree) : List Expr → Bindings Tree
  | [] => env
  | e :: es => trees { env with shared := env.shared.push (e.tree env) } es

/-- Builds definitions in order, and then an expression that can refer to them. -/
def buildBehind (defs : List Expr) (e : Expr) : Build Pattern := do
  let scope ← buildAll {} defs
  e.build scope

/-- The tree of an expression behind definitions. -/
def treeBehind (defs : List Expr) (e : Expr) : Tree :=
  e.tree (trees { shared := #[], current := .fail } defs)

end Expr

/-! ## Building keeps the meaning of the tree -/

/-- The nodes at hand mean what the trees for them do. -/
structure Scope.Means (scope : Scope) (env : Bindings Tree) : Prop where
  shared : scope.shared.map Pattern.meaning = env.shared.map Tree.meaning
  current : scope.current.meaning = env.current.meaning

namespace Scope.Means

variable {scope : Scope} {env : Bindings Tree}

theorem getD (h : scope.Means env) (i : Nat) :
    (scope.shared.getD i .fail).meaning = (env.shared.getD i .fail).meaning := by
  have hi : (scope.shared.map Pattern.meaning)[i]? = (env.shared.map Tree.meaning)[i]? := by
    rw [h.shared]
  rw [Array.getElem?_map, Array.getElem?_map] at hi
  rw [Array.getD_eq_getD_getElem?, Array.getD_eq_getD_getElem?]
  cases hp : scope.shared[i]? with
  | none =>
    rw [hp, Option.map_none, eq_comm, Option.map_eq_none_iff] at hi
    rw [hi]
    rfl
  | some p =>
    rw [hp, Option.map_some, eq_comm, Option.map_eq_some_iff] at hi
    obtain ⟨t, ht, hmeaning⟩ := hi
    rw [ht]
    exact hmeaning.symm

theorem push (h : scope.Means env) {p : Pattern} {t : Tree} (hp : p.meaning = t.meaning) :
    Scope.Means { scope with shared := scope.shared.push p }
      { env with shared := env.shared.push t } where
  shared := by simp [h.shared, hp]
  current := h.current

end Scope.Means

namespace Build

theorem meaning_of_text {cs : List Char} {r : Pattern} (h : (text cs).Gives r) :
    r.meaning = (Tree.text cs).meaning := by
  induction cs generalizing r with
  | nil =>
    rw [gives_pure.mp h]
    rfl
  | cons c cs ih =>
    obtain ⟨rest, hrest, h⟩ := h.bind
    obtain ⟨first, hfirst, h⟩ := h.bind
    obtain ⟨k, rfl⟩ := gives_node.mp hfirst
    rw [(sequenced_of_gives h).meaning, ih hrest]
    rfl

theorem meaning_of_derivatives {p r : Pattern} {cs : List Char} (h : (p.derivatives cs).Gives r)
    (w : List Tree.Symbol) : r.meaning w = p.meaning (cs.map some ++ w) := by
  induction cs generalizing p with
  | nil =>
    rw [gives_pure.mp h]
    rfl
  | cons c cs ih =>
    obtain ⟨q, hq, h⟩ := h.bind
    rw [ih h, (residual_of_derivative hq).meaning]
    rfl

/-- A step that keeps meanings keeps them any number of times. -/
theorem meaning_of_iterate {step : Pattern → Build Pattern} {f : Tree → Tree}
    (hstep : ∀ {p r : Pattern} {t : Tree}, p.meaning = t.meaning → (step p).Gives r →
      r.meaning = (f t).meaning)
    {n : Nat} {p r : Pattern} {t : Tree} (hp : p.meaning = t.meaning)
    (h : (iterate step n p).Gives r) : r.meaning = (f^[n] t).meaning := by
  induction n generalizing p t with
  | zero =>
    rw [gives_pure.mp h]
    exact hp
  | succ n ih =>
    obtain ⟨q, hq, h⟩ := h.bind
    exact ih (hstep hp hq) h

end Build

namespace Expr

/-- What building an expression gives means what the tree of the expression does. -/
theorem meaning_of_build {e : Expr} {scope : Scope} {env : Bindings Tree} {r : Pattern}
    (hs : scope.Means env) (h : (e.build scope).Gives r) : r.meaning = (e.tree env).meaning := by
  induction e generalizing scope env r with
  | empty => rw [Build.gives_pure.mp h]; rfl
  | fail => rw [Build.gives_pure.mp h]; rfl
  | any => rw [Build.gives_pure.mp h]; rfl
  | char c =>
    obtain ⟨k, rfl⟩ := Build.gives_node.mp h
    rfl
  | text cs => exact Build.meaning_of_text h
  | oneOf cs => exact (Build.ofSet_of_gives h).meaning
  | noneOf cs => exact (Build.ofNegatedSet_of_gives h).meaning
  | range lo hi => exact (Build.ofSet_of_gives h).meaning
  | sequence p q ihp ihq =>
    obtain ⟨a, ha, h⟩ := h.bind
    obtain ⟨b, hb, h⟩ := h.bind
    rw [(Build.sequenced_of_gives h).meaning, ihp hs ha, ihq hs hb]
    rfl
  | alternation p q ihp ihq =>
    obtain ⟨a, ha, h⟩ := h.bind
    obtain ⟨b, hb, h⟩ := h.bind
    rw [(Build.alternated_of_gives h).meaning, ihp hs ha, ihq hs hb]
    rfl
  | star p ih =>
    obtain ⟨a, ha, h⟩ := h.bind
    rw [(Build.starred_of_gives h).meaning, ih hs ha]
    rfl
  | optional p ih =>
    obtain ⟨a, ha, h⟩ := h.bind
    rw [(Build.alternated_of_gives h).meaning, ih hs ha]
    rfl
  | oneOrMore p ih =>
    obtain ⟨a, ha, h⟩ := h.bind
    obtain ⟨b, hb, h⟩ := h.bind
    rw [(Build.sequenced_of_gives h).meaning, (Build.starred_of_gives hb).meaning, ih hs ha]
    rfl
  | mark name p ih =>
    obtain ⟨a, ha, h⟩ := h.bind
    rw [(Build.marked_of_gives h).meaning, ih hs ha]
    rfl
  | derivatives p cs ih =>
    obtain ⟨a, ha, h⟩ := h.bind
    funext w
    rw [Build.meaning_of_derivatives h, ih hs ha, tree, Tree.meaning_derivatives]
  | settle p ih =>
    obtain ⟨a, ha, h⟩ := h.bind
    rw [(settled_of_gives h).meaning, ih hs ha, tree, Tree.meaning_settle]
  | shared i =>
    rw [Build.gives_pure.mp h]
    exact hs.getD i
  | current =>
    rw [Build.gives_pure.mp h]
    exact hs.current
  | grow times start body ihs ihb =>
    obtain ⟨first, hfirst, h⟩ := h.bind
    refine Build.meaning_of_iterate ?_ (ihs hs hfirst) h
    intro p r t hp hr
    have hs' : Scope.Means { scope with current := p } { env with current := t } :=
      ⟨hs.shared, hp⟩
    exact ihb hs' hr

theorem means_of_buildAll {es : List Expr} {scope scope' : Scope} {env : Bindings Tree}
    (hs : scope.Means env) (h : (buildAll scope es).Gives scope') :
    scope'.Means (trees env es) := by
  induction es generalizing scope env with
  | nil =>
    rw [Build.gives_pure.mp h]
    exact hs
  | cons e es ih =>
    obtain ⟨p, hp, h⟩ := h.bind
    exact ih (hs.push (meaning_of_build hs hp)) h

theorem meaning_of_buildBehind {defs : List Expr} {e : Expr} {r : Pattern}
    (h : (e.buildBehind defs).Gives r) : r.meaning = (e.treeBehind defs).meaning := by
  obtain ⟨scope, hscope, h⟩ := h.bind
  have hempty : Scope.Means {} { shared := #[], current := .fail } := ⟨by simp, rfl⟩
  exact meaning_of_build (means_of_buildAll hempty hscope) h

end Expr

/-! ## The law -/

/-- Reductions do not change what is captured: after the characters of any text, a pattern that was
built holds what its plain tree does after the plain derivatives. -/
theorem reductions_do_not_change_what_is_captured (defs : List Expr) (e : Expr) (s : List Char)
    (n : Nat) :
    let r := ((do (← e.buildBehind defs).derivatives s : Build Pattern).run n).1
    let t := (e.treeBehind defs).derivatives s
    r.nullable = t.nullable ∧ r.captured = t.captured := by
  intro r t
  have hr : (do (← e.buildBehind defs).derivatives s : Build Pattern).Gives r := ⟨n, rfl⟩
  obtain ⟨p, hp, hr⟩ := hr.bind
  have hmeaning : r.meaning [] = t.meaning [] := by
    rw [Build.meaning_of_derivatives hr, Expr.meaning_of_buildBehind hp, Tree.meaning_derivatives]
  rw [Pattern.nullable_eq_isSome, Tree.nullable_eq_isSome, Pattern.captured_eq_meaning,
    Tree.captured_eq_meaning, hmeaning]
  exact ⟨rfl, rfl⟩

end MarkedRegex
