-- Pattern expressions: how a pattern is put together, call by call, with nodes
-- that stand at several places. Building an expression gives the pattern in
-- reduced form.
import MarkedRegex.Derivative

namespace MarkedRegex

/-- An expression for a pattern. `shared` stands for one of the nodes at hand, and `grow` goes
through its body some times, where `current` is the node that the time before gave. -/
inductive Expr where
  | empty
  | fail
  | any
  | char (c : Char)
  | text (cs : List Char)
  | oneOf (cs : List Char)
  | noneOf (cs : List Char)
  | range (lo hi : Char)
  | sequence (p q : Expr)
  | alternation (p q : Expr)
  | star (p : Expr)
  | optional (p : Expr)
  | oneOrMore (p : Expr)
  | mark (name : String) (p : Expr)
  | derivatives (p : Expr) (cs : List Char)
  | settle (p : Expr)
  | shared (i : Nat)
  | current
  | grow (times : Nat) (start body : Expr)
  deriving Inhabited

/-- The nodes that an expression can refer to. -/
structure Scope where
  shared : Array Pattern := #[]
  current : Pattern := .fail

/-- Repeats a step that builds on what it gave before. -/
def Build.iterate (step : Pattern → Build Pattern) : Nat → Pattern → Build Pattern
  | 0, p => pure p
  | n + 1, p => do iterate step n (← step p)

/-- Builds the pattern of an expression; a node that is not at hand fails. -/
def Expr.build (scope : Scope) : Expr → Build Pattern
  | .empty => pure .empty
  | .fail => pure .fail
  | .any => pure .any
  | .char c => Build.char c
  | .text cs => Build.text cs
  | .oneOf cs => Build.oneOf cs
  | .noneOf cs => Build.noneOf cs
  | .range lo hi => Build.range lo hi
  | .sequence p q => do
    let left ← p.build scope
    Build.sequence left (← q.build scope)
  | .alternation p q => do
    let left ← p.build scope
    Build.alternation left (← q.build scope)
  | .star p => do Build.star (← p.build scope)
  | .optional p => do Build.optional (← p.build scope)
  | .oneOrMore p => do Build.oneOrMore (← p.build scope)
  | .mark name p => do Build.mark name (← p.build scope)
  | .derivatives p cs => do (← p.build scope).derivatives cs
  | .settle p => do (← p.build scope).settle
  | .shared i => pure (scope.shared.getD i .fail)
  | .current => pure scope.current
  | .grow times start body => do
    let first ← start.build scope
    Build.iterate (fun p => body.build { scope with current := p }) times first

/-- Builds expressions in order; each can refer to the patterns of those before it. -/
def Expr.buildAll (scope : Scope) : List Expr → Build Scope
  | [] => pure scope
  | e :: es => do
    let p ← e.build scope
    buildAll { scope with shared := scope.shared.push p } es

end MarkedRegex
