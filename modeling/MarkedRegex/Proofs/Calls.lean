-- The questions about a pattern and a text, as data. Each is one search, with
-- one answer for a reduced pattern: whatever takes the steps, what comes out is
-- what the pattern answers with a memory of its own.
import MarkedRegex.MatchStream
import MarkedRegex.Proofs.Greedy
import MarkedRegex.Proofs.Search.Runs

namespace MarkedRegex

/-! ## Questions and answers -/

/-- What can be asked of a pattern. -/
inductive Call where
  | matchWhole (text : List Char)
  | matchGreedily (text : List Char)
  | findFirst (text : List Char)
  | findAll (text : List Char)
  | hasMatch (text : List Char)
  deriving DecidableEq

namespace Call

/-- What the answer to a question is. -/
abbrev Answer : Call → Type
  | .matchWhole _ => Option Captures
  | .matchGreedily _ => Option Captures × List Char
  | .findFirst _ => Option Match
  | .findAll _ => List Match
  | .hasMatch _ => Bool

/-- The search that answers a question. -/
def run {m : Type → Type} [Monad m] (step : Pattern → Char → m Pattern) (p : Pattern) :
    (q : Call) → m q.Answer
  | .matchWhole text => runWhole step p text
  | .matchGreedily text => do
    let reach ← runGreedily step p text 0
    return (reach.captures, text.drop reach.length)
  | .findFirst text => do return (← find step p text).map (·.toMatch ⟨0, text⟩)
  | .findAll text => findAllFrom step p ⟨0, text⟩
  | .hasMatch text => do return (← find step p text).isSome

end Call

namespace Pattern

/-- What a pattern answers. -/
def answer (p : Pattern) : (q : Call) → q.Answer
  | .matchWhole text => p.matchWhole text
  | .matchGreedily text => p.matchGreedily text
  | .findFirst text => p.findFirst text
  | .findAll text => p.findAll text
  | .hasMatch text => p.hasMatch text

/-! ## The searches of a reduced pattern -/

theorem functional_matchGreedily (p : Pattern) : Tries.Functional (p.matchGreedily · = ·) := by
  intro text r r' h h'
  rw [← h, ← h']

section

variable {m : Type → Type} [Monad m] [LawfulMonad m] {A : Assurance m}
  {step : Pattern → Char → m Pattern} {p : Pattern}

/-- Greedy runs of a reduced pattern try a text as a greedy match does. -/
theorem attempts (hstep : A.Steps step) (hp : p.Reduced) :
    A.Attempts step p (p.matchGreedily · = ·) where
  empty := rfl
  greedy := by
    intro text
    apply A.imp (runGreedily_reaches hstep p text)
    intro r hr
    exact hr.matchGreedily hp

theorem find_leftmost (hstep : A.Steps step) (hp : p.Reduced) (s : List Char) :
    A.Ensures (find step p s) fun found =>
      Leftmost (p.matchGreedily · = ·) s 0 (found.map (·.toMatch ⟨0, s⟩)) := by
  apply (attempts hstep hp).find (Position.isIn_start s)
  exact (eq_or_ne s []).symm

theorem findAllFrom_successive (hstep : A.Steps step) (hp : p.Reduced) (s : List Char) :
    A.Ensures (findAllFrom step p ⟨0, s⟩) (Successive (p.matchGreedily · = ·) s 0) := by
  apply (attempts hstep hp).findAllFrom (Position.isIn_start s)
  exact (eq_or_ne s []).symm

end

theorem findFirst_leftmost {p : Pattern} (hp : p.Reduced) (s : List Char) :
    Leftmost (p.matchGreedily · = ·) s 0 (p.findFirst s) := by
  have h := find_leftmost derive_steps hp s
  exact p.runFresh_ensures h

theorem findAll_successive {p : Pattern} (hp : p.Reduced) (s : List Char) :
    Successive (p.matchGreedily · = ·) s 0 (p.findAll s) := by
  have h := findAllFrom_successive derive_steps hp s
  exact p.runFresh_ensures h

end Pattern

/-! ## One answer -/

/-- The search for a question gives what the pattern answers. -/
theorem Call.run_ensures {m : Type → Type} [Monad m] [LawfulMonad m] {A : Assurance m}
    {step : Pattern → Char → m Pattern} (hstep : A.Steps step) {p : Pattern} (hp : p.Reduced)
    (q : Call) : A.Ensures (q.run step p) (· = p.answer q) := by
  cases q with
  | matchWhole s =>
    apply A.imp (runWhole_ensures hstep p s)
    rintro _ rfl
    exact (p.matchWhole_eq_parse s).symm
  | matchGreedily s =>
    apply A.bind (runGreedily_reaches hstep p s)
    intro r hr
    exact A.pure (hr.matchGreedily hp).symm
  | findFirst s =>
    apply A.bind (Pattern.find_leftmost hstep hp s)
    intro found hfound
    exact A.pure (hfound.unique p.functional_matchGreedily (Pattern.findFirst_leftmost hp s))
  | findAll s =>
    apply A.imp (Pattern.findAllFrom_successive hstep hp s)
    intro found hfound
    exact hfound.unique p.functional_matchGreedily (Pattern.findAll_successive hp s)
  | hasMatch s =>
    apply A.bind (Pattern.find_leftmost hstep hp s)
    intro found hfound
    have hfirst := hfound.unique p.functional_matchGreedily (Pattern.findFirst_leftmost hp s)
    apply A.pure
    show found.isSome = (p.findFirst s).isSome
    rw [← hfirst, Option.isSome_map]

end MarkedRegex
