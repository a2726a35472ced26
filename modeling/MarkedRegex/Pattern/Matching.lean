-- Running a pattern over a text. A step takes a pattern through one character,
-- in any monad, so the same searches run with a memo table, without one, or
-- under limits. A question about a whole text or a prefix is answered with a
-- memo table of its own.
import MarkedRegex.Derivative
import MarkedRegex.Match
import MarkedRegex.Pattern.Inspect

namespace MarkedRegex

/-! ## Running a pattern over a text -/

/-- How far a greedy prefix match got, and its captures if the pattern can stop there. -/
structure Reach where
  length : Nat
  captures : Option Captures
  deriving DecidableEq

section

variable {m : Type → Type} [Monad m] (step : Pattern → Char → m Pattern)

/-- The captures of a pattern that takes in all of a text. -/
@[specialize] def runWhole : Pattern → List Char → m (Option Captures)
  | p, [] => pure p.captured
  | p, c :: cs =>
    if p.isFail then pure none
    else do runWhole (← step p c) cs

/-- Takes in characters, after `taken` others, as long as the pattern does not fail on the next
one. -/
@[specialize] def runGreedily : Pattern → List Char → Nat → m Reach
  | p, [], taken => pure ⟨taken, p.captured⟩
  | p, c :: cs, taken => do
    let next ← step p c
    if next.isFail then return ⟨taken, p.captured⟩
    else runGreedily next cs (taken + 1)

/-- The first place where a greedy prefix match succeeds, after `skipped` characters that were
passed over. -/
@[specialize] def seek (p : Pattern) : List Char → Nat → m (Option Span)
  | [], _ => pure none
  | c :: cs, skipped => do
    let reach ← runGreedily step p (c :: cs) 0
    match reach.captures with
    | some captures => return some ⟨skipped, reach.length, captures⟩
    | none => seek p cs (skipped + 1)

/-- The leftmost match. In an empty text only the empty match is left. -/
@[specialize] def find (p : Pattern) (text : List Char) : m (Option Span) :=
  if text.isEmpty then do return (← runWhole step p text).map (⟨0, 0, ·⟩)
  else seek step p text 0

/-- All matches from a position on, one behind the other. -/
@[specialize] def findAllFrom (p : Pattern) (here : Position) : m (List Match) := do
  match ← find step p here.text with
  | none => return []
  | some span =>
    match _h : span.resume here with
    | none => return [span.toMatch here]
    | some next => return span.toMatch here :: (← findAllFrom p next)
termination_by here.text.length
decreasing_by exact Span.length_resume_lt _h

end

/-! ## Whole texts and prefixes -/

namespace Pattern

variable {α : Type}

/-- Runs with a fresh memo table, and with serial numbers above those of the pattern. -/
def runFresh (p : Pattern) (act : Derive α) : α :=
  ((act.run (Memo.ofCapacity Memo.defaultCapacity)).run p.serialBound).1.1

/-- What the pattern captures when it matches all of a text. -/
def matchWhole (p : Pattern) (text : List Char) : Option Captures :=
  p.runFresh (runWhole derive p text)

/-- Takes in a text as long as the pattern can go on. Gives the captures, if the pattern can stop
there, and the text that is left. -/
def matchGreedily (p : Pattern) (text : List Char) : Option Captures × List Char :=
  let reach := p.runFresh (runGreedily derive p text 0)
  (reach.captures, text.drop reach.length)

end Pattern

end MarkedRegex
