-- A pattern bound to limits and to a memo table that stays from one call to
-- the next, also after a call that ended in an error.
import MarkedRegex.Limits
import MarkedRegex.Pattern.Matching

namespace MarkedRegex

/-- Matching under limits can fail; what the memo table has learned stays. -/
abbrev Limited := ExceptT LimitError Derive

/-- The derivative, refused when it is over the limits. -/
def Limits.step (l : Limits) (p : Pattern) (c : Char) : Limited Pattern := do
  let next ← (p.derive c : Derive Pattern)
  match l.check next with
  | .ok () => return next
  | .error e => throw e

/-- A pattern with its limits, and the memo table and serial numbers its calls work with. -/
structure Matcher where
  pattern : Pattern
  limits : Limits
  memo : Memo
  serial : Nat

namespace Matcher

variable {α : Type}

def ofPattern (p : Pattern) (limits : Limits) : Matcher where
  pattern := p
  limits := limits
  memo := limits.memo
  serial := p.serialBound

/-- Runs a search, and gives the matcher that has learned from it. -/
def call (m : Matcher) (act : (Pattern → Char → Limited Pattern) → Pattern → Limited α) :
    Except LimitError α × Matcher :=
  match m with
  | { pattern, limits, memo, serial } =>
    let ((answer, memo), serial) := ((act limits.step pattern).run.run memo).run serial
    (answer, { pattern, limits, memo, serial })

/-! ## The calls -/

def matchWhole (m : Matcher) (text : List Char) :
    Except LimitError (Option Captures) × Matcher :=
  m.call fun step p => runWhole step p text

def matchGreedily (m : Matcher) (text : List Char) :
    Except LimitError (Option Captures × List Char) × Matcher :=
  m.call fun step p => do
    let reach ← runGreedily step p text 0
    return (reach.captures, text.drop reach.length)

def findFirst (m : Matcher) (text : List Char) : Except LimitError (Option Match) × Matcher :=
  m.call fun step p => do
    return (← find step p text).map (·.toMatch ⟨0, text⟩)

def findAll (m : Matcher) (text : List Char) : Except LimitError (List Match) × Matcher :=
  m.call fun step p => findAllFrom step p ⟨0, text⟩

def hasMatch (m : Matcher) (text : List Char) : Except LimitError Bool × Matcher :=
  m.call fun step p => do
    return (← find step p text).isSome

end Matcher

end MarkedRegex
