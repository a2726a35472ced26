-- The matches of a pattern inside a text: the leftmost one, all of them, or one
-- at a time. The memo table stays from one match to the next.
import MarkedRegex.Pattern.Matching

namespace MarkedRegex

/-! ## Matches inside a text -/

namespace Pattern

/-- The leftmost match. -/
def findFirst (p : Pattern) (text : List Char) : Option Match :=
  (p.runFresh (find derive p text)).map (·.toMatch ⟨0, text⟩)

/-- All matches, one behind the other, with one memo table for them all. -/
def findAll (p : Pattern) (text : List Char) : List Match :=
  p.runFresh (findAllFrom derive p ⟨0, text⟩)

/-- The captures of all matches. -/
def findAllCaptures (p : Pattern) (text : List Char) : List Captures :=
  (p.findAll text).map (·.captures)

def hasMatch (p : Pattern) (text : List Char) : Bool := (p.findFirst text).isSome

end Pattern

/-! ## One match at a time -/

/-- A search that goes on from a position, or is over, with the memo table and serial numbers it
works with. -/
structure MatchStream where
  pattern : Pattern
  memo : Memo
  serial : Nat
  position : Option Position

namespace MatchStream

def ofText (p : Pattern) (text : List Char) : MatchStream where
  pattern := p
  memo := .ofCapacity Memo.defaultCapacity
  serial := p.serialBound
  position := some ⟨0, text⟩

/-- The next match, if there is one, and the search behind it. -/
def next (ms : MatchStream) : Option Match × MatchStream :=
  match ms with
  | { position := none, .. } => (none, ms)
  | { pattern, memo, serial, position := some here } =>
    let ((found, memo), serial) := ((find Pattern.derive pattern here.text).run memo).run serial
    (found.map (·.toMatch here),
      { pattern, memo, serial, position := found.bind (·.resume here) })

/-- What the next `n` calls of `next` answer. -/
def takeNext : Nat → MatchStream → List (Option Match)
  | 0, _ => []
  | n + 1, ms =>
    let (found, ms) := ms.next
    found :: takeNext n ms

end MatchStream

end MarkedRegex
