-- Matches and where they stand. Offsets count the UTF-8 bytes of the text in
-- front; a search itself counts characters, and works on the text that is
-- left from some position on.
import MarkedRegex.Captures

namespace MarkedRegex

/-! ## Bytes -/

/-- The number of bytes that UTF-8 takes for a text. -/
def byteLength : List Char → Nat
  | [] => 0
  | c :: cs => c.utf8Size + byteLength cs

@[simp] theorem byteLength_append (as bs : List Char) :
    byteLength (as ++ bs) = byteLength as + byteLength bs := by
  induction as with
  | nil => simp [byteLength]
  | cons c cs ih => simp [byteLength, ih, Nat.add_assoc]

/-! ## Matches -/

/-- A match: where it starts in the searched text, what it took, what follows it, and what it
captured. -/
structure Match where
  start : Nat
  text : List Char
  rest : List Char
  captures : Captures
  deriving DecidableEq

namespace Match

/-- The position after the match. -/
def stop (m : Match) : Nat := m.start + byteLength m.text

def isEmpty (m : Match) : Bool := m.text.isEmpty

end Match

/-! ## Positions -/

/-- A position in a text, and the text from there on. -/
structure Position where
  offset : Nat
  text : List Char
  deriving DecidableEq

/-- The position `n` characters on. -/
def Position.advance (here : Position) (n : Nat) : Position where
  offset := here.offset + byteLength (here.text.take n)
  text := here.text.drop n

/-! ## Spans -/

/-- A match as characters of the text from some position: how many it skips and how many it
takes. -/
structure Span where
  skipped : Nat
  length : Nat
  captures : Captures
  deriving DecidableEq

namespace Span

def toMatch (s : Span) (here : Position) : Match :=
  let found := here.advance s.skipped
  { start := found.offset
    text := found.text.take s.length
    rest := found.text.drop s.length
    captures := s.captures }

/-- Where the search goes on: behind the match, or one character further if it is empty. Nothing
is left to search at the end of the text. -/
def resume (s : Span) (here : Position) : Option Position :=
  let next := here.advance (s.skipped + max s.length 1)
  if next.text.isEmpty then none else some next

theorem length_resume_lt {s : Span} {here next : Position} (h : s.resume here = some next) :
    next.text.length < here.text.length := by
  dsimp only [resume] at h
  split at h
  · cases h
  · next hne =>
    cases h
    simp only [Position.advance, List.isEmpty_iff, List.drop_eq_nil_iff, List.length_drop] at *
    omega

end Span

end MarkedRegex
