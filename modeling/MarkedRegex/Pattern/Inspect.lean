-- What can be read off a pattern: the names of its marks, the captures it holds
-- where it accepts the empty text, and its tree as text, node by node, with sets
-- and buffers spelled out and serial numbers left out.
import MarkedRegex.Captures
import MarkedRegex.Pattern

namespace MarkedRegex.Pattern

/-! ## The names of the marks -/

/-- Puts a name into a list in strictly increasing order, if it is not there already. -/
def insertName (n : String) : List String → List String
  | [] => [n]
  | m :: ms => if n < m then n :: m :: ms else if m < n then m :: insertName n ms else m :: ms

/-- The names of the marks in the tree, put into `found`. -/
def markNamesInto : Pattern → List String → List String
  | .empty, found | .fail, found | .any, found | .charSet .., found | .negatedSet .., found => found
  | .sequence _ p q, found | .alternation _ p q, found =>
    if p.hasMarks || q.hasMarks then p.markNamesInto (q.markNamesInto found) else found
  | .star _ p, found => if p.hasMarks then p.markNamesInto found else found
  | .mark _ name _ p, found => insertName name (p.markNamesInto found)

/-- The names of the marks in the tree, in order and each once. -/
def markNames (p : Pattern) : List String := p.markNamesInto []

/-! ## What the marks hold -/

/-- The captures of a pattern followed by `rest`; none if it does not accept the empty text. Both
parts of a sequence count, the left branch of an alternation goes first, and a star by itself has
captured nothing. -/
def capturedOnto (p : Pattern) (rest : Captures) : Option Captures :=
  if !p.nullable then none
  else
    match p with
    | .empty | .star .. => some rest
    | .fail | .any | .charSet .. | .negatedSet .. => none
    | .sequence _ p q => do p.capturedOnto (← q.capturedOnto rest)
    | .alternation _ p q => p.capturedOnto rest <|> q.capturedOnto rest
    | .mark _ name buffer p => do
      return (Captures.single name (String.ofList buffer.text)).merge (← p.capturedOnto rest)

/-- The captures a pattern holds where it stops; none if it cannot stop there. -/
def captured (p : Pattern) : Option Captures := p.capturedOnto ∅

/-! ## The tree as text -/

/-- What a node of each form is called. -/
def Kind.name : Kind → String
  | .empty => "Empty"
  | .fail => "Fail"
  | .any => "AnyChar"
  | .charSet => "CharSet"
  | .negatedSet => "NegatedCharSet"
  | .sequence => "Sequence"
  | .alternation => "Alternation"
  | .star => "Star"
  | .mark => "Mark"

/-- The members of a set in quotes, in order. -/
def inspectSet (s : CharSet) : List Char :=
  let members := [',', ' '].intercalate (s.toList.map Text.quotedChar)
  "CharSet(\x7b".toList ++ members ++ "\x7d)".toList

/-- The tree of a pattern, followed by `rest`. -/
def inspectOnto (p : Pattern) (rest : List Char) : List Char :=
  p.kind.name.toList ++
    match p with
    | .empty | .fail | .any => rest
    | .charSet _ s | .negatedSet _ s => '(' :: inspectSet s ++ ')' :: rest
    | .sequence _ p q | .alternation _ p q =>
      '(' :: p.inspectOnto (',' :: ' ' :: q.inspectOnto (')' :: rest))
    | .star _ p => '(' :: p.inspectOnto (')' :: rest)
    | .mark _ name buffer p =>
      " \x7b name: ".toList ++ Text.quoted name.toList ++ ", buffer: ".toList ++ buffer.inspect
        ++ ", inner: ".toList ++ p.inspectOnto (' ' :: '\x7d' :: rest)

def inspect (p : Pattern) : String := String.ofList (p.inspectOnto [])

end MarkedRegex.Pattern
