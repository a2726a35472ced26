-- Building patterns. Every constructor here gives its result in reduced form:
-- failure spreads, the empty pattern leaves sequences, single characters in a
-- choice become one set, stars do not nest, and parts that only hold captures
-- gather on the left of a sequence. The supply hands out serial numbers.
import MarkedRegex.Pattern

namespace MarkedRegex

/-- Building takes serial numbers from a supply that counts up. -/
abbrev Build := StateM Nat

namespace Build

/-- A new node, under the next serial number. -/
def node (form : Nat → Pattern) : Build Pattern :=
  modifyGet fun serial => (form serial, serial + 1)

/-! ## Single characters -/

/-- One character of a set; without members it fails. -/
def ofSet (s : CharSet) : Build Pattern :=
  if s.isEmpty then pure .fail else node (.charSet · s)

/-- One character outside a set; without members it is any character. -/
def ofNegatedSet (s : CharSet) : Build Pattern :=
  if s.isEmpty then pure .any else node (.negatedSet · s)

def char (c : Char) : Build Pattern := node (.charSet · (CharSet.singleton c))

def oneOf (cs : List Char) : Build Pattern := ofSet (CharSet.ofList cs)

def noneOf (cs : List Char) : Build Pattern := ofNegatedSet (CharSet.ofList cs)

/-- One character from `lo` to `hi`, both included. -/
def range (lo hi : Char) : Build Pattern := ofSet (CharSet.range lo hi)

/-! ## Operators -/

/-- `p`, then `q`. Two parts that only hold captures, at the head of a sequence, go into a
sequence of their own, so captures under a star do not deepen what still takes in characters. -/
def sequence (p q : Pattern) : Build Pattern :=
  match p, q with
  | .fail, _ | _, .fail => pure .fail
  | .empty, _ => pure q
  | _, .empty => pure p
  | _, .sequence _ q₁ q₂ =>
    if !p.consumes && !q₁.consumes then do
      let settled ← node (.sequence · p q₁)
      node (.sequence · settled q₂)
    else node (.sequence · p q)
  | _, _ => node (.sequence · p q)

/-- `p` or `q`; `p` wins when both match. The same node twice is that node, and single characters
become one set. -/
def alternation (p q : Pattern) : Build Pattern :=
  if p = q then pure p
  else
    match p, q with
    | .fail, _ => pure q
    | _, .fail => pure p
    | .any, .charSet .. | .any, .negatedSet .. | .charSet .., .any | .negatedSet .., .any =>
      pure .any
    | .charSet _ s, .charSet _ t => ofSet (s.union t)
    | .negatedSet _ s, .negatedSet _ t => ofNegatedSet (s.intersection t)
    | .charSet _ s, .negatedSet _ n | .negatedSet _ n, .charSet _ s => ofNegatedSet (n.difference s)
    | _, _ => node (.alternation · p q)

/-- `p` any number of times. What takes in no character and holds no mark is gone through no
time. -/
def star (p : Pattern) : Build Pattern :=
  match p with
  | .star .. => pure p
  | .empty | .fail => pure .empty
  | _ => if !p.hasMarks && !p.consumes then pure .empty else node (.star · p)

/-- A mark whose inner pattern has taken in the text of `buffer` so far. -/
def markHolding (name : String) (buffer : MarkBuffer) (inner : Pattern) : Build Pattern :=
  if inner.isFail then pure .fail else node (.mark · name buffer inner)

/-- Captures what `p` matches under `name`. -/
def mark (name : String) (p : Pattern) : Build Pattern := markHolding name ∅ p

/-- Nothing or `p`; the empty match is tried first. -/
def optional (p : Pattern) : Build Pattern := alternation .empty p

def oneOrMore (p : Pattern) : Build Pattern := do sequence p (← star p)

/-- The characters of a text, one after the other. -/
def text : List Char → Build Pattern
  | [] => pure .empty
  | c :: cs => do
    let rest ← text cs
    sequence (← char c) rest

end Build

end MarkedRegex
