-- Patterns in the notation of regular expressions. Parentheses stand only
-- where an operator would otherwise take hold of the wrong part; nests of
-- sequences and of alternations are written flat, however they lean.
import MarkedRegex.Pattern

namespace MarkedRegex.Pattern

/-! ## Characters and sets -/

/-- The characters that carry meaning outside of sets. -/
def specials : List Char :=
  ['.', '[', '\x7b', '\x7d', '(', ')', '\\', '*', '+', '?', '|', '^', '$']

/-- The characters that carry meaning inside of sets. -/
def setSpecials : List Char := ['\\', '[', ']', '^', '-']

/-- The control characters of Unicode (general category Cc). -/
def isControl (c : Char) : Bool := c.toNat < 0x20 || 0x7f ≤ c.toNat && c.toNat ≤ 0x9f

/-- A character by itself, behind a backslash when it is special, or by its code point when it is
a control character. -/
def renderChar (special : List Char) (c : Char) : List Char :=
  if c ∈ special then ['\\', c]
  else if isControl c then Text.byNumber c
  else [c]

/-- A run of characters: one or two are written out, a longer one by its ends. -/
def renderRun (lo hi : Char) : List Char :=
  let first := renderChar setSpecials lo
  let last := renderChar setSpecials hi
  match hi.toNat - lo.toNat with
  | 0 => first
  | 1 => first ++ last
  | _ => first ++ '-' :: last

/-- A set in brackets, run by run. -/
def renderSet (start : List Char) (s : CharSet) : List Char :=
  start ++ s.ranges.flatMap (fun (lo, hi) => renderRun lo hi) ++ [']']

/-! ## Patterns -/

/-- Where a pattern stands: on its own or as a branch of an alternation, as a part of a sequence,
or in front of a repetition sign. -/
inductive Place where
  | branch
  | part
  | repeated
  deriving DecidableEq

/-- Puts parentheses around a text, which is given as what it puts before the text after it. -/
def inParens (wrap : Bool) (body : List Char → List Char) (rest : List Char) : List Char :=
  if wrap then '(' :: body (')' :: rest) else body rest

/-- The text of a pattern at a place, followed by `rest`. A choice between the empty pattern and
another one is written with a question mark. -/
def renderOnto : Pattern → Place → List Char → List Char
  | .empty, _, rest => '(' :: ')' :: rest
  | .fail, _, rest => '[' :: ']' :: rest
  | .any, _, rest => '.' :: rest
  | .charSet _ s, _, rest =>
    match s.single? with
    | some c => renderChar specials c ++ rest
    | none => renderSet ['['] s ++ rest
  | .negatedSet _ s, _, rest => renderSet ['[', '^'] s ++ rest
  | .alternation _ .empty q, place, rest =>
    inParens (place = .repeated) (fun rest => q.renderOnto .repeated ('?' :: rest)) rest
  | .alternation _ p q, place, rest =>
    inParens (place ≠ .branch)
      (fun rest => p.renderOnto .branch ('|' :: q.renderOnto .branch rest)) rest
  | .sequence _ p q, place, rest =>
    inParens (place = .repeated)
      (fun rest => p.renderOnto .part (q.renderOnto .part rest)) rest
  | .star _ p, place, rest =>
    inParens (place = .repeated) (fun rest => p.renderOnto .repeated ('*' :: rest)) rest
  | .mark _ name _ p, _, rest =>
    '(' :: '?' :: '<' :: name.toList ++ '>' :: p.renderOnto .branch (')' :: rest)

def render (p : Pattern) : String := String.ofList (p.renderOnto .branch [])

end MarkedRegex.Pattern
