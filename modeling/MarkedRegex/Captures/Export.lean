-- Capture dictionaries as JSON: an object with one array of strings a name, on
-- one line or laid out with one member or item to a line. The layout is the one
-- that the JSON library behind the program is taken to have. What its writer
-- could report as an error is left out: values made of strings cannot cause any.
import MarkedRegex.Captures

namespace MarkedRegex

/-- A JSON value made of strings. The members of an object keep their order. -/
inductive Json where
  | string (text : String)
  | array (items : List Json)
  | object (members : List (String × Json))

namespace Json

/-! ## Strings -/

def hexDigit (n : Nat) : Char := Nat.digitChar (n % 16)

/-- What stands behind the backslash for a character with a short escape. -/
def shortEscape? : Char → Option Char
  | '\x22' => some '\x22'
  | '\\' => some '\\'
  | '\x08' => some 'b'
  | '\x0c' => some 'f'
  | '\n' => some 'n'
  | '\r' => some 'r'
  | '\t' => some 't'
  | _ => none

/-- A character inside a JSON string. The quote, the backslash and the characters below the space
are escaped; all others stand for themselves. -/
def escaped (c : Char) : List Char :=
  match shortEscape? c with
  | some short => ['\\', short]
  | none =>
    if c.toNat < 0x20 then
      ['\\', 'u', '0', '0', hexDigit (c.toNat / 16), hexDigit c.toNat]
    else [c]

def writeString (s : String) : List Char :=
  '\x22' :: s.toList.flatMap escaped ++ ['\x22']

/-! ## Layouts -/

/-- How the parts of a value are set apart. -/
inductive Layout where
  | compact
  | pretty
  deriving DecidableEq

/-- What stands before an item at a depth: nothing, or a new line with two spaces a level. -/
def Layout.lineBreak : Layout → Nat → List Char
  | .compact, _ => []
  | .pretty, depth => '\n' :: List.replicate (2 * depth) ' '

/-- What stands between a name and its value. -/
def Layout.colon : Layout → List Char
  | .compact => [':']
  | .pretty => [':', ' ']

/-! ## Values -/

mutual

/-- The text of a value that stands at a depth. -/
def write (layout : Layout) (depth : Nat) : Json → List Char
  | .string s => writeString s
  | .array [] => ['[', ']']
  | .array (x :: xs) =>
    '[' :: layout.lineBreak (depth + 1) ++ write layout (depth + 1) x
      ++ writeItems layout (depth + 1) xs ++ layout.lineBreak depth ++ [']']
  | .object [] => ['\x7b', '\x7d']
  | .object ((name, value) :: rest) =>
    '\x7b' :: layout.lineBreak (depth + 1) ++ writeString name ++ layout.colon
      ++ write layout (depth + 1) value ++ writeMembers layout (depth + 1) rest
      ++ layout.lineBreak depth ++ ['\x7d']

/-- The items after the first one. -/
def writeItems (layout : Layout) (depth : Nat) : List Json → List Char
  | [] => []
  | x :: xs => ',' :: layout.lineBreak depth ++ write layout depth x ++ writeItems layout depth xs

/-- The members after the first one. -/
def writeMembers (layout : Layout) (depth : Nat) : List (String × Json) → List Char
  | [] => []
  | (name, value) :: rest =>
    ',' :: layout.lineBreak depth ++ writeString name ++ layout.colon ++ write layout depth value
      ++ writeMembers layout depth rest

end

def render (layout : Layout) (value : Json) : String := String.ofList (value.write layout 0)

end Json

/-! ## Dictionaries -/

namespace Captures

/-- The names in order, each with the array of its values. -/
def toJson (c : Captures) : Json :=
  .object (c.entries.map fun e => (e.1, .array (e.2.map .string)))

def toJsonString (c : Captures) (layout : Json.Layout) : String := c.toJson.render layout

end Captures

end MarkedRegex
