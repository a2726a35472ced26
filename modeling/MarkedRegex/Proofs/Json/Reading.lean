-- A reader for JSON texts of any kind, as the standard has them: blanks between
-- the parts, numbers, every escape in a string. It takes a text apart from the
-- left, and none of what the writer does is known to it.
import MarkedRegex.Captures.Export

namespace MarkedRegex.Json

/-- A value of any kind. A number is kept as it is written, and the members of an object keep
their order. -/
inductive Value where
  | null
  | bool (truth : Bool)
  | number (text : String)
  | string (text : String)
  | array (items : List Value)
  | object (members : List (String × Value))

/-! ## Blanks and numbers -/

def isBlank (c : Char) : Bool := c = ' ' || c = '\t' || c = '\n' || c = '\r'

def skipBlanks (text : List Char) : List Char := text.dropWhile isBlank

/-- The sign in front, if one of those given is there. -/
def readSign (signs : List Char) : List Char → List Char × List Char
  | [] => ([], [])
  | c :: rest => if c ∈ signs then ([c], rest) else ([], c :: rest)

/-- One digit or more. -/
def readDigits (text : List Char) : Option (List Char × List Char) :=
  match text.span Char.isDigit with
  | ([], _) => none
  | (digit :: digits, rest) => some (digit :: digits, rest)

/-- The digits before the point. No other digit stands behind a zero in front. -/
def readWhole : List Char → Option (List Char × List Char)
  | '0' :: rest => some (['0'], rest)
  | text => readDigits text

def readFraction : List Char → Option (List Char × List Char)
  | '.' :: rest => do
    let (digits, rest) ← readDigits rest
    return ('.' :: digits, rest)
  | text => some ([], text)

def readExponent : List Char → Option (List Char × List Char)
  | [] => some ([], [])
  | c :: rest =>
    if c = 'e' ∨ c = 'E' then do
      let (sign, rest) := readSign ['+', '-'] rest
      let (digits, rest) ← readDigits rest
      return (c :: sign ++ digits, rest)
    else some ([], c :: rest)

def readNumber (text : List Char) : Option (Value × List Char) := do
  let (sign, rest) := readSign ['-'] text
  let (whole, rest) ← readWhole rest
  let (fraction, rest) ← readFraction rest
  let (exponent, rest) ← readExponent rest
  return (.number (String.ofList (sign ++ whole ++ fraction ++ exponent)), rest)

/-! ## Strings -/

def hexValue? (c : Char) : Option Nat :=
  if '0' ≤ c ∧ c ≤ '9' then some (c.toNat - '0'.toNat)
  else if 'a' ≤ c ∧ c ≤ 'f' then some (c.toNat - 'a'.toNat + 10)
  else if 'A' ≤ c ∧ c ≤ 'F' then some (c.toNat - 'A'.toNat + 10)
  else none

/-- A number below `0x10000`, in four hexadecimal digits. -/
def readUnit : List Char → Option (Nat × List Char)
  | a :: b :: c :: d :: rest => do
    return (((← hexValue? a) * 16 + (← hexValue? b)) * 256 + (← hexValue? c) * 16
      + (← hexValue? d), rest)
  | _ => none

/-- What stands behind `\u`: the number of a character, or the two surrogates of one above
`0xFFFF`. A surrogate alone is no character. -/
def readByNumber (text : List Char) : Option (Char × List Char) := do
  let (unit, rest) ← readUnit text
  if 0xd800 ≤ unit ∧ unit < 0xdc00 then
    match rest with
    | '\\' :: 'u' :: rest =>
      let (low, rest) ← readUnit rest
      if 0xdc00 ≤ low ∧ low < 0xe000 then
        return (Char.ofNat (0x10000 + (unit - 0xd800) * 0x400 + (low - 0xdc00)), rest)
      else none
    | _ => none
  else if 0xdc00 ≤ unit ∧ unit < 0xe000 then none
  else return (Char.ofNat unit, rest)

/-- One character of a string. The backslash starts an escape, and the characters below the space
may not stand for themselves. -/
def readChar : List Char → Option (Char × List Char)
  | '\\' :: c :: rest =>
    match c with
    | '\x22' => some ('\x22', rest)
    | '\\' => some ('\\', rest)
    | '/' => some ('/', rest)
    | 'b' => some ('\x08', rest)
    | 'f' => some ('\x0c', rest)
    | 'n' => some ('\n', rest)
    | 'r' => some ('\r', rest)
    | 't' => some ('\t', rest)
    | 'u' => readByNumber rest
    | _ => none
  | ['\\'] => none
  | c :: rest => if c.toNat < 0x20 then none else some (c, rest)
  | [] => none

/-- What is left of a string, up to the quote that closes it. -/
def readString : Nat → List Char → Option (List Char × List Char)
  | _, '\x22' :: rest => some ([], rest)
  | 0, _ => none
  | fuel + 1, text => do
    let (c, rest) ← readChar text
    let (cs, rest) ← readString fuel rest
    return (c :: cs, rest)

/-! ## Values -/

/-- A name with the colon behind it. -/
def readName (fuel : Nat) : List Char → Option (String × List Char)
  | '\x22' :: rest => do
    let (name, rest) ← readString fuel rest
    match skipBlanks rest with
    | ':' :: rest => return (String.ofList name, rest)
    | _ => none
  | _ => none

mutual

/-- A value and what is behind it. The fuel is for the parts a value has: no text has more of them
than characters. -/
def readValue : Nat → List Char → Option (Value × List Char)
  | 0, _ => none
  | fuel + 1, text =>
    match skipBlanks text with
    | '\x22' :: rest => do
      let (text, rest) ← readString fuel rest
      return (.string (String.ofList text), rest)
    | '[' :: rest =>
      match skipBlanks rest with
      | ']' :: rest => some (.array [], rest)
      | rest => do
        let (first, rest) ← readValue fuel rest
        let (items, rest) ← readItems fuel rest
        return (.array (first :: items), rest)
    | '\x7b' :: rest =>
      match skipBlanks rest with
      | '\x7d' :: rest => some (.object [], rest)
      | rest => do
        let (name, rest) ← readName fuel rest
        let (first, rest) ← readValue fuel rest
        let (members, rest) ← readMembers fuel rest
        return (.object ((name, first) :: members), rest)
    | 'n' :: 'u' :: 'l' :: 'l' :: rest => some (.null, rest)
    | 't' :: 'r' :: 'u' :: 'e' :: rest => some (.bool true, rest)
    | 'f' :: 'a' :: 'l' :: 's' :: 'e' :: rest => some (.bool false, rest)
    | text => readNumber text

/-- The items after the first one, up to the bracket that closes the array. -/
def readItems : Nat → List Char → Option (List Value × List Char)
  | 0, _ => none
  | fuel + 1, text =>
    match skipBlanks text with
    | ']' :: rest => some ([], rest)
    | ',' :: rest => do
      let (x, rest) ← readValue fuel rest
      let (xs, rest) ← readItems fuel rest
      return (x :: xs, rest)
    | _ => none

/-- The members after the first one, up to the brace that closes the object. -/
def readMembers : Nat → List Char → Option (List (String × Value) × List Char)
  | 0, _ => none
  | fuel + 1, text =>
    match skipBlanks text with
    | '\x7d' :: rest => some ([], rest)
    | ',' :: rest => do
      let (name, rest) ← readName fuel (skipBlanks rest)
      let (value, rest) ← readValue fuel rest
      let (members, rest) ← readMembers fuel rest
      return ((name, value) :: members, rest)
    | _ => none

end

/-- The value that a whole text stands for, if it is a JSON text. -/
def read (text : String) : Option Value :=
  match readValue (text.toList.length + 1) text.toList with
  | some (value, rest) => if skipBlanks rest = [] then some value else none
  | none => none

end MarkedRegex.Json
