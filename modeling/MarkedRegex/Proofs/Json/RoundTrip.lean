-- Reading takes back what writing puts down, in either layout and with any
-- text behind it. A character of a string comes first, then strings, then
-- values by the recursion of the writer. So the text of a dictionary is read
-- back as its entries in their order, and no two dictionaries share a text.
import MarkedRegex.Proofs.Json.Reading

namespace MarkedRegex

namespace Json

variable {fuel : Nat} {rest : List Char}

/-! ## Strings -/

theorem hexValue?_hexDigit (n : Nat) : hexValue? (hexDigit n) = some (n % 16) := by
  have hall : ∀ d < 16, hexValue? (Nat.digitChar d) = some d := by decide
  exact hall (n % 16) (Nat.mod_lt n (by decide))

/-- A character below the space is read back from its number. -/
theorem readByNumber_digits {c : Char} (h : c.toNat < 0x20) :
    readByNumber ('0' :: '0' :: hexDigit (c.toNat / 16) :: hexDigit c.toNat :: rest) =
      some (c, rest) := by
  have hzero : hexValue? '0' = some 0 := by decide
  have hnumber : c.toNat / 16 % 16 * 16 + c.toNat % 16 = c.toNat := by omega
  have hhigh : ¬(0xd800 ≤ c.toNat ∧ c.toNat < 0xdc00) := by omega
  have hlow : ¬(0xdc00 ≤ c.toNat ∧ c.toNat < 0xe000) := by omega
  simp [readByNumber, readUnit, hexValue?_hexDigit, hzero, hnumber, hhigh, hlow, Char.ofNat_toNat]

theorem readChar_shortEscape {c short : Char} (h : shortEscape? c = some short)
    (rest : List Char) : readChar ('\\' :: short :: rest) = some (c, rest) := by
  unfold shortEscape? at h
  split at h <;> cases h <;> rfl

theorem readChar_self {c : Char} (hshort : shortEscape? c = none) (hc : ¬c.toNat < 0x20)
    (rest : List Char) : readChar (c :: rest) = some (c, rest) := by
  have hbackslash : c ≠ '\\' := by
    rintro rfl
    cases hshort
  unfold readChar
  split <;> simp_all

theorem readChar_escaped (c : Char) (rest : List Char) :
    readChar (escaped c ++ rest) = some (c, rest) := by
  unfold escaped
  cases hshort : shortEscape? c with
  | some short => exact readChar_shortEscape hshort rest
  | none =>
    dsimp only
    split
    · next hc => exact readByNumber_digits hc
    · next hc => exact readChar_self hshort hc rest

/-- No character of a string starts like the quote that closes it. -/
theorem escaped_eq_cons (c : Char) : ∃ first more, escaped c = first :: more ∧ first ≠ '\x22' := by
  unfold escaped
  cases hshort : shortEscape? c with
  | some short => exact ⟨_, _, rfl, by decide⟩
  | none =>
    dsimp only
    split
    · exact ⟨_, _, rfl, by decide⟩
    · refine ⟨c, [], rfl, ?_⟩
      rintro rfl
      cases hshort

theorem readString_escaped {cs : List Char} (h : cs.length ≤ fuel) :
    readString fuel (cs.flatMap escaped ++ '\x22' :: rest) = some (cs, rest) := by
  induction cs generalizing fuel with
  | nil => cases fuel <;> rfl
  | cons c cs ih =>
    obtain ⟨fuel, rfl⟩ : ∃ n, fuel = n + 1 := ⟨fuel - 1, by simp at h; omega⟩
    obtain ⟨first, more, hc, hfirst⟩ := escaped_eq_cons c
    have hchar := readChar_escaped c (cs.flatMap escaped ++ '\x22' :: rest)
    rw [List.flatMap_cons, List.append_assoc]
    rw [hc] at hchar ⊢
    rw [List.cons_append] at hchar ⊢
    have hrest := ih (Nat.le_of_succ_le_succ h)
    simp [readString, hfirst, hchar, hrest]

theorem length_le_escaped (cs : List Char) : cs.length ≤ (cs.flatMap escaped).length := by
  induction cs with
  | nil => simp
  | cons c cs ih =>
    obtain ⟨first, more, hc, -⟩ := escaped_eq_cons c
    simp only [List.flatMap_cons, hc, List.length_append, List.length_cons]
    omega

/-- What stands behind the quote that opens a string is read as the string. -/
theorem readString_tail {s : String} (h : (writeString s).length ≤ fuel) (rest : List Char) :
    readString fuel (s.toList.flatMap escaped ++ '\x22' :: rest) = some (s.toList, rest) := by
  refine readString_escaped ?_
  have := length_le_escaped s.toList
  simp only [writeString, List.length_append, List.length_cons] at h
  omega

/-! ## Blanks -/

theorem skipBlanks_cons {c : Char} (h : isBlank c = false) :
    skipBlanks (c :: rest) = c :: rest := by
  simp [skipBlanks, h]

@[simp] theorem skipBlanks_lineBreak (layout : Layout) (depth : Nat) (text : List Char) :
    skipBlanks (layout.lineBreak depth ++ text) = skipBlanks text := by
  cases layout with
  | compact => rfl
  | pretty =>
    have hspaces : ∀ n, skipBlanks (List.replicate n ' ' ++ text) = skipBlanks text := by
      intro n
      induction n with
      | zero => rfl
      | succ n ih => exact ih
    exact hspaces (2 * depth)

@[simp] theorem readValue_lineBreak (layout : Layout) (depth : Nat) (text : List Char) :
    readValue fuel (layout.lineBreak depth ++ text) = readValue fuel text := by
  cases fuel with
  | zero => simp [readValue]
  | succ fuel => rw [readValue, readValue, skipBlanks_lineBreak]

@[simp] theorem readItems_lineBreak (layout : Layout) (depth : Nat) (text : List Char) :
    readItems fuel (layout.lineBreak depth ++ text) = readItems fuel text := by
  cases fuel with
  | zero => simp [readItems]
  | succ fuel => rw [readItems, readItems, skipBlanks_lineBreak]

@[simp] theorem readMembers_lineBreak (layout : Layout) (depth : Nat) (text : List Char) :
    readMembers fuel (layout.lineBreak depth ++ text) = readMembers fuel text := by
  cases fuel with
  | zero => simp [readMembers]
  | succ fuel => rw [readMembers, readMembers, skipBlanks_lineBreak]

/-- The blank that a layout puts behind the colon. -/
@[simp] theorem readValue_colon (layout : Layout) (text : List Char) :
    readValue fuel (layout.colon.tail ++ text) = readValue fuel text := by
  cases layout with
  | compact => rfl
  | pretty =>
    cases fuel with
    | zero => simp [readValue]
    | succ fuel => rw [readValue, readValue]; rfl

/-! ## Values -/

theorem readName_write {name : String} (layout : Layout) (h : (writeString name).length ≤ fuel)
    (rest : List Char) :
    readName fuel ('\x22' :: (name.toList.flatMap escaped ++ '\x22' :: (layout.colon ++ rest))) =
      some (name, layout.colon.tail ++ rest) := by
  have hname := readString_tail h (layout.colon ++ rest)
  have hcolon : skipBlanks (layout.colon ++ rest) = ':' :: (layout.colon.tail ++ rest) := by
    cases layout <;> rfl
  simp [readName, hname, hcolon]

mutual

/-- The value that has no other parts than those of a value made of strings. -/
def value : Json → Value
  | .string s => .string s
  | .array items => .array (values items)
  | .object members => .object (memberValues members)

def values : List Json → List Value
  | [] => []
  | x :: xs => value x :: values xs

def memberValues : List (String × Json) → List (String × Value)
  | [] => []
  | (name, x) :: rest => (name, value x) :: memberValues rest

end

theorem values_eq_map (items : List Json) : values items = items.map value := by
  induction items with
  | nil => rfl
  | cons x xs ih => rw [values, ih, List.map_cons]

theorem memberValues_eq_map (members : List (String × Json)) :
    memberValues members = members.map fun m => (m.1, m.2.value) := by
  induction members with
  | nil => rfl
  | cons m ms ih => rw [memberValues, ih, List.map_cons]

/-- A value starts with a quote or with a bracket that opens. -/
theorem write_eq_cons (layout : Layout) (depth : Nat) (v : Json) :
    ∃ first more, v.write layout depth = first :: more ∧ first ≠ ']' ∧ isBlank first = false := by
  fun_cases write layout depth v <;> exact ⟨_, _, rfl, by decide, by decide⟩

mutual

/-- A value that was written is read back, whatever stands behind it. -/
theorem readValue_write (layout : Layout) (depth : Nat) :
    ∀ (v : Json) (fuel : Nat) (rest : List Char), (v.write layout depth).length < fuel →
      readValue fuel (v.write layout depth ++ rest) = some (v.value, rest)
  | _, 0, _, h => absurd h (Nat.not_lt_zero _)
  | .string s, fuel + 1, rest, h => by
    have hs := readString_tail (Nat.le_of_lt_succ h) rest
    simp [write, writeString, readValue, skipBlanks_cons, isBlank, hs, value]
  | .array [], fuel + 1, rest, _ => by
    simp [write, readValue, skipBlanks_cons, isBlank, value, values]
  | .array (x :: xs), fuel + 1, rest, h => by
    simp only [write, List.length_append, List.length_cons] at h
    have hx := readValue_write layout (depth + 1) x fuel
      (writeItems layout (depth + 1) xs ++ (layout.lineBreak depth ++ ']' :: rest)) (by omega)
    have hxs := readItems_write layout (depth + 1) depth xs fuel rest (by omega)
    obtain ⟨first, more, hwrite, hbracket, hblank⟩ := write_eq_cons layout (depth + 1) x
    simp only [hwrite, List.cons_append] at hx
    simp [write, hwrite, readValue, skipBlanks_cons, isBlank, skipBlanks_cons hblank, hbracket,
      value, values, hx, hxs]
  | .object [], fuel + 1, rest, _ => by
    simp [write, readValue, skipBlanks_cons, isBlank, value, memberValues]
  | .object ((name, x) :: ms), fuel + 1, rest, h => by
    simp only [write, List.length_append, List.length_cons] at h
    have hwrite : (writeString name).length ≤ fuel := by omega
    have hname := readName_write layout hwrite (x.write layout (depth + 1) ++
      (writeMembers layout (depth + 1) ms ++ (layout.lineBreak depth ++ '\x7d' :: rest)))
    have hx := readValue_write layout (depth + 1) x fuel
      (writeMembers layout (depth + 1) ms ++ (layout.lineBreak depth ++ '\x7d' :: rest)) (by omega)
    have hms := readMembers_write layout (depth + 1) depth ms fuel rest (by omega)
    simp [write, writeString, readValue, skipBlanks_cons, isBlank, value, memberValues, hname, hx,
      hms]

/-- What stands behind the first item is read up to the bracket that closes the array. -/
theorem readItems_write (layout : Layout) (depth outer : Nat) :
    ∀ (items : List Json) (fuel : Nat) (rest : List Char),
      (writeItems layout depth items).length < fuel →
      readItems fuel (writeItems layout depth items ++ (layout.lineBreak outer ++ ']' :: rest)) =
        some (values items, rest)
  | _, 0, _, h => absurd h (Nat.not_lt_zero _)
  | [], fuel + 1, rest, _ => by
    simp [writeItems, readItems, skipBlanks_cons, isBlank, values]
  | x :: xs, fuel + 1, rest, h => by
    simp only [writeItems, List.length_append, List.length_cons] at h
    have hx := readValue_write layout depth x fuel
      (writeItems layout depth xs ++ (layout.lineBreak outer ++ ']' :: rest)) (by omega)
    have hxs := readItems_write layout depth outer xs fuel rest (by omega)
    simp [writeItems, readItems, skipBlanks_cons, isBlank, values, hx, hxs]

/-- What stands behind the first member is read up to the brace that closes the object. -/
theorem readMembers_write (layout : Layout) (depth outer : Nat) :
    ∀ (members : List (String × Json)) (fuel : Nat) (rest : List Char),
      (writeMembers layout depth members).length < fuel →
      readMembers fuel
        (writeMembers layout depth members ++ (layout.lineBreak outer ++ '\x7d' :: rest)) =
          some (memberValues members, rest)
  | _, 0, _, h => absurd h (Nat.not_lt_zero _)
  | [], fuel + 1, rest, _ => by
    simp [writeMembers, readMembers, skipBlanks_cons, isBlank, memberValues]
  | (name, x) :: ms, fuel + 1, rest, h => by
    simp only [writeMembers, List.length_append, List.length_cons] at h
    have hwrite : (writeString name).length ≤ fuel := by omega
    have hname := readName_write layout hwrite (x.write layout depth ++
      (writeMembers layout depth ms ++ (layout.lineBreak outer ++ '\x7d' :: rest)))
    have hx := readValue_write layout depth x fuel
      (writeMembers layout depth ms ++ (layout.lineBreak outer ++ '\x7d' :: rest)) (by omega)
    have hms := readMembers_write layout depth outer ms fuel rest (by omega)
    simp [writeMembers, writeString, readMembers, skipBlanks_cons, isBlank, memberValues, hname, hx,
      hms]

end

/-- A whole text is read back. -/
theorem read_render (layout : Layout) (v : Json) : read (v.render layout) = some v.value := by
  have hv := readValue_write layout 0 v ((v.write layout 0).length + 1) [] (Nat.lt_succ_self _)
  rw [List.append_nil] at hv
  simp [read, render, hv, skipBlanks]

example :
    read " [-0.5e+10 ,\"\\ud83d\\ude00\", null]\n" =
      some (.array [.number "-0.5e+10", .string "😀", .null]) := by rfl

end Json

/-! ## Dictionaries -/

namespace Captures

/-- The entries as members of an object: each name with the array of its values. -/
def members (c : Captures) : List (String × Json.Value) :=
  c.entries.map fun e => (e.1, .array (e.2.map .string))

theorem value_toJson (c : Captures) : c.toJson.value = .object c.members := by
  simp only [toJson, members, Json.value, Json.memberValues_eq_map, Json.values_eq_map,
    List.map_map, Function.comp_def]

/-- No name stands twice, since the names are in order. -/
theorem nodup_names_members (c : Captures) : (c.members.map (·.1)).Nodup := by
  have hnames : c.members.map (·.1) = c.entries.map (·.1) := by simp [members]
  rw [hnames, List.Nodup, List.pairwise_map]
  refine List.Pairwise.imp ?_ c.ordered
  intro a b hlt hname
  rw [hname] at hlt
  exact String.lt_irrefl _ hlt

theorem members_inj {c d : Captures} : c.members = d.members ↔ c = d := by
  refine ⟨fun h => ext ?_, fun h => h ▸ rfl⟩
  have hvalues : ∀ vs ws : List String,
      vs.map Json.Value.string = ws.map Json.Value.string → vs = ws := by
    intro vs ws
    exact (List.map_inj_right fun v w h => Json.Value.string.inj h).mp
  refine (List.map_inj_right fun e f h => ?_).mp h
  obtain ⟨hname, harray⟩ := Prod.mk.inj h
  exact Prod.ext hname (hvalues _ _ (Json.Value.array.inj harray))

end Captures

/-- The text of a dictionary is a JSON text in either layout. It stands for an object whose members
are the entries in their order, each name once and with all its values; that is the value the
dictionary has as JSON. Dictionaries with one text are one dictionary. -/
theorem the_text_of_a_dictionary_is_read_back_as_its_entries (c : Captures)
    (layout : Json.Layout) :
    Json.read (c.toJsonString layout) = some (.object c.members) ∧
      Json.read (c.toJsonString layout) = some c.toJson.value ∧
      (c.members.map (·.1)).Nodup ∧
      ∀ d : Captures, c.toJsonString layout = d.toJsonString layout ↔ c = d := by
  have hread (c : Captures) : Json.read (c.toJsonString layout) = some (.object c.members) := by
    rw [Captures.toJsonString, Json.read_render, Captures.value_toJson]
  refine ⟨hread c, ?_, c.nodup_names_members, fun d => ⟨fun htext => ?_, fun h => h ▸ rfl⟩⟩
  · rw [hread c, Captures.value_toJson]
  · have hvalue : some (Json.Value.object c.members) = some (.object d.members) := by
      rw [← hread c, ← hread d, htext]
    exact Captures.members_inj.mp (Json.Value.object.inj (Option.some.inj hvalue))

end MarkedRegex
