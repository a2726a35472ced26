-- Reading back what a set is written as. Each character stands for itself, behind
-- a backslash, or by its number, and a dash between two of them stands for all
-- that lie between; so the text of a set tells its members, and with them the set.
import MarkedRegex.Pattern.Render
import MarkedRegex.Proofs.CharSet.Runs

namespace MarkedRegex.Writing

open Pattern (renderChar renderRun specials setSpecials isControl)

/-! ## Characters -/

/-- The text in front of the first `stop`, and the one behind it. -/
def cutAt (stop : Char) (text : List Char) : List Char × List Char :=
  (text.takeWhile (· ≠ stop), (text.dropWhile (· ≠ stop)).tail)

theorem cutAt_append {stop : Char} {word : List Char} (h : stop ∉ word) (rest : List Char) :
    cutAt stop (word ++ stop :: rest) = (word, rest) := by
  have hword : ∀ c ∈ word, decide (c ≠ stop) = true := by
    intro c hc
    rw [decide_eq_true_eq]
    exact fun heq => h (heq ▸ hc)
  unfold cutAt
  rw [List.takeWhile_append_of_pos hword, List.dropWhile_append_of_pos hword]
  simp

/-- The number that lowercase hexadecimal digits stand for. -/
def hexNumber (digits : List Char) : Nat :=
  digits.foldl (fun n d =>
    n * 16 + (if d.isDigit then d.toNat - '0'.toNat else d.toNat - 'a'.toNat + 10)) 0

theorem hexNumber_toDigits :
    ∀ n < 0xa0, '\x7d' ∉ Nat.toDigits 16 n ∧ hexNumber (Nat.toDigits 16 n) = n := by
  decide +kernel

/-- The first character of a text, and what is behind it. -/
def readChar : List Char → Option (Char × List Char)
  | [] => none
  | '\\' :: 'u' :: '\x7b' :: rest =>
    let (digits, rest) := cutAt '\x7d' rest
    some (Char.ofNat (hexNumber digits), rest)
  | '\\' :: c :: rest => some (c, rest)
  | c :: rest => some (c, rest)

/-- Of what a text tells apart, the backslash is special and `u` is not. -/
structure Special (special : List Char) : Prop where
  backslash : '\\' ∈ special
  letter : 'u' ∉ special

theorem special_specials : Special specials := ⟨by decide, by decide⟩

theorem special_setSpecials : Special setSpecials := ⟨by decide, by decide⟩

theorem toNat_lt_of_isControl {c : Char} (h : isControl c = true) : c.toNat < 0xa0 := by
  simp only [isControl, Bool.or_eq_true, Bool.and_eq_true, decide_eq_true_eq] at h
  omega

theorem readChar_renderChar {special : List Char} (h : Special special) (c : Char)
    (rest : List Char) : readChar (renderChar special c ++ rest) = some (c, rest) := by
  unfold renderChar
  split
  · next hc =>
    have hu : c ≠ 'u' := fun heq => h.letter (heq ▸ hc)
    simp [readChar, hu]
  · next hc =>
    have hslash : c ≠ '\\' := fun heq => hc (heq ▸ h.backslash)
    split
    · next hcontrol =>
      obtain ⟨hdigits, hnumber⟩ := hexNumber_toDigits c.toNat (toNat_lt_of_isControl hcontrol)
      have hcut := cutAt_append hdigits rest
      simp [Text.byNumber, readChar, hcut, hnumber, Char.ofNat_toNat]
    · simp [readChar, hslash]

/-- What is written for a character starts with a backslash, or with a sign that is not special. -/
theorem renderChar_eq_cons (special : List Char) (c : Char) :
    ∃ first more, renderChar special c = first :: more ∧ (first = '\\' ∨ first ∉ special) := by
  unfold renderChar
  split
  · exact ⟨_, _, rfl, Or.inl rfl⟩
  · next hc =>
    split
    · exact ⟨_, _, rfl, Or.inl rfl⟩
    · exact ⟨_, _, rfl, Or.inr hc⟩

/-! ## Sets -/

/-- What stands between the brackets of a set: characters, and dashes, which are `none`. -/
abbrev Items := List (Option Char)

def itemText (item : Option Char) : List Char := item.elim ['-'] (renderChar setSpecials)

def Items.text (items : Items) : List Char := items.flatMap itemText

theorem Items.text_cons (item : Option Char) (items : Items) :
    Items.text (item :: items) = itemText item ++ items.text := List.flatMap_cons

/-- The members. A dash behind a character stands for those up to the one behind the dash. -/
def Items.set : Items → CharSet
  | some lo :: none :: some hi :: rest => (CharSet.range lo hi).union (set rest)
  | some c :: rest => (CharSet.singleton c).union (set rest)
  | none :: _ | [] => ∅

/-- The items of a run, as few as it can be written with. -/
def runItems (run : Char × Char) : Items :=
  match run.2.toNat - run.1.toNat with
  | 0 => [some run.1]
  | 1 => [some run.1, some run.2]
  | _ => [some run.1, none, some run.2]

def setItems (s : CharSet) : Items := s.ranges.flatMap runItems

theorem renderRun_eq (run : Char × Char) : renderRun run.1 run.2 = (runItems run).text := by
  unfold renderRun runItems
  split <;> simp_all [Items.text, itemText]

theorem renderSet_eq (start : List Char) (s : CharSet) :
    Pattern.renderSet start s = start ++ (setItems s).text ++ [']'] := by
  unfold Pattern.renderSet setItems
  simp only [renderRun_eq, Items.text, List.flatMap_assoc]

/-- A character in front of others is a member, unless a dash is behind it. -/
theorem contains_set_cons {items : Items} (h : items.head? ≠ some none) (a c : Char) :
    (Items.set (some a :: items)).contains c =
      (decide (c = a) || (Items.set items).contains c) := by
  have hset : Items.set (some a :: items) = (CharSet.singleton a).union items.set := by
    match items with
    | [] => rfl
    | some _ :: _ => rfl
    | none :: _ => exact absurd rfl h
  rw [hset, CharSet.contains_union, CharSet.contains_singleton]

/-- The members of a run lie between its ends, be it written as one character, as two neighbours or
by its ends. -/
theorem contains_set_run {run : Char × Char} {items : Items}
    (hrun : run.1.toNat ≤ run.2.toNat) (hitems : items.head? ≠ some none) (c : Char) :
    (Items.set (runItems run ++ items)).contains c =
      (decide (run.1.toNat ≤ c.toNat ∧ c.toNat ≤ run.2.toNat) || items.set.contains c) := by
  have heq (a : Char) : c = a ↔ c.toNat = a.toNat := Char.toNat_inj.symm
  unfold runItems
  split
  · rw [List.singleton_append, contains_set_cons hitems]
    congr 1
    rw [decide_eq_decide, heq]
    omega
  · rw [List.cons_append, contains_set_cons (by simp), List.singleton_append,
      contains_set_cons hitems, ← Bool.or_assoc, ← Bool.decide_or]
    congr 1
    rw [decide_eq_decide, heq, heq]
    omega
  · change ((CharSet.range run.1 run.2).union items.set).contains c = _
    rw [CharSet.contains_union, CharSet.contains_range]

theorem head_flatMap_runItems (runs : List (Char × Char)) :
    (runs.flatMap runItems).head? ≠ some none := by
  cases runs with
  | nil => simp
  | cons run runs =>
    rw [List.flatMap_cons]
    unfold runItems
    split <;> simp

theorem contains_set_flatMap {runs : List (Char × Char)}
    (h : ∀ run ∈ runs, run.1.toNat ≤ run.2.toNat) (c : Char) :
    (Items.set (runs.flatMap runItems)).contains c = true ↔
      ∃ run ∈ runs, run.1.toNat ≤ c.toNat ∧ c.toNat ≤ run.2.toNat := by
  induction runs with
  | nil => simp [Items.set]
  | cons run runs ih =>
    obtain ⟨hrun, hruns⟩ := List.forall_mem_cons.mp h
    rw [List.flatMap_cons, contains_set_run hrun (head_flatMap_runItems runs), Bool.or_eq_true,
      ih hruns, decide_eq_true_eq]
    simp only [List.mem_cons, exists_eq_or_imp]

/-- The items of a set tell the set. -/
theorem set_setItems (s : CharSet) : (setItems s).set = s := by
  refine CharSet.eq_of_contains_eq fun c => Bool.eq_iff_iff.mpr ?_
  have hruns : ∀ run ∈ s.ranges, run.1.toNat ≤ run.2.toNat := fun _ => CharSet.run_le
  exact (contains_set_flatMap hruns c).trans CharSet.contains_iff_run.symm

/-! ## The text of a set -/

/-- The first item of a text. -/
def readItem : List Char → Option (Option Char × List Char)
  | '-' :: rest => some (none, rest)
  | text => (readChar text).map fun (c, rest) => (some c, rest)

/-- The items in front of the closing bracket, and what is behind it. -/
def readItems : Nat → List Char → Option (Items × List Char)
  | 0, _ => none
  | _ + 1, ']' :: rest => some ([], rest)
  | fuel + 1, text => do
    let (item, text) ← readItem text
    let (items, rest) ← readItems fuel text
    some (item :: items, rest)

/-- What is written for an item is read back. It starts with no sign that has a meaning behind an
opening bracket. -/
theorem readItem_text (item : Option Char) (rest : List Char) :
    ∃ first more, itemText item = first :: more ∧ first ∉ [']', '^'] ∧
      readItem (first :: more ++ rest) = some (item, rest) := by
  cases item with
  | none => exact ⟨'-', [], rfl, by decide, rfl⟩
  | some c =>
    obtain ⟨first, more, htext, hfirst⟩ := renderChar_eq_cons setSpecials c
    have hother (signs : List Char) (hslash : '\\' ∉ signs) (hsigns : signs ⊆ setSpecials) :
        first ∉ signs := by
      rcases hfirst with rfl | hc
      · exact hslash
      · exact fun hmem => hc (hsigns hmem)
    refine ⟨first, more, htext, hother _ (by decide) (by decide), ?_⟩
    have hread := readChar_renderChar special_setSpecials c rest
    rw [htext] at hread
    rw [List.cons_append] at hread ⊢
    rw [readItem, hread]
    · rfl
    · rintro _ ⟨⟩
      exact hother ['-'] (by decide) (by decide) (by decide)

theorem readItems_text {fuel : Nat} (items : Items) (rest : List Char) (h : items.length < fuel) :
    readItems fuel (items.text ++ ']' :: rest) = some (items, rest) := by
  induction items generalizing fuel with
  | nil =>
    cases fuel with
    | zero => exact absurd h (Nat.not_lt_zero _)
    | succ fuel => rfl
  | cons item items ih =>
    cases fuel with
    | zero => exact absurd h (Nat.not_lt_zero _)
    | succ fuel =>
      obtain ⟨first, more, htext, hfirst, hread⟩ :=
        readItem_text item (Items.text items ++ ']' :: rest)
      rw [Items.text_cons, htext, List.append_assoc]
      rw [List.cons_append] at hread ⊢
      rw [readItems, hread]
      · simp only [Option.bind_eq_bind, Option.bind_some]
        rw [ih (Nat.lt_of_succ_lt_succ h)]
        rfl
      · rintro _ ⟨⟩
        exact hfirst (by decide)

/-- The text of a set with members starts with one of them. -/
theorem text_setItems_eq_cons {s : CharSet} (h : s.isEmpty = false) :
    ∃ first more, (setItems s).text = first :: more ∧ first ∉ [']', '^'] := by
  cases hitems : setItems s with
  | nil =>
    have hempty : (∅ : CharSet) = s := by
      rw [← set_setItems s, hitems]
      rfl
    exact absurd (hempty ▸ h) (by decide)
  | cons item items =>
    obtain ⟨first, more, htext, hfirst, -⟩ := readItem_text item []
    exact ⟨first, more ++ Items.text items, by rw [Items.text_cons, htext]; rfl, hfirst⟩

theorem length_le_text (items : Items) : items.length ≤ items.text.length := by
  induction items with
  | nil => exact Nat.zero_le _
  | cons item items ih =>
    obtain ⟨first, more, htext, -⟩ := readItem_text item []
    rw [Items.text_cons, htext]
    simp only [List.length_cons, List.length_append]
    omega

end MarkedRegex.Writing
