-- The text of a pattern as tokens: signs, single characters and sets, and what
-- opens a mark. Each token is read back from the text that starts with it, so
-- two patterns with one text have the same tokens.
import MarkedRegex.Proofs.Render.Characters
import MarkedRegex.Proofs.Captures.Placed
import MarkedRegex.Proofs.Reduced

namespace MarkedRegex

open Pattern (renderChar renderSet specials)

namespace Writing

/-! ## Tokens -/

/-- A tree that is one token: it takes in one character, or nothing at all. -/
inductive Leaf where
  | any
  | fail
  | charSet (set : CharSet)
  | negatedSet (set : CharSet)

def Leaf.tree : Leaf → Tree
  | .any => .any
  | .fail => .fail
  | .charSet s => .charSet s
  | .negatedSet s => .negatedSet s

inductive Token where
  | opened
  | closed
  | bar
  | optional
  | star
  | leaf (form : Leaf)
  | mark (name : String)

def Leaf.spell : Leaf → List Char
  | .any => ['.']
  | .fail => ['[', ']']
  | .charSet s =>
    match s.single? with
    | some c => renderChar specials c
    | none => renderSet ['['] s
  | .negatedSet s => renderSet ['[', '^'] s

def Token.spell : Token → List Char
  | .opened => ['(']
  | .closed => [')']
  | .bar => ['|']
  | .optional => ['?']
  | .star => ['*']
  | .leaf form => form.spell
  | .mark name => '(' :: '?' :: '<' :: name.toList ++ ['>']

def spelled (tokens : List Token) : List Char := tokens.flatMap Token.spell

theorem spelled_append (ts us : List Token) : spelled (ts ++ us) = spelled ts ++ spelled us :=
  List.flatMap_append

theorem spelled_cons (t : Token) (ts : List Token) : spelled (t :: ts) = t.spell ++ spelled ts :=
  List.flatMap_cons

theorem spelled_singleton (t : Token) : spelled [t] = t.spell := List.flatMap_singleton _ _

/-- Tokens between parentheses, where these are needed. -/
def enclosed (wrap : Bool) (body : List Token) : List Token :=
  if wrap then .opened :: body ++ [.closed] else body

end Writing

open Writing

/-- The tokens of a tree at a place. -/
def Tree.tokens : Tree → Pattern.Place → List Token
  | .empty, _ => [.opened, .closed]
  | .fail, _ => [.leaf .fail]
  | .any, _ => [.leaf .any]
  | .charSet s, _ => [.leaf (.charSet s)]
  | .negatedSet s, _ => [.leaf (.negatedSet s)]
  | .alternation t u, place =>
    if t = .empty then enclosed (place = .repeated) (u.tokens .repeated ++ [.optional])
    else enclosed (place ≠ .branch) (t.tokens .branch ++ .bar :: u.tokens .branch)
  | .sequence t u, place => enclosed (place = .repeated) (t.tokens .part ++ u.tokens .part)
  | .star t, place => enclosed (place = .repeated) (t.tokens .repeated ++ [.star])
  | .mark name _ t, _ => .mark name :: t.tokens .branch ++ [.closed]

/-! ## The text of a pattern -/

namespace Writing

theorem spelled_enclosed (wrap : Bool) (body : List Token) (rest : List Char) :
    spelled (enclosed wrap body) ++ rest =
      Pattern.inParens wrap (fun rest => spelled body ++ rest) rest := by
  cases wrap with
  | false => rfl
  | true =>
    change spelled (.opened :: body ++ [.closed]) ++ rest = '(' :: (spelled body ++ ')' :: rest)
    rw [List.cons_append, spelled_cons, spelled_append, spelled_singleton]
    simp only [Token.spell, List.cons_append, List.nil_append, List.append_assoc]

end Writing

namespace Pattern

variable {p q : Pattern} {place : Place} {rest : List Char}

theorem tree_eq_empty_iff : p.tree = .empty ↔ p = .empty := by
  cases p <;> simp [tree]

/-- An alternation is written with bars, unless its left branch is the empty pattern. -/
theorem renderOnto_alternation (k : Nat) (hp : p ≠ .empty) :
    (Pattern.alternation k p q).renderOnto place rest =
      inParens (place ≠ .branch)
        (fun rest => p.renderOnto .branch ('|' :: q.renderOnto .branch rest)) rest := by
  cases p with
  | empty => exact absurd rfl hp
  | _ => rfl

/-- The text of a pattern spells its tokens. -/
theorem renderOnto_eq_spelled (p : Pattern) (place : Place) (rest : List Char) :
    p.renderOnto place rest = spelled (p.tree.tokens place) ++ rest := by
  induction p generalizing place rest with
  | empty | fail | any => rfl
  | charSet k s =>
    rw [tree, Tree.tokens, spelled_singleton]
    simp only [renderOnto, Token.spell, Leaf.spell]
    split <;> simp_all
  | negatedSet k s =>
    rw [tree, Tree.tokens, spelled_singleton]
    rfl
  | sequence k p q ihp ihq =>
    rw [tree, Tree.tokens, spelled_enclosed]
    simp only [renderOnto, ihp, ihq, spelled_append, List.append_assoc]
  | alternation k p q ihp ihq =>
    rw [tree, Tree.tokens]
    by_cases hp : p = .empty
    · rw [if_pos (tree_eq_empty_iff.mpr hp), spelled_enclosed, hp]
      simp only [renderOnto, ihq, spelled_append, spelled_singleton, Token.spell,
        List.append_assoc, List.singleton_append]
    · rw [if_neg (mt tree_eq_empty_iff.mp hp), spelled_enclosed, renderOnto_alternation k hp]
      simp only [ihp, ihq, spelled_append, spelled_cons, Token.spell, List.append_assoc,
        List.cons_append, List.nil_append]
  | star k p ih =>
    rw [tree, Tree.tokens, spelled_enclosed]
    simp only [renderOnto, ih, spelled_append, spelled_singleton, Token.spell, List.append_assoc,
      List.singleton_append]
  | mark k name buffer p ih =>
    rw [tree, Tree.tokens, List.cons_append, spelled_cons, spelled_append, spelled_singleton]
    simp only [renderOnto, ih, Token.spell, List.append_assoc, List.cons_append, List.nil_append]

end Pattern

/-! ## Reading a token -/

namespace Writing

/-- A set behind its opening bracket. -/
def readSet (text : List Char) : Option (CharSet × List Char) :=
  (readItems (text.length + 1) text).map fun (items, rest) => (items.set, rest)

/-- The first token of a text. -/
def Token.read : List Char → Option (Token × List Char)
  | [] => none
  | c :: text =>
    match c with
    | '(' =>
      match text with
      | '?' :: '<' :: text =>
        let (name, rest) := cutAt '>' text
        some (.mark (String.ofList name), rest)
      | _ => some (.opened, text)
    | ')' => some (.closed, text)
    | '|' => some (.bar, text)
    | '?' => some (.optional, text)
    | '*' => some (.star, text)
    | '.' => some (.leaf .any, text)
    | '[' =>
      match text with
      | ']' :: rest => some (.leaf .fail, rest)
      | '^' :: text => (readSet text).map fun (s, rest) => (.leaf (.negatedSet s), rest)
      | _ => (readSet text).map fun (s, rest) => (.leaf (.charSet s), rest)
    | _ => (readChar (c :: text)).map fun (c, rest) => (.leaf (.charSet (.singleton c)), rest)

theorem readSet_renderSet (s : CharSet) (rest : List Char) :
    readSet ((setItems s).text ++ ']' :: rest) = some (s, rest) := by
  have hfuel : (setItems s).length < ((setItems s).text ++ ']' :: rest).length + 1 := by
    have hlength := length_le_text (setItems s)
    rw [List.length_append]
    omega
  rw [readSet, readItems_text _ _ hfuel]
  simp only [Option.map_some, set_setItems]

/-- A text that starts with no sign of its own starts with a character. -/
theorem read_char {c : Char} (hc : c = '\\' ∨ c ∉ specials) (text : List Char) :
    Token.read (c :: text) =
      (readChar (c :: text)).map fun (c, rest) => (.leaf (.charSet (.singleton c)), rest) := by
  rw [Token.read]
  all_goals
    rintro rfl
    exact absurd hc (by decide)

theorem read_set {c : Char} (hc : c ∉ [']', '^']) (text : List Char) :
    Token.read ('[' :: c :: text) =
      (readSet (c :: text)).map fun (s, rest) => (.leaf (.charSet s), rest) := by
  rw [Token.read]
  all_goals
    rintro _ ⟨⟩
    exact absurd hc (by decide)

/-- A token that what is written tells: a set has members, and a name ends where it seems to. -/
def Token.Legible : Token → Prop
  | .leaf (.charSet s) => s.isEmpty = false
  | .mark name => '>' ∉ name.toList
  | _ => True

theorem read_charSet {s : CharSet} (hs : s.isEmpty = false) (rest : List Char) :
    Token.read (Leaf.spell (.charSet s) ++ rest) = some (.leaf (.charSet s), rest) := by
  rw [Leaf.spell]
  split
  · next c hc =>
    obtain ⟨first, more, htext, hfirst⟩ := renderChar_eq_cons specials c
    have hread := readChar_renderChar special_specials c rest
    rw [htext, List.cons_append] at hread ⊢
    rw [read_char hfirst, hread, CharSet.eq_singleton_of_single? hc]
    rfl
  · obtain ⟨first, more, htext, hfirst⟩ := text_setItems_eq_cons hs
    have hread := readSet_renderSet s rest
    rw [htext, List.cons_append] at hread
    rw [renderSet_eq, htext]
    simp only [List.append_assoc, List.cons_append, List.nil_append]
    rw [read_set hfirst, hread]
    rfl

theorem read_negatedSet (s : CharSet) (rest : List Char) :
    Token.read (Leaf.spell (.negatedSet s) ++ rest) = some (.leaf (.negatedSet s), rest) := by
  rw [Leaf.spell, renderSet_eq]
  simp only [List.append_assoc, List.cons_append, List.nil_append]
  rw [Token.read, readSet_renderSet]
  rfl

theorem read_mark {name : String} (h : '>' ∉ name.toList) (rest : List Char) :
    Token.read (Token.spell (.mark name) ++ rest) = some (.mark name, rest) := by
  simp only [Token.spell, List.append_assoc, List.cons_append, List.nil_append]
  rw [Token.read, cutAt_append h]
  simp

theorem read_opened {rest : List Char} (h : rest.head? ≠ some '?') :
    Token.read ('(' :: rest) = some (.opened, rest) := by
  rw [Token.read]
  rintro text rfl
  exact h rfl

/-! ## Reading a text -/

/-- The tokens that a text is read as, one behind the other. -/
inductive ReadAs : List Char → List Token → Prop
  | nil : ReadAs [] []
  | cons {text rest : List Char} {t : Token} {ts : List Token} :
      Token.read text = some (t, rest) → ReadAs rest ts → ReadAs text (t :: ts)

/-- A text is read in one way, for no token is read at its end. -/
theorem ReadAs.unique {text : List Char} {ts us : List Token} (h : ReadAs text ts)
    (h' : ReadAs text us) : ts = us := by
  induction h generalizing us with
  | nil =>
    cases h' with
    | nil => rfl
    | cons hread _ => cases hread
  | cons hread _ ih =>
    cases h' with
    | nil => cases hread
    | cons hread' hrest =>
      obtain ⟨rfl, rfl⟩ := Prod.mk.inj (Option.some.inj (hread.symm.trans hread'))
      rw [ih hrest]

/-- Tokens that are read back where they are spelled, whatever text is behind them. -/
def Readable (ts : List Token) : Prop :=
  ∀ rest us, ReadAs rest us → ReadAs (spelled ts ++ rest) (ts ++ us)

/-- Tokens of which the first is no question mark. -/
def Begun (ts : List Token) : Prop := ∃ first more, ts = first :: more ∧ first ≠ .optional

theorem Begun.append {ts : List Token} (h : Begun ts) (us : List Token) : Begun (ts ++ us) := by
  obtain ⟨first, more, rfl, hfirst⟩ := h
  exact ⟨first, more ++ us, rfl, hfirst⟩

theorem Begun.enclosed {body : List Token} (h : Begun body) (wrap : Bool) :
    Begun (enclosed wrap body) := by
  cases wrap with
  | false => exact h
  | true => exact ⟨.opened, body ++ [.closed], rfl, by simp⟩

/-- A question mark that is a character stands behind a backslash. -/
theorem Begun.head_spelled {ts : List Token} (h : Begun ts) :
    ∃ first more, spelled ts = first :: more ∧ first ≠ '?' := by
  obtain ⟨t, more, rfl, ht⟩ := h
  have hspell : ∃ first more, t.spell = first :: more ∧ first ≠ '?' := by
    cases t with
    | optional => exact absurd rfl ht
    | opened | closed | bar | star | mark => exact ⟨_, _, rfl, by decide⟩
    | leaf form =>
      cases form with
      | any | fail | negatedSet => exact ⟨_, _, rfl, by decide⟩
      | charSet s =>
        rw [Token.spell, Leaf.spell]
        split
        · next c _ =>
          obtain ⟨first, more, htext, hfirst⟩ := renderChar_eq_cons specials c
          refine ⟨first, more, htext, ?_⟩
          rintro rfl
          exact absurd hfirst (by decide)
        · exact ⟨_, _, rfl, by decide⟩
  obtain ⟨first, chars, htext, hfirst⟩ := hspell
  exact ⟨first, chars ++ spelled more, by rw [spelled_cons, htext]; rfl, hfirst⟩

namespace Readable

variable {ts us : List Token}

theorem append (ht : Readable ts) (hu : Readable us) : Readable (ts ++ us) := by
  intro rest vs h
  rw [spelled_append, List.append_assoc, List.append_assoc]
  exact ht _ _ (hu _ _ h)

theorem token (t : Token) (ht : t.Legible) (hopened : t ≠ .opened) : Readable [t] := by
  intro rest us h
  rw [spelled_singleton]
  refine .cons ?_ h
  cases t with
  | opened => exact absurd rfl hopened
  | closed | bar | optional | star => rfl
  | mark name => exact read_mark ht rest
  | leaf form =>
    cases form with
    | any | fail => rfl
    | charSet s => exact read_charSet ht rest
    | negatedSet s => exact read_negatedSet s rest

/-- No mark seems to open where a parenthesis stands in front of tokens that begin well. -/
theorem opened (h : Readable ts) (hbegun : Begun ts) : Readable (.opened :: ts) := by
  intro rest us hrest
  obtain ⟨first, more, htext, hfirst⟩ := hbegun.head_spelled
  rw [spelled_cons, List.append_assoc]
  refine .cons (read_opened ?_) (h _ _ hrest)
  rw [htext]
  simpa using hfirst

theorem enclosed (h : Readable ts) (hbegun : Begun ts) (wrap : Bool) :
    Readable (enclosed wrap ts) := by
  cases wrap with
  | false => exact h
  | true => exact (h.append (token .closed trivial nofun)).opened (hbegun.append _)

end Readable

end Writing

/-! ## The tokens of a tree -/

namespace Tree

/-- Every token of the tree is legible. -/
def Legible : Tree → Prop
  | .empty | .fail | .any | .negatedSet _ => True
  | .charSet s => s.isEmpty = false
  | .sequence t u | .alternation t u => t.Legible ∧ u.Legible
  | .star t => t.Legible
  | .mark name _ t => '>' ∉ name.toList ∧ t.Legible

theorem begun_tokens (t : Tree) (place : Pattern.Place) : Begun (t.tokens place) := by
  induction t generalizing place with
  | empty | fail | any | charSet | negatedSet | mark => exact ⟨_, _, rfl, by simp⟩
  | sequence t u iht ihu => exact ((iht _).append _).enclosed _
  | alternation t u iht ihu =>
    rw [tokens]
    split
    · exact ((ihu _).append _).enclosed _
    · exact ((iht _).append _).enclosed _
  | star t ih => exact ((ih _).append _).enclosed _

theorem readable_tokens {t : Tree} (h : t.Legible) (place : Pattern.Place) :
    Readable (t.tokens place) := by
  induction t generalizing place with
  | empty =>
    have hclosed : Readable [.closed] := .token .closed trivial nofun
    exact hclosed.opened ⟨_, _, rfl, nofun⟩
  | fail | any | negatedSet => exact .token (.leaf _) trivial nofun
  | charSet s => exact .token (.leaf (.charSet s)) h nofun
  | sequence t u iht ihu =>
    exact ((iht h.1 _).append (ihu h.2 _)).enclosed ((begun_tokens t _).append _) _
  | alternation t u iht ihu =>
    rw [tokens]
    split
    · have hsign : Readable [.optional] := .token .optional trivial nofun
      exact ((ihu h.2 _).append hsign).enclosed ((begun_tokens u _).append _) _
    · have hsign : Readable [.bar] := .token .bar trivial nofun
      exact ((iht h.1 _).append (hsign.append (ihu h.2 _))).enclosed ((begun_tokens t _).append _) _
  | star t ih =>
    have hsign : Readable [.star] := .token .star trivial nofun
    exact ((ih h _).append hsign).enclosed ((begun_tokens t _).append _) _
  | mark name buffer t ih =>
    have hmark : Readable [.mark name] := .token (.mark name) h.1 nofun
    exact hmark.append ((ih h.2 _).append (.token .closed trivial nofun))

/-- Legible trees that are spelled alike have the same tokens. -/
theorem tokens_eq_of_spelled {t u : Tree} (ht : t.Legible) (hu : u.Legible) {place : Pattern.Place}
    (h : spelled (t.tokens place) = spelled (u.tokens place)) :
    t.tokens place = u.tokens place := by
  have hread := readable_tokens ht place [] [] .nil
  have hread' := readable_tokens hu place [] [] .nil
  rw [List.append_nil, List.append_nil] at hread hread'
  exact hread.unique (h ▸ hread')

end Tree

/-- In a reduced pattern every set has members, so the names of its marks decide. -/
theorem Pattern.Reduced.legible {p : Pattern} (hp : p.Reduced)
    (hmarks : p.tree.EveryMark fun name _ => '>' ∉ name.toList) : p.tree.Legible := by
  induction hp with
  | empty | fail | any | negatedSet => trivial
  | charSet k hs => exact hs
  | sequence k _ _ _ _ _ _ ihp ihq => exact ⟨ihp hmarks.1, ihq hmarks.2⟩
  | alternation k _ _ _ _ _ _ ihp ihq => exact ⟨ihp hmarks.1, ihq hmarks.2⟩
  | star k _ _ _ _ _ ih => exact ih hmarks
  | mark k name buffer _ _ ih => exact ⟨hmarks.1, ih hmarks.2⟩

end MarkedRegex
