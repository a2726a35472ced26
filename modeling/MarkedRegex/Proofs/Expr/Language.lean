-- The language of an expression: concatenation, union, Kleene star and single
-- characters, where marks are looked through. A built pattern matches the
-- texts of the language and no others.
import MarkedRegex.Proofs.Expr.Tree
import MarkedRegex.Proofs.WholeMatch

namespace MarkedRegex

open Computability

/-! ## Languages of expressions -/

/-- The texts of one character of a kind. -/
def oneCharacter (kind : Char → Prop) : Language Char := {s | ∃ c, kind c ∧ s = [c]}

namespace Expr

/-- The language of an expression. -/
def language (env : Bindings (Language Char)) : Expr → Language Char
  | .empty => 1
  | .fail => 0
  | .any => oneCharacter fun _ => True
  | .char c => {[c]}
  | .text cs => {cs}
  | .oneOf cs => oneCharacter (· ∈ cs)
  | .noneOf cs => oneCharacter (· ∉ cs)
  | .range lo hi => oneCharacter fun c => lo ≤ c ∧ c ≤ hi
  | .sequence p q => p.language env * q.language env
  | .alternation p q => p.language env + q.language env
  | .star p => (p.language env)∗
  | .optional p => 1 + p.language env
  | .oneOrMore p => p.language env * (p.language env)∗
  | .mark _ p => p.language env
  | .derivatives p cs => {s | cs ++ s ∈ p.language env}
  | .settle p => {s | s ∈ p.language env ∧ s = []}
  | .shared i => env.shared.getD i 0
  | .current => env.current
  | .grow times start body =>
    (fun l => body.language { env with current := l })^[times] (start.language env)

/-- The languages of expressions in order; each can refer to those before it. -/
def languages (env : Bindings (Language Char)) : List Expr → Bindings (Language Char)
  | [] => env
  | e :: es => languages { env with shared := env.shared.push (e.language env) } es

/-- The language of an expression behind definitions. -/
def languageBehind (defs : List Expr) (e : Expr) : Language Char :=
  e.language (languages { shared := #[], current := 0 } defs)

end Expr

/-! ## Languages of trees -/

theorem Parse.accepts_one {f : Char → Bool} {kind : Char → Prop} (h : ∀ c, f c = true ↔ kind c) :
    (Parse.one f).accepts = oneCharacter kind := by
  apply Language.ext
  intro s
  rw [mem_accepts_one]
  simp only [h]
  rfl

namespace Tree

/-- The texts in which a tree captures something. -/
abbrev language (t : Tree) : Language Char := t.parse.accepts

theorem language_char (c : Char) : (charSet (CharSet.singleton c)).language = {[c]} := by
  have hone : (charSet (CharSet.singleton c)).language = oneCharacter (· = c) :=
    Parse.accepts_one fun d => by simp
  rw [hone]
  apply Language.ext
  intro s
  constructor
  · rintro ⟨d, rfl, rfl⟩
    rfl
  · intro hs
    exact ⟨c, rfl, hs⟩

theorem language_text (cs : List Char) : (text cs).language = {cs} := by
  induction cs with
  | nil => exact Parse.accepts_empty
  | cons c cs ih =>
    have hmul : (text (c :: cs)).language = {[c]} * {cs} := by
      rw [← language_char, ← ih]
      exact Parse.accepts_sequence _ _
    rw [hmul]
    apply Language.ext
    intro s
    constructor
    · rintro ⟨u, rfl, v, rfl, rfl⟩
      rfl
    · intro hs
      exact ⟨[c], rfl, cs, rfl, hs.symm⟩

theorem language_derivatives (t : Tree) (cs : List Char) :
    (t.derivatives cs).language = {s | cs ++ s ∈ t.language} := by
  apply Language.ext
  intro s
  have hparse : (t.derivatives cs).parse s = t.parse (cs ++ s) := by
    rw [parse_eq_comap_meaning, parse_eq_comap_meaning]
    unfold Parse.comap
    rw [meaning_derivatives, List.map_append]
  rw [Parse.mem_accepts, hparse]
  rfl

theorem language_settle (t : Tree) : t.settle.language = {s | s ∈ t.language ∧ s = []} := by
  apply Language.ext
  intro s
  have hparse : t.settle.parse s = t.parse.settled s := by
    rw [parse_eq_comap_meaning, parse_eq_comap_meaning, meaning_settle]
    cases s with
    | nil => rfl
    | cons c s => rfl
  rw [Parse.mem_accepts, hparse]
  cases s with
  | nil => exact (and_iff_left rfl).symm
  | cons c s =>
    constructor
    · intro h
      cases h
    · rintro ⟨_, h⟩
      cases h

end Tree

/-! ## The tree of an expression has its language -/

/-- Bindings read through a function. -/
def Bindings.map {α β : Type} (f : α → β) (env : Bindings α) : Bindings β where
  shared := env.shared.map f
  current := f env.current

namespace Expr

theorem language_tree (e : Expr) (env : Bindings Tree) :
    (e.tree env).language = e.language (env.map Tree.language) := by
  induction e generalizing env with
  | empty => exact Parse.accepts_empty
  | fail => exact Parse.accepts_fail
  | any => exact Parse.accepts_one fun c => by simp
  | char c => exact Tree.language_char c
  | text cs => exact Tree.language_text cs
  | oneOf cs => exact Parse.accepts_one fun c => by simp
  | noneOf cs => exact Parse.accepts_one fun c => by simp
  | range lo hi =>
    apply Parse.accepts_one
    intro c
    simp [Char.le_def, UInt32.le_iff_toNat_le]
  | sequence p q ihp ihq =>
    unfold tree language
    rw [← ihp, ← ihq]
    exact Parse.accepts_sequence _ _
  | alternation p q ihp ihq =>
    unfold tree language
    rw [← ihp, ← ihq]
    exact Parse.accepts_alternation _ _
  | star p ih =>
    unfold tree language
    rw [← ih]
    exact Parse.accepts_star _
  | optional p ih =>
    unfold tree language
    rw [← ih, ← Parse.accepts_empty]
    exact Parse.accepts_alternation _ _
  | oneOrMore p ih =>
    unfold tree language
    rw [← ih, ← Parse.accepts_star]
    exact Parse.accepts_sequence _ _
  | mark name p ih =>
    unfold tree language
    rw [← ih]
    exact Parse.accepts_mark _ _ _
  | derivatives p cs ih =>
    unfold tree language
    rw [← ih]
    exact Tree.language_derivatives _ _
  | settle p ih =>
    unfold tree language
    rw [← ih]
    exact Tree.language_settle _
  | shared i =>
    unfold tree language Bindings.map
    rw [Array.getD_eq_getD_getElem?, Array.getD_eq_getD_getElem?, Array.getElem?_map]
    cases env.shared[i]? with
    | none => exact Parse.accepts_fail
    | some t => rfl
  | current => rfl
  | grow times start body ihs ihb =>
    have hstep : Function.Semiconj Tree.language (fun t => body.tree { env with current := t })
        (fun l => body.language { env.map Tree.language with current := l }) :=
      fun t => ihb { env with current := t }
    unfold tree language
    rw [← ihs]
    exact hstep.iterate_right times _

theorem languages_map (es : List Expr) (env : Bindings Tree) :
    languages (env.map Tree.language) es = (trees env es).map Tree.language := by
  induction es generalizing env with
  | nil => rfl
  | cons e es ih =>
    unfold trees languages
    rw [← ih, ← language_tree]
    simp [Bindings.map]

theorem language_treeBehind (defs : List Expr) (e : Expr) :
    (e.treeBehind defs).language = e.languageBehind defs := by
  have hstart : Bindings.map Tree.language { shared := #[], current := .fail } =
      { shared := #[], current := 0 } := by
    simp [Bindings.map, Tree.language, Tree.parse]
  unfold treeBehind languageBehind
  rw [language_tree, ← languages_map, hstart]

end Expr

/-! ## The law -/

/-- A built pattern matches a text exactly if the text is in the language of the expression. -/
theorem a_built_pattern_matches_the_language_of_its_expression (defs : List Expr) (e : Expr)
    (s : List Char) (n : Nat) :
    (((e.buildBehind defs).run n).1.matchWhole s).isSome ↔ s ∈ e.languageBehind defs := by
  have hbuilt := Expr.meaning_of_buildBehind (Build.gives_run (e.buildBehind defs) n)
  rw [Pattern.matchWhole_eq_parse, Pattern.parse_of_meaning hbuilt, ← Expr.language_treeBehind,
    Parse.mem_accepts]

end MarkedRegex
