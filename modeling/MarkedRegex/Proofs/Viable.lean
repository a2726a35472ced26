-- Which texts a pattern can still go on from. A prefix is viable when some
-- text makes it a member of the language. What matches over symbols can be
-- filled in with characters, unless some negated set shuts all of them out.
import MarkedRegex.Proofs.Expr.Language

namespace MarkedRegex

open Computability
open MarkedRegex.Tree (Symbol)

/-! ## Viable prefixes -/

section

variable {α : Type}

/-- Some text makes `u` a member of the language. -/
def Viable (l : Language α) (u : List α) : Prop := ∃ t, u ++ t ∈ l

/-- What a viable text begins with is viable. -/
theorem Viable.of_append {l : Language α} {u v : List α} (h : Viable l (u ++ v)) : Viable l u := by
  obtain ⟨t, ht⟩ := h
  exact ⟨v ++ t, by rwa [← List.append_assoc]⟩

/-- `u` is the longest viable prefix of `s`; it is empty where no prefix is viable. -/
structure LongestViable (l : Language α) (s u : List α) : Prop where
  isPrefix : u <+: s
  viable : Viable l u ∨ u = [] ∧ ∀ w, w <+: s → ¬Viable l w
  longest : ∀ w, w <+: s → Viable l w → w.length ≤ u.length

end

/-! ## Languages of patterns -/

namespace Pattern

/-- The language of a pattern; marks are looked through. -/
def language : Pattern → Language Char
  | .empty => 1
  | .fail => 0
  | .any => oneCharacter fun _ => True
  | .charSet _ s => oneCharacter (· ∈ s)
  | .negatedSet _ s => oneCharacter (· ∉ s)
  | .sequence _ p q => p.language * q.language
  | .alternation _ p q => p.language + q.language
  | .star _ p => p.language∗
  | .mark _ _ _ p => p.language

/-- What the reference parse accepts is the language. -/
theorem accepts_parse (p : Pattern) : p.parse.accepts = p.language := by
  induction p with
  | empty => exact Parse.accepts_empty
  | fail => exact Parse.accepts_fail
  | any => exact Parse.accepts_one fun c => by simp
  | charSet k s => exact Parse.accepts_one fun c => Iff.rfl
  | negatedSet k s => exact Parse.accepts_one fun c => by simp [CharSet.mem_iff]
  | sequence k p q ihp ihq =>
    unfold language
    rw [← ihp, ← ihq]
    exact Parse.accepts_sequence _ _
  | alternation k p q ihp ihq =>
    unfold language
    rw [← ihp, ← ihq]
    exact Parse.accepts_alternation _ _
  | star k p ih =>
    unfold language
    rw [← ih]
    exact Parse.accepts_star _
  | mark k name buffer p ih =>
    unfold language
    rw [← ih]
    exact Parse.accepts_mark _ _ _

theorem mem_language {p : Pattern} {s : List Char} : s ∈ p.language ↔ (p.parse s).isSome := by
  rw [← accepts_parse, Parse.mem_accepts]

/-- The sets of the nodes that stand for one character outside a set. -/
def negatedSets : Pattern → List CharSet
  | .empty | .fail | .any | .charSet _ _ => []
  | .negatedSet _ s => [s]
  | .sequence _ p q | .alternation _ p q => p.negatedSets ++ q.negatedSets
  | .star _ p | .mark _ _ _ p => p.negatedSets

end Pattern

/-! ## From symbols to characters -/

/-- A text has the characters of a text of symbols where those are characters. -/
abbrev Fills (w : List Symbol) (s : List Char) : Prop :=
  List.Forall₂ (fun x c => ∀ d, x = some d → c = d) w s

theorem Fills.append {w w' : List Symbol} {s s' : List Char} (h : Fills w s) (h' : Fills w' s') :
    Fills (w ++ w') (s ++ s') := List.rel_append h h'

/-- What fills a text of characters with symbols behind it goes on from those characters. -/
theorem Fills.exists_of_map_append {u : List Char} {w : List Symbol} {s : List Char}
    (h : Fills (u.map some ++ w) s) : ∃ t, u ++ t = s := by
  induction u generalizing s with
  | nil => exact ⟨s, rfl⟩
  | cons c u ih =>
    cases h with
    | cons hc h =>
      obtain ⟨t, rfl⟩ := ih h
      exact ⟨t, by rw [hc c rfl]; rfl⟩

/-- What can be filled in round by round can be filled in as a whole. -/
theorem exists_fills_kstar {l : Language Symbol} {l' : Language Char}
    (h : ∀ w ∈ l, ∃ s ∈ l', Fills w s) {w : List Symbol} (hw : w ∈ l∗) : ∃ s ∈ l'∗, Fills w s := by
  obtain ⟨rounds, rfl, hrounds⟩ := Language.mem_kstar.mp hw
  clear hw
  induction rounds with
  | nil => exact ⟨[], Language.nil_mem_kstar l', .nil⟩
  | cons u rounds ih =>
    obtain ⟨hu, hrest⟩ := List.forall_mem_cons.mp hrounds
    obtain ⟨s, hs, hus⟩ := h u hu
    obtain ⟨t, ht, hfills⟩ := ih hrest
    have hmul : s ++ t ∈ l' * l'∗ := Language.append_mem_mul hs ht
    exact ⟨s ++ t, (mul_kstar_le_kstar : l' * l'∗ ≤ l'∗) hmul, hus.append hfills⟩

namespace Pattern

/-- Where each negated set leaves a character out, a text of symbols that matches can be filled in
with characters so that it still matches. -/
theorem exists_fills {p : Pattern} (hopen : ∀ n ∈ p.negatedSets, ∃ c, c ∉ n) {w : List Symbol}
    (hw : w ∈ p.meaning.accepts) : ∃ s ∈ p.language, Fills w s := by
  induction p generalizing w with
  | empty =>
    rw [meaning_empty, Parse.accepts_empty] at hw
    obtain rfl : w = [] := hw
    exact ⟨[], rfl, .nil⟩
  | fail =>
    rw [meaning_fail, Parse.accepts_fail] at hw
    exact absurd hw (Language.notMem_zero w)
  | any =>
    obtain ⟨x, -, rfl⟩ := Parse.mem_accepts_one.mp hw
    exact ⟨[x.getD 'a'], ⟨_, trivial, rfl⟩, .cons (by simp +contextual) .nil⟩
  | charSet k s =>
    obtain ⟨x, hx, rfl⟩ := Parse.mem_accepts_one.mp hw
    cases x with
    | none => cases hx
    | some c => exact ⟨[c], ⟨c, hx, rfl⟩, .cons (by simp) .nil⟩
  | negatedSet k s =>
    obtain ⟨x, hx, rfl⟩ := Parse.mem_accepts_one.mp hw
    cases x with
    | none =>
      obtain ⟨c, hc⟩ := hopen s (by simp [negatedSets])
      exact ⟨[c], ⟨c, hc, rfl⟩, .cons (by simp) .nil⟩
    | some c =>
      have hc : c ∉ s := by simpa [Symbol.isIn, CharSet.mem_iff] using hx
      exact ⟨[c], ⟨c, hc, rfl⟩, .cons (by simp) .nil⟩
  | sequence k p q ihp ihq =>
    rw [negatedSets, List.forall_mem_append] at hopen
    rw [meaning_sequence, Parse.accepts_sequence, Language.mem_mul] at hw
    obtain ⟨u, hu, v, hv, rfl⟩ := hw
    obtain ⟨s, hs, hus⟩ := ihp hopen.1 hu
    obtain ⟨t, ht, hvt⟩ := ihq hopen.2 hv
    exact ⟨s ++ t, Language.append_mem_mul hs ht, hus.append hvt⟩
  | alternation k p q ihp ihq =>
    rw [negatedSets, List.forall_mem_append] at hopen
    rw [meaning_alternation, Parse.accepts_alternation] at hw
    rcases hw with hw | hw
    · obtain ⟨s, hs, hws⟩ := ihp hopen.1 hw
      exact ⟨s, Or.inl hs, hws⟩
    · obtain ⟨s, hs, hws⟩ := ihq hopen.2 hw
      exact ⟨s, Or.inr hs, hws⟩
  | star k p ih =>
    rw [meaning_star, Parse.accepts_star] at hw
    exact exists_fills_kstar (fun w => ih hopen) hw
  | mark k name buffer p ih =>
    rw [meaning_mark, Parse.accepts_mark] at hw
    exact ih hopen hw

/-- Where each negated set leaves a character out, symbols outside of every set make no text viable
that characters do not. -/
theorem viable_iff {p : Pattern} (hopen : ∀ n ∈ p.negatedSets, ∃ c, c ∉ n) {u : List Char} :
    Viable p.meaning.accepts (u.map some) ↔ Viable p.language u := by
  constructor
  · rintro ⟨w, hw⟩
    obtain ⟨s, hs, hfills⟩ := exists_fills hopen hw
    obtain ⟨t, rfl⟩ := hfills.exists_of_map_append
    exact ⟨t, hs⟩
  · rintro ⟨t, ht⟩
    refine ⟨t.map some, ?_⟩
    rw [← List.map_append, Parse.mem_accepts, ← parse_eq_meaning]
    exact mem_language.mp ht

end Pattern

end MarkedRegex
