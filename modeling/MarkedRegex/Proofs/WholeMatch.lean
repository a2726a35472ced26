-- The law of whole matches: stepping through a text and reading what is held
-- at the end is the reference parse of the tree, whatever the memory gave back
-- on the way.
import MarkedRegex.Pattern.Matching
import MarkedRegex.Proofs.Assurance
import MarkedRegex.Proofs.Residual.Meaning

namespace MarkedRegex

/-! ## Steps and parses -/

/-- A pattern that means a tree parses as the tree does. -/
theorem Pattern.parse_of_meaning {p : Pattern} {t : Tree} (h : p.meaning = t.meaning) :
    p.parse = t.parse := by
  have hp : p.tree.meaning = t.meaning := h
  rw [parse, Tree.parse_eq_comap_meaning, Tree.parse_eq_comap_meaning, hp]

theorem Pattern.captured_eq_parse (p : Pattern) : p.captured = p.parse [] := by
  rw [captured_eq_meaning, parse_eq_meaning]
  rfl

/-- What is left after a character parses the rest as the pattern does the whole. -/
theorem Residual.parse {p r : Pattern} {c : Char} (h : Residual p c r) (s : List Char) :
    r.parse s = p.parse (c :: s) := by
  rw [Pattern.parse_eq_meaning, h.meaning, Pattern.parse_eq_meaning]
  rfl

/-! ## Runs -/

/-- A run over a text gives its parse, whatever takes the steps. -/
theorem runWhole_ensures {m : Type → Type} [Monad m] {A : Assurance m}
    {step : Pattern → Char → m Pattern} (hstep : A.Steps step) (p : Pattern) (s : List Char) :
    A.Ensures (runWhole step p s) (· = p.parse s) := by
  induction s generalizing p with
  | nil => exact A.pure p.captured_eq_parse
  | cons c s ih =>
    rw [runWhole]
    split
    · next hf =>
      obtain rfl := Pattern.isFail_iff.mp hf
      exact A.pure rfl
    · refine A.bind (hstep p c) fun r hr => ?_
      rw [← hr.parse s]
      exact ih r

/-- What work ensures, it ensures with a memory of its own. -/
theorem Pattern.runFresh_ensures {α : Type} {act : Derive α} {good : α → Prop}
    (h : Derive.assurance.Ensures act good) (p : Pattern) : good (p.runFresh act) :=
  (h _ p.serialBound (Memo.sound_ofCapacity _)).1

theorem Pattern.matchWhole_eq_parse (p : Pattern) (s : List Char) : p.matchWhole s = p.parse s := by
  have h := runWhole_ensures derive_steps p s
  exact p.runFresh_ensures h

/-! ## Constructors -/

section

variable {p q r : Pattern}

theorem Sequenced.parse (h : Sequenced p q r) : r.parse = p.parse.sequence q.parse :=
  Pattern.parse_of_meaning (t := .sequence p.tree q.tree) h.meaning

theorem Alternated.parse (h : Alternated p q r) : r.parse = p.parse.alternation q.parse :=
  Pattern.parse_of_meaning (t := .alternation p.tree q.tree) h.meaning

theorem Starred.parse (h : Starred p r) : r.parse = p.parse.star :=
  Pattern.parse_of_meaning (t := .star p.tree) h.meaning

theorem Marked.parse {name : String} {buffer : MarkBuffer} (h : Marked name buffer p r) :
    r.parse = p.parse.mark name fun s => buffer.text ++ s :=
  Pattern.parse_of_meaning (t := .mark name buffer p.tree) h.meaning

end

/-! ## The law -/

/-- A whole match captures what the reference parse of the tree does. A sequence captures at the
first split that both parts match, the longest left part first; an alternation takes its left
branch if it can; a star goes through nonempty rounds, the longest first round first; and a mark
adds the text it stands around. -/
theorem a_whole_match_is_the_reference_parse :
    (∀ (p : Pattern) (s : List Char), p.matchWhole s = p.tree.parse s) ∧
    (∀ (p q : Pattern) (n : Nat) (s : List Char),
      ((Build.sequence p q).run n).1.matchWhole s =
        (splits s).findSome? fun (u, v) => Captures.both (p.matchWhole u) (q.matchWhole v)) ∧
    (∀ (p q : Pattern) (n : Nat) (s : List Char),
      ((Build.alternation p q).run n).1.matchWhole s =
        Captures.first (p.matchWhole s) (q.matchWhole s)) ∧
    (∀ (p : Pattern) (n : Nat), let r := ((Build.star p).run n).1
      r.matchWhole [] = some ∅ ∧
      ∀ (c : Char) (s : List Char), r.matchWhole (c :: s) =
        (splits s).findSome? fun (u, v) =>
          Captures.both (p.matchWhole (c :: u)) (r.matchWhole v)) ∧
    (∀ (name : String) (p : Pattern) (n : Nat) (s : List Char),
      ((Build.mark name p).run n).1.matchWhole s =
        Captures.both (some (Captures.single name (String.ofList s))) (p.matchWhole s)) := by
  simp only [Pattern.matchWhole_eq_parse]
  refine ⟨fun p s => rfl, fun p q n s => ?_, fun p q n s => ?_, fun p n => ⟨?_, fun c s => ?_⟩,
    fun name p n s => ?_⟩
  · rw [(Build.sequenced_of_gives (Build.gives_run _ n)).parse]
    rfl
  · rw [(Build.alternated_of_gives (Build.gives_run _ n)).parse]
    rfl
  · rw [(Build.starred_of_gives (Build.gives_run _ n)).parse, Parse.star_nil]
  · rw [(Build.starred_of_gives (Build.gives_run _ n)).parse, Parse.star_cons]
    rfl
  · have h : Marked name ∅ p ((Build.mark name p).run n).1 := Build.marked_of_gives ⟨n, rfl⟩
    rw [h.parse]
    rfl

end MarkedRegex
