-- The law of unrolling: to write the first round of a star out in front of it
-- does not show. The round in front competes with the first round of the star
-- itself, and may be empty, but what it captures then is never what is taken.
import MarkedRegex.Proofs.Alike

namespace MarkedRegex

/-! ## A round in front of its star -/

namespace Parse

variable {α : Type} (a : Parse α)

/-- In a text that is not empty, a round in front of its star captures what the star does by itself:
where the round would be empty, the star has failed on the same text before. -/
theorem sequence_star_cons (x : α) (s : List α) : a.sequence a.star (x :: s) = a.star (x :: s) := by
  rw [sequence_cons, star_cons]
  cases (a.after x).sequence a.star s with
  | none => exact Captures.both_none _
  | some c => rfl

theorem empty_alternation_sequence_star : empty.alternation (a.sequence a.star) = a.star := by
  funext s
  cases s with
  | nil =>
    rw [star_nil]
    rfl
  | cons x s => exact sequence_star_cons a x s

end Parse

namespace Pattern

variable {p r : Pattern}

theorem meaning_of_oneOrMore (h : (Build.oneOrMore p).Gives r) :
    r.meaning = p.meaning.sequence p.meaning.star := by
  obtain ⟨q, hq, h⟩ := h.bind
  rw [(Build.sequenced_of_gives h).meaning, (Build.starred_of_gives hq).meaning]

/-- Nothing, or a round and a star behind it, means what the star does. -/
theorem meaning_of_unrolled
    (h : (do Build.optional (← Build.oneOrMore p) : Build Pattern).Gives r) :
    r.meaning = p.meaning.star := by
  obtain ⟨q, hq, h⟩ := h.bind
  rw [(Build.alternated_of_gives h).meaning, meaning_of_oneOrMore hq, meaning_empty,
    Parse.empty_alternation_sequence_star]

/-- Of a pattern that can be had, the star and the unrolled star answer every question alike. -/
theorem answer_of_unrolled (hp : Reachable p) {star unrolled : Pattern}
    (hstar : (Build.star p).Gives star)
    (hunrolled : (do Build.optional (← Build.oneOrMore p) : Build Pattern).Gives unrolled)
    (c : Call) : star.answer c = unrolled.answer c := by
  have hreachable : Reachable unrolled := by
    obtain ⟨once, honce, h⟩ := hunrolled.bind
    obtain ⟨rounds, hrounds, honce⟩ := honce.bind
    exact .alternation .empty (.sequence hp (.star hp hrounds) honce) h
  refine answer_eq_of_meaning_eq (Reachable.star hp hstar).reduced hreachable.reduced ?_ c
  rw [(Build.starred_of_gives hstar).meaning, meaning_of_unrolled hunrolled]

end Pattern

/-! ## The law of unrolling -/

/-- Unrolling a star does not show: nothing, or a round with the star behind it, captures in every
text what the star does. Without the empty choice only the empty text tells the two apart, where the
round in front captures what the pattern itself does. -/
theorem unrolling_a_star_does_not_show (p : Pattern) (i j k : Nat) :
    let star := ((Build.star p).run i).1
    let once := ((Build.oneOrMore p).run j).1
    let unrolled := ((do Build.optional (← Build.oneOrMore p) : Build Pattern).run k).1
    (∀ s, star.matchWhole s = unrolled.matchWhole s) ∧
      (∀ c s, once.matchWhole (c :: s) = star.matchWhole (c :: s)) ∧
      once.matchWhole [] = p.matchWhole [] := by
  intro star once unrolled
  have hstar : star.meaning = p.meaning.star :=
    (Build.starred_of_gives (Build.gives_run (Build.star p) i)).meaning
  have honce : once.meaning = p.meaning.sequence p.meaning.star :=
    Pattern.meaning_of_oneOrMore (Build.gives_run _ j)
  have hunrolled : unrolled.meaning = p.meaning.star :=
    Pattern.meaning_of_unrolled (Build.gives_run _ k)
  simp only [Pattern.matchWhole_eq_parse, Pattern.parse_eq_meaning]
  refine ⟨fun s => ?_, fun c s => ?_, ?_⟩
  · rw [hstar, hunrolled]
  · rw [honce, hstar]
    exact Parse.sequence_star_cons _ _ _
  · rw [honce, List.map_nil, Parse.sequence_nil, Parse.star_nil, Captures.both_empty]

-- In the empty text, a mark in front of its star is gone through once, and under it not at all.
example :
    let p := (((Expr.mark "x" (.optional .any)).build {}).run 0).1
    (((Build.oneOrMore p).run 9).1.matchWhole []).map (·.get "x") = some [""] ∧
      (((Build.star p).run 9).1.matchWhole []).map (·.get "x") = some [] := by
  decide +kernel

end MarkedRegex
