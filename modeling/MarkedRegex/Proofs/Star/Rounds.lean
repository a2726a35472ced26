-- The law of the rounds of a star. A mark under a star holds one value for each
-- round. The rounds make up the whole text, and each of them is the longest one
-- that leaves a text for the rounds behind it.
import MarkedRegex.Proofs.Captures.Pieces

namespace MarkedRegex

/-! ## The first split that matches -/

namespace Parse

variable {α : Type} {a b : Parse α} {s : List α} {r : Captures}

/-- The split that a sequence captures at has the longest left part. -/
theorem exists_longest_of_sequence (h : a.sequence b s = some r) :
    ∃ u v c d, u ++ v = s ∧ a u = some c ∧ b v = some d ∧ c.merge d = r ∧
      ∀ u' v', u' ++ v' = s → u' ∈ a.accepts → v' ∈ b.accepts → u'.length ≤ u.length := by
  induction s generalizing a with
  | nil =>
    rw [sequence_nil] at h
    obtain ⟨c, d, hc, hd, hr⟩ := Captures.both_eq_some h
    refine ⟨[], [], c, d, rfl, hc, hd, hr, fun u' v' huv _ _ => ?_⟩
    rw [(List.append_eq_nil_iff.mp huv).1]
  | cons x s ih =>
    rw [sequence_cons, Captures.first_eq_or] at h
    rcases Option.or_eq_some_iff.mp h with h | ⟨hnone, h⟩
    · obtain ⟨u, v, c, d, rfl, hc, hd, hr, hlongest⟩ := ih h
      refine ⟨x :: u, v, c, d, rfl, hc, hd, hr, fun u' v' huv hu hv => ?_⟩
      cases u' with
      | nil => exact Nat.zero_le _
      | cons y u' =>
        rw [List.cons_append, List.cons.injEq] at huv
        obtain ⟨rfl, huv⟩ := huv
        exact Nat.succ_le_succ (hlongest u' v' huv hu hv)
    · obtain ⟨c, d, hc, hd, hr⟩ := Captures.both_eq_some h
      refine ⟨[], x :: s, c, d, rfl, hc, hd, hr, fun u' v' huv hu hv => ?_⟩
      cases u' with
      | nil => exact Nat.le_refl _
      | cons y u' =>
        rw [List.cons_append, List.cons.injEq] at huv
        obtain ⟨rfl, rfl⟩ := huv
        have hmatch : u' ++ v' ∈ ((a.after y).sequence b).accepts := by
          rw [accepts_sequence]
          exact Language.append_mem_mul hu hv
        rw [mem_accepts, hnone] at hmatch
        cases hmatch

end Parse

/-! ## Rounds -/

/-- A round in front of a text. It is not empty, and no longer part of both together is a round as
well and leaves a text that can go on in rounds. -/
structure LongestRound (round rest : Language Char) (v s : List Char) : Prop where
  nonempty : v ≠ []
  accepted : v ∈ round
  continued : s ∈ rest
  longest : ∀ u w, u ++ w = v ++ s → u ∈ round → w ∈ rest → u.length ≤ v.length

/-- A text cut into rounds, each of them the longest one in front of those behind it. -/
structure LongestRounds (round rest : Language Char) (s : List Char) (rounds : List (List Char)) :
    Prop where
  text : rounds.flatten = s
  longest : ∀ {before v behind}, rounds = before ++ v :: behind →
    LongestRound round rest v behind.flatten

namespace LongestRounds

variable {round rest : Language Char} {s v : List Char} {rounds : List (List Char)}

theorem nil : LongestRounds round rest [] [] := ⟨rfl, by simp⟩

theorem cons (hv : LongestRound round rest v s) (h : LongestRounds round rest s rounds) :
    LongestRounds round rest (v ++ s) (v :: rounds) where
  text := by rw [List.flatten_cons, h.text]
  longest := by
    intro before x behind hsplit
    cases before with
    | nil =>
      obtain ⟨rfl, rfl⟩ := List.cons.inj hsplit
      rwa [h.text]
    | cons y before => exact h.longest (List.cons.inj hsplit).2

theorem eq_nil_iff (h : LongestRounds round rest s rounds) : rounds = [] ↔ s = [] := by
  rw [← h.text]
  cases rounds with
  | nil => simp
  | cons v rounds =>
    have hv : LongestRound round rest v rounds.flatten := h.longest (List.nil_append _).symm
    simp [hv.nonempty]

end LongestRounds

namespace Parse

variable {a : Parse Char} {name : String} {s : List Char} {c : Captures}

/-- A star of a mark first captures the longest round under the name of the mark, if nothing inside
of the mark is captured under that name, and then what it captures in the rest. -/
theorem exists_longest_round (hname : ∀ {u d}, a u = some d → d.get name = [])
    (h : (a.mark name id).star s = some c) (hs : s ≠ []) :
    ∃ v rest d, v ++ rest = s ∧ LongestRound a.accepts a.star.accepts v rest ∧
      (a.mark name id).star rest = some d ∧ c.get name = String.ofList v :: d.get name := by
  obtain ⟨x, s, rfl⟩ := List.exists_cons_of_ne_nil hs
  rw [star_cons] at h
  obtain ⟨u, rest, c, d, rfl, hc, hd, rfl, hlongest⟩ := exists_longest_of_sequence h
  obtain ⟨_, inner, hvalue, hinner, rfl⟩ := Captures.both_eq_some hc
  cases hvalue
  have hstar : (a.mark name id).star.accepts = a.star.accepts := by
    rw [accepts_star, accepts_mark, accepts_star]
  refine ⟨x :: u, rest, d, rfl, ⟨by simp, ?_, ?_, fun u' w huw hu hw => ?_⟩, hd, ?_⟩
  · rw [mem_accepts, hinner]
    rfl
  · rw [← hstar, mem_accepts, hd]
    rfl
  · cases u' with
    | nil => exact Nat.zero_le _
    | cons y u' =>
      rw [List.cons_append, List.cons_append, List.cons.injEq] at huw
      obtain ⟨rfl, huw⟩ := huw
      have hmarked : u' ∈ ((a.mark name id).after y).accepts := by
        rw [mem_accepts_after, accepts_mark]
        exact hu
      exact Nat.succ_le_succ (hlongest u' w huw hmarked (hstar ▸ hw))
  · rw [Captures.get_merge, Captures.get_merge, Captures.get_single, if_pos rfl, hname hinner]
    rfl

/-- Under the name of its mark, a star holds the rounds of the text. Those behind the first one are
of a shorter text. -/
theorem exists_longest_rounds (hname : ∀ {u d}, a u = some d → d.get name = [])
    (h : (a.mark name id).star s = some c) :
    ∃ rounds, c.get name = rounds.map String.ofList ∧
      LongestRounds a.accepts a.star.accepts s rounds := by
  induction hn : s.length using Nat.strong_induction_on generalizing s c with
  | _ n ih =>
    rcases eq_or_ne s [] with rfl | hs
    · rw [star_nil] at h
      cases h
      exact ⟨[], rfl, .nil⟩
    · obtain ⟨v, rest, d, rfl, hv, hd, hget⟩ := exists_longest_round hname h hs
      have hshorter : rest.length < n := by
        have hpos := List.length_pos_of_ne_nil hv.nonempty
        rw [← hn, List.length_append]
        omega
      obtain ⟨rounds, hvalues, hrounds⟩ := ih rest.length hshorter hd rfl
      refine ⟨v :: rounds, ?_, hrounds.cons hv⟩
      rw [hget, hvalues, List.map_cons]

end Parse

/-! ## The law of rounds -/

/-- The texts that a pattern matches whole. -/
def Pattern.matched (p : Pattern) : Language Char := {s | (p.matchWhole s).isSome}

theorem Pattern.matched_eq (p : Pattern) : p.matched = p.parse.accepts := by
  ext s
  rw [Parse.mem_accepts, ← matchWhole_eq_parse]
  rfl

/-- A star of a mark, as constructors give it, parses as the star of the mark. -/
theorem Pattern.parse_of_starred_mark {name : String} {p r : Pattern}
    (h : (do Build.star (← Build.mark name p) : Build Pattern).Gives r) :
    r.parse = (p.parse.mark name id).star := by
  obtain ⟨q, hq, h⟩ := h.bind
  rw [(Build.starred_of_gives h).parse, (Build.marked_of_gives hq).parse]
  rfl

/-- A mark under a star holds one value for each round, if no mark inside of it has its name. The
rounds make up the whole text. None of them is empty, each is matched by what is inside of the mark,
and is the longest one there that leaves a text which the star matches. The mark takes no text from
the star and adds none. -/
theorem a_mark_under_a_star_holds_one_value_for_each_round {name : String} {p : Pattern}
    (hname : name ∉ p.markNames) (i j : Nat) (s : List Char) :
    let marked := ((do Build.star (← Build.mark name p) : Build Pattern).run i).1
    let star := ((Build.star p).run j).1
    marked.matched = star.matched ∧
      ∀ c, marked.matchWhole s = some c → ∃ rounds, c.get name = rounds.map String.ofList ∧
        LongestRounds p.matched star.matched s rounds ∧ (rounds = [] ↔ s = []) := by
  intro marked star
  have hmarked : marked.parse = (p.parse.mark name id).star :=
    Pattern.parse_of_starred_mark (Build.gives_run _ i)
  have hstar : star.parse = p.parse.star :=
    (Build.starred_of_gives (Build.gives_run (Build.star p) j)).parse
  simp only [Pattern.matched_eq, hstar]
  refine ⟨?_, fun c hc => ?_⟩
  · rw [hmarked, Parse.accepts_star, Parse.accepts_mark, Parse.accepts_star]
  · rw [Pattern.matchWhole_eq_parse, hmarked] at hc
    have hinside : ∀ {u d}, p.parse u = some d → d.get name = [] := by
      intro u d hd
      by_contra hne
      exact hname (Tree.named_of_parse p.everyMark_mem_markNames hd hne)
    obtain ⟨rounds, hvalues, hrounds⟩ := Parse.exists_longest_rounds hinside hc
    exact ⟨rounds, hvalues, hrounds, hrounds.eq_nil_iff⟩

/-- Rounds of `ab`, `a`, `bc` or nothing: the first one is not `ab`, for no round starts with
`c`. -/
theorem a_first_round_is_shorter_than_it_could_be_alone :
    let e := Expr.optional (.alternation (.text ['a', 'b']) (.alternation (.char 'a')
      (.text ['b', 'c'])))
    let p := ((e.buildBehind []).run 0).1
    let marked := ((do Build.star (← Build.mark "x" p) : Build Pattern).run 20).1
    let star := ((Build.star p).run 20).1
    let s := ['a', 'b', 'c', 'a', 'b']
    "x" ∉ p.markNames ∧ marked.matched = star.matched ∧
      (∀ c, marked.matchWhole s = some c → ∃ rounds, c.get "x" = rounds.map String.ofList ∧
        LongestRounds p.matched star.matched s rounds ∧ (rounds = [] ↔ s = [])) ∧
      (marked.matchWhole s).map (·.get "x") = some ["a", "bc", "ab"] := by
  intro e p marked star s
  have hname : "x" ∉ p.markNames := by decide +kernel
  have hlaw := a_mark_under_a_star_holds_one_value_for_each_round hname 20 20 s
  exact ⟨hname, hlaw.1, hlaw.2, by decide +kernel⟩

end MarkedRegex
