-- The law of suffixes. A first match is at the start of the text, or it is the
-- first match behind the first character. That goes on through all suffixes of
-- the text, but the empty one is tried in the empty text only, so a pattern
-- that matches the empty text can be missing from a text.
import MarkedRegex.Proofs.Calls
import MarkedRegex.Proofs.Reachable

namespace MarkedRegex

/-! ## Behind a character -/

/-- The position some bytes further on, in a text with these bytes in front. -/
def Position.shift (here : Position) (n : Nat) : Position := { here with offset := n + here.offset }

/-- The match some bytes further on. -/
def Match.shift (m : Match) (n : Nat) : Match := { m with start := n + m.start }

section

variable {c : Char} {s : List Char} {here : Position}

theorem Position.isIn_cons_iff : here.IsIn (c :: s) ↔
    here = ⟨0, c :: s⟩ ∨ ∃ there : Position, there.IsIn s ∧ here = there.shift c.utf8Size := by
  constructor
  · rintro ⟨before, htext, hoffset⟩
    obtain ⟨offset, text⟩ := here
    simp only at htext hoffset
    subst hoffset
    cases before with
    | nil =>
      obtain rfl : text = c :: s := htext
      exact Or.inl rfl
    | cons d before =>
      obtain ⟨rfl, hrest⟩ := List.cons_eq_cons.mp htext
      exact Or.inr ⟨⟨byteLength before, text⟩, ⟨before, hrest, rfl⟩, rfl⟩
  · rintro (rfl | ⟨there, ⟨before, rfl, hoffset⟩, rfl⟩)
    · exact Position.isIn_start _
    · refine ⟨c :: before, rfl, ?_⟩
      simp only [byteLength, hoffset, shift]

/-- Behind the first character the positions are those of the text left there, if it is not empty.
-/
theorem isTried_cons_iff : IsTried (c :: s) 0 here ↔
    here = ⟨0, c :: s⟩ ∨ ∃ there, s ≠ [] ∧ IsTried s 0 there ∧ here = there.shift c.utf8Size := by
  have hc : 0 < c.utf8Size := c.utf8Size_pos
  constructor
  · rintro ⟨hin, -, hinside⟩
    have hlt : here.offset < byteLength (c :: s) := hinside.resolve_right (List.cons_ne_nil c s)
    rcases Position.isIn_cons_iff.mp hin with rfl | ⟨there, hthere, rfl⟩
    · exact Or.inl rfl
    · simp only [Position.shift, byteLength] at hlt
      have hleft : there.offset < byteLength s := by omega
      refine Or.inr ⟨there, ?_, ⟨hthere, Nat.zero_le _, Or.inl hleft⟩, rfl⟩
      rintro rfl
      simp [byteLength] at hleft
  · rintro (rfl | ⟨there, hne, ⟨hin, -, hinside⟩, rfl⟩)
    · refine ⟨Position.isIn_start _, Nat.zero_le _, Or.inl ?_⟩
      simp only [byteLength]
      omega
    · have hlt : there.offset < byteLength s := hinside.resolve_right hne
      refine ⟨Position.isIn_cons_iff.mpr (Or.inr ⟨there, hin, rfl⟩), Nat.zero_le _, Or.inl ?_⟩
      simp only [byteLength, Position.shift]
      omega

end

/-! ## The first match, suffix by suffix -/

namespace Leftmost

variable {tries : Tries} {c : Char} {s rest : List Char}

/-- A match at the start of a text is the first one. -/
theorem at_start {m : Match} (hstart : m.start = 0) (htext : m.text ++ m.rest = s)
    (h : tries s (some m.captures, m.rest)) : Leftmost tries s 0 (some m) := by
  have hposition : m.position = ⟨0, s⟩ := by rw [Match.position, hstart, htext]
  have htried : IsTried s 0 ⟨0, s⟩ := by
    refine ⟨Position.isIn_start s, Nat.zero_le _, ?_⟩
    by_cases hs : s = []
    · exact Or.inr hs
    · exact Or.inl (byteLength_pos hs)
  apply Leftmost.found
  · rwa [hposition]
  · rwa [htext]
  · intro here _ hlt
    omega

/-- Where the start of a text fails, the first match is the one of the text behind its first
character, if that is not empty. -/
theorem cons (hfail : tries (c :: s) (none, rest)) (hne : s ≠ []) {found : Option Match}
    (h : Leftmost tries s 0 found) :
    Leftmost tries (c :: s) 0 (found.map (·.shift c.utf8Size)) := by
  cases h with
  | nowhere hfails =>
    apply Leftmost.nowhere
    intro here hhere
    rcases isTried_cons_iff.mp hhere with rfl | ⟨there, -, hthere, rfl⟩
    · exact ⟨rest, hfail⟩
    · exact hfails there hthere
  | @found m htried hfound hfirst =>
    apply Leftmost.found
    · exact isTried_cons_iff.mpr (Or.inr ⟨m.position, hne, htried, rfl⟩)
    · exact hfound
    · intro here hhere hlt
      rcases isTried_cons_iff.mp hhere with rfl | ⟨there, -, hthere, rfl⟩
      · exact ⟨rest, hfail⟩
      · apply hfirst there hthere
        simpa only [Position.shift, Match.shift, Nat.add_lt_add_iff_left] using hlt

/-- Where the only character of a text fails, there is no match; the end of the text is not tried.
-/
theorem singleton (hfail : tries [c] (none, rest)) : Leftmost tries [c] 0 none := by
  apply Leftmost.nowhere
  intro here hhere
  rcases isTried_cons_iff.mp hhere with rfl | ⟨_, hne, -, -⟩
  · exact ⟨rest, hfail⟩
  · exact absurd rfl hne

end Leftmost

namespace Pattern

/-! ## The recursion over suffixes -/

/-- The greedy match of a text as a match at its start. -/
def matchAtStart (p : Pattern) (s : List Char) : Option Match :=
  let (found, rest) := p.matchGreedily s
  found.map fun captures => ⟨0, s.take (s.length - rest.length), rest, captures⟩

/-- The first match, suffix by suffix down to the empty one. -/
def matchInSuffixes (p : Pattern) : List Char → Option Match
  | [] => p.matchAtStart []
  | c :: s => (p.matchAtStart (c :: s)).or ((p.matchInSuffixes s).map (·.shift c.utf8Size))

variable {p : Pattern} {s : List Char}

theorem matchAtStart_eq_some_iff {m : Match} : p.matchAtStart s = some m ↔
    m.start = 0 ∧ m.text ++ m.rest = s ∧ p.matchGreedily s = (some m.captures, m.rest) := by
  have hsuffix : (p.matchGreedily s).2 <:+ s := List.drop_suffix _ _
  unfold matchAtStart
  generalize p.matchGreedily s = reached at *
  obtain ⟨found, rest⟩ := reached
  obtain ⟨taken, rfl⟩ := hsuffix
  obtain ⟨start, text, rest', captures⟩ := m
  cases found with
  | none => simp
  | some captures' =>
    simp only [Option.map_some, Option.some.injEq, Match.mk.injEq, Prod.mk.injEq,
      List.length_append, Nat.add_sub_cancel, List.take_left]
    constructor
    · rintro ⟨rfl, rfl, rfl, rfl⟩
      exact ⟨rfl, rfl, rfl, rfl⟩
    · rintro ⟨rfl, htext, rfl, rfl⟩
      exact ⟨rfl, (List.append_cancel_right htext).symm, rfl, rfl⟩

theorem isSome_matchAtStart : (p.matchAtStart s).isSome = (p.matchGreedily s).1.isSome :=
  Option.isSome_map

theorem matchAtStart_eq_none_iff : p.matchAtStart s = none ↔ (p.matchGreedily s).1 = none :=
  Option.map_eq_none_iff

/-- In the empty text a match is a whole match. -/
theorem matchAtStart_nil :
    p.matchAtStart [] = (p.matchWhole []).map fun captures => ⟨0, [], [], captures⟩ :=
  rfl

theorem isSome_matchWhole_nil : (p.matchWhole []).isSome = p.nullable := by
  rw [p.matchWhole_eq_parse, parse_eq_meaning, nullable_eq_isSome]
  rfl

/-! ## What a search finds -/

theorem findFirst_of_matchAtStart (hp : p.Reduced) {m : Match} (h : p.matchAtStart s = some m) :
    p.findFirst s = some m := by
  obtain ⟨hstart, htext, hmatch⟩ := matchAtStart_eq_some_iff.mp h
  have hfirst : Leftmost (p.matchGreedily · = ·) s 0 (some m) := .at_start hstart htext hmatch
  exact (findFirst_leftmost hp s).unique p.functional_matchGreedily hfirst

theorem findFirst_nil : p.findFirst [] = p.matchAtStart [] := by
  rw [matchAtStart_nil, matchWhole]
  exact Option.map_map _ _ _

/-- A search goes on behind the first character, as long as there is another one. -/
theorem findFirst_cons (hp : p.Reduced) (c : Char) (s : List Char) :
    p.findFirst (c :: s) = (p.matchAtStart (c :: s)).or
      (if s = [] then none else (p.findFirst s).map (·.shift c.utf8Size)) := by
  cases hstart : p.matchAtStart (c :: s) with
  | some m => exact findFirst_of_matchAtStart hp hstart
  | none =>
    have hnone := matchAtStart_eq_none_iff.mp hstart
    have hfail : p.matchGreedily (c :: s) = (none, (p.matchGreedily (c :: s)).2) :=
      Prod.ext hnone rfl
    apply (findFirst_leftmost hp (c :: s)).unique p.functional_matchGreedily
    rw [Option.none_or]
    split
    · next hs =>
      subst hs
      exact .singleton hfail
    · next hne => exact (findFirst_leftmost hp s).cons hfail hne

/-- Of the matches in the suffixes, a search does not find the one at the end of a text. -/
theorem findFirst_eq_some_iff (hp : p.Reduced) (s : List Char) (m : Match) :
    p.findFirst s = some m ↔
      p.matchInSuffixes s = some m ∧ (s = [] ∨ m.start < byteLength s) := by
  induction s generalizing m with
  | nil => simp [findFirst_nil, matchInSuffixes]
  | cons c s ih =>
    have hc : 0 < c.utf8Size := c.utf8Size_pos
    rw [findFirst_cons hp, matchInSuffixes]
    cases hstart : p.matchAtStart (c :: s) with
    | some m' =>
      have hzero : m'.start = 0 := (matchAtStart_eq_some_iff.mp hstart).1
      simp only [Option.some_or, Option.some.injEq, reduceCtorEq, false_or, byteLength]
      constructor
      · rintro rfl
        exact ⟨rfl, by omega⟩
      · exact And.left
    | none =>
      simp only [Option.none_or, reduceCtorEq, false_or, byteLength, Option.map_eq_some_iff]
      split
      · next hs =>
        subst hs
        simp only [reduceCtorEq, false_iff, not_and, matchInSuffixes, Nat.not_lt]
        rintro ⟨m', -, rfl⟩
        simp only [Match.shift, byteLength]
        omega
      · next hne =>
        simp only [Option.map_eq_some_iff, ih, hne, false_or]
        constructor
        · rintro ⟨m', ⟨hfound, hlt⟩, rfl⟩
          refine ⟨⟨m', hfound, rfl⟩, ?_⟩
          simp only [Match.shift]
          omega
        · rintro ⟨⟨m', hfound, rfl⟩, hlt⟩
          simp only [Match.shift, Nat.add_lt_add_iff_left] at hlt
          exact ⟨m', ⟨hfound, hlt⟩, rfl⟩

/-! ## Where there is a match -/

theorem hasMatch_nil : p.hasMatch [] = p.nullable := by
  unfold hasMatch
  rw [findFirst_nil, matchAtStart_nil, Option.isSome_map, isSome_matchWhole_nil]

theorem hasMatch_cons (hp : p.Reduced) (c : Char) (s : List Char) : p.hasMatch (c :: s) = true ↔
    (p.matchGreedily (c :: s)).1.isSome = true ∨ s ≠ [] ∧ p.hasMatch s = true := by
  unfold hasMatch
  rw [findFirst_cons hp, Option.isSome_or, Bool.or_eq_true, isSome_matchAtStart]
  by_cases hs : s = []
  · simp [hs]
  · simp [hs, Option.isSome_map]

/-- The empty text has a match if the pattern accepts it, any other text if a suffix that is not
empty has one at its start. -/
theorem hasMatch_iff (hp : p.Reduced) (s : List Char) : p.hasMatch s = true ↔
    s = [] ∧ p.nullable = true ∨
      ∃ u, u <:+ s ∧ u ≠ [] ∧ (p.matchGreedily u).1.isSome = true := by
  induction s with
  | nil =>
    rw [hasMatch_nil]
    constructor
    · intro h
      exact Or.inl ⟨rfl, h⟩
    · rintro (⟨-, h⟩ | ⟨u, hu, hne, -⟩)
      · exact h
      · exact absurd (List.suffix_nil.mp hu) hne
  | cons c s ih =>
    rw [hasMatch_cons hp, ih]
    constructor
    · rintro (h | ⟨hne, ⟨hs, -⟩ | ⟨u, hu, hu'⟩⟩)
      · exact Or.inr ⟨c :: s, List.suffix_rfl, List.cons_ne_nil c s, h⟩
      · exact absurd hs hne
      · exact Or.inr ⟨u, hu.trans (List.suffix_cons c s), hu'⟩
    · rintro (⟨hs, -⟩ | ⟨u, hu, hne, h⟩)
      · cases hs
      · rcases List.suffix_cons_iff.mp hu with rfl | hu
        · exact Or.inl h
        · refine Or.inr ⟨?_, Or.inr ⟨u, hu, hne, h⟩⟩
          rintro rfl
          exact hne (List.suffix_nil.mp hu)

/-- A match in a text that is not empty is there whatever text stands in front. -/
theorem hasMatch_append (hp : p.Reduced) (t : List Char) (hne : s ≠ [])
    (h : p.hasMatch s = true) : p.hasMatch (t ++ s) = true := by
  rcases (hasMatch_iff hp s).mp h with ⟨hs, -⟩ | ⟨u, hu, hu'⟩
  · exact absurd hs hne
  · exact (hasMatch_iff hp (t ++ s)).mpr (Or.inr ⟨u, hu.trans (List.suffix_append t s), hu'⟩)

/-- What accepts the empty text has a match in some suffix, be it the empty one. -/
theorem isSome_matchInSuffixes (hn : p.nullable = true) (s : List Char) :
    (p.matchInSuffixes s).isSome = true := by
  induction s with
  | nil =>
    rw [matchInSuffixes, isSome_matchAtStart]
    exact isSome_matchWhole_nil.trans hn
  | cons c s ih =>
    rw [matchInSuffixes, Option.isSome_or, Option.isSome_map, ih, Bool.or_true]

theorem hasMatch_eq_false_iff (hp : p.Reduced) (hn : p.nullable = true) (s : List Char) :
    p.hasMatch s = false ↔ s ≠ [] ∧ ∀ u, u <:+ s → u ≠ [] → (p.matchGreedily u).1 = none := by
  rw [← Bool.not_eq_true, hasMatch_iff hp]
  simp [hn]

end Pattern

/-! ## The law -/

/-- In the empty text a search finds the whole match. In any other text it finds the greedy match at
the start, and without one it goes on behind the first character, but not to the empty text there.
So it finds the match of the recursion over all suffixes, except where that is the empty match at
the end of a text. A match in a text that is not empty stays when text is put in front of it. A
pattern that accepts the empty text has a match in a suffix of every text, and is missing from a
text exactly if it is not empty and greedy matching fails on each suffix that is not empty. -/
theorem a_search_goes_through_all_suffixes_but_the_empty_one {p : Pattern} (hp : Reachable p) :
    (p.findFirst [] = p.matchAtStart [] ∧
      ((p.findFirst []).isSome = true ↔ (p.matchWhole []).isSome = true)) ∧
    (∀ c s, p.findFirst (c :: s) = (p.matchAtStart (c :: s)).or
      (if s = [] then none else (p.findFirst s).map (·.shift c.utf8Size))) ∧
    (∀ s m, p.findFirst s = some m ↔
      p.matchInSuffixes s = some m ∧ (s = [] ∨ m.start < byteLength s)) ∧
    (∀ t s, s ≠ [] → p.hasMatch s = true → p.hasMatch (t ++ s) = true) ∧
    (p.nullable = true → ∀ s, (p.matchInSuffixes s).isSome = true ∧
      (p.hasMatch s = false ↔
        s ≠ [] ∧ ∀ u, u <:+ s → u ≠ [] → (p.matchGreedily u).1 = none)) := by
  have hreduced := hp.reduced
  refine ⟨⟨Pattern.findFirst_nil, ?_⟩, Pattern.findFirst_cons hreduced,
    Pattern.findFirst_eq_some_iff hreduced, fun t s => Pattern.hasMatch_append hreduced t,
    fun hn s => ⟨Pattern.isSome_matchInSuffixes hn s, Pattern.hasMatch_eq_false_iff hreduced hn s⟩⟩
  rw [Pattern.findFirst_nil, Pattern.isSome_matchAtStart]
  rfl

/-- A `bc` that may be missing: the `b` in `bé` leads nowhere, so the first match is the empty one
behind it, also with `x` in front. -/
theorem a_missing_text_is_found_behind_a_dead_end :
    let p := (((Expr.optional (.text ['b', 'c'])).buildBehind []).run 0).1
    Reachable p ∧
      p.findFirst ['b', 'é'] = (p.matchAtStart ['b', 'é']).or
        (if ['é'] = [] then none else (p.findFirst ['é']).map (·.shift 1)) ∧
      p.hasMatch (['x'] ++ ['b', 'é']) = true ∧
      (p.matchAtStart ['b', 'é'], p.findFirst ['b', 'é']) = (none, some ⟨1, [], ['é'], ∅⟩) := by
  intro p
  have hp : Reachable p := Expr.reachable_of_buildBehind (Build.gives_run _ 0)
  obtain ⟨-, hcons, -, happend, -⟩ := a_search_goes_through_all_suffixes_but_the_empty_one hp
  exact ⟨hp, hcons 'b' ['é'], happend ['x'] ['b', 'é'] (by simp) (by decide +kernel),
    by decide +kernel⟩

/-- The same in `b`: what accepts the empty text, and is found in it, is missing behind the dead
end, where a search down to the empty suffix finds the empty match. -/
theorem a_missing_text_is_not_found_at_the_end :
    let p := (((Expr.optional (.text ['b', 'c'])).buildBehind []).run 0).1
    Reachable p ∧ p.nullable = true ∧ (p.matchGreedily ['b']).1 = none ∧
      p.findFirst ['b'] = none ∧ (p.findFirst []).map (·.shift 1) = some ⟨1, [], [], ∅⟩ ∧
      p.hasMatch [] = true ∧ p.hasMatch (['b'] ++ []) = false := by
  intro p
  have hp : Reachable p := Expr.reachable_of_buildBehind (Build.gives_run _ 0)
  exact ⟨hp, by decide +kernel⟩

end MarkedRegex
