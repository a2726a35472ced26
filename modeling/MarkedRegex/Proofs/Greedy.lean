-- The law of greedy prefixes: matching takes in exactly the longest prefix
-- that some text goes on from to a match, and no shorter prefix is reported
-- instead. That a pattern fails as soon as nothing can follow is what a
-- reduced form is for.
import MarkedRegex.Proofs.Reachable
import MarkedRegex.Proofs.Viable

namespace MarkedRegex

/-! ## Viable prefixes and steps -/

/-- What is left after a character goes on from the texts that the pattern goes on from behind that
character. -/
theorem Residual.viable_iff {p r : Pattern} {c : Char} (h : Residual p c r)
    {w : List Tree.Symbol} :
    Viable r.meaning.accepts w ↔ Viable p.meaning.accepts (some c :: w) := by
  rw [h.meaning]
  rfl

theorem not_viable_of_isFail {p : Pattern} (h : p.isFail = true) (w : List Tree.Symbol) :
    ¬Viable p.meaning.accepts w := by
  rintro ⟨t, ht⟩
  rw [Pattern.isFail_iff.mp h, Pattern.meaning_fail, Parse.accepts_fail] at ht
  exact Language.notMem_zero _ ht

/-! ## How far a run gets -/

/-- How far a greedy run over `s` gets: it holds the captures of the characters that it took in, and
with one more it could not go on. In reduced form it also goes no further than it has to. -/
structure Pattern.Reaches (p : Pattern) (s : List Char) (r : Reach) : Prop where
  length_le : r.length ≤ s.length
  captures : r.captures = p.parse (s.take r.length)
  dead : ∀ n, r.length < n → n ≤ s.length → ¬Viable p.meaning.accepts ((s.take n).map some)
  live : p.Reduced → 0 < r.length → Viable p.meaning.accepts ((s.take r.length).map some)

namespace Pattern.Reaches

variable {p q : Pattern} {c : Char} {s : List Char} {r r' : Reach}

theorem nil : p.Reaches [] ⟨0, p.captured⟩ where
  length_le := Nat.le_refl 0
  captures := p.captured_eq_parse
  dead := by
    intro n hpos hn
    simp at hpos hn
    omega
  live := by simp

/-- The run stops in front of the character that the pattern fails on. -/
theorem stop (hq : Residual p c q) (hf : q.isFail = true) : p.Reaches (c :: s) ⟨0, p.captured⟩ where
  length_le := Nat.zero_le _
  captures := p.captured_eq_parse
  dead := by
    intro n hpos _
    obtain ⟨n, rfl⟩ : ∃ k, n = k + 1 := ⟨n - 1, by simp at hpos; omega⟩
    rw [List.take_succ_cons, List.map_cons, ← hq.viable_iff]
    exact not_viable_of_isFail hf _
  live := by simp

/-- A pattern gets one character further than what is left of it, which matches some text even where
it takes in nothing more, for it does not fail. -/
theorem cons (hq : Residual p c q) (hf : ¬q.isFail = true) (h : q.Reaches s r) :
    p.Reaches (c :: s) ⟨r.length + 1, r.captures⟩ where
  length_le := Nat.succ_le_succ h.length_le
  captures := by
    rw [List.take_succ_cons, ← hq.parse]
    exact h.captures
  dead := by
    intro n hlt hn
    obtain ⟨n, rfl⟩ : ∃ k, n = k + 1 := ⟨n - 1, by simp at hlt; omega⟩
    simp only [List.length_cons, Nat.add_lt_add_iff_right, Nat.add_le_add_iff_right] at hlt hn
    rw [List.take_succ_cons, List.map_cons, ← hq.viable_iff]
    exact h.dead n hlt hn
  live := by
    intro hp _
    have hreduced : q.Reduced := hq.reduced hp
    rw [List.take_succ_cons, List.map_cons, ← hq.viable_iff]
    by_cases hr : 0 < r.length
    · exact h.live hreduced hr
    · have hzero : r.length = 0 := by omega
      have hne : q ≠ .fail := fun hq => hf (isFail_iff.mpr hq)
      rw [hzero]
      exact hreduced.exists_accepted hne

/-- A reduced pattern gets equally far in every run. -/
theorem unique (hp : p.Reduced) (h : p.Reaches s r) (h' : p.Reaches s r') : r = r' := by
  have hle : ∀ {a b : Reach}, p.Reaches s a → p.Reaches s b → a.length ≤ b.length := by
    intro a b ha hb
    by_contra hlt
    exact hb.dead a.length (by omega) ha.length_le (ha.live hp (by omega))
  have hlength : r.length = r'.length := Nat.le_antisymm (hle h h') (hle h' h)
  have hcaptures : r.captures = r'.captures := by rw [h.captures, h'.captures, hlength]
  cases r
  cases r'
  simp_all

end Pattern.Reaches

/-! ## Runs -/

/-- A greedy run gets as far as its pattern reaches, whatever takes the steps. -/
theorem runGreedily_ensures {m : Type → Type} [Monad m] [LawfulMonad m] {A : Assurance m}
    {step : Pattern → Char → m Pattern} (hstep : A.Steps step) (p : Pattern) (s : List Char)
    (taken : Nat) :
    A.Ensures (runGreedily step p s taken) fun r =>
      ∃ n, r.length = taken + n ∧ p.Reaches s ⟨n, r.captures⟩ := by
  induction s generalizing p taken with
  | nil => exact A.pure ⟨0, rfl, .nil⟩
  | cons c s ih =>
    rw [runGreedily]
    apply A.bind (hstep p c)
    intro q hq
    split
    · next hf => exact A.pure ⟨0, rfl, .stop hq hf⟩
    · next hf =>
      apply A.imp (ih q (taken + 1))
      rintro r ⟨n, hn, hr⟩
      exact ⟨n + 1, by omega, hr.cons hq hf⟩

theorem runGreedily_reaches {m : Type → Type} [Monad m] [LawfulMonad m] {A : Assurance m}
    {step : Pattern → Char → m Pattern} (hstep : A.Steps step) (p : Pattern) (s : List Char) :
    A.Ensures (runGreedily step p s 0) (p.Reaches s) := by
  apply A.imp (runGreedily_ensures hstep p s 0)
  rintro ⟨length, captures⟩ ⟨n, hn, hr⟩
  obtain rfl : length = n := by simpa using hn
  exact hr

/-- A greedy match gives what some run reaches, and the text behind it. -/
theorem Pattern.exists_reaches (p : Pattern) (s : List Char) :
    ∃ r, p.Reaches s r ∧ p.matchGreedily s = (r.captures, s.drop r.length) := by
  have h := runGreedily_reaches derive_steps p s
  exact ⟨_, p.runFresh_ensures h, rfl⟩

/-- Every run of a reduced pattern gives the greedy match. -/
theorem Pattern.Reaches.matchGreedily {p : Pattern} {s : List Char} {r : Reach} (hp : p.Reduced)
    (h : p.Reaches s r) : p.matchGreedily s = (r.captures, s.drop r.length) := by
  obtain ⟨r', hr', hmatch⟩ := p.exists_reaches s
  rw [hmatch, hr'.unique hp h]

/-! ## The law -/

/-- What a reduced pattern takes in is the longest viable prefix. Where the empty one is not viable,
none is, for each begins with it. -/
theorem Pattern.Reaches.longestViable {p : Pattern} {s : List Char} {r : Reach} (hp : p.Reduced)
    (hopen : ∀ n ∈ p.negatedSets, ∃ c, c ∉ n) (h : p.Reaches s r) :
    LongestViable p.language s (s.take r.length) := by
  have hlongest : ∀ w, w <+: s → Viable p.language w → w.length ≤ r.length := by
    intro w hw hviable
    by_contra hlt
    have hdead := h.dead w.length (by omega) hw.length_le
    rw [← List.prefix_iff_eq_take.mp hw, Pattern.viable_iff hopen] at hdead
    exact hdead hviable
  refine ⟨List.take_prefix _ _, ?_, ?_⟩
  · by_cases hpos : 0 < r.length
    · exact Or.inl ((Pattern.viable_iff hopen).mp (h.live hp hpos))
    · have hnil : s.take r.length = [] := by
        have hzero : r.length = 0 := by omega
        rw [hzero, List.take_zero]
      by_cases hviable : Viable p.language []
      · exact Or.inl (hnil ▸ hviable)
      · refine Or.inr ⟨hnil, fun w _ hw => hviable ?_⟩
        exact Viable.of_append (u := []) hw
  · intro w hw hviable
    rw [List.length_take, Nat.min_eq_left h.length_le]
    exact hlongest w hw hviable

/-- A greedy match takes in the longest prefix that is viable, and captures there what a whole match
of that prefix does: nothing, if that prefix does not match, whatever shorter ones do. -/
theorem a_greedy_match_takes_in_the_longest_viable_prefix {p : Pattern} (hp : Reachable p)
    (hopen : ∀ n ∈ p.negatedSets, ∃ c, c ∉ n) (s : List Char) :
    ∃ u v, u ++ v = s ∧ LongestViable p.language s u ∧
      p.matchGreedily s = (p.matchWhole u, v) ∧
      ((p.matchGreedily s).1 = none ↔ u ∉ p.language) := by
  obtain ⟨r, hr, hmatch⟩ := p.exists_reaches s
  have hcaptures : p.matchGreedily s = (p.matchWhole (s.take r.length), s.drop r.length) := by
    rw [hmatch, Pattern.matchWhole_eq_parse, hr.captures]
  refine ⟨s.take r.length, s.drop r.length, List.take_append_drop _ _,
    hr.longestViable hp.reduced hopen, hcaptures, ?_⟩
  rw [hcaptures, Pattern.mem_language, Pattern.matchWhole_eq_parse]
  simp

/-- An `a`, or an `a` and a `c` with a character that is not `b` between them: in `axd` the match
gets to `x` and finds nothing, though `a` alone matches. -/
theorem a_shorter_match_is_not_reported :
    let p := (((Expr.alternation (.mark "m" (.char 'a'))
      (.sequence (.char 'a') (.sequence (.noneOf ['b']) (.char 'c')))).buildBehind []).run 0).1
    Reachable p ∧ (∀ n ∈ p.negatedSets, ∃ c, c ∉ n) ∧
      (∃ u v, u ++ v = ['a', 'x', 'd'] ∧ LongestViable p.language ['a', 'x', 'd'] u ∧
        p.matchGreedily ['a', 'x', 'd'] = (p.matchWhole u, v) ∧
        ((p.matchGreedily ['a', 'x', 'd']).1 = none ↔ u ∉ p.language)) ∧
      p.matchGreedily ['a', 'x', 'd'] = (none, ['d']) ∧
      p.matchWhole ['a'] = some (Captures.single "m" "a") := by
  intro p
  have hp : Reachable p := Expr.reachable_of_buildBehind (Build.gives_run _ 0)
  have hsets : p.negatedSets = [CharSet.ofList ['b']] := by decide +kernel
  have hopen : ∀ n ∈ p.negatedSets, ∃ c, c ∉ n := by
    rw [hsets, List.forall_mem_singleton]
    exact ⟨'c', by decide +kernel⟩
  exact ⟨hp, hopen, a_greedy_match_takes_in_the_longest_viable_prefix hp hopen ['a', 'x', 'd'],
    by decide +kernel, by decide +kernel⟩

end MarkedRegex
