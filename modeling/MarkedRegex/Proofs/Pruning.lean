-- The law of pruning. Matching prunes by two tests of a pattern, whether it can
-- take in a character and whether it fails. They never prune a match, and they
-- prune all that is dead, unless a negated set shuts out every character.
import MarkedRegex.Proofs.Canonical
import MarkedRegex.Proofs.Viable

namespace MarkedRegex

namespace Pattern

/-! ## Exact tests -/

/-- The tests tell the language: the pattern consumes exactly if some text that is not empty
matches, and fails exactly if no text does. -/
structure TestsAreExact (p : Pattern) : Prop where
  consumes : p.consumes = true ↔ ∃ s ∈ p.language, s ≠ []
  isFail : p.isFail = true ↔ p.language = 0

/-- A text that matches also matches as a text of symbols. -/
theorem map_mem_accepts {p : Pattern} {s : List Char} (h : s ∈ p.language) :
    s.map some ∈ p.meaning.accepts := by
  rw [Parse.mem_accepts, ← parse_eq_meaning]
  exact mem_language.mp h

theorem language_eq_zero {p : Pattern} (hf : p.isFail = true) : p.language = 0 := by
  obtain rfl := isFail_iff.mp hf
  rfl

namespace Reduced

variable {p : Pattern}

theorem consumes_of_mem_language (h : p.Reduced) {s : List Char} (hs : s ∈ p.language)
    (hne : s ≠ []) : p.consumes = true := by
  rw [h.consumes_iff]
  refine ⟨s.map some, map_mem_accepts hs, ?_⟩
  simpa using hne

/-- Where each negated set leaves a character out, a pattern that is not dead matches a text. -/
theorem testsAreExact (h : p.Reduced) (hopen : ∀ n ∈ p.negatedSets, ∃ c, c ∉ n) :
    p.TestsAreExact where
  consumes := by
    constructor
    · intro hc
      obtain ⟨w, hw, hne⟩ := h.exists_nonempty hc
      obtain ⟨s, hs, hfills⟩ := exists_fills hopen hw
      refine ⟨s, hs, ?_⟩
      rintro rfl
      cases hfills
      exact hne rfl
    · rintro ⟨s, hs, hne⟩
      exact h.consumes_of_mem_language hs hne
  isFail := by
    constructor
    · exact language_eq_zero
    · intro hdead
      by_contra hf
      obtain ⟨w, hw⟩ := h.exists_accepted (fun heq => hf (Pattern.isFail_iff.mpr heq))
      obtain ⟨s, hs, -⟩ := exists_fills hopen hw
      rw [hdead] at hs
      exact Language.notMem_zero s hs

end Reduced

/-! ## Negated sets, node by node -/

/-- The negated sets of a pattern are those of its nodes. -/
theorem mem_negatedSets_iff {p : Pattern} {n : CharSet} :
    n ∈ p.negatedSets ↔ ∃ k, .negatedSet k n ∈ p.nodes := by
  induction p with
  | empty | fail | any | charSet => simp [negatedSets, nodes]
  | negatedSet => simp [negatedSets, nodes]
  | sequence k p q ihp ihq | alternation k p q ihp ihq =>
    simp [negatedSets, nodes, ihp, ihq, exists_or]
  | star k p ih | mark k name buffer p ih => simp [negatedSets, nodes, ih]

theorem nodes_trans {p q r : Pattern} (hq : q ∈ p.nodes) (hr : r ∈ q.nodes) : r ∈ p.nodes := by
  induction p with
  | empty | fail | any | charSet | negatedSet =>
    rw [List.mem_singleton.mp hq] at hr
    exact hr
  | sequence k p₁ p₂ ih₁ ih₂ | alternation k p₁ p₂ ih₁ ih₂ =>
    rcases List.mem_cons.mp hq with rfl | hq
    · exact hr
    · apply List.mem_cons_of_mem
      rw [List.mem_append] at hq ⊢
      exact hq.imp ih₁ ih₂
  | star k p ih | mark k name buffer p ih =>
    rcases List.mem_cons.mp hq with rfl | hq
    · exact hr
    · exact List.mem_cons_of_mem _ (ih hq)

/-- The tests are exact at every node exactly if each negated set leaves a character out: the node
of a set consumes, so it has to match some character. -/
theorem Reduced.forall_testsAreExact_iff {p : Pattern} (h : p.Reduced) :
    (∀ q ∈ p.nodes, q.TestsAreExact) ↔ ∀ n ∈ p.negatedSets, ∃ c, c ∉ n := by
  constructor
  · intro hexact n hn
    obtain ⟨k, hk⟩ := mem_negatedSets_iff.mp hn
    have hconsumes := (hexact _ hk).consumes
    obtain ⟨s, ⟨c, hc, -⟩, -⟩ := hconsumes.mp rfl
    exact ⟨c, hc⟩
  · intro hopen q hq
    apply (h.of_mem_nodes hq).testsAreExact
    intro n hn
    obtain ⟨k, hk⟩ := mem_negatedSets_iff.mp hn
    exact hopen n (mem_negatedSets_iff.mpr ⟨k, nodes_trans hq hk⟩)

end Pattern

/-! ## The law -/

/-- What matches is never pruned: a pattern that some text other than the empty one matches
consumes, and a pattern that fails matches nothing. Both tests are exact, of the pattern and of
every node in it, exactly if each negated set leaves a character out. -/
theorem pruning_tests_are_exact_where_negated_sets_leave_a_character_out {p : Pattern}
    (hp : Reachable p) :
    ((∃ s ∈ p.language, s ≠ []) → p.consumes = true) ∧
    (p.isFail = true → p.language = 0) ∧
    ((∀ q ∈ p.nodes, q.TestsAreExact) ↔ ∀ n ∈ p.negatedSets, ∃ c, c ∉ n) := by
  have hreduced := hp.reduced
  refine ⟨?_, Pattern.language_eq_zero, hreduced.forall_testsAreExact_iff⟩
  rintro ⟨s, hs, hne⟩
  exact hreduced.consumes_of_mem_language hs hne

/-- What is left of `[^b]c|a*` behind `x` is `c`, and all tests in both are exact. -/
theorem tests_of_a_negated_set_of_one_character_are_exact :
    let e := Expr.alternation (.sequence (.noneOf ['b']) (.char 'c')) (.star (.char 'a'))
    let p := ((e.buildBehind []).run 0).1
    let r := ((p.derivative 'x').run 8).1
    Reachable p ∧ Reachable r ∧ (∀ q ∈ p.nodes, q.TestsAreExact) ∧
      (∀ q ∈ r.nodes, q.TestsAreExact) ∧ (p.negatedSets.length, r.consumes) = (1, true) := by
  intro e p r
  have hp : Reachable p := Expr.reachable_of_buildBehind (Build.gives_run _ 0)
  have hr : Reachable r := .derivative 'x' hp (Build.gives_run _ 8)
  have hsets : p.negatedSets = [CharSet.ofList ['b']] := by decide +kernel
  have hnone : r.negatedSets = [] := by decide +kernel
  have hlaw := pruning_tests_are_exact_where_negated_sets_leave_a_character_out hp
  have hrest := pruning_tests_are_exact_where_negated_sets_leave_a_character_out hr
  refine ⟨hp, hr, hlaw.2.2.mpr ?_, hrest.2.2.mpr ?_, by decide +kernel⟩
  · rw [hsets, List.forall_mem_singleton]
    exact ⟨'c', by decide +kernel⟩
  · simp [hnone]

/-! ## Where the tests are not exact -/

/-- What shuts out every character matches nothing, but it does not fail, and is taken to match a
text that is not empty. -/
theorem Pattern.tests_of_closed_set {cs : List Char} (hall : ∀ c, c ∈ cs) {p : Pattern}
    (hp : (Build.noneOf cs).Gives p) :
    p.language = 0 ∧ (¬∃ s ∈ p.language, s ≠ []) ∧ p.consumes = true ∧ p.isFail = false := by
  cases Build.ofNegatedSet_of_gives hp with
  | any hempty =>
    have hmem := CharSet.contains_ofList cs 'a'
    simp [CharSet.contains, List.isEmpty_iff.mp hempty, Cuts.inside, hall] at hmem
  | node k _ =>
    have hdead : ∀ s, s ∉ (Pattern.negatedSet k (CharSet.ofList cs)).language := by
      rintro s ⟨c, hc, -⟩
      rw [CharSet.mem_iff, CharSet.contains_ofList] at hc
      simp [hall] at hc
    refine ⟨?_, ?_, rfl, rfl⟩
    · apply Language.ext
      intro s
      exact iff_of_false (hdead s) (Language.notMem_zero s)
    · rintro ⟨s, hs, -⟩
      exact hdead s hs

/-- All characters: the code points in front of the surrogates and behind them. -/
def everyCharacter : List Char :=
  (List.range' 0 CharSet.gapStart ++ List.range' CharSet.gapEnd 0x102000).map Char.ofNat

theorem mem_everyCharacter (c : Char) : c ∈ everyCharacter := by
  refine List.mem_map.mpr ⟨c.toNat, ?_, Char.ofNat_toNat c⟩
  have hvalid := CharSet.toNat_valid c
  simp only [List.mem_append, List.mem_range'_1, CharSet.gapStart, CharSet.gapEnd] at hvalid ⊢
  omega

/-- A negated set of all characters can be had. It matches no text at all, but does not fail and is
taken to match a text that is not empty. -/
theorem a_negated_set_of_every_character_is_not_told_from_a_live_one :
    ∃ p, Reachable p ∧ p.language = 0 ∧ (¬∃ s ∈ p.language, s ≠ []) ∧ p.consumes = true ∧
      p.isFail = false := by
  refine ⟨((Build.noneOf everyCharacter).run 0).1, .noneOf _ (Build.gives_run _ 0), ?_⟩
  exact Pattern.tests_of_closed_set mem_everyCharacter (Build.gives_run _ 0)

end MarkedRegex
