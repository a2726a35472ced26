-- The law of searches: the matches of a pattern in a text are those of the
-- direct search, where each position is tried on its own. A match is all that
-- the pattern takes in from its start on, for a longer piece does not match.
import MarkedRegex.Proofs.Matcher
import MarkedRegex.Proofs.Search.Stream

namespace MarkedRegex

/-! ## Pieces of a text -/

/-- `w` stands in `s` between two offsets. -/
def IsPiece (s : List Char) (start stop : Nat) (w : List Char) : Prop :=
  ∃ before after, before ++ w ++ after = s ∧ byteLength before = start ∧
    start + byteLength w = stop

/-- What stands between a position and an offset is what the text begins with there. -/
theorem Position.IsIn.isPrefix {s w : List Char} {here : Position} {stop : Nat} (hin : here.IsIn s)
    (h : IsPiece s here.offset stop w) : w <+: here.text := by
  obtain ⟨before, after, hs, hstart, -⟩ := h
  rw [List.append_assoc] at hs
  have hpiece : Position.IsIn ⟨here.offset, w ++ after⟩ s := ⟨before, hs, hstart⟩
  rw [hin.eq_of_offset_eq hpiece rfl]
  exact List.prefix_append _ _

theorem Match.isPiece {s : List Char} {m : Match} (h : m.position.IsIn s) :
    IsPiece s m.start m.stop m.text := by
  obtain ⟨before, hs, hstart⟩ := h
  refine ⟨before, m.rest, ?_, hstart, rfl⟩
  rw [List.append_assoc]
  exact hs

/-- A longer text in bytes is longer in characters, if both begin the same text. -/
theorem length_lt_of_byteLength_lt {u w s : List Char} (hu : u <+: s) (hw : w <+: s)
    (hlt : byteLength u < byteLength w) : u.length < w.length := by
  rw [← Nat.not_le]
  intro hle
  obtain ⟨rest, rfl⟩ := List.prefix_of_prefix_length_le hw hu hle
  rw [byteLength_append] at hlt
  omega

/-! ## What a greedy match takes in -/

section

variable {p : Pattern} {text rest : List Char} {found : Option Captures}

/-- A greedy match reaches the text that it leaves. -/
theorem Pattern.reaches_of_matchGreedily (h : p.matchGreedily (text ++ rest) = (found, rest)) :
    p.Reaches (text ++ rest) ⟨text.length, found⟩ := by
  obtain ⟨⟨length, captures⟩, hr, hmatch⟩ := p.exists_reaches (text ++ rest)
  rw [h] at hmatch
  simp only [Prod.mk.injEq] at hmatch
  obtain ⟨rfl, hrest⟩ := hmatch
  have hlength : length = text.length := by
    have hle := hr.length_le
    have hleft := congrArg List.length hrest
    simp only [List.length_drop, List.length_append] at hle hleft
    omega
  rw [← hlength]
  exact hr

/-- What a greedy match takes in matches as a whole if the match succeeds. -/
theorem Pattern.matchWhole_of_matchGreedily
    (h : p.matchGreedily (text ++ rest) = (found, rest)) : p.matchWhole text = found := by
  have hr : found = p.parse ((text ++ rest).take text.length) :=
    (Pattern.reaches_of_matchGreedily h).captures
  rw [hr, List.take_left, Pattern.matchWhole_eq_parse]

/-- No more than a greedy match takes in matches, for a text that matches is viable with nothing
behind it. -/
theorem Pattern.matchWhole_eq_none_of_longer
    (h : p.matchGreedily (text ++ rest) = (found, rest)) {w : List Char}
    (hw : w <+: text ++ rest) (hlt : text.length < w.length) : p.matchWhole w = none := by
  have hdead := (Pattern.reaches_of_matchGreedily h).dead w.length hlt hw.length_le
  rw [← List.prefix_iff_eq_take.mp hw] at hdead
  rw [Pattern.matchWhole_eq_parse, Option.eq_none_iff_forall_ne_some]
  intro captures hmatch
  apply hdead
  refine ⟨[], ?_⟩
  rw [List.append_nil, Parse.mem_accepts, ← Pattern.parse_eq_meaning, hmatch]
  rfl

end

/-- What a first match took is a piece of the text that matches as a whole, and no longer piece from
its start on does. -/
theorem Leftmost.longest {p : Pattern} {s : List Char} {start : Nat} {m : Match}
    (h : Leftmost (p.matchGreedily · = ·) s start (some m)) :
    IsPiece s m.start m.stop m.text ∧ p.matchWhole m.text = some m.captures ∧
      ∀ stop w, m.stop < stop → IsPiece s m.start stop w → p.matchWhole w = none := by
  have hin := h.isTried.isIn
  have hmatch := h.succeeds
  refine ⟨Match.isPiece hin, Pattern.matchWhole_of_matchGreedily hmatch, ?_⟩
  intro stop w hlt hw
  have hprefix : w <+: m.text ++ m.rest := hin.isPrefix hw
  have hbytes : byteLength m.text < byteLength w := by
    obtain ⟨_, _, _, _, rfl⟩ := hw
    exact Nat.lt_of_add_lt_add_left hlt
  exact Pattern.matchWhole_eq_none_of_longer hmatch hprefix
    (length_lt_of_byteLength_lt (List.prefix_append _ _) hprefix hbytes)

/-! ## The law -/

/-- The matches of a pattern in a text are those of the direct search: the first position from which
the pattern matches greedily gives one, and the search goes on behind it. A match is a piece of the
text that matches as a whole, and no longer piece from its start on does. The calls of a stream give
these matches one by one; a memory with any history, or none, does not show in them; and a matcher
without limits finds the same, whatever it was asked before. -/
theorem a_search_finds_the_matches_of_the_direct_search {p : Pattern} (hp : Reachable p)
    (s : List Char) :
    (∀ n, (MatchStream.ofText p s).takeNext n = (List.range n).map fun i => (p.findAll s)[i]?) ∧
    (∀ ms, Successive (p.matchGreedily · = ·) s 0 ms ↔ ms = p.findAll s) ∧
    (∀ m ∈ p.findAll s, IsPiece s m.start m.stop m.text ∧
      p.matchWhole m.text = some m.captures ∧
      ∀ stop w, m.stop < stop → IsPiece s m.start stop w → p.matchWhole w = none) ∧
    (∀ (capacity : Nat) (history : List Request) (n : Nat),
      (((findAllFrom Pattern.derive p ⟨0, s⟩).behind capacity history).run n).1 = p.findAll s) ∧
    (∀ n, (((findAllFrom Pattern.derive p ⟨0, s⟩).run' .off).run n).1 = p.findAll s) ∧
    p.findAllCaptures s = (p.findAll s).map (·.captures) ∧
    (∀ earlier, (((Matcher.ofPattern p .unlimited).askAll earlier).findAll s).1 =
      .ok (p.findAll s)) := by
  have hreduced := hp.reduced
  have hdirect := Pattern.findAll_successive hreduced s
  have hloop : Derive.Ensures (findAllFrom Pattern.derive p ⟨0, s⟩) (· = p.findAll s) :=
    (Call.findAll s).run_ensures Pattern.derive_steps hreduced
  refine ⟨MatchStream.takeNext_ofText p s, fun ms => ⟨fun h => ?_, fun h => ?_⟩, fun m hm => ?_,
    fun capacity history n => ?_, fun n => ?_, rfl, fun earlier => ?_⟩
  · exact h.unique p.functional_matchGreedily hdirect
  · rw [h]
    exact hdirect
  · obtain ⟨_, _, hfirst⟩ := hdirect.exists_leftmost m hm
    exact hfirst.longest
  · exact hloop.behind (Build.gives_run _ n)
  · exact (hloop .off n Memo.sound_off).1
  · have hserves := (Matcher.serves_ofPattern p .unlimited).askAll hreduced earlier
    exact hserves.ask_eq_ok hreduced rfl rfl (.findAll s)

/-- A star of `b` matches in front of `a`, goes over the two bytes of `é`, and takes in both `b`. -/
theorem the_matches_of_a_star_are_those_of_the_direct_search :
    let p := (((Expr.star (.char 'b')).buildBehind []).run 0).1
    let s := ['a', 'é', 'b', 'b']
    Reachable p ∧
      (∀ ms, Successive (p.matchGreedily · = ·) s 0 ms ↔ ms = p.findAll s) ∧
      (p.findAll s).map (fun m => (m.start, m.stop)) = [(0, 0), (1, 1), (3, 5)] := by
  intro p s
  have hp : Reachable p := Expr.reachable_of_buildBehind (Build.gives_run _ 0)
  have hlaw := a_search_finds_the_matches_of_the_direct_search hp s
  exact ⟨hp, hlaw.2.1, by decide +kernel⟩

end MarkedRegex
