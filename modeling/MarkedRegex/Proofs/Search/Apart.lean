-- The law of matches behind one another: they are pieces of the text, no two
-- of them overlap or start at the same place, and so a search ends. It holds
-- for every pattern and does not ask what a match is.
import MarkedRegex.Proofs.Greedy
import MarkedRegex.Proofs.Search.Runs
import MarkedRegex.Proofs.Search.Stream

namespace MarkedRegex

/-! ## Where a match lies -/

namespace Match

variable {m : Match} {s : List Char}

/-- Where text is left behind a match, the search goes on with fewer characters. -/
theorem exists_resumed (hin : m.position.IsIn s) (hlt : m.resume < byteLength s) :
    ∃ next : Position, next.IsIn s ∧ next.offset = m.resume ∧
      next.text.length < m.position.text.length := by
  have hnext := hin.advance (max m.text.length 1)
  have hleft := hnext.offset_lt_iff
  rw [m.offset_advance] at hleft
  refine ⟨_, hnext, m.offset_advance, ?_⟩
  have hne := hleft.mp hlt
  simp only [Position.advance, ne_eq, List.drop_eq_nil_iff, List.length_drop] at hne ⊢
  omega

theorem start_lt_resume (hin : m.position.IsIn s) (hlt : m.resume < byteLength s) :
    m.start < m.resume := by
  obtain ⟨next, hnext, hoffset, hlength⟩ := exists_resumed hin hlt
  by_contra hge
  have heq : m.position.offset = next.offset := by
    have := m.start_le_stop
    have := m.stop_le_resume
    simp only [position]
    omega
  rw [hin.eq_of_offset_eq hnext heq] at hlength
  omega

end Match

/-! ## Where the matches of a search lie -/

namespace Leftmost

variable {tries : Tries} {s : List Char} {start : Nat} {m : Match}

theorem position_length_le (h : Leftmost tries s start (some m)) {here : Position}
    (hin : here.IsIn s) (hoffset : here.offset = start) :
    m.position.text.length ≤ here.text.length := by
  have htried := h.isTried
  obtain ⟨n, -, hn⟩ := hin.exists_advance htried.isIn (hoffset ▸ htried.start_le)
  rw [hn]
  simp [Position.advance]

end Leftmost

namespace Successive

variable {tries : Tries} {s : List Char} {start : Nat} {ms : List Match}

/-- Every match starts where one was to be tried. -/
theorem isTried_of_mem (h : Successive tries s start ms) :
    ∀ m ∈ ms, IsTried s start m.position := by
  intro m hm
  obtain ⟨start', hle, hfirst⟩ := h.exists_leftmost m hm
  exact hfirst.isTried.of_le hle

/-- A match stops before the next one starts, and starts before it. -/
theorem pairwise (h : Successive tries s start ms) :
    ms.Pairwise fun m m' => m.stop ≤ m'.start ∧ m.start < m'.start := by
  induction h with
  | nil _ => exact .nil
  | last _ _ => exact List.pairwise_singleton _ _
  | @more start m ms hfirst hlt hrest ih =>
    refine List.pairwise_cons.mpr ⟨fun m' hm' => ?_, ih⟩
    have hbehind : m.resume ≤ m'.start := (hrest.isTried_of_mem m' hm').start_le
    have hstop := m.stop_le_resume
    have hprogress := Match.start_lt_resume hfirst.isTried.isIn hlt
    omega

/-- There are no more matches than characters left, but one where none are left. -/
theorem length_le (h : Successive tries s start ms) {here : Position} (hin : here.IsIn s)
    (hoffset : here.offset = start) : ms.length ≤ max 1 here.text.length := by
  induction h generalizing here with
  | nil _ => simp
  | last _ _ => simp
  | @more start m ms hfirst hlt _ ih =>
    obtain ⟨next, hnext, hresume, hfewer⟩ := Match.exists_resumed hfirst.isTried.isIn hlt
    have hlength := hfirst.position_length_le hin hoffset
    have hmatches := ih hnext hresume
    have hleft := List.length_pos_iff.mpr (hnext.offset_lt_iff.mp (hresume ▸ hlt))
    simp only [List.length_cons]
    omega

end Successive

/-! ## The law -/

/-- The loop goes through matches behind one another, whatever the pattern. -/
theorem Pattern.findAll_successive_any (p : Pattern) (s : List Char) :
    Successive (fun _ _ => True) s 0 (p.findAll s) := by
  have hattempts : Derive.assurance.Attempts derive p fun _ _ => True :=
    ⟨trivial, fun text =>
      Derive.assurance.imp (runGreedily_reaches derive_steps p text) fun _ _ => trivial⟩
  have hloop := hattempts.findAllFrom (Position.isIn_start s) (eq_or_ne s []).symm
  exact p.runFresh_ensures hloop

/-- A search through a text ends and stays over: call by call it gives a list of matches, then
nothing, and it goes on at the beginnings of characters. Every match is a piece of the text, and
starts inside of it unless the text is empty. A match starts behind the one before it, where that
one stops or further on, so there are no more of them than characters, but one in an empty text. -/
theorem a_search_ends_and_its_matches_lie_apart (p : Pattern) (s : List Char) :
    (∀ n, (MatchStream.ofText p s).takeNext n = (List.range n).map fun i => (p.findAll s)[i]?) ∧
    (∀ n, ∀ here ∈ ((MatchStream.ofText p s).skip n).position, here.IsIn s) ∧
    (∀ m ∈ p.findAll s, m.start ≤ m.stop ∧ m.stop ≤ byteLength s ∧
      (∃ before, before ++ m.text ++ m.rest = s ∧ byteLength before = m.start ∧
        byteLength (before ++ m.text) = m.stop) ∧
      (m.start < byteLength s ∨ s = [])) ∧
    (p.findAll s).Pairwise (fun m m' => m.stop ≤ m'.start ∧ m.start < m'.start) ∧
    (p.findAll s).length ≤ max 1 s.length := by
  have hloop := p.findAll_successive_any s
  refine ⟨MatchStream.takeNext_ofText p s, MatchStream.isIn_ofText p s, fun m hm => ?_,
    hloop.pairwise, hloop.length_le (Position.isIn_start s) rfl⟩
  have htried := hloop.isTried_of_mem m hm
  obtain ⟨before, hs, hstart⟩ := htried.isIn
  simp only [Match.position] at hs hstart
  have hstop : byteLength (before ++ m.text) = m.stop := by
    rw [byteLength_append, hstart]
    rfl
  rw [← List.append_assoc] at hs
  refine ⟨m.start_le_stop, ?_, ⟨before, hs, hstart, hstop⟩, htried.inside⟩
  rw [← hs, byteLength_append, hstop]
  exact Nat.le_add_right _ _

end MarkedRegex
