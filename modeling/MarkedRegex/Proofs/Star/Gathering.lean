-- The law of captures under a star. The finished rounds of a marked text gather
-- in one part in front of the star, so what is left after any text is no deeper
-- than after the first two rounds, and grows by a few nodes a round.
import MarkedRegex.Proofs.Growth

namespace MarkedRegex

/-! ## Characters in a row -/

/-- So many sets of characters in a row, as the pattern of a text has them. -/
inductive Row : Nat → Pattern → Prop
  | nil : Row 0 .empty
  | one (k : Nat) (s : CharSet) : Row 1 (.charSet k s)
  | cons (k i : Nat) (s : CharSet) {m : Nat} {q : Pattern} : 0 < m → Row m q →
      Row (m + 1) (.sequence k (.charSet i s) q)

namespace Row

variable {m : Nat} {q r : Pattern}

theorem nullable_eq (h : Row m q) (hm : 0 < m) : q.nullable = false := by
  cases h with
  | nil => cases hm
  | one | cons => rfl

theorem consumes_eq (h : Row m q) (hm : 0 < m) : q.consumes = true := by
  cases h with
  | nil => cases hm
  | one | cons => rfl

theorem ne_fail (h : Row m q) : q ≠ .fail := by
  cases h <;> simp

theorem size_eq (h : Row m q) (hm : 0 < m) : q.tree.size + 1 = 2 * m := by
  induction h with
  | nil => cases hm
  | one => rfl
  | @cons k i s m q hm' _ ih =>
    have hrest := ih hm'
    have hfirst : (Pattern.charSet i s).tree.size = 1 := rfl
    rw [Pattern.tree, Tree.size_sequence]
    omega

theorem depth_le (h : Row m q) (hm : 0 < m) : q.depth ≤ m := by
  induction h with
  | nil => cases hm
  | one => exact Nat.le_refl 1
  | @cons k i s m q hm' _ ih =>
    have hrest := ih hm'
    have hfirst : (Pattern.charSet i s).depth = 1 := rfl
    have hnode := Pattern.depth_sequence_le k (.charSet i s) q
    omega

theorem of_text {w : List Char} (h : (Build.text w).Gives q) : Row w.length q := by
  induction w generalizing q with
  | nil =>
    rw [Build.gives_pure.mp h]
    exact .nil
  | cons x w ih =>
    obtain ⟨rest, hrest, h⟩ := h.bind
    obtain ⟨first, hfirst, h⟩ := h.bind
    obtain ⟨i, rfl⟩ := Build.gives_node.mp hfirst
    have hrow := ih hrest
    cases Build.sequenced_of_gives h with
    | failRight => exact absurd rfl hrow.ne_fail
    | emptyRight =>
      cases hw : w.length with
      | zero => simpa [hw] using Row.one i (CharSet.singleton x)
      | succ n =>
        rw [hw] at hrow
        cases hrow
    | settled _ _ _ _ _ _ hc => cases hc
    | node k _ _ _ hne =>
      have hpos : 0 < w.length := by
        cases hw : w.length with
        | succ n => exact Nat.succ_pos n
        | zero =>
          rw [hw] at hrow
          cases hrow
          exact absurd rfl hne
      exact .cons k i _ hpos hrow

/-- A character is taken from the front of a row, or does not fit. -/
theorem step {c : Char} (h : Row (m + 1) q) (hr : Residual q c r) : r = .fail ∨ Row m r := by
  cases h with
  | one =>
    rcases hr.of_isSingle rfl with rfl | rfl
    · exact Or.inr .nil
    · exact Or.inl rfl
  | cons k i s hm hrow =>
    cases hr with
    | dead hc => cases hc
    | sequenceLeft _ hn | sequenceBoth _ hn => cases hn
    | sequence _ _ ha hr =>
      rcases ha.of_isSingle rfl with rfl | rfl
      · cases hr with
        | failRight => exact Or.inl rfl
        | emptyLeft => exact Or.inr hrow
        | emptyRight _ he | settled _ _ _ _ _ he | node _ _ he => exact absurd rfl he
      · exact Or.inl hr.eq_fail_left

end Row

/-! ## States -/

/-- A star of a mark around so many characters, at least one. -/
inductive StarOfMark (name : String) (m : Nat) : Pattern → Prop
  | star (k l : Nat) (buffer : MarkBuffer) {q : Pattern} : 0 < m → Row m q →
      StarOfMark name m (.star k (.mark l name buffer q))

/-- So many finished rounds, gathered on the left. -/
inductive Gathered (name : String) : Nat → Pattern → Prop
  | one (k : Nat) (buffer : MarkBuffer) : Gathered name 1 (.mark k name buffer .empty)
  | snoc (i k : Nat) (buffer : MarkBuffer) {j : Nat} {s : Pattern} : Gathered name j s →
      Gathered name (j + 1) (.sequence i s (.mark k name buffer .empty))

/-- A star, so many characters into its first round. -/
inductive InRound (name : String) (m : Nat) (p : Pattern) : Nat → Pattern → Prop
  | start : InRound name m p 0 p
  | within (k l : Nat) (buffer : MarkBuffer) {i d : Nat} {q : Pattern} : 0 < i → 0 < d →
      i + d = m → Row i q → InRound name m p d (.sequence k (.mark l name buffer q) p)

/-- What can be left of a star after so many characters. -/
inductive Gathering (name : String) (m : Nat) (p : Pattern) : Nat → Pattern → Prop
  | dead (n : Nat) : Gathering name m p n .fail
  | first {d : Nat} {r : Pattern} : InRound name m p d r → Gathering name m p d r
  | behind (k : Nat) {j d : Nat} {s r : Pattern} : Gathered name j s → InRound name m p d r →
      Gathering name m p (j * m + d) (.sequence k s r)

section

variable {name : String} {m j d n : Nat} {p q r s : Pattern} {c : Char}

theorem Gathered.consumes_eq (h : Gathered name j s) : s.consumes = false := by
  induction h with
  | one => rfl
  | snoc i k buffer _ ih => simp [Pattern.consumes, ih]

theorem Gathered.isPart (h : Gathered name j s) : s.IsPart := by
  have hmark : ∀ (k : Nat) (buffer : MarkBuffer), (Pattern.mark k name buffer .empty).IsPart :=
    fun k buffer => ⟨.mark k name buffer .empty (by simp), by simp, by simp⟩
  induction h with
  | one k buffer => exact hmark k buffer
  | snoc i k buffer _ ih => exact ih.sequence (hmark k buffer) i

theorem Gathered.size_eq (h : Gathered name j s) : s.tree.size + 1 = 3 * j := by
  induction h with
  | one => rfl
  | @snoc i k buffer j s _ ih =>
    have hmark : (Pattern.mark k name buffer .empty).tree.size = 2 := rfl
    rw [Pattern.tree, Tree.size_sequence]
    omega

/-! ## What one character does -/

/-- The mark at the front takes the character from its row, in front of the star. It does not fit,
the round goes on, or that was the last character of the round. -/
theorem InRound.of_mark {k l i : Nat} {buffer : MarkBuffer} {a : Pattern} (hid : i + (d + 1) = m)
    (hrow : Row (i + 1) q) (ha : Residual (.mark l name buffer q) c a)
    (hr : Sequenced a (.star k p) r) :
    r = .fail ∨ InRound name m (.star k p) (d + 1) r ∨
      (d + 1 = m ∧ ∃ i l buffer, r = .sequence i (.mark l name buffer .empty) (.star k p)) := by
  have hconsumes := hrow.consumes_eq (Nat.succ_pos i)
  cases ha with
  | dead hc => simp [Pattern.consumes, hconsumes] at hc
  | mark _ hq ha =>
    rcases hrow.step hq with rfl | hrest
    · cases ha with
      | fail => exact Or.inl hr.eq_fail_left
      | node _ hf => exact absurd rfl hf
    · cases ha with
      | fail => exact absurd rfl hrest.ne_fail
      | node l' =>
        cases hr with
        | node k' =>
          cases i with
          | zero =>
            cases hrest
            exact Or.inr (.inr ⟨by omega, k', l', _, rfl⟩)
          | succ i =>
            exact Or.inr (.inl (.within k' l' _ i.succ_pos d.succ_pos hid hrest))

/-- One character does not fit, goes on in the round, or finishes it. -/
theorem InRound.step (hp : StarOfMark name m p) (h : InRound name m p d q) (hr : Residual q c r) :
    r = .fail ∨ InRound name m p (d + 1) r ∨
      (d + 1 = m ∧ ∃ k l buffer, r = .sequence k (.mark l name buffer .empty) p) := by
  obtain ⟨k, l, buffer, hm, hrow⟩ := hp
  cases h with
  | start =>
    obtain ⟨i, rfl⟩ := Nat.exists_eq_add_one.mpr hm
    have hconsumes := hrow.consumes_eq hm
    cases hr with
    | dead hc => simp [Pattern.consumes, hconsumes] at hc
    | star _ ha hr => exact InRound.of_mark rfl hrow ha hr
  | @within k' l' buffer' i d q hi hd hid hrow' =>
    obtain ⟨i, rfl⟩ := Nat.exists_eq_add_one.mpr hi
    have hconsumes := hrow'.consumes_eq hi
    have hnullable := hrow'.nullable_eq hi
    cases hr with
    | dead hc => simp [Pattern.consumes, hconsumes] at hc
    | sequenceLeft _ hn | sequenceBoth _ hn => simp [Pattern.nullable, hnullable] at hn
    | sequence _ _ ha hr => exact InRound.of_mark (by omega) hrow' ha hr

/-- In front of a round that goes on, the finished rounds stay a part of their own. -/
theorem Gathered.in_front (hs : Gathered name j s) (h : InRound name m p (d + 1) q)
    (hr : Sequenced s q r) : ∃ k, r = .sequence k s q := by
  have hpart := hs.isPart
  cases h with
  | within k l buffer hi _ _ hrow =>
    cases hr with
    | failLeft => exact absurd rfl hpart.ne_fail
    | emptyLeft => exact absurd rfl hpart.ne_empty
    | settled _ _ _ _ _ _ _ hc => simp [Pattern.consumes, hrow.consumes_eq hi] at hc
    | node k => exact ⟨k, rfl⟩

/-- A round that is finished joins those in front of it. -/
theorem Gathered.joined (hs : Gathered name j s) {k l : Nat} {buffer : MarkBuffer}
    (hr : Sequenced s (.sequence k (.mark l name buffer .empty) p) r) :
    ∃ i k', r = .sequence k' (.sequence i s (.mark l name buffer .empty)) p := by
  have hpart := hs.isPart
  cases hr with
  | failLeft => exact absurd rfl hpart.ne_fail
  | emptyLeft => exact absurd rfl hpart.ne_empty
  | settled _ i j => exact ⟨i, j, rfl⟩
  | node _ _ _ _ _ hsettled =>
    rcases hsettled _ _ _ rfl with hc | hc
    · simp [hs.consumes_eq] at hc
    · simp [Pattern.consumes] at hc

theorem Gathering.of_finished (k : Nat) (hs : Gathered name j s) (hn : n = j * m) :
    Gathering name m p n (.sequence k s p) := by
  rw [hn]
  exact .behind k hs .start

/-- A state goes over into a state of one more character. -/
theorem Gathering.step (hp : StarOfMark name m p) (h : Gathering name m p n q)
    (hr : Residual q c r) : Gathering name m p (n + 1) r := by
  cases h with
  | dead =>
    rw [hr.eq_fail rfl]
    exact .dead _
  | first h =>
    obtain rfl | hround | ⟨hd, k, l, buffer, rfl⟩ := h.step hp hr
    · exact .dead _
    · exact .first hround
    · exact .of_finished k (.one l buffer) (by omega)
  | @behind k j d s q hs h =>
    obtain ⟨tail, htail, hr⟩ := hr.exists_behind hs.isPart hs.consumes_eq
    obtain rfl | hround | ⟨hd, k, l, buffer, rfl⟩ := h.step hp htail
    · rw [hr.eq_fail_right]
      exact .dead _
    · obtain ⟨k', rfl⟩ := hs.in_front hround hr
      exact .behind k' hs hround
    · obtain ⟨i, k', rfl⟩ := hs.joined hr
      exact .of_finished k' (hs.snoc i l buffer) (by rw [Nat.succ_mul]; omega)

/-- What is left of a star of a mark after a text is one of these states. -/
theorem Gathering.after (hp : StarOfMark name m p) {t : List Char} (h : Gathering name m p n q)
    (hr : q.LeavesAfter t r) : Gathering name m p (n + t.length) r := by
  induction hr generalizing n with
  | nil => exact h
  | cons hfirst _ ih =>
    have hrest := ih (h.step hp hfirst.residual)
    rwa [Nat.add_right_comm, Nat.add_assoc] at hrest

/-! ## How large and how deep the states are -/

theorem StarOfMark.pos (h : StarOfMark name m p) : 0 < m := by
  cases h with
  | star _ _ _ hm _ => exact hm

theorem StarOfMark.size_eq (h : StarOfMark name m p) : p.tree.size = 2 * m + 1 := by
  obtain ⟨k, l, buffer, hm, hrow⟩ := h
  have hsize := hrow.size_eq hm
  simp only [Pattern.tree, Tree.size_star, Tree.size_mark]
  omega

theorem StarOfMark.depth_le (h : StarOfMark name m p) : p.depth ≤ m + 2 := by
  obtain @⟨k, l, buffer, q, hm, hrow⟩ := h
  have hdepth := hrow.depth_le hm
  have hmark := Pattern.depth_mark_le l name buffer q
  have hstar := Pattern.depth_star_le k (.mark l name buffer q)
  omega

theorem InRound.size_le (hp : StarOfMark name m p) (h : InRound name m p d r) :
    r.tree.size ≤ 4 * m := by
  have hstar := hp.size_eq
  cases h with
  | start =>
    have hpos := hp.pos
    omega
  | within k l buffer hi hd hid hrow =>
    have hsize := hrow.size_eq hi
    simp only [Pattern.tree, Tree.size_sequence, Tree.size_mark]
    omega

theorem InRound.depth_le (hp : StarOfMark name m p) (h : InRound name m p d r) :
    r.depth ≤ m + 3 := by
  have hstar := hp.depth_le
  cases h with
  | start => omega
  | @within k l buffer i d q hi hd hid hrow =>
    have hdepth := hrow.depth_le hi
    have hmark := Pattern.depth_mark_le l name buffer q
    have hnode := Pattern.depth_sequence_le k (.mark l name buffer q) p
    omega

/-- A finished round takes three nodes, and has taken in a character at least. -/
theorem Gathering.size_le (hp : StarOfMark name m p) (h : Gathering name m p n r) :
    r.tree.size ≤ 4 * m + 3 * n := by
  have hpos := hp.pos
  cases h with
  | dead =>
    have hone : Pattern.fail.tree.size = 1 := rfl
    omega
  | first h => exact Nat.le_add_right_of_le (h.size_le hp)
  | @behind k j d s r hs h =>
    have hsize := hs.size_eq
    have hround := h.size_le hp
    have hrounds : j ≤ j * m := Nat.le_mul_of_pos_right j hpos
    rw [Pattern.tree, Tree.size_sequence]
    omega

theorem Gathering.depth_le (hp : StarOfMark name m p) (h : Gathering name m p n r) :
    r.depth ≤ m + 4 := by
  cases h with
  | dead => exact Nat.le_add_left 1 _
  | first h => exact (h.depth_le hp).trans (Nat.le_succ _)
  | @behind k j d s r hs h =>
    have hround := h.depth_le hp
    have hsettled := Pattern.depth_of_not_consumes hs.consumes_eq
    have hnode := Pattern.depth_sequence_le k s r
    omega

end

/-! ## The law -/

theorem StarOfMark.of_gives {name : String} {w : List Char} {p : Pattern} (hw : w ≠ [])
    (h : (do Build.star (← Build.mark name (← Build.text w)) : Build Pattern).Gives p) :
    StarOfMark name w.length p := by
  obtain ⟨q, hq, h⟩ := h.bind
  obtain ⟨a, ha, h⟩ := h.bind
  have hrow := Row.of_text hq
  cases Build.marked_of_gives ha with
  | fail => exact absurd rfl hrow.ne_fail
  | node l =>
    cases Build.starred_of_gives h with
    | dropped hm => cases hm
    | node k => exact .star k l ∅ (List.length_pos_of_ne_nil hw) hrow

theorem Gathering.bounds {name : String} {m n : Nat} {p r : Pattern} (hp : StarOfMark name m p)
    (h : Gathering name m p n r) : r.depth ≤ m + 4 ∧ r.size ≤ 4 * m + 3 * n := by
  refine ⟨h.depth_le hp, ?_⟩
  rw [Pattern.size_eq_tree]
  exact (Nat.min_le_left _ _).trans (h.size_le hp)

/-- What is left of a star of a marked text is at most four levels deeper than the text is long, and
has at most four nodes for each character of it and three for each one that was taken in. This holds
after every text, without a memory, through memories with any history, and after each character that
one memory is asked for. -/
theorem rounds_of_a_marked_text_do_not_deepen_what_is_left {name : String} {w : List Char}
    {p : Pattern} (hw : w ≠ [])
    (hp : (do Build.star (← Build.mark name (← Build.text w)) : Build Pattern).Gives p)
    (t : List Char) :
    (∀ r, p.LeavesAfter t r →
      r.depth ≤ w.length + 4 ∧ r.size ≤ 4 * w.length + 3 * t.length) ∧
    ∀ (capacity : Nat) (history : List Request) (n i : Nat) (r : Pattern),
      ((((p.steps t).behind capacity history).run n).1.map (·.1))[i]? = some r →
      r.depth ≤ w.length + 4 ∧ r.size ≤ 4 * w.length + 3 * (i + 1) := by
  have hstar := StarOfMark.of_gives hw hp
  have hstart : Gathering name w.length p 0 p := .first .start
  have hbounds : ∀ {s : List Char} {r : Pattern}, p.LeavesAfter s r →
      r.depth ≤ w.length + 4 ∧ r.size ≤ 4 * w.length + 3 * s.length := by
    intro s r hr
    have hstate := hstart.after hstar hr
    rw [Nat.zero_add] at hstate
    exact hstate.bounds hstar
  refine ⟨fun r hr => hbounds hr, fun capacity history n i r hr => ?_⟩
  obtain ⟨hi, hafter⟩ := Pattern.leavesAfter_of_steps hr
  have hlength : (t.take (i + 1)).length = i + 1 := List.length_take_of_le hi
  rw [← hlength]
  exact hbounds hafter

/-- Two rounds of two characters and one character more, through a memory that was asked before: the
bound on depth is reached, and without a memory the first character leaves five levels. -/
theorem two_rounds_and_a_character_reach_the_bound_on_depth :
    let build : Build Pattern := do Build.star (← Build.mark "x" (← Build.text ['a', 'b']))
    let p := (build.run 0).1
    let q := ((p.derivative 'a').run 20).1
    let steps :=
      (((p.steps ['a', 'b', 'a', 'b', 'a']).behind 8 [.derive p 'a']).run 20).1.map (·.1)
    let r := steps.getD 4 .fail
    (build.Gives p ∧ p.LeavesAfter ['a'] q ∧ steps[4]? = some r) ∧
      (q.depth ≤ 2 + 4 ∧ q.size ≤ 4 * 2 + 3 * 1) ∧
      (r.depth ≤ 2 + 4 ∧ r.size ≤ 4 * 2 + 3 * 5) ∧
      (q.depth, q.size) = (5, 8) ∧ (r.depth, r.size) = (6, 14) := by
  intro build p q steps r
  have hp : build.Gives p := Build.gives_run _ 0
  have hq : p.LeavesAfter ['a'] q := .cons (.plain (Build.gives_run _ 20)) (.nil q)
  have hr : steps[4]? = some r := by
    have hlength : 4 < steps.length := by decide +kernel
    simp [r, hlength]
  have hplain := (rounds_of_a_marked_text_do_not_deepen_what_is_left (by simp) hp
    ['a']).1 q hq
  have hremembered := (rounds_of_a_marked_text_do_not_deepen_what_is_left (by simp) hp
    ['a', 'b', 'a', 'b', 'a']).2 8 [.derive p 'a'] 20 4 r hr
  exact ⟨⟨hp, hq, hr⟩, hplain, hremembered, by decide +kernel, by decide +kernel⟩

end MarkedRegex
