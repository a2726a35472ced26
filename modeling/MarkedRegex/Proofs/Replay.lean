-- The law of warm memories: as long as there were no more misses than the
-- capacity, each call that was made is answered again from the table alone, with
-- the same answer or the same error, and through the same nodes.
import MarkedRegex.Proofs.Memo.Unflushed
import MarkedRegex.Proofs.Visits

namespace MarkedRegex

/-! ## Runs behind which a warm memory replays -/

/-- The memories differ in the counts of hits alone. -/
def Memo.OnlyHits (m m' : Memo) : Prop := m'.table = m.table ∧ m'.misses = m.misses

namespace Memo

variable {m m' m'' : Memo}

theorem OnlyHits.refl (m : Memo) : m.OnlyHits m := ⟨rfl, rfl⟩

theorem OnlyHits.trans (h : m.OnlyHits m') (h' : m'.OnlyHits m'') : m.OnlyHits m'' :=
  ⟨h'.1.trans h.1, h'.2.trans h.2⟩

theorem Within.of_onlyHits (h : m.Within m') (hhits : m'.OnlyHits m'') : m.Within m'' := by
  intro p c r hfind
  rw [find?, hhits.1]
  exact h p c r hfind

end Memo

namespace Pattern

variable {p r : Pattern} {c : Char} {memo memo' warm : Memo} {n n' : Nat}

/-- A node that is not remembered gives the same from any memory, and leaves that as it is. -/
theorem exists_derive_eq_pure (h : p.consumes = false ∨ p.isLeaf = true) (c : Char) :
    ∃ r, p.derive c = pure r := by
  rcases h with h | h
  · exact ⟨.fail, MonadDerive.ask_of_not_consumes h⟩
  · cases p with
    | empty | fail | any | charSet | negatedSet => exact ⟨_, rfl⟩
    | sequence | alternation | star | mark => cases h

/-- Behind its run, with room for all misses, a node that is asked for again gives the same, from
any memory that finds what the first run left there. -/
theorem derive_replays (hrun : ((p.derive c).run memo).run n = ((r, memo'), n'))
    (h : memo.Complete) (hroom : memo'.HasRoom) (hwarm : memo'.Within warm) (k : Nat) :
    ∃ warm', ((p.derive c).run warm).run k = ((r, warm'), k) ∧ warm.OnlyHits warm' := by
  by_cases hplain : p.consumes = false ∨ p.isLeaf = true
  · obtain ⟨r', hpure⟩ := exists_derive_eq_pure hplain c
    rw [hpure] at hrun ⊢
    cases hrun
    exact ⟨warm, rfl, .refl _⟩
  · obtain ⟨hconsumes, hleaf⟩ := not_or.mp hplain
    rw [Bool.not_eq_false] at hconsumes
    rw [Bool.not_eq_true] at hleaf
    have hfind := hwarm p c r (find?_of_derive hrun hconsumes hleaf h hroom)
    rw [run_derive_of_find? hconsumes hleaf hfind]
    exact ⟨warm.countHit, rfl, rfl, rfl⟩

end Pattern

namespace Logged

variable {α β : Type}

/-- The first run adds to its memory what it misses. Where there was an entry for each miss and
still is room for all, nothing is lost, and the other action, run from any memory that finds what
the first one left, agrees with it, has the same on record, and only counts hits. -/
def Replays (first again : Logged α) (related : α → α → Prop) : Prop :=
  ∀ past memo n answer record memo' n',
    first.runFrom past memo n = (((answer, record), memo'), n') →
    ∃ answer', Agree related answer answer' ∧ memo.Grows memo' ∧
      (memo.Complete → memo'.HasRoom → memo'.Complete ∧ memo.Within memo' ∧
        ∀ (warm : Memo) (k : Nat), memo'.Within warm → ∃ warm' k',
          again.runFrom past warm k = (((answer', record), warm'), k') ∧ warm.OnlyHits warm')

variable {related : α → α → Prop} {related' : β → β → Prop}

theorem replays_pure {x y : α} (h : related x y) : Replays (pure x) (pure y) related := by
  intro past memo n answer record memo' n' hrun
  cases hrun
  exact ⟨.ok y, .ok h, .refl _, fun hcomplete _ =>
    ⟨hcomplete, .refl _, fun warm k _ => ⟨warm, k, rfl, .refl _⟩⟩⟩

theorem Replays.bind {first again : Logged α} {f g : α → Logged β}
    (h : Replays first again related)
    (hf : ∀ x y, related x y → Replays (f x) (g y) related') :
    Replays (first >>= f) (again >>= g) related' := by
  intro past memo n answer record memo' n' hrun
  rcases hact : first.runFrom past memo n with ⟨⟨⟨answer₁, record₁⟩, memo₁⟩, n₁⟩
  obtain ⟨answer₁', hagree, hgrows₁, hreplay₁⟩ := h past memo n answer₁ record₁ memo₁ n₁ hact
  rw [runFrom_bind, hact] at hrun
  cases hagree with
  | error e =>
    cases hrun
    refine ⟨.error e, .error e, hgrows₁, fun hcomplete hroom => ?_⟩
    obtain ⟨hcomplete₁, hwithin₁, hagain⟩ := hreplay₁ hcomplete hroom
    refine ⟨hcomplete₁, hwithin₁, fun warm k hwarm => ?_⟩
    obtain ⟨warm', k', hrun', hhits⟩ := hagain warm k hwarm
    exact ⟨warm', k', by rw [runFrom_bind, hrun'], hhits⟩
  | @ok x y hxy =>
    obtain ⟨answer', hagree', hgrows₂, hreplay₂⟩ :=
      hf x y hxy record₁ memo₁ n₁ answer record memo' n' hrun
    refine ⟨answer', hagree', hgrows₁.trans hgrows₂, fun hcomplete hroom => ?_⟩
    obtain ⟨hcomplete₁, hwithin₁, hagain₁⟩ := hreplay₁ hcomplete (hgrows₂.hasRoom hroom)
    obtain ⟨hcomplete₂, hwithin₂, hagain₂⟩ := hreplay₂ hcomplete₁ hroom
    refine ⟨hcomplete₂, hwithin₁.trans hwithin₂, fun warm k hwarm => ?_⟩
    obtain ⟨warm₁, k₁, hrun₁, hhits₁⟩ := hagain₁ warm k (hwithin₂.trans hwarm)
    obtain ⟨warm₂, k₂, hrun₂, hhits₂⟩ := hagain₂ warm₁ k₁ (hwarm.of_onlyHits hhits₁)
    exact ⟨warm₂, k₂, by rw [runFrom_bind, hrun₁]; exact hrun₂, hhits₁.trans hhits₂⟩

/-- A step from the same node replays, be it refused or not. -/
theorem replays_step (l : Limits) (p : Pattern) (c : Char) :
    Replays (step l p c) (step l p c) fun r r' => r' = r := by
  intro past memo n answer record memo' n' hrun
  rcases hderive : ((p.derive c).run memo).run n with ⟨⟨r, memo₁⟩, n₁⟩
  rw [runFrom_step, hderive] at hrun
  cases hrun
  refine ⟨(l.check r).map fun _ => r, ?_, Pattern.derive_grows hderive, fun hcomplete hroom => ?_⟩
  · cases l.check r with
    | error e => exact .error e
    | ok _ => exact .ok rfl
  · obtain ⟨hcomplete', hwithin⟩ := Pattern.derive_complete hderive hcomplete hroom
    refine ⟨hcomplete', hwithin, fun warm k hwarm => ?_⟩
    obtain ⟨warm', hagain, hhits⟩ := Pattern.derive_replays hderive hcomplete hroom hwarm k
    exact ⟨warm', k, by rw [runFrom_step, hagain], hhits⟩

/-- A logged action and its repetition are in step. -/
abbrev replaying : Lockstep Unit (· = ·) Logged Logged where
  Related _ first again related := Replays first again (related ())
  pure := replays_pure
  bind h hf := h.bind fun x y hxy => hf () x y rfl hxy

theorem replaying_steps (l : Limits) :
    replaying.Steps (step l) (step l) fun _ p p' => p' = p where
  related := by
    intro _ p p' h c
    rw [h]
    exact replays_step l p c
  mono h _ := h
  isFail_eq h := congrArg Pattern.isFail h
  captured_eq h := congrArg Pattern.captured h

end Logged

/-! ## Calls -/

namespace Matcher

variable {m : Matcher}

/-- A question goes on from the memory of its matcher and leaves the rest as it is. -/
theorem ask_eq (m : Matcher) (q : Call) : m.ask q =
    ((m.log q).1.1.1, { m with memo := (m.log q).1.2, serial := (m.log q).2 }) :=
  ask_eq_of_log rfl

/-- What is asked once, with room for all misses, is asked again from the table alone. -/
theorem ask_replays (m : Matcher) (q : Call) :
    m.memo.Grows (m.ask q).2.memo ∧
      (m.memo.Complete → (m.ask q).2.memo.HasRoom →
        (m.ask q).2.memo.Complete ∧ m.memo.Within (m.ask q).2.memo ∧
        ∀ warm : Matcher, warm.pattern = m.pattern → warm.limits = m.limits →
          (m.ask q).2.memo.Within warm.memo → (warm.ask q).1 = (m.ask q).1 ∧
            warm.visits q = m.visits q ∧ warm.memo.OnlyHits (warm.ask q).2.memo) := by
  rcases hlog : m.log q with ⟨⟨⟨answer, record⟩, memo⟩, n⟩
  obtain ⟨answer', hagree, hgrows, hreplay⟩ := (Logged.replaying_steps m.limits).call (w := ())
    (rfl : m.pattern = m.pattern) q [] m.memo m.serial answer record memo n hlog
  obtain rfl := hagree.eq
  rw [ask_eq_of_log hlog]
  refine ⟨hgrows, fun hcomplete hroom => ?_⟩
  obtain ⟨hcomplete', hwithin, hagain⟩ := hreplay hcomplete hroom
  refine ⟨hcomplete', hwithin, fun warm hpattern hlimits hwarm => ?_⟩
  obtain ⟨memo'', n'', hrun, hhits⟩ := hagain warm.memo warm.serial hwarm
  have hlog' : warm.log q = (((answer', record), memo''), n'') := by
    unfold log
    rw [hpattern, hlimits]
    exact hrun
  rw [ask_eq_of_log hlog']
  refine ⟨rfl, ?_, hhits⟩
  rw [visits, visits, hlog, hlog']

theorem askAll_append (m : Matcher) (before after : List Call) :
    m.askAll (before ++ after) = (m.askAll before).askAll after :=
  List.foldl_append

theorem askAll_cons (m : Matcher) (q : Call) (after : List Call) :
    m.askAll (q :: after) = (m.ask q).2.askAll after := rfl

/-- Questions leave the pattern and the limits as they are. -/
theorem bound_askAll (m : Matcher) (calls : List Call) :
    (m.askAll calls).pattern = m.pattern ∧ (m.askAll calls).limits = m.limits := by
  induction calls generalizing m with
  | nil => exact ⟨rfl, rfl⟩
  | cons q calls ih =>
    obtain ⟨hpattern, hlimits⟩ := ih (m.ask q).2
    rw [askAll_cons, hpattern, hlimits, ask_eq]
    exact ⟨rfl, rfl⟩

theorem askAll_grows (m : Matcher) (calls : List Call) :
    m.memo.Grows (m.askAll calls).memo := by
  induction calls generalizing m with
  | nil => exact .refl _
  | cons q calls ih => exact (m.ask_replays q).1.trans (ih (m.ask q).2)

theorem askAll_complete (calls : List Call) (h : m.memo.Complete)
    (hroom : (m.askAll calls).memo.HasRoom) :
    (m.askAll calls).memo.Complete ∧ m.memo.Within (m.askAll calls).memo := by
  induction calls generalizing m with
  | nil => exact ⟨h, .refl _⟩
  | cons q calls ih =>
    have hfirst := ((m.ask q).2.askAll_grows calls).hasRoom hroom
    obtain ⟨hcomplete, hwithin, -⟩ := (m.ask_replays q).2 h hfirst
    obtain ⟨hcomplete', hwithin'⟩ := ih hcomplete hroom
    exact ⟨hcomplete', hwithin.trans hwithin'⟩

/-! ## The law -/

/-- A matcher that remembers, and has been asked some questions with no more misses than its
capacity, has an entry for each miss and has lost none. If it is asked one of them again, the answer
is the one of the first time, or else the same error; the call goes through the same nodes, and
neither a miss nor an entry is added. -/
theorem a_memory_with_room_for_all_misses_replays (p : Pattern) (limits : Limits)
    (hremember : limits.remember = true) (calls : List Call)
    (hroom : ((ofPattern p limits).askAll calls).memo.misses ≤ limits.capacity) :
    let warm := (ofPattern p limits).askAll calls
    warm.memo.entryCount = warm.memo.misses ∧
    ∀ before q after, calls = before ++ q :: after →
      let first := (ofPattern p limits).askAll before
      first.memo.entryCount = first.memo.misses ∧ first.memo.Within warm.memo ∧
      (warm.ask q).1 = (first.ask q).1 ∧ warm.visits q = first.visits q ∧
      (warm.ask q).2.memo.table = warm.memo.table ∧
      (warm.ask q).2.memo.misses = warm.memo.misses ∧
      (warm.ask q).2.memo.entryCount = warm.memo.entryCount := by
  intro warm
  have hmemo : (ofPattern p limits).memo = .ofCapacity limits.capacity := by
    show limits.memo = _
    rw [Limits.memo, if_pos hremember]
  have hfresh : (ofPattern p limits).memo.Complete := by
    rw [hmemo]
    exact Memo.complete_ofCapacity _
  have hwarmRoom : warm.memo.HasRoom := by
    have hgrows := (ofPattern p limits).askAll_grows calls
    rw [hmemo] at hgrows
    rw [Memo.HasRoom, hgrows.1]
    exact hroom
  have hcount {m : Memo} (h : m.Complete) : m.entryCount = m.misses := h.misses_eq
  refine ⟨hcount (askAll_complete calls hfresh hwarmRoom).1, ?_⟩
  rintro before q after rfl first
  have hwarm : warm = (first.ask q).2.askAll after := askAll_append _ _ _
  have hafterRoom : (first.ask q).2.memo.HasRoom := by
    rw [hwarm] at hwarmRoom
    exact ((first.ask q).2.askAll_grows after).hasRoom hwarmRoom
  have hfirstRoom := (first.ask_replays q).1.hasRoom hafterRoom
  obtain ⟨hfirst, -⟩ := askAll_complete before hfresh hfirstRoom
  obtain ⟨hafter, hwithin, hagain⟩ := (first.ask_replays q).2 hfirst hafterRoom
  obtain ⟨-, hlater⟩ := askAll_complete after hafter (by rwa [← hwarm])
  rw [← hwarm] at hlater
  obtain ⟨hpattern, hlimits⟩ := (first.ask q).2.bound_askAll after
  rw [← hwarm, ask_eq] at hpattern hlimits
  obtain ⟨hanswer, hvisits, htable, hmisses⟩ := hagain warm hpattern hlimits hlater
  refine ⟨hcount hfirst, hwithin.trans hlater, hanswer, hvisits, htable, hmisses, ?_⟩
  rw [Memo.entryCount, htable, Memo.entryCount]

/-- A star of marks that may reach six nodes: the question it gives up on is refused again from the
table alone. -/
theorem a_refusal_is_found_in_the_table :
    let p := (((Expr.star (.mark "x" .any)).buildBehind []).run 0).1
    let limits : Limits := { maxSize := some 6, capacity := 8 }
    let refused := Call.matchWhole ['a', 'b']
    let calls := [refused, .matchWhole ['a']]
    limits.remember = true ∧
      ((ofPattern p limits).askAll calls).memo.misses ≤ limits.capacity ∧
      ((ofPattern p limits).ask refused).1 = .error (.tooLarge 9 6) ∧
      (((ofPattern p limits).askAll calls).ask refused).1 = .error (.tooLarge 9 6) := by
  intro p limits refused calls
  have hroom : ((ofPattern p limits).askAll calls).memo.misses ≤ limits.capacity := by
    decide +kernel
  have hrefused : ((ofPattern p limits).matchWhole ['a', 'b']).1 = .error (.tooLarge 9 6) := by
    decide +kernel
  have hlaw := a_memory_with_room_for_all_misses_replays p limits rfl calls hroom
  obtain ⟨-, -, hanswer, -⟩ := hlaw.2 [] refused [.matchWhole ['a']] rfl
  exact ⟨rfl, hroom, hrefused, hanswer.trans hrefused⟩

end Matcher

end MarkedRegex
