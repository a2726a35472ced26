-- The law of depth: it bounds how far differentiating goes down. Work that may
-- go down a number of levels, and gives up below them, does not give up when it
-- may go down as many levels as the pattern is deep, whatever is remembered.
import MarkedRegex.Expr
import MarkedRegex.Proofs.Parallel

namespace MarkedRegex

/-! ## Work that may give up -/

/-- The work does not give up, and does what `plain` does. -/
def Completes {m : Type → Type} [Monad m] {α : Type} (work : OptionT m α) (plain : m α) : Prop :=
  work.run = some <$> plain

namespace Completes

section

variable {m : Type → Type} [Monad m] [LawfulMonad m] {α β : Type}

theorem pure (x : α) : Completes (Pure.pure x : OptionT m α) (Pure.pure x) :=
  (map_pure some x).symm

theorem lift (plain : m α) : Completes (liftM plain : OptionT m α) plain :=
  (map_eq_pure_bind some plain).symm

theorem bind {work : OptionT m α} {plain : m α} {f : α → OptionT m β} {g : α → m β}
    (h : Completes work plain) (hf : ∀ x, Completes (f x) (g x)) :
    Completes (work >>= f) (plain >>= g) := by
  have hrun : ∀ x, (f x).run = some <$> g x := hf
  unfold Completes at h ⊢
  rw [OptionT.run_bind, h, map_bind]
  simp [hrun]

end

end Completes

/-! ## Going down some levels -/

/-- Work that is given a number of levels to go down. -/
abbrev Levelled (m : Type → Type) := ReaderT Nat (OptionT m)

/-- Does some work one level down, and gives up where there is none. -/
def Levelled.down {m : Type → Type} [Monad m] {α : Type} (work : Levelled m α) : Levelled m α :=
  fun levels =>
    match levels with
    | 0 => failure
    | levels + 1 => work.run levels

namespace Pattern

/-- Keeps the empty matches of a pattern alone, rebuilding at most so many levels of it. -/
def settleWithin (levels : Nat) (p : Pattern) : OptionT Build Pattern :=
  (p.settleBy Levelled.down : Levelled Build Pattern).run levels

end Pattern

/-- Going into a node goes one level down. What the memory does takes none. -/
instance : MonadDerive (Levelled Derive) where
  look := (MonadDerive.look : Derive Memo)
  hit := (MonadDerive.hit : Derive Unit)
  miss p c := (MonadDerive.miss p c : Derive Unit)
  store p c result := (MonadDerive.store p c result : Derive Unit)
  enter := .down
  settle p levels := OptionT.mk (liftM (p.settleWithin levels).run)

/-- What is left of a pattern after `c`, where at most so many nodes are gone into below one
another. To find a derivative that is remembered, no node is gone into. -/
def Pattern.deriveWithin (levels : Nat) (p : Pattern) (c : Char) : OptionT Derive Pattern :=
  (p.deriveIn (Levelled Derive) c).run levels

/-! ## Depth where a node consumes -/

namespace Pattern

theorem depth_pos (p : Pattern) : 0 < p.depth := by
  cases p with
  | empty | fail | any | charSet | negatedSet => exact Nat.one_pos
  | sequence | alternation | star | mark =>
    rw [depth]
    split <;> exact Nat.succ_pos _

/-- A node is deeper than its inner patterns that still take in characters. -/
theorem depth_lt_of_mem_inners {p q : Pattern} (h : q ∈ p.inners) (hq : q.consumes = true) :
    q.depth < p.depth := by
  cases p with
  | empty | fail | any | charSet | negatedSet => cases h
  | sequence k left right | alternation k left right =>
    rcases List.mem_cons.mp h with rfl | h
    · simp only [depth, hq, Bool.true_or, if_true]
      omega
    · obtain rfl := List.mem_singleton.mp h
      simp only [depth, hq, Bool.or_true, if_true]
      omega
  | star k inner | mark k name buffer inner =>
    obtain rfl := List.mem_singleton.mp h
    simp only [depth, hq, if_true]
    omega

end Pattern

/-! ## Enough levels -/

namespace Completes

variable {p q : Pattern} {levels : Nat}

/-- With as many levels as a node is deep, there is one to go down for the work on it. -/
theorem down {m : Type → Type} [Monad m] {α : Type} {work : Levelled m α} {plain : m α}
    (h : p.depth ≤ levels)
    (hwork : ∀ levels, p.depth ≤ levels + 1 → Completes (work.run levels) plain) :
    Completes (work.down.run levels) plain := by
  cases levels with
  | zero =>
    have hpos := p.depth_pos
    omega
  | succ levels => exact hwork levels h

/-- A level further down, there still are as many as an inner pattern is deep. -/
theorem enough (hq : q ∈ p.inners) (h : p.depth ≤ levels + 1) (hc : q.consumes = true) :
    q.depth ≤ levels := by
  have hlt := Pattern.depth_lt_of_mem_inners hq hc
  omega

/-- What needs no rebuilding is settled with no level to go down. -/
theorem settleWith {work : Levelled Build Pattern} {plain : Build Pattern}
    (h : p.consumes = true → Completes (work.run levels) plain) :
    Completes ((p.settleWith work).run levels) (p.settleWith plain) := by
  unfold Pattern.settleWith
  split
  · exact pure _
  · split
    · exact pure _
    · split
      · exact pure _
      · next hc => exact h (by simpa using hc)

theorem settle (h : p.consumes = true → p.depth ≤ levels) :
    Completes (p.settleWithin levels) p.settle := by
  induction p generalizing levels with
  | empty | fail | any | charSet | negatedSet => exact settleWith fun _ => pure _
  | sequence k left right ihl ihr =>
    refine settleWith fun hc => down (h hc) fun levels h => ?_
    refine (ihl (enough List.mem_cons_self h)).bind fun head => ?_
    exact (ihr (enough (List.mem_cons_of_mem _ List.mem_cons_self) h)).bind fun tail => lift _
  | alternation k left right ihl ihr =>
    refine settleWith fun hc => down (h hc) fun levels h => ?_
    refine (ihl (enough List.mem_cons_self h)).bind fun head => ?_
    exact (ihr (enough (List.mem_cons_of_mem _ List.mem_cons_self) h)).bind fun tail => lift _
  | star k inner ih =>
    refine settleWith fun hc => down (h hc) fun levels h => ?_
    exact (ih (enough List.mem_cons_self h)).bind fun rest => lift _
  | mark k name buffer inner ih =>
    refine settleWith fun hc => down (h hc) fun levels h => ?_
    exact (ih (enough List.mem_cons_self h)).bind fun rest => lift _

/-- Building that does not give up does not do so as a part of differentiating. -/
theorem lifted {α : Type} {work : OptionT Build α} {plain : Build α} (h : Completes work plain) :
    Completes (OptionT.mk (liftM work.run) : OptionT Derive α) (liftM plain) := by
  unfold Completes at h ⊢
  rw [OptionT.run_mk, h]
  rfl

theorem remember {c : Char} {work : Levelled Derive Pattern} {plain : Derive Pattern}
    (h : Completes (work.run levels) plain) :
    Completes ((MonadDerive.remember p c work).run levels) (MonadDerive.remember p c plain) := by
  refine (lift (MonadDerive.look : Derive Memo)).bind fun memo => ?_
  show Completes ((MonadDerive.answer memo p c work).run levels) _
  rcases memo.hit_or_miss_or_off p c with ⟨found, hfind⟩ | ⟨hon, hfind⟩ | hoff
  · rw [MonadDerive.answer_of_hit hfind, MonadDerive.answer_of_hit hfind]
    exact (lift (MonadDerive.hit : Derive Unit)).bind fun _ => pure found
  · rw [MonadDerive.answer_of_miss hon hfind, MonadDerive.answer_of_miss hon hfind]
    have hmiss := lift (MonadDerive.miss p c : Derive Unit)
    have hstore := fun result => lift (MonadDerive.store p c result : Derive Unit)
    exact hmiss.bind fun _ => h.bind fun result => (hstore result).bind fun _ => pure result
  · rw [MonadDerive.answer_of_off hoff, MonadDerive.answer_of_off hoff]
    exact h

theorem ask {c : Char} {work : Levelled Derive Pattern} {plain : Derive Pattern}
    (h : p.consumes = true → p.depth ≤ levels)
    (hwork : ∀ levels, p.depth ≤ levels + 1 → Completes (work.run levels) plain) :
    Completes ((MonadDerive.ask p c work).run levels) (MonadDerive.ask p c plain) := by
  unfold MonadDerive.ask
  split
  · exact pure _
  · next hc =>
    have hdown := down (h (by simpa using hc)) hwork
    split
    · exact hdown
    · exact hdown.remember

/-- In the work on a pattern, there are as many levels as it is deep, but for the one it took to go
into it. -/
abbrev goingDown : Parallel (Levelled Derive) Derive where
  Related p work plain := ∀ levels : Nat, p.depth ≤ levels + 1 → Completes (work.run levels) plain
  pure x _ _ := pure x
  build act _ _ := lift (liftM act : Derive _)
  bind h hf levels hlevels := (h levels hlevels).bind fun x => hf x levels hlevels
  ask hq hwork _ hlevels := ask (enough hq hlevels) hwork
  settle hq _ hlevels := (settle (enough hq hlevels)).lifted

end Completes

namespace Pattern

/-! ## The law -/

/-- As many levels as a pattern is deep are enough to differentiate it, with any memory and whatever
that remembers, and to settle it: the work does not give up, and does what it does without a bound
on levels. -/
theorem depth_bounds_how_far_work_goes_down (p : Pattern) :
    (∀ c, (p.deriveWithin p.depth c).run = some <$> p.derive c) ∧
    (p.settleWithin p.depth).run = some <$> p.settle :=
  ⟨fun c => Completes.ask (fun _ => p.depth.le_refl) (Completes.goingDown.deriveNodeIn p c),
    Completes.settle fun _ => p.depth.le_refl⟩

-- The marks in front count as one level, and with a level less than the depth the work gives up.
example :
    let e := Expr.sequence (.mark "x" (.mark "y" (.mark "z" .empty))) (.text ['a', 'b'])
    let p := ((e.build {}).run 0).1
    let found := fun levels => (((p.deriveWithin levels 'a').run.run .off).run 9).1.1
    p.depth = 3 ∧ (found 3).isSome ∧ found 2 = none := by
  decide +kernel

end Pattern

end MarkedRegex
