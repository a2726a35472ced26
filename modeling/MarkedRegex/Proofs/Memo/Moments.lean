-- A memory at work, moment by moment. Differentiating goes into the parts of a
-- node between the question for it and the entry it leaves, so the calls that
-- are still at work stand on one another. A watch keeps all moments at which
-- the memory changes; it does not show, and each moment comes from the one
-- before by one change.
import MarkedRegex.Proofs.Memo.History
import MarkedRegex.Proofs.Parallel
import Mathlib.Data.List.Chain

namespace MarkedRegex

/-! ## Moments -/

/-- A call at work: its node and character, and the memory and the serial number that the work on
the node started from. -/
structure Frame where
  node : Pattern
  char : Char
  memo : Memo
  serial : Nat

/-- What the work on the node gives. -/
def Frame.result (f : Frame) : Pattern := (((f.node.deriveNode f.char).run f.memo).run f.serial).1.1

/-- A memory, and the calls that have missed and are still at work, the latest first. -/
structure Moment where
  pending : List Frame
  memo : Memo

/-- What a call for a derivative can do. A hit is counted. A miss is counted, and the call is at
work from then on, on a smaller node than those before it. The latest call at work stores what it
gives, and is over. -/
inductive Change : Moment → Moment → Prop
  | hit {pending : List Frame} {memo : Memo} {p r : Pattern} {c : Char} :
      memo.find? p c = some r → Change ⟨pending, memo⟩ ⟨pending, memo.countHit⟩
  | miss {pending : List Frame} {memo : Memo} {p : Pattern} {c : Char} (n : Nat) :
      memo.isOn = true → memo.find? p c = none → (∀ f ∈ pending, sizeOf p < sizeOf f.node) →
      Change ⟨pending, memo⟩ ⟨⟨p, c, memo.countMiss, n⟩ :: pending, memo.countMiss⟩
  | store (pending : List Frame) (memo : Memo) (f : Frame) :
      Change ⟨f :: pending, memo⟩ ⟨pending, memo.store f.node f.char f.result⟩

/-- What can happen to a memory: a change by a call, or a clearing between calls. -/
inductive Happening : Moment → Moment → Prop
  | change {s t : Moment} : Change s t → Happening s t
  | clear (memo : Memo) : Happening ⟨[], memo⟩ ⟨[], memo.clear⟩

/-- From one moment to another through those in the list, the last of which is the other one. -/
inductive Passes (R : Moment → Moment → Prop) : Moment → List Moment → Moment → Prop
  | nil (s : Moment) : Passes R s [] s
  | cons {s t u : Moment} {moments : List Moment} : R s t → Passes R t moments u →
      Passes R s (t :: moments) u

namespace Passes

variable {R R' : Moment → Moment → Prop} {s t u : Moment} {before after moments : List Moment}

theorem single (h : R s t) : Passes R s [t] t := .cons h (.nil t)

theorem append (h : Passes R s before t) (h' : Passes R t after u) :
    Passes R s (before ++ after) u := by
  induction h with
  | nil => exact h'
  | cons hstep _ ih => exact .cons hstep (ih h')

theorem imp (himp : ∀ {s t}, R s t → R' s t) (h : Passes R s moments t) :
    Passes R' s moments t := by
  induction h with
  | nil => exact .nil _
  | cons hstep _ ih => exact .cons (himp hstep) ih

/-- What a step keeps, with the moments before it in mind, holds at every moment. -/
theorem keeps (kept : List Moment → Moment → Prop)
    (hstep : ∀ {past s t}, R s t → kept past s → kept (past ++ [s]) t)
    (h : Passes R s moments u) {past : List Moment} (hs : kept past s)
    (hsplit : s :: moments = before ++ t :: after) : kept (past ++ before) t := by
  induction h generalizing past before with
  | nil s =>
    cases before with
    | nil =>
      cases hsplit
      rwa [List.append_nil]
    | cons a before => simp at hsplit
  | cons hfirst _ ih =>
    cases before with
    | nil =>
      cases hsplit
      rwa [List.append_nil]
    | cons a before =>
      obtain ⟨rfl, hrest⟩ := List.cons.inj hsplit
      rw [List.append_cons]
      exact ih (hstep hfirst hs) hrest

/-- What holds of each step, and of steps behind one another, holds of any two moments. -/
theorem pairwise {before : Moment → Moment → Prop}
    (htrans : ∀ {s t u}, before s t → before t u → before s u)
    (hstep : ∀ {s t}, R s t → before s t) (h : Passes R s moments u) :
    (s :: moments).Pairwise before := by
  induction h with
  | nil => exact List.pairwise_singleton _ _
  | cons hfirst _ ih =>
    refine List.pairwise_cons.mpr ⟨?_, ih⟩
    rintro t (_ | ⟨_, ht⟩)
    · exact hstep hfirst
    · exact htrans (hstep hfirst) ((List.pairwise_cons.mp ih).1 t ht)

theorem isChain (h : Passes R s moments u) : (s :: moments).IsChain R := by
  induction h with
  | nil => exact .singleton _
  | cons hfirst _ ih => exact .cons_cons hfirst ih

theorem getLast?_eq (h : Passes R s moments u) : (s :: moments).getLast? = some u := by
  induction h with
  | nil => rfl
  | cons _ _ ih => rw [List.getLast?_cons_cons, ih]

end Passes

/-! ## Watching -/

/-- The calls at work, and the moments there have been since the watch began. -/
structure Watch where
  pending : List Frame
  moments : List Moment

/-- Differentiating under a watch. -/
abbrev Watched := StateT Watch Derive

namespace Watched

/-- Goes on to another moment, which may depend on the next serial number, and keeps it. -/
def become (next : Moment → Nat → Moment) : Watched Unit := fun watch memo n =>
  let moment := next ⟨watch.pending, memo⟩ n
  ((((), ⟨moment.pending, watch.moments ++ [moment]⟩), moment.memo), n)

end Watched

/-- Under a watch, each change of the memory is a moment of its own. -/
instance : MonadDerive Watched where
  look := (get : Derive Memo)
  hit := Watched.become fun now _ => ⟨now.pending, now.memo.countHit⟩
  miss p c := Watched.become fun now n =>
    ⟨⟨p, c, now.memo.countMiss, n⟩ :: now.pending, now.memo.countMiss⟩
  store p c result := Watched.become fun now _ => ⟨now.pending.tail, now.memo.store p c result⟩
  enter work := work
  settle p := p.settle

namespace Watched

/-- The derivative, under a watch. -/
def derive (p : Pattern) (c : Char) : Watched Pattern := p.deriveIn Watched c

/-! ## The watch does not show -/

/-- While some calls are at work, an action does what the other one does, and the watch shows how
the memory gets from the one moment to the other. -/
def Shows (R : Moment → Moment → Prop) (pending : List Frame) {α : Type} (watched : Watched α)
    (act : Derive α) : Prop :=
  ∀ (moments : List Moment) (memo : Memo) (n : Nat) x watch memo' n',
    ((watched.run ⟨pending, moments⟩).run memo).run n = (((x, watch), memo'), n') →
    (act.run memo).run n = ((x, memo'), n') ∧
    ∃ new, watch = ⟨pending, moments ++ new⟩ ∧ Passes R ⟨pending, memo⟩ new ⟨pending, memo'⟩

theorem run_remember (p : Pattern) (c : Char) (work : Watched Pattern) (watch : Watch)
    (memo : Memo) : ((MonadDerive.remember p c work).run watch).run memo =
      ((MonadDerive.answer memo p c work).run watch).run memo := rfl

theorem run_workOut (p : Pattern) (c : Char) (work : Watched Pattern) (pending : List Frame)
    (moments : List Moment) (memo : Memo) (n : Nat) :
    let now : Moment := ⟨⟨p, c, memo.countMiss, n⟩ :: pending, memo.countMiss⟩
    (((MonadDerive.workOut p c work).run ⟨pending, moments⟩).run memo).run n =
      match ((work.run ⟨now.pending, moments ++ [now]⟩).run now.memo).run n with
      | (((r, watch), memo'), n') =>
        let next : Moment := ⟨watch.pending.tail, memo'.store p c r⟩
        (((r, ⟨next.pending, watch.moments ++ [next]⟩), next.memo), n') := rfl

variable {α β : Type} {R R' : Moment → Moment → Prop} {pending : List Frame}

theorem shows_pure (x : α) : Shows R pending (pure x) (pure x) := by
  intro moments memo n x' watch memo' n' hrun
  cases hrun
  exact ⟨rfl, [], by rw [List.append_nil], .nil _⟩

/-- Building changes nothing in the memory. -/
theorem shows_build (act : Build α) : Shows R pending (liftM act) (liftM act) := by
  intro moments memo n x watch memo' n' hrun
  cases hrun
  exact ⟨rfl, [], by rw [List.append_nil], .nil _⟩

theorem Shows.bind {watched : Watched α} {act : Derive α} {f : α → Watched β} {g : α → Derive β}
    (h : Shows R pending watched act) (hf : ∀ x, Shows R pending (f x) (g x)) :
    Shows R pending (watched >>= f) (act >>= g) := by
  intro moments memo n x watch memo' n' hrun
  rcases hfirst : ((watched.run ⟨pending, moments⟩).run memo).run n with
    ⟨⟨⟨x₁, watch₁⟩, memo₁⟩, n₁⟩
  rw [StateT.run_bind, StateT.run_bind, StateT.run_bind, hfirst] at hrun
  obtain ⟨hact, new₁, rfl, hpasses₁⟩ := h moments memo n x₁ watch₁ memo₁ n₁ hfirst
  obtain ⟨hrest, new₂, rfl, hpasses₂⟩ := hf x₁ _ memo₁ n₁ x watch memo' n' hrun
  refine ⟨?_, new₁ ++ new₂, by rw [List.append_assoc], hpasses₁.append hpasses₂⟩
  rw [StateT.run_bind, StateT.run_bind, hact]
  exact hrest

theorem Shows.imp (himp : ∀ {s t}, R s t → R' s t) {watched : Watched α} {act : Derive α}
    (h : Shows R pending watched act) : Shows R' pending watched act := by
  intro moments memo n x watch memo' n' hrun
  obtain ⟨hact, new, hwatch, hpasses⟩ := h moments memo n x watch memo' n' hrun
  exact ⟨hact, new, hwatch, hpasses.imp himp⟩

/-- A call goes from its question to its entry through the moments of the work on its node. -/
theorem shows_remember {p : Pattern} {c : Char} {work : Watched Pattern}
    (hsmall : ∀ f ∈ pending, sizeOf p < sizeOf f.node)
    (hwork : ∀ pending, (∀ f ∈ pending, sizeOf p ≤ sizeOf f.node) →
      Shows Change pending work (p.deriveNode c)) :
    Shows Change pending (MonadDerive.remember p c work)
      (MonadDerive.remember p c (p.deriveNode c)) := by
  intro moments memo n x watch memo' n' hrun
  rw [run_remember] at hrun
  rw [Derive.run_remember]
  rcases memo.hit_or_miss_or_off p c with ⟨found, hfind⟩ | ⟨hon, hfind⟩ | hoff
  · rw [MonadDerive.answer_of_hit hfind] at hrun ⊢
    cases hrun
    exact ⟨rfl, _, rfl, .single (.hit hfind)⟩
  · rw [MonadDerive.answer_of_miss hon hfind] at hrun ⊢
    let frame : Frame := ⟨p, c, memo.countMiss, n⟩
    have hpending : ∀ f ∈ frame :: pending, sizeOf p ≤ sizeOf f.node :=
      List.forall_mem_cons.mpr ⟨Nat.le_refl _, fun f hf => Nat.le_of_lt (hsmall f hf)⟩
    rcases hbody : ((work.run ⟨frame :: pending, moments ++ [⟨frame :: pending,
      memo.countMiss⟩]⟩).run memo.countMiss).run n with ⟨⟨⟨r, watch₁⟩, memo₁⟩, n₁⟩
    obtain ⟨hact, new, rfl, hpasses⟩ := hwork _ hpending _ _ n r watch₁ memo₁ n₁ hbody
    rw [run_workOut, hbody] at hrun
    rw [Derive.run_workOut, hact]
    cases hrun
    have hresult : frame.result = x := by
      show (((p.deriveNode c).run memo.countMiss).run n).1.1 = x
      rw [hact]
    have hstart : Passes Change ⟨pending, memo⟩ [⟨frame :: pending, memo.countMiss⟩]
        ⟨frame :: pending, memo.countMiss⟩ := .single (.miss n hon hfind hsmall)
    have hstop : Passes Change ⟨frame :: pending, memo₁⟩ [⟨pending, memo₁.store p c x⟩]
        ⟨pending, memo₁.store p c x⟩ := by
      rw [← hresult]
      exact .single (.store pending memo₁ frame)
    refine ⟨rfl, _, ?_, (hstart.append hpasses).append hstop⟩
    simp only [List.append_assoc, List.tail_cons]
  · rw [MonadDerive.answer_of_off hoff] at hrun ⊢
    have hpending : ∀ f ∈ pending, sizeOf p ≤ sizeOf f.node := fun f hf => (hsmall f hf).le
    exact hwork pending hpending moments memo n x watch memo' n' hrun

theorem shows_ask {p : Pattern} {c : Char} {work : Watched Pattern}
    (hsmall : ∀ f ∈ pending, sizeOf p < sizeOf f.node)
    (hwork : ∀ pending, (∀ f ∈ pending, sizeOf p ≤ sizeOf f.node) →
      Shows Change pending work (p.deriveNode c)) :
    Shows Change pending (MonadDerive.ask p c work) (p.derive c) := by
  unfold Pattern.derive Pattern.deriveIn MonadDerive.ask
  split
  · exact shows_pure _
  · split
    · exact hwork pending fun f hf => Nat.le_of_lt (hsmall f hf)
    · exact shows_remember hsmall hwork

/-- In the work on a pattern, all calls at work are on nodes as large at least. So the questions for
its inner patterns, which are smaller, are related. -/
abbrev watching : Parallel Watched Derive where
  Related p watched act := ∀ pending : List Frame,
    (∀ f ∈ pending, sizeOf p ≤ sizeOf f.node) → Shows Change pending watched act
  pure x _ _ := shows_pure x
  build act _ _ := shows_build act
  bind h hf pending hsmall := (h pending hsmall).bind fun x => hf x pending hsmall
  ask hq hwork _ hsmall := shows_ask
    (fun f hf => Nat.lt_of_lt_of_le (Pattern.sizeOf_lt_of_mem_inners hq) (hsmall f hf)) hwork
  settle _ _ _ := shows_build _

theorem shows_derive (p : Pattern) (c : Char) {pending : List Frame}
    (hsmall : ∀ f ∈ pending, sizeOf p < sizeOf f.node) :
    Shows Change pending (derive p c) (p.derive c) :=
  shows_ask hsmall (watching.deriveNodeIn p c)

end Watched

/-! ## The moments of a history -/

namespace Request

/-- Serves a request under a watch. -/
def watch : Request → Watched Unit
  | .derive p c => do
    let _ ← Watched.derive p c
    return
  | .clear => Watched.become fun now _ => ⟨now.pending, now.memo.clear⟩
  | .build act => do
    let _ ← act
    return

def watchAll : List Request → Watched Unit
  | [] => return
  | q :: history => do
    q.watch
    watchAll history

theorem watch_shows (q : Request) : Watched.Shows Happening [] q.watch q.serve := by
  cases q with
  | derive p c =>
    have hderive : Watched.Shows Change [] (Watched.derive p c) (p.derive c) :=
      Watched.shows_derive p c nofun
    exact (hderive.imp .change).bind fun _ => Watched.shows_pure ()
  | clear =>
    intro moments memo n x watch memo' n' hrun
    cases hrun
    exact ⟨rfl, _, rfl, .single (.clear memo)⟩
  | build act => exact (Watched.shows_build act).bind fun _ => Watched.shows_pure ()

theorem watchAll_shows (history : List Request) :
    Watched.Shows Happening [] (watchAll history) (serveAll history) := by
  induction history with
  | nil => exact Watched.shows_pure ()
  | cons q history ih => exact q.watch_shows.bind fun _ => ih

/-- The memory of some capacity behind a history. -/
def memoBehind (capacity : Nat) (history : List Request) (n : Nat) : Memo :=
  (((serveAll history).run (.ofCapacity capacity)).run n).1.2

/-- All moments of a history, from the fresh memory on. -/
def moments (capacity : Nat) (history : List Request) (n : Nat) : List Moment :=
  ⟨[], .ofCapacity capacity⟩ ::
    ((((watchAll history).run ⟨[], []⟩).run (.ofCapacity capacity)).run n).1.1.2.moments

/-- The moments follow one another, from the fresh memory up to the one that the history leaves. -/
theorem passes_moments (capacity : Nat) (history : List Request) (n : Nat) :
    ∃ later, moments capacity history n = ⟨[], .ofCapacity capacity⟩ :: later ∧
      Passes Happening ⟨[], .ofCapacity capacity⟩ later ⟨[], memoBehind capacity history n⟩ := by
  unfold moments memoBehind
  rcases hrun : (((watchAll history).run ⟨[], []⟩).run (.ofCapacity capacity)).run n with
    ⟨⟨⟨x, watch⟩, memo⟩, n'⟩
  obtain ⟨hserve, later, rfl, hpasses⟩ := watchAll_shows history _ _ n x watch memo n' hrun
  rw [hserve]
  exact ⟨later, rfl, hpasses⟩

end Request

end MarkedRegex
