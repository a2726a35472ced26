-- Derivatives without a memory. With the memory off, work is a build, so the
-- derivative is one that goes through the pattern part by part, finds nothing
-- and stores nothing.
import MarkedRegex.Proofs.Parallel

namespace MarkedRegex

/-! ## Work as a build -/

namespace Derive

variable {α β : Type}

/-- With its memory off, `act` does what `build` does, and the memory stays off. -/
def Builds (act : Derive α) (build : Build α) : Prop :=
  act.run .off = (fun x => (x, Memo.off)) <$> build

theorem Builds.eq {act : Derive α} {build : Build α} (h : act.Builds build) :
    act.run' .off = build := by
  have hfst : act.run' .off = Prod.fst <$> act.run .off := rfl
  rw [hfst, h, ← comp_map]
  exact id_map build

theorem builds_pure (x : α) : Builds (pure x) (pure x) := rfl

theorem builds_lift (build : Build α) : Builds (liftM build) build := rfl

theorem builds_get : Builds (get : Derive Memo) (pure .off) := rfl

theorem Builds.bind {act : Derive α} {build : Build α} {f : α → Derive β} {g : α → Build β}
    (h : act.Builds build) (hf : ∀ x, (f x).Builds (g x)) :
    (act >>= f).Builds (build >>= g) := by
  have hrun : (act >>= f).run .off = act.run .off >>= fun x => (f x.1).run x.2 := rfl
  have hrest : ∀ x, (f x).run .off = (fun y => (y, Memo.off)) <$> g x := hf
  unfold Builds
  rw [hrun, h, bind_map_left, map_bind]
  simp only [hrest]

end Derive

/-! ## The derivative as a build -/

/-- Building alone finds nothing to look into. -/
instance : MonadDerive Build where
  look := pure .off
  hit := pure ()
  miss _ _ := pure ()
  store _ _ _ := pure ()
  enter work := work
  settle p := p.settle

/-- A memory that is off gives nothing back. -/
theorem Derive.Builds.ask {p : Pattern} {c : Char} {work : Derive Pattern} {build : Build Pattern}
    (h : work.Builds build) : Builds (MonadDerive.ask p c work) (MonadDerive.ask p c build) := by
  unfold MonadDerive.ask
  split
  · exact builds_pure _
  · split
    · exact h
    · exact h

/-- With its memory off, differentiating is building. -/
abbrev Derive.building : Parallel Derive Build where
  Related _ act build := act.Builds build
  pure := builds_pure
  build := builds_lift
  bind := Builds.bind
  ask _ h := h.ask
  settle _ := builds_lift _

namespace Pattern

/-- What is left of a pattern after `c`, worked out part by part. -/
def plainly (p : Pattern) (c : Char) : Build Pattern := p.deriveIn Build c

theorem plainly_of_not_consumes {p : Pattern} (c : Char) (hc : p.consumes = false) :
    p.plainly c = pure .fail := MonadDerive.ask_of_not_consumes hc

theorem derive_builds (p : Pattern) (c : Char) : (p.derive c).Builds (p.plainly c) :=
  (Derive.building.deriveNodeIn p c).ask

/-- Without a memory, the derivative is worked out part by part. -/
theorem derivative_eq_plainly (p : Pattern) (c : Char) : p.derivative c = p.plainly c :=
  (p.derive_builds c).eq

/-- The patterns that are left after each character of a text, worked out part by part. -/
def trail (p : Pattern) : List Char → Build (List Pattern)
  | [] => return []
  | c :: cs => do
    let next ← p.plainly c
    return next :: (← next.trail cs)

theorem steps_builds (p : Pattern) (s : List Char) :
    (p.steps s).Builds do return (← p.trail s).map fun next => (next, Memo.off) := by
  induction s generalizing p with
  | nil => exact Derive.builds_pure _
  | cons c s ih =>
    exact (p.derive_builds c).bind fun next => Derive.builds_get.bind fun memo =>
      (ih next).bind fun rest => Derive.builds_pure ((next, memo) :: rest)

end Pattern

end MarkedRegex
