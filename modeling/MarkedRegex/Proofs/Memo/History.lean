-- Histories of a memory: derivatives that were asked of it, of any patterns,
-- with clearings in between and other nodes built meanwhile. A memory stays
-- sound through all of it, so work behind any history gives what it ensures.
import MarkedRegex.Proofs.Residual

namespace MarkedRegex

/-! ## Requests -/

/-- What happens to a memory: a derivative is asked of it, it is cleared, or something is built that
it has no part in, but that takes serial numbers. -/
inductive Request where
  | derive (p : Pattern) (c : Char)
  | clear
  | build (act : Build Pattern)

namespace Request

def serve : Request → Derive Unit
  | .derive p c => do
    let _ ← p.derive c
    return
  | .clear => modify Memo.clear
  | .build act => do
    let _ ← act
    return

def serveAll : List Request → Derive Unit
  | [] => return
  | q :: history => do
    q.serve
    serveAll history

theorem serveAll_concat (history : List Request) (q : Request) :
    serveAll (history ++ [q]) = (do serveAll history; q.serve) := by
  induction history with
  | nil => simp [serveAll]
  | cons first history ih => simp [serveAll, ih]

end Request

/-- Acts on a memory of some capacity behind a history. -/
def Derive.behind {α : Type} (capacity : Nat) (history : List Request) (act : Derive α) :
    Build α :=
  StateT.run' (do Request.serveAll history; act) (Memo.ofCapacity capacity)

/-! ## Memories stay sound -/

theorem Request.serve_ensures (q : Request) : q.serve.Ensures fun _ => True := by
  cases q with
  | derive p c => exact (p.derive_ensures c).bind fun _ _ => Derive.ensures_pure trivial
  | clear => exact fun m _ _ => ⟨trivial, m.sound_clear⟩
  | build act =>
    have hact : Derive.Ensures (liftM act) fun _ => True := Derive.ensures_build fun _ _ => trivial
    exact hact.bind fun _ _ => Derive.ensures_pure trivial

theorem Request.serveAll_ensures (history : List Request) :
    (serveAll history).Ensures fun _ => True := by
  induction history with
  | nil => exact Derive.ensures_pure trivial
  | cons q history ih => exact q.serve_ensures.bind fun _ _ => ih

/-- What work ensures, it ensures behind any history. -/
theorem Derive.Ensures.behind {α : Type} {act : Derive α} {good : α → Prop} {x : α}
    {capacity : Nat} {history : List Request} (h : act.Ensures good)
    (hx : (act.behind capacity history).Gives x) : good x := by
  obtain ⟨n, rfl⟩ := hx
  have hall := (Request.serveAll_ensures history).bind fun _ _ => h
  exact (hall (Memo.ofCapacity capacity) n (Memo.sound_ofCapacity capacity)).1

/-! ## What is left, whatever the history is -/

namespace Pattern

/-- What differentiating can give for a pattern and a character, without a memory or through one
with any history. -/
inductive Leaves (p : Pattern) (c : Char) (r : Pattern) : Prop
  | plain : (p.derivative c).Gives r → Leaves p c r
  | remembered (capacity : Nat) (history : List Request) :
      ((p.derive c).behind capacity history).Gives r → Leaves p c r

/-- What can be left of a pattern after a text. Each character may find another memory. -/
inductive LeavesAfter : Pattern → List Char → Pattern → Prop
  | nil (p : Pattern) : LeavesAfter p [] p
  | cons {p q r : Pattern} {c : Char} {s : List Char} : p.Leaves c q → LeavesAfter q s r →
      LeavesAfter p (c :: s) r

theorem Leaves.residual {p r : Pattern} {c : Char} (h : p.Leaves c r) : Residual p c r := by
  cases h with
  | plain h => exact residual_of_derivative h
  | remembered capacity history h => exact (p.derive_ensures c).behind h

/-- Through one memory, the steps over a text are the first step, and the steps over the rest where
the first one has become a part of the history. -/
theorem steps_cons_behind (p : Pattern) (c : Char) (s : List Char) (capacity : Nat)
    (history : List Request) (n : Nat) :
    let q := (((p.derive c).behind capacity history).run n).1
    (((p.steps (c :: s)).behind capacity history).run n).1.map (·.1) =
      q :: (((q.steps s).behind capacity (history ++ [.derive p c])).run n).1.map (·.1) := by
  intro q
  unfold Derive.behind
  rw [Request.serveAll_concat]
  rfl

/-- The steps over a text are what is left after each beginning of it. -/
theorem leavesAfter_of_steps {capacity n i : Nat} {history : List Request} {p r : Pattern}
    {s : List Char}
    (h : ((((p.steps s).behind capacity history).run n).1.map (·.1))[i]? = some r) :
    i < s.length ∧ p.LeavesAfter (s.take (i + 1)) r := by
  induction s generalizing p history i with
  | nil => cases h
  | cons c s ih =>
    have hfirst := Leaves.remembered capacity history
      (Build.gives_run ((p.derive c).behind capacity history) n)
    rw [steps_cons_behind] at h
    cases i with
    | zero =>
      obtain rfl : _ = r := by simpa using h
      exact ⟨Nat.succ_pos _, .cons hfirst (.nil _)⟩
    | succ i =>
      rw [List.getElem?_cons_succ] at h
      obtain ⟨hi, hrest⟩ := ih h
      exact ⟨Nat.succ_lt_succ hi, .cons hfirst hrest⟩

end Pattern

end MarkedRegex
