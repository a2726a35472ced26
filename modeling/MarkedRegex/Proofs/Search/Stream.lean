-- A stream of matches gives the matches of the loop over the text, one a call,
-- and then nothing. It goes on at positions of the text.
import MarkedRegex.MatchStream
import MarkedRegex.Proofs.Positions

namespace MarkedRegex

/-! ## The loop, step by step -/

section

variable {m : Type → Type} [Monad m] (step : Pattern → Char → m Pattern) (p : Pattern)

/-- All matches from where a search goes on; none if it is over. -/
def findAllAt : Option Position → m (List Match)
  | none => pure []
  | some here => findAllFrom step p here

/-- The loop finds a match, and then those from where the search goes on behind it. -/
theorem findAllFrom_eq [LawfulMonad m] (here : Position) :
    findAllFrom step p here = do
      match ← find step p here.text with
      | none => return []
      | some span => return span.toMatch here :: (← findAllAt step p (span.resume here)) := by
  rw [findAllFrom]
  apply bind_congr
  intro found
  cases found with
  | none => rfl
  | some span =>
    simp only
    split
    · next hend => simp [hend, findAllAt]
    · next hnext => simp [hnext, findAllAt]

end

namespace MatchStream

/-! ## What is still to come -/

/-- The matches that a stream still has to give, found by the loop from where the stream is. -/
def remaining (ms : MatchStream) : List Match :=
  (((findAllAt Pattern.derive ms.pattern ms.position).run ms.memo).run ms.serial).1.1

/-- A call gives the first of the matches that a stream has, and leaves it the others. -/
theorem next_eq (ms : MatchStream) :
    ms.next.1 = ms.remaining.head? ∧ ms.next.2.remaining = ms.remaining.tail := by
  obtain ⟨pattern, memo, serial, position⟩ := ms
  cases position with
  | none => exact ⟨rfl, rfl⟩
  | some here =>
    have hloop : findAllAt Pattern.derive pattern (some here) = _ :=
      findAllFrom_eq Pattern.derive pattern here
    simp only [remaining, next, hloop, StateT.run_bind]
    generalize ((find Pattern.derive pattern here.text).run memo).run serial = found
    obtain ⟨⟨found, memo⟩, serial⟩ := found
    cases found with
    | none => exact ⟨rfl, rfl⟩
    | some span => exact ⟨rfl, rfl⟩

/-- The calls give one match after the other, and nothing once there are no more. -/
theorem takeNext_eq (n : Nat) (ms : MatchStream) :
    ms.takeNext n = (List.range n).map fun i => ms.remaining[i]? := by
  induction n generalizing ms with
  | zero => rfl
  | succ n ih =>
    obtain ⟨hhead, htail⟩ := ms.next_eq
    rw [List.range_succ_eq_map, List.map_cons, List.map_map]
    unfold takeNext
    simp only [ih, hhead, htail, List.head?_eq_getElem?, List.getElem?_tail]
    rfl

/-- A stream through a text gives the matches that the loop finds in it. -/
theorem takeNext_ofText (p : Pattern) (s : List Char) (n : Nat) :
    (ofText p s).takeNext n = (List.range n).map fun i => (p.findAll s)[i]? :=
  takeNext_eq n (ofText p s)

/-! ## Where it goes on -/

/-- The stream after some calls. -/
def skip : Nat → MatchStream → MatchStream
  | 0, ms => ms
  | n + 1, ms => skip n ms.next.2

/-- One call takes a stream from a position of the text to another one. -/
theorem isIn_next {ms : MatchStream} {s : List Char} (h : ∀ here ∈ ms.position, here.IsIn s) :
    ∀ here ∈ ms.next.2.position, here.IsIn s := by
  obtain ⟨pattern, memo, serial, position⟩ := ms
  cases position with
  | none => exact h
  | some here =>
    intro there hthere
    obtain ⟨span, -, hresume⟩ := Option.bind_eq_some_iff.mp hthere
    exact (Span.resume_eq_some (h here rfl) hresume).1

theorem isIn_skip {ms : MatchStream} {s : List Char} (h : ∀ here ∈ ms.position, here.IsIn s)
    (n : Nat) : ∀ here ∈ (ms.skip n).position, here.IsIn s := by
  induction n generalizing ms with
  | zero => exact h
  | succ n ih => exact ih (isIn_next h)

theorem isIn_ofText (p : Pattern) (s : List Char) (n : Nat) :
    ∀ here ∈ ((ofText p s).skip n).position, here.IsIn s := by
  apply isIn_skip
  intro here hhere
  obtain rfl : ⟨0, s⟩ = here := Option.some.inj hhere
  exact Position.isIn_start s

end MatchStream

end MarkedRegex
