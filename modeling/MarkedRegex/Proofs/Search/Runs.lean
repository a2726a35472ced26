-- Runs of the search are the direct search. Whatever takes the steps, as long
-- as it makes a greedy run give what trying a text can give, seeking gives the
-- first match and the loop over the text gives the matches behind one another.
import MarkedRegex.Proofs.Assurance
import MarkedRegex.Proofs.Search.Direct

namespace MarkedRegex

variable {m : Type → Type} [Monad m] {A : Assurance m}
  {step : Pattern → Char → m Pattern} {p : Pattern} {tries : Tries}

/-- Greedy runs give what trying a text can give. -/
structure Assurance.Attempts (A : Assurance m) (step : Pattern → Char → m Pattern) (p : Pattern)
    (tries : Tries) : Prop where
  empty : tries [] (p.captured, [])
  greedy : ∀ text, A.Ensures (runGreedily step p text 0) fun r =>
    tries text (r.captures, text.drop r.length)

section

variable {s : List Char} {here : Position}

/-- With text behind it, a position is tried from itself on, and so are those behind it that have
text behind them. -/
theorem isTried_advance (hin : here.IsIn s) {k : Nat} (hk : k < here.text.length) :
    IsTried s here.offset (here.advance k) where
  isIn := hin.advance k
  start_le := Nat.le_add_right _ _
  inside := by
    refine Or.inl ((hin.advance k).offset_lt_iff.mpr ?_)
    simpa [Position.advance] using hk

theorem IsTried.exists_advance (hin : here.IsIn s) (hne : here.text ≠ []) {there : Position}
    (h : IsTried s here.offset there) : ∃ j < here.text.length, there = here.advance j := by
  obtain ⟨j, -, rfl⟩ := hin.exists_advance h.isIn h.start_le
  refine ⟨j, ?_, rfl⟩
  rcases h.inside with hlt | rfl
  · have hleft := h.isIn.offset_lt_iff.mp hlt
    simpa [Position.advance] using hleft
  · exact absurd (Position.text_eq_nil hin) hne

/-- A span that succeeds at a position, where all earlier ones fail, is the first match. -/
theorem Leftmost.of_span {start : Nat} (span : Span)
    (htried : IsTried s start (here.advance span.skipped))
    (hfound : tries (here.advance span.skipped).text
      (some span.captures, (here.advance span.skipped).text.drop span.length))
    (hfirst : ∀ there, IsTried s start there → there.offset < (here.advance span.skipped).offset →
      ∃ rest, tries there.text (none, rest)) :
    Leftmost tries s start (some (span.toMatch here)) := by
  have hposition := Span.position_toMatch span here
  have hwhole : (span.toMatch here).text ++ (span.toMatch here).rest =
      (here.advance span.skipped).text := congrArg Position.text hposition
  apply Leftmost.found
  · rwa [hposition]
  · rw [hwhole]
    exact hfound
  · exact hfirst

/-- Seeking from the `k`-th character on gives the first match, where all in front of it failed. -/
theorem Assurance.Attempts.seek (h : A.Attempts step p tries) (hin : here.IsIn s)
    (hne : here.text ≠ []) {text : List Char} {k : Nat} (htext : here.text.drop k = text)
    (hfail : ∀ j < k, ∃ rest, tries (here.text.drop j) (none, rest)) :
    A.Ensures (MarkedRegex.seek step p text k) fun found =>
      Leftmost tries s here.offset (found.map (·.toMatch here)) := by
  induction text generalizing k with
  | nil =>
    apply A.pure
    apply Leftmost.nowhere
    intro there hthere
    obtain ⟨j, hj, rfl⟩ := hthere.exists_advance hin hne
    rw [List.drop_eq_nil_iff] at htext
    exact hfail j (by omega)
  | cons c cs ih =>
    rw [MarkedRegex.seek]
    apply A.bind (h.greedy (c :: cs))
    intro r hr
    have hk : k < here.text.length := by
      have := congrArg List.length htext
      simp only [List.length_drop, List.length_cons] at this
      omega
    split
    · next captures hcaptures =>
      apply A.pure
      rw [hcaptures, ← htext] at hr
      apply Leftmost.of_span ⟨k, r.length, captures⟩ (isTried_advance hin hk) hr
      intro there hthere hlt
      obtain ⟨j, -, rfl⟩ := hthere.exists_advance hin hne
      apply hfail
      rw [← Nat.not_le]
      intro hle
      exact Nat.not_lt.mpr (here.advance_offset_le hle) hlt
    · next hnone =>
      apply ih
      · rw [← List.tail_drop, htext, List.tail_cons]
      · intro j hj
        rcases Nat.lt_or_eq_of_le (Nat.le_of_lt_succ hj) with hlt | rfl
        · exact hfail j hlt
        · rw [htext, ← hnone]
          exact ⟨_, hr⟩

/-- Finding from a position on, where one is to be tried, gives the first match. -/
theorem Assurance.Attempts.find (h : A.Attempts step p tries) (hin : here.IsIn s)
    (hleft : here.text ≠ [] ∨ s = []) :
    A.Ensures (MarkedRegex.find step p here.text) fun found =>
      Leftmost tries s here.offset (found.map (·.toMatch here)) := by
  unfold MarkedRegex.find
  split
  · next hempty =>
    have hnil : here.text = [] := by simpa using hempty
    have hs : s = [] := hleft.resolve_left (fun hne => hne hnil)
    rw [hnil, runWhole]
    apply A.bind (A.pure rfl : A.Ensures _ (· = p.captured))
    rintro _ rfl
    apply A.pure
    cases hcaptures : p.captured with
    | none =>
      apply Leftmost.nowhere
      intro there hthere
      rw [Position.text_eq_nil (hs ▸ hthere.isIn), ← hcaptures]
      exact ⟨[], h.empty⟩
    | some captures =>
      have htried : IsTried s here.offset here := ⟨hin, Nat.le_refl _, Or.inr hs⟩
      have hself := here.advance_zero
      apply Leftmost.of_span ⟨0, 0, captures⟩
      · rwa [hself]
      · rw [hself, hnil, ← hcaptures]
        exact h.empty
      · intro there hthere hlt
        rw [hself] at hlt
        exact absurd hlt (Nat.not_lt.mpr hthere.start_le)
  · next hne => exact h.seek hin (by simpa using hne) List.drop_zero (by simp)

theorem Assurance.Attempts.findAllFrom (h : A.Attempts step p tries) (hin : here.IsIn s)
    (hleft : here.text ≠ [] ∨ s = []) :
    A.Ensures (MarkedRegex.findAllFrom step p here) (Successive tries s here.offset) := by
  induction hn : here.text.length using Nat.strongRecOn generalizing here with
  | _ n ih =>
    rw [MarkedRegex.findAllFrom]
    apply A.bind (h.find hin hleft)
    intro found hfound
    cases found with
    | none => exact A.pure (.nil hfound)
    | some span =>
      simp only
      split
      · next hend => exact A.pure (.last hfound (Span.resume_eq_none hin hend))
      · next next hnext =>
        obtain ⟨hin', hne, hoffset⟩ := Span.resume_eq_some hin hnext
        have hlt : next.text.length < n := hn ▸ Span.length_resume_lt hnext
        apply A.bind (ih _ hlt hin' (Or.inl hne) rfl)
        intro rest hrest
        refine A.pure (.more hfound ?_ (hoffset ▸ hrest))
        rw [← hoffset]
        exact hin'.offset_lt_iff.mpr hne

end

end MarkedRegex
