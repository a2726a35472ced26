-- Positions in a text. A position stands where a character of the text begins,
-- or at its end, and its offset tells it from all others. Where a search goes
-- on behind a match is such a position.
import MarkedRegex.Match

namespace MarkedRegex

/-! ## Bytes -/

@[simp] theorem byteLength_eq_zero {s : List Char} : byteLength s = 0 ↔ s = [] := by
  cases s with
  | nil => simp [byteLength]
  | cons c s =>
    have hc : 0 < c.utf8Size := c.utf8Size_pos
    simp only [byteLength, reduceCtorEq, iff_false]
    omega

theorem byteLength_pos {s : List Char} (h : s ≠ []) : 0 < byteLength s :=
  Nat.pos_of_ne_zero fun hzero => h (byteLength_eq_zero.mp hzero)

namespace Position

/-! ## Positions of a text -/

/-- The position stands in `s`: some text in front of it makes it up to `s`, and the offset counts
the bytes of that text. -/
def IsIn (here : Position) (s : List Char) : Prop :=
  ∃ before, before ++ here.text = s ∧ byteLength before = here.offset

variable {s : List Char} {here there : Position}

theorem isIn_start (s : List Char) : IsIn ⟨0, s⟩ s := ⟨[], rfl, rfl⟩

theorem IsIn.advance (h : here.IsIn s) (n : Nat) : (here.advance n).IsIn s := by
  obtain ⟨before, rfl, hoffset⟩ := h
  refine ⟨before ++ here.text.take n, ?_, ?_⟩
  · simp [Position.advance, List.append_assoc]
  · simp [Position.advance, hoffset]

theorem IsIn.offset_add (h : here.IsIn s) : here.offset + byteLength here.text = byteLength s := by
  obtain ⟨before, rfl, hoffset⟩ := h
  rw [byteLength_append, hoffset]

theorem IsIn.offset_lt_iff (h : here.IsIn s) : here.offset < byteLength s ↔ here.text ≠ [] := by
  have hadd := h.offset_add
  constructor
  · intro hlt hnil
    rw [hnil, byteLength] at hadd
    omega
  · intro hne
    have := byteLength_pos hne
    omega

/-- One of two positions in a text is further on than the other, by some characters. Where the texts
in front are equally long, nothing is in between. -/
theorem IsIn.exists_advance (h : here.IsIn s) (h' : there.IsIn s)
    (hle : here.offset ≤ there.offset) : ∃ n ≤ here.text.length, there = here.advance n := by
  obtain ⟨before, hs, hoffset⟩ := h
  obtain ⟨before', hs', hoffset'⟩ := h'
  obtain ⟨offset, text⟩ := here
  obtain ⟨offset', text'⟩ := there
  simp only at *
  rw [← hs'] at hs
  rcases List.append_eq_append_iff.mp hs with ⟨between, rfl, rfl⟩ | ⟨between, rfl, rfl⟩
  · refine ⟨between.length, by simp, ?_⟩
    simp [Position.advance, ← hoffset, ← hoffset']
  · rw [byteLength_append] at hoffset
    have hnothing : byteLength between = 0 := by omega
    obtain rfl := byteLength_eq_zero.mp hnothing
    refine ⟨0, Nat.zero_le _, ?_⟩
    simp [Position.advance, byteLength, ← hoffset, ← hoffset']

theorem advance_zero (here : Position) : here.advance 0 = here := by
  simp [advance, byteLength]

/-- The offset tells where a position is. -/
theorem IsIn.eq_of_offset_eq (h : here.IsIn s) (h' : there.IsIn s)
    (heq : here.offset = there.offset) : here = there := by
  obtain ⟨n, hn, rfl⟩ := h.exists_advance h' (by omega)
  have hnil : here.text.take n = [] := by
    rw [← byteLength_eq_zero]
    simp only [Position.advance] at heq
    omega
  rcases List.take_eq_nil_iff.mp hnil with rfl | hnil
  · exact (advance_zero here).symm
  · obtain rfl : n = 0 := by simpa [hnil] using hn
    exact (advance_zero here).symm

/-- Further on by more characters is no less far on in bytes. -/
theorem advance_offset_le (here : Position) {j k : Nat} (hjk : j ≤ k) :
    (here.advance j).offset ≤ (here.advance k).offset := by
  have htake : here.text.take k = here.text.take j ++ (here.text.drop j).take (k - j) := by
    rw [← List.take_add, Nat.add_sub_cancel' hjk]
  simp only [advance, htake, byteLength_append]
  omega

theorem advance_advance (here : Position) (j k : Nat) :
    (here.advance j).advance k = here.advance (j + k) := by
  simp [advance, List.take_add, Nat.add_assoc]

/-- No position is behind the end of the text, so what is more than enough to get there does not
matter. -/
theorem advance_congr {j k : Nat} (h : min j here.text.length = min k here.text.length) :
    here.advance j = here.advance k := by
  unfold advance
  rw [List.take_eq_take_min, List.drop_eq_drop_min, h, ← List.take_eq_take_min,
    ← List.drop_eq_drop_min]

theorem text_eq_nil (h : here.IsIn []) : here.text = [] := by
  obtain ⟨before, hs, -⟩ := h
  exact (List.append_eq_nil_iff.mp hs).2

end Position

/-! ## Matches in a text -/

namespace Match

/-- Where a match starts, and what is left of the text from there on. -/
def position (m : Match) : Position := ⟨m.start, m.text ++ m.rest⟩

/-- The offset at which a search goes on: where the match stops, or one character further if the
match is empty and there is one. -/
def resume (m : Match) : Nat :=
  if m.text = [] then m.stop + byteLength (m.rest.take 1) else m.stop

theorem start_le_stop (m : Match) : m.start ≤ m.stop := Nat.le_add_right _ _

theorem stop_le_resume (m : Match) : m.stop ≤ m.resume := by
  unfold resume
  split <;> omega

theorem start_le_resume (m : Match) : m.start ≤ m.resume :=
  Nat.le_trans m.start_le_stop m.stop_le_resume

/-- A search goes on behind the characters of the match, or behind one character. -/
theorem offset_advance (m : Match) :
    (m.position.advance (max m.text.length 1)).offset = m.resume := by
  unfold resume position Position.advance
  split
  · next hnil => simp [hnil, stop, byteLength]
  · next hne =>
    have hpos : 0 < m.text.length := List.length_pos_iff.mpr hne
    rw [Nat.max_eq_left hpos, List.take_left]
    rfl

/-- Where two matches start and what they leave tells what they took. -/
theorem eq_of_position_eq {m m' : Match} (hposition : m.position = m'.position)
    (hrest : m.rest = m'.rest) (hcaptures : m.captures = m'.captures) : m = m' := by
  obtain ⟨start, text, rest, captures⟩ := m
  obtain ⟨start', text', rest', captures'⟩ := m'
  simp only [position, Position.mk.injEq] at hposition hrest hcaptures
  obtain ⟨rfl, htext⟩ := hposition
  rw [hrest, List.append_cancel_right_eq] at htext
  rw [htext, hrest, hcaptures]

end Match

namespace Span

variable {s : List Char} {here next : Position} {span : Span}

theorem position_toMatch (span : Span) (here : Position) :
    (span.toMatch here).position = here.advance span.skipped := by
  simp [toMatch, Match.position]

/-- A search goes on at the offset where the match says. -/
theorem offset_resume (span : Span) (here : Position) :
    (here.advance (span.skipped + max span.length 1)).offset = (span.toMatch here).resume := by
  rw [← Match.offset_advance, position_toMatch, ← Position.advance_advance]
  apply congrArg
  apply Position.advance_congr
  simp only [toMatch, List.length_take]
  omega

theorem resume_eq_none (hin : here.IsIn s) (h : span.resume here = none) :
    byteLength s ≤ (span.toMatch here).resume := by
  have hnext := hin.advance (span.skipped + max span.length 1)
  dsimp only [resume] at h
  split at h
  · next hend =>
    rw [← offset_resume, ← Nat.not_lt, hnext.offset_lt_iff]
    simpa using hend
  · cases h

theorem resume_eq_some (hin : here.IsIn s) (h : span.resume here = some next) :
    next.IsIn s ∧ next.text ≠ [] ∧ next.offset = (span.toMatch here).resume := by
  dsimp only [resume] at h
  split at h
  · cases h
  · next hne =>
    cases h
    exact ⟨hin.advance _, by simpa using hne, offset_resume span here⟩

end Span

end MarkedRegex
