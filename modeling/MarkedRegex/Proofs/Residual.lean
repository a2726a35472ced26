-- What a pattern can become in one step: its settled form, and what is left of
-- it after a character. Serial numbers and the memory decide which nodes are
-- shared, so a step has many results; a sound memory gives back nothing else.
import MarkedRegex.Derivative
import MarkedRegex.Proofs.Build.Outcome

namespace MarkedRegex

/-! ## Settled forms -/

/-- What the empty matches of a pattern come out as. -/
inductive Settled : Pattern → Pattern → Prop
  | fail {p : Pattern} : p.nullable = false → Settled p .fail
  | empty {p : Pattern} : p.nullable = true → p.hasMarks = false → Settled p .empty
  | kept {p : Pattern} : p.nullable = true → p.hasMarks = true → p.consumes = false → Settled p p
  | sequence {k : Nat} {p q a b r : Pattern} : (Pattern.sequence k p q).nullable = true →
      (Pattern.sequence k p q).hasMarks = true → (Pattern.sequence k p q).consumes = true →
      Settled p a → Settled q b → Sequenced a b r → Settled (.sequence k p q) r
  | alternation {k : Nat} {p q a b r : Pattern} : (Pattern.alternation k p q).nullable = true →
      (Pattern.alternation k p q).hasMarks = true → (Pattern.alternation k p q).consumes = true →
      Settled p a → Settled q b → Alternated a b r → Settled (.alternation k p q) r
  | star {k : Nat} {p a r : Pattern} : p.hasMarks = true → p.consumes = true →
      Settled p a → Starred a r → Settled (.star k p) r
  | mark {k : Nat} {name : String} {buffer : MarkBuffer} {p a r : Pattern} : p.nullable = true →
      p.consumes = true → Settled p a → Marked name buffer a r →
      Settled (.mark k name buffer p) r

/-- Settling is done at once, or by the work on a node. -/
theorem Settled.of_settleWith {p r : Pattern} {work : Build Pattern}
    (h : (p.settleWith work).Gives r)
    (hwork : p.nullable = true → p.hasMarks = true → p.consumes = true → work.Gives r →
      Settled p r) : Settled p r := by
  unfold Pattern.settleWith at h
  split at h
  · next hn =>
    obtain rfl := Build.gives_pure.mp h
    exact .fail (by simpa using hn)
  · next hn =>
    rw [Bool.not_eq_true', Bool.not_eq_false] at hn
    split at h
    · next hm =>
      obtain rfl := Build.gives_pure.mp h
      exact .empty hn (by simpa using hm)
    · next hm =>
      rw [Bool.not_eq_true', Bool.not_eq_false] at hm
      split at h
      · next hc =>
        obtain rfl := Build.gives_pure.mp h
        exact .kept hn hm (by simpa using hc)
      · next hc => exact hwork hn hm (by simpa using hc) h

theorem settled_of_gives {p r : Pattern} (h : p.settle.Gives r) : Settled p r := by
  induction p generalizing r with
  | empty =>
    obtain rfl := Build.gives_pure.mp h
    exact .empty rfl rfl
  | fail | any | charSet | negatedSet =>
    obtain rfl := Build.gives_pure.mp h
    exact .fail rfl
  | sequence k p q ihp ihq =>
    refine .of_settleWith h fun hn hm hc hwork => ?_
    obtain ⟨a, ha, hrest⟩ := hwork.bind
    obtain ⟨b, hb, hr⟩ := hrest.bind
    exact .sequence hn hm hc (ihp ha) (ihq hb) (Build.sequenced_of_gives hr)
  | alternation k p q ihp ihq =>
    refine .of_settleWith h fun hn hm hc hwork => ?_
    obtain ⟨a, ha, hrest⟩ := hwork.bind
    obtain ⟨b, hb, hr⟩ := hrest.bind
    exact .alternation hn hm hc (ihp ha) (ihq hb) (Build.alternated_of_gives hr)
  | star k p ih =>
    refine .of_settleWith h fun hn hm hc hwork => ?_
    obtain ⟨a, ha, hr⟩ := hwork.bind
    exact .star hm hc (ih ha) (Build.starred_of_gives hr)
  | mark k name buffer p ih =>
    refine .of_settleWith h fun hn hm hc hwork => ?_
    obtain ⟨a, ha, hr⟩ := hwork.bind
    exact .mark hn hc (ih ha) (Build.marked_of_gives hr)

/-! ## What is left after a character -/

/-- What can be left of a pattern after a character. -/
inductive Residual : Pattern → Char → Pattern → Prop
  | dead {p : Pattern} {c : Char} : p.consumes = false → Residual p c .fail
  | any (c : Char) : Residual .any c .empty
  | charSet (k : Nat) (s : CharSet) (c : Char) :
      Residual (.charSet k s) c (if s.contains c then .empty else .fail)
  | negatedSet (k : Nat) (s : CharSet) (c : Char) :
      Residual (.negatedSet k s) c (if s.contains c then .fail else .empty)
  | sequence {k : Nat} {p q a r : Pattern} {c : Char} :
      (Pattern.sequence k p q).consumes = true → p.nullable = false → Residual p c a →
      Sequenced a q r → Residual (.sequence k p q) c r
  /-- The left part may be empty, but the right part cannot take the character. -/
  | sequenceLeft {k : Nat} {p q a r : Pattern} {c : Char} :
      (Pattern.sequence k p q).consumes = true → p.nullable = true → Residual p c a →
      Sequenced a q r → Residual q c .fail → Residual (.sequence k p q) c r
  | sequenceBoth {k : Nat} {p q a head tail e rest r : Pattern} {c : Char} :
      (Pattern.sequence k p q).consumes = true → p.nullable = true → Residual p c a →
      Sequenced a q head → Residual q c tail → tail ≠ .fail → Settled p e →
      Sequenced e tail rest → Alternated head rest r → Residual (.sequence k p q) c r
  | alternation {k : Nat} {p q a b r : Pattern} {c : Char} :
      (Pattern.alternation k p q).consumes = true → Residual p c a → Residual q c b →
      Alternated a b r → Residual (.alternation k p q) c r
  | star {k : Nat} {p a r : Pattern} {c : Char} : p.consumes = true → Residual p c a →
      Sequenced a (.star k p) r → Residual (.star k p) c r
  | mark {k : Nat} {name : String} {buffer : MarkBuffer} {p a r : Pattern} {c : Char} :
      p.consumes = true → Residual p c a → Marked name (buffer.push c) a r →
      Residual (.mark k name buffer p) c r

/-! ## Memories filled by steps -/

/-- Every entry of a memory is what can be left of its node after its character. -/
def Memo.Sound (m : Memo) : Prop := ∀ p c r, m.find? p c = some r → Residual p c r

namespace Memo

theorem sound_off : off.Sound := by
  intro p c r h
  cases h

theorem sound_ofCapacity (capacity : Nat) : (ofCapacity capacity).Sound := by
  intro p c r h
  simp [ofCapacity, find?] at h

theorem sound_clear (m : Memo) : m.clear.Sound := by
  intro p c r h
  cases ht : m.table <;> simp [clear, find?, ht] at h

/-- After an entry went in, a memory gives it back, or what it gave before. -/
theorem find?_store {m : Memo} {p q r x : Pattern} {c d : Char}
    (h : (m.store p c r).find? q d = some x) :
    (p = q ∧ c = d ∧ r = x) ∨ m.find? q d = some x := by
  obtain ⟨table, capacity, hits, misses⟩ := m
  cases table with
  | none => exact Or.inr h
  | some t =>
    have hroom : (makeRoom capacity t).find? q d = some x → t.find? q d = some x := by
      unfold makeRoom
      split
      · simp
      · exact id
    simp only [store, find?, Option.bind_some] at h ⊢
    split at h
    · rw [MemoTable.find?_insert] at h
      split at h
      · next hpq => exact Or.inl ⟨hpq.1, hpq.2, by simpa using h⟩
      · exact Or.inr (hroom h)
    · exact Or.inr (hroom h)

theorem Sound.store {m : Memo} {p r : Pattern} {c : Char} (h : m.Sound) (hr : Residual p c r) :
    (m.store p c r).Sound := by
  intro q d x hx
  rcases find?_store hx with ⟨rfl, rfl, rfl⟩ | hx
  · exact hr
  · exact h q d x hx

end Memo

/-! ## Work on a memory -/

namespace Derive

variable {α β : Type}

/-- From a sound memory and any serial number on, an action gives a result of a kind and leaves a
sound memory. -/
def Ensures (act : Derive α) (good : α → Prop) : Prop :=
  ∀ (m : Memo) (n : Nat), m.Sound →
    good ((act.run m).run n).1.1 ∧ ((act.run m).run n).1.2.Sound

theorem ensures_pure {x : α} {good : α → Prop} (h : good x) : Ensures (pure x) good :=
  fun _ _ hm => ⟨h, hm⟩

theorem Ensures.bind {act : Derive α} {f : α → Derive β} {good : α → Prop} {good' : β → Prop}
    (h : act.Ensures good) (hf : ∀ x, good x → (f x).Ensures good') :
    (act >>= f).Ensures good' := by
  intro m n hm
  obtain ⟨hx, hm'⟩ := h m n hm
  exact hf _ hx _ ((act.run m).run n).2 hm'

theorem ensures_get : Ensures (get : Derive Memo) Memo.Sound := fun _ _ hm => ⟨hm, hm⟩

/-- Building leaves the memory as it is. -/
theorem ensures_build {act : Build α} {good : α → Prop} (h : ∀ x, act.Gives x → good x) :
    Ensures (liftM act) good :=
  fun _ n hm => ⟨h _ (Build.gives_run act n), hm⟩

/-- A remembered step is a step, be it found or worked out. -/
theorem ensures_remember {p : Pattern} {c : Char} {work : Derive Pattern}
    (h : work.Ensures (Residual p c)) : Ensures (MonadDerive.remember p c work) (Residual p c) := by
  intro m n hm
  rw [run_remember]
  rcases m.hit_or_miss_or_off p c with ⟨found, hfind⟩ | ⟨hon, hfind⟩ | hoff
  · rw [MonadDerive.answer_of_hit hfind]
    exact ⟨hm p c found hfind, hm⟩
  · rw [MonadDerive.answer_of_miss hon hfind, run_workOut]
    obtain ⟨hr, hm'⟩ := h m.countMiss n hm
    exact ⟨hr, hm'.store hr⟩
  · rw [MonadDerive.answer_of_off hoff]
    exact h m n hm

/-- A question for a node is a step, if the work on the node is. -/
theorem ensures_ask {p : Pattern} {c : Char} {work : Derive Pattern}
    (h : p.consumes = true → work.Ensures (Residual p c)) :
    Ensures (MonadDerive.ask p c work) (Residual p c) := by
  by_cases hc : p.consumes = true
  · by_cases hleaf : p.isLeaf = true
    · rw [MonadDerive.ask_of_isLeaf hc hleaf]
      exact h hc
    · rw [MonadDerive.ask_of_not_isLeaf hc (by simpa using hleaf)]
      exact ensures_remember (h hc)
  · have hdead : p.consumes = false := by simpa using hc
    rw [MonadDerive.ask_of_not_consumes hdead]
    exact ensures_pure (.dead hdead)

end Derive

/-! ## The derivative is a step -/

theorem Pattern.derive_ensures (p : Pattern) (c : Char) : (p.derive c).Ensures (Residual p c) := by
  unfold Pattern.derive Pattern.deriveIn
  induction p with
  | empty | fail => exact Derive.ensures_ask nofun
  | any => exact Derive.ensures_ask fun _ => Derive.ensures_pure (.any c)
  | charSet k s => exact Derive.ensures_ask fun _ => Derive.ensures_pure (.charSet k s c)
  | negatedSet k s => exact Derive.ensures_ask fun _ => Derive.ensures_pure (.negatedSet k s c)
  | sequence k p q ihp ihq =>
    refine Derive.ensures_ask fun hc => ihp.bind fun a ha => ?_
    refine (Derive.ensures_build fun _ h => h).bind fun head hhead => ?_
    replace hhead := Build.sequenced_of_gives hhead
    split
    · next hn =>
      refine ihq.bind fun tail htail => ?_
      split
      · next hdead =>
        obtain rfl := isFail_iff.mp hdead
        exact Derive.ensures_pure (.sequenceLeft hc hn ha hhead htail)
      · next hlive =>
        refine (Derive.ensures_build fun _ h => h).bind fun e he => ?_
        refine (Derive.ensures_build fun _ h => h).bind fun rest hrest => ?_
        refine Derive.ensures_build fun r hr => ?_
        exact .sequenceBoth hc hn ha hhead htail (fun h => hlive (isFail_iff.mpr h))
          (settled_of_gives he) (Build.sequenced_of_gives hrest) (Build.alternated_of_gives hr)
    · next hn => exact Derive.ensures_pure (.sequence hc (by simpa using hn) ha hhead)
  | alternation k p q ihp ihq =>
    refine Derive.ensures_ask fun hc => ihp.bind fun a ha => ihq.bind fun b hb => ?_
    exact Derive.ensures_build fun r hr => .alternation hc ha hb (Build.alternated_of_gives hr)
  | star k p ih =>
    refine Derive.ensures_ask fun hc => ih.bind fun a ha => ?_
    exact Derive.ensures_build fun r hr => .star hc ha (Build.sequenced_of_gives hr)
  | mark k name buffer p ih =>
    refine Derive.ensures_ask fun hc => ih.bind fun a ha => ?_
    exact Derive.ensures_build fun r hr => .mark hc ha (Build.marked_of_gives hr)

/-- Without a memory, a derivative is a step. -/
theorem residual_of_derivative {p r : Pattern} {c : Char} (h : (p.derivative c).Gives r) :
    Residual p c r := by
  obtain ⟨n, rfl⟩ := h
  exact (p.derive_ensures c Memo.off n Memo.sound_off).1

end MarkedRegex
