-- Reading captures operand by operand: a nest of sequences or alternations is
-- opened up with a stack, whichever way it leans, and its operands are gone
-- through in order. The law: this reads what the recursion over the tree does.
import MarkedRegex.Proofs.Tree.Attributes

namespace MarkedRegex

/-! ## Operands of nests -/

/-- A kind of nodes that are opened up into two smaller parts. -/
structure Opening where
  parts? : Pattern → Option (Pattern × Pattern)
  smaller : ∀ {p l r : Pattern}, parts? p = some (l, r) → l.tree.size + r.tree.size < p.tree.size

namespace Opening

def sequence : Opening where
  parts?
    | .sequence _ l r => some (l, r)
    | _ => none
  smaller := by
    intro p l r h
    split at h
    · cases h
      simp only [Pattern.tree, Tree.size_sequence]
      omega
    · cases h

def alternation : Opening where
  parts?
    | .alternation _ l r => some (l, r)
    | _ => none
  smaller := by
    intro p l r h
    split at h
    · cases h
      simp only [Pattern.tree, Tree.size_alternation]
      omega
    · cases h

/-- The number of nodes on a stack. -/
def stackSize : List Pattern → Nat
  | [] => 0
  | p :: stack => p.tree.size + stackSize stack

variable (o : Opening)

/-- Works off a stack: the parts of a node that opens up go onto it, the left one on top, and any
other node is an operand, behind those that are there already. -/
def operandsBehind (operands : List Pattern) : List Pattern → List Pattern
  | [] => operands
  | p :: stack =>
    match _h : o.parts? p with
    | some (l, r) => operandsBehind operands (l :: r :: stack)
    | none => operandsBehind (operands ++ [p]) stack
termination_by stack => stackSize stack
decreasing_by
  · have hparts := o.smaller _h
    simp only [stackSize]
    omega
  · have hpos := p.tree.size_pos
    simp only [stackSize]
    omega

/-- The operands of a nest, from left to right. -/
def operands (p : Pattern) : List Pattern := o.operandsBehind [] [p]

variable {o} {operands stack : List Pattern}

theorem size_le_of_mem_operandsBehind {q : Pattern} (h : q ∈ o.operandsBehind operands stack) :
    q ∈ operands ∨ ∃ p ∈ stack, q.tree.size ≤ p.tree.size := by
  fun_induction operandsBehind o operands stack with
  | case1 => exact Or.inl h
  | case2 operands p stack l r hparts ih =>
    have hsmaller := o.smaller hparts
    refine (ih h).imp_right fun ⟨x, hx, hle⟩ => ?_
    simp only [List.mem_cons] at hx
    rcases hx with rfl | rfl | hx
    · exact ⟨p, List.mem_cons_self, by omega⟩
    · exact ⟨p, List.mem_cons_self, by omega⟩
    · exact ⟨x, List.mem_cons_of_mem _ hx, hle⟩
  | case3 operands p stack hparts ih =>
    rcases ih h with hq | ⟨x, hx, hle⟩
    · rcases List.mem_append.mp hq with hq | hq
      · exact Or.inl hq
      · exact Or.inr ⟨p, List.mem_cons_self, by rw [List.mem_singleton.mp hq]⟩
    · exact Or.inr ⟨x, List.mem_cons_of_mem _ hx, hle⟩

/-- The operands of a node that opens up are smaller than it. -/
theorem size_lt_of_mem_operands {p l r q : Pattern} (hparts : o.parts? p = some (l, r))
    (h : q ∈ o.operands p) : q.tree.size < p.tree.size := by
  have hsmaller := o.smaller hparts
  have hopen : o.operands p = o.operandsBehind [] [l, r] := by
    rw [Opening.operands, operandsBehind]
    split
    · next hsome =>
      rw [hparts] at hsome
      cases hsome
      rfl
    · next hnone =>
      rw [hparts] at hnone
      cases hnone
  rw [hopen] at h
  rcases size_le_of_mem_operandsBehind h with hq | ⟨x, hx, hle⟩
  · cases hq
  · simp only [List.mem_cons, List.not_mem_nil, or_false] at hx
    rcases hx with rfl | rfl <;> omega

/-- A run through the operands gives what a run through the stack does, if opening up a node does
not show in it. -/
theorem foldlM_operandsBehind {α : Type} {f : α → Pattern → Option α}
    (hf : ∀ {p l r : Pattern}, o.parts? p = some (l, r) → ∀ a, (do f (← f a l) r) = f a p) (a : α) :
    (o.operandsBehind operands stack).foldlM f a = (operands ++ stack).foldlM f a := by
  fun_induction operandsBehind o operands stack with
  | case1 operands => rw [List.append_nil]
  | case2 operands p stack l r hparts ih =>
    rw [ih, List.foldlM_append, List.foldlM_append]
    congr 1
    funext b
    rw [List.foldlM_cons, List.foldlM_cons, ← hf hparts, bind_assoc]
    rfl
  | case3 operands p stack hparts ih => rw [ih, List.append_assoc, List.singleton_append]

/-- The first operand that answers gives what the first node of the stack that answers does, if a
node answers as its left part or else its right part. -/
theorem findSome?_operandsBehind {α : Type} {f : Pattern → Option α}
    (hf : ∀ {p l r : Pattern}, o.parts? p = some (l, r) → (f l).or (f r) = f p) :
    (o.operandsBehind operands stack).findSome? f = (operands ++ stack).findSome? f := by
  fun_induction operandsBehind o operands stack with
  | case1 operands => rw [List.append_nil]
  | case2 operands p stack l r hparts ih =>
    have hcons : ∀ x xs, (x :: xs).findSome? f = (f x).or (xs.findSome? f) := by
      intro x xs
      rw [← List.singleton_append, List.findSome?_append, List.findSome?_singleton]
    rw [ih, List.findSome?_append, List.findSome?_append, hcons, hcons, hcons, ← hf hparts,
      Option.or_assoc]
  | case3 operands p stack hparts ih => rw [ih, List.append_assoc, List.singleton_append]

end Opening

/-! ## Reading captures -/

namespace Pattern

/-- The captures of a pattern: those of all operands of a sequence, one behind the other, and those
of the first operand of an alternation that has any. -/
def capturedByOperands (p : Pattern) : Option Captures :=
  if !p.nullable then none
  else
    match p with
    | .empty | .star .. => some ∅
    | .fail | .any | .charSet .. | .negatedSet .. => none
    | .sequence k l r =>
      (Opening.sequence.operands (.sequence k l r)).attach.foldlM (fun captures q => do
        return captures.merge (← q.1.capturedByOperands)) ∅
    | .alternation k l r =>
      (Opening.alternation.operands (.alternation k l r)).attach.findSome? fun q =>
        q.1.capturedByOperands
    | .mark _ name buffer inner =>
      Captures.both (some (Captures.single name (String.ofList buffer.text)))
        inner.capturedByOperands
termination_by p.tree.size
decreasing_by
  · exact Opening.size_lt_of_mem_operands rfl q.2
  · exact Opening.size_lt_of_mem_operands rfl q.2
  · simp only [tree, Tree.size_mark]
    omega

/-- Captures of an operand go behind those of the operands before it. -/
theorem foldlM_operands_sequence (k : Nat) (l r : Pattern) :
    (Opening.sequence.operands (.sequence k l r)).foldlM
      (fun captures q => Captures.both (some captures) q.tree.captured) ∅ =
        (sequence k l r).tree.captured := by
  rw [Opening.operands, Opening.foldlM_operandsBehind]
  · simp only [List.nil_append, List.foldlM_cons, List.foldlM_nil, bind_pure, Captures.empty_both]
  · intro p l r hparts a
    simp only [Opening.sequence] at hparts
    split at hparts
    · next k l' r' =>
      cases hparts
      rw [tree, Tree.captured, ← Captures.both_assoc]
      cases l.tree.captured <;> rfl
    · cases hparts

/-- The first operand that has captures is in the left part, or else in the right part. -/
theorem findSome?_operands_alternation (k : Nat) (l r : Pattern) :
    (Opening.alternation.operands (.alternation k l r)).findSome? (fun q => q.tree.captured) =
      (alternation k l r).tree.captured := by
  rw [Opening.operands, Opening.findSome?_operandsBehind]
  · exact List.findSome?_singleton
  · intro p l r hparts
    simp only [Opening.alternation] at hparts
    split at hparts
    · next k l' r' =>
      cases hparts
      rw [tree, Tree.captured, Captures.first_eq_or]
    · cases hparts

/-- Operand by operand, a pattern holds what its tree does. -/
theorem capturedByOperands_eq (p : Pattern) : p.capturedByOperands = p.tree.captured := by
  fun_induction capturedByOperands p with
  | case1 p hn =>
    rw [Bool.not_eq_true', nullable_eq_tree, Tree.nullable_eq_isSome,
      ← Tree.captured_eq_meaning, Option.isSome_eq_false_iff, Option.isNone_iff_eq_none] at hn
    exact hn.symm
  | case2 | case3 | case4 | case5 | case6 | case7 => rfl
  | case8 k l r hn ih =>
    simp only [ih]
    rw [← foldlM_operands_sequence]
    conv => rhs; rw [← List.attach_map_subtype_val (Opening.operands _ _), List.foldlM_map]
    rfl
  | case9 k l r hn ih =>
    simp only [ih]
    rw [← findSome?_operands_alternation]
    conv => rhs; rw [← List.attach_map_subtype_val (Opening.operands _ _), List.findSome?_map]
    rfl
  | case10 k name buffer inner hn ih => rw [ih, tree, Tree.captured]

end Pattern

/-! ## The law -/

/-- Reading captures operand by operand is the plain recursion over the tree: both parts of a
sequence, the left branch of an alternation or else the right one, nothing for a star, and for a
mark its own text in front of what is inside. Something is read exactly if the pattern is
nullable. -/
theorem captures_read_by_operands_are_those_of_the_tree (p : Pattern) :
    p.capturedByOperands = p.tree.captured ∧ p.captured = p.capturedByOperands ∧
      p.capturedByOperands.isSome = p.nullable ∧ p.nullable = p.tree.nullable := by
  have htree := p.capturedByOperands_eq
  have hcaptured : p.captured = p.capturedByOperands := by
    rw [htree, Pattern.captured_eq_meaning, Tree.captured_eq_meaning]
    rfl
  refine ⟨htree, hcaptured, ?_, p.nullable_eq_tree⟩
  rw [htree, Tree.captured_eq_meaning, p.nullable_eq_tree, Tree.nullable_eq_isSome]

end MarkedRegex
