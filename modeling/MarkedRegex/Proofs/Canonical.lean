-- The law of the canonical form: whatever constructors, settling and derivatives
-- give has nothing left to reduce at any of its nodes, and each node keeps the
-- attributes that can be read off its plain tree.
import MarkedRegex.Proofs.Reachable
import MarkedRegex.Proofs.Tree.Attributes

namespace MarkedRegex

namespace Pattern

/-! ## The nodes of a pattern -/

/-- The nodes of a pattern, the whole of it first, each as often as it stands there. -/
def nodes (p : Pattern) : List Pattern :=
  p :: match p with
    | .empty | .fail | .any | .charSet _ _ | .negatedSet _ _ => []
    | .sequence _ p q | .alternation _ p q => p.nodes ++ q.nodes
    | .star _ p | .mark _ _ _ p => p.nodes

section

variable {k : Nat} {p q : Pattern} {name : String} {buffer : MarkBuffer} {good : Pattern → Prop}

theorem forall_nodes_sequence : (∀ x ∈ (Pattern.sequence k p q).nodes, good x) ↔
    good (.sequence k p q) ∧ (∀ x ∈ p.nodes, good x) ∧ ∀ x ∈ q.nodes, good x := by
  simp [nodes, or_imp, forall_and]

theorem forall_nodes_alternation : (∀ x ∈ (Pattern.alternation k p q).nodes, good x) ↔
    good (.alternation k p q) ∧ (∀ x ∈ p.nodes, good x) ∧ ∀ x ∈ q.nodes, good x := by
  simp [nodes, or_imp, forall_and]

theorem forall_nodes_star : (∀ x ∈ (Pattern.star k p).nodes, good x) ↔
    good (.star k p) ∧ ∀ x ∈ p.nodes, good x := by
  simp [nodes]

theorem forall_nodes_mark : (∀ x ∈ (Pattern.mark k name buffer p).nodes, good x) ↔
    good (.mark k name buffer p) ∧ ∀ x ∈ p.nodes, good x := by
  simp [nodes]

theorem forall_nodes_leaf (h : p.isLeaf = true) : (∀ x ∈ p.nodes, good x) ↔ good p := by
  cases p with
  | empty | fail | any | charSet | negatedSet => simp [nodes]
  | _ => cases h

end

/-- The canonical form, node by node. -/
structure Canonical (p : Pattern) : Prop where
  fail : .fail ∈ p.nodes → p = .fail
  sequence : ∀ k q r, .sequence k q r ∈ p.nodes → q ≠ .empty ∧ r ≠ .empty
  star : ∀ k q, .star k q ∈ p.nodes →
    q ≠ .empty ∧ (∀ i r, q ≠ .star i r) ∧ (q.hasMarks = true ∨ q.consumes = true)
  charSet : ∀ k s, .charSet k s ∈ p.nodes → ∃ c, c ∈ s
  negatedSet : ∀ k s, .negatedSet k s ∈ p.nodes → ∃ c, c ∈ s
  alternation : ∀ k q r, .alternation k q r ∈ p.nodes →
    ¬(q = .empty ∧ r = .empty) ∧ ¬(q.isSingle = true ∧ r.isSingle = true)

/-- The attributes that a node keeps are those of its tree; the size is told up to the largest
number of 64 bits. -/
structure Exact (p : Pattern) : Prop where
  nullable : p.nullable = p.tree.nullable
  consumes : p.consumes = p.tree.consumes
  hasMarks : p.hasMarks = p.tree.hasMarks
  size : p.size = min p.tree.size (2 ^ 64 - 1)
  depth : p.depth = p.tree.depth

theorem exact (p : Pattern) : p.Exact where
  nullable := p.nullable_eq_tree
  consumes := p.consumes_eq_tree
  hasMarks := p.hasMarks_eq_tree
  size := p.size_eq_tree
  depth := p.depth_eq_tree

/-! ## Reduced patterns are canonical -/

namespace Reduced

/-- The nodes of a reduced pattern are reduced. -/
theorem of_mem_nodes {p q : Pattern} (h : p.Reduced) (hq : q ∈ p.nodes) : q.Reduced := by
  induction h with
  | empty => rw [List.mem_singleton.mp hq]; exact .empty
  | fail => rw [List.mem_singleton.mp hq]; exact .fail
  | any => rw [List.mem_singleton.mp hq]; exact .any
  | charSet k hs => rw [List.mem_singleton.mp hq]; exact .charSet k hs
  | negatedSet k hs => rw [List.mem_singleton.mp hq]; exact .negatedSet k hs
  | sequence k hl hr hlf hle hrf hre ihl ihr =>
    rcases List.mem_cons.mp hq with rfl | hq
    · exact .sequence k hl hr hlf hle hrf hre
    · exact (List.mem_append.mp hq).elim ihl ihr
  | alternation k hl hr hlf hrf hempty hsingle ihl ihr =>
    rcases List.mem_cons.mp hq with rfl | hq
    · exact .alternation k hl hr hlf hrf hempty hsingle
    · exact (List.mem_append.mp hq).elim ihl ihr
  | star k hp hf he hs hlive ih =>
    rcases List.mem_cons.mp hq with rfl | hq
    · exact .star k hp hf he hs hlive
    · exact ih hq
  | mark k name buffer hp hf ih =>
    rcases List.mem_cons.mp hq with rfl | hq
    · exact .mark k name buffer hp hf
    · exact ih hq

/-- Failure is no part of a reduced pattern, only ever the whole. -/
theorem eq_fail_of_mem_nodes {p : Pattern} (h : p.Reduced) (hq : .fail ∈ p.nodes) : p = .fail := by
  induction h with
  | empty => simp [nodes] at hq
  | fail => rfl
  | any => simp [nodes] at hq
  | charSet => simp [nodes] at hq
  | negatedSet => simp [nodes] at hq
  | sequence k _ _ hlf _ hrf _ ihl ihr =>
    rcases List.mem_cons.mp hq with hq | hq
    · exact hq.symm
    · exact ((List.mem_append.mp hq).elim (fun h => hlf (ihl h)) fun h => hrf (ihr h)).elim
  | alternation k _ _ hlf hrf _ _ ihl ihr =>
    rcases List.mem_cons.mp hq with hq | hq
    · exact hq.symm
    · exact ((List.mem_append.mp hq).elim (fun h => hlf (ihl h)) fun h => hrf (ihr h)).elim
  | star k _ hf _ _ _ ih =>
    rcases List.mem_cons.mp hq with hq | hq
    · exact hq.symm
    · exact (hf (ih hq)).elim
  | mark k name buffer _ hf ih =>
    rcases List.mem_cons.mp hq with hq | hq
    · exact hq.symm
    · exact (hf (ih hq)).elim

theorem canonical {p : Pattern} (h : p.Reduced) : p.Canonical where
  fail := h.eq_fail_of_mem_nodes
  sequence := by
    intro k q r hnode
    cases h.of_mem_nodes hnode with
    | sequence _ _ _ _ hq _ hr => exact ⟨hq, hr⟩
  star := by
    intro k q hnode
    cases h.of_mem_nodes hnode with
    | star _ _ _ hempty hstar hlive => exact ⟨hempty, hstar, hlive⟩
  charSet := by
    intro k s hnode
    cases h.of_mem_nodes hnode with
    | charSet _ hs => exact CharSet.exists_contains hs
  negatedSet := by
    intro k s hnode
    cases h.of_mem_nodes hnode with
    | negatedSet _ hs => exact CharSet.exists_contains hs
  alternation := by
    intro k q r hnode
    cases h.of_mem_nodes hnode with
    | alternation _ _ _ _ _ hempty hsingle => exact ⟨hempty, hsingle⟩

end Reduced

end Pattern

/-! ## The law -/

/-- Every pattern that constructors, settling and derivatives give, the latter also through a memory
with any history, is canonical, and the attributes of each of its nodes are those of the tree that
the node stands for. -/
theorem whatever_can_be_had_is_canonical {p : Pattern} (hp : Reachable p) :
    p.Canonical ∧ ∀ q ∈ p.nodes, q.Exact :=
  ⟨hp.reduced.canonical, fun q _ => q.exact⟩

/-- What a memory gives for a star of marks, two characters on: the captures taken in so far have
gathered in a sequence of their own in front of the star. -/
theorem captures_in_front_of_a_star_are_canonical :
    let p := (((Expr.star (.mark "x" .any)).buildBehind []).run 0).1
    let q := (((p.derive 'a').behind 1 []).run 2).1
    let r := (((q.derive 'b').behind 1 [.derive p 'b', .derive q 'b']).run 8).1
    Reachable r ∧ (r.Canonical ∧ ∀ n ∈ r.nodes, n.Exact) ∧
      (r.size, r.depth, r.nodes.length) = (9, 4, 9) ∧
      r.kind = .sequence := by
  intro p q r
  have hp : Reachable p := Expr.reachable_of_buildBehind (Build.gives_run _ 0)
  have hq : Reachable q := .derive 'a' 1 [] hp (Build.gives_run _ 2)
  have hr : Reachable r := .derive 'b' 1 [.derive p 'b', .derive q 'b'] hq (Build.gives_run _ 8)
  exact ⟨hr, whatever_can_be_had_is_canonical hr, by decide +kernel, by decide +kernel⟩

end MarkedRegex
