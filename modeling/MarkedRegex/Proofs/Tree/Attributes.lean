-- The attributes of a pattern, as they can be read off its plain tree: how many
-- nodes there are, whether one of them is a single character or a mark, and how
-- high the tree is where what takes in no character is cut off.
import MarkedRegex.Proofs.Tree.Derivative

namespace MarkedRegex

/-! ## Attributes of trees -/

namespace Tree

/-- The nodes of a tree, the whole of it first. -/
def nodes (t : Tree) : List Tree :=
  t :: match t with
    | .empty | .fail | .any | .charSet _ | .negatedSet _ => []
    | .sequence p q | .alternation p q => p.nodes ++ q.nodes
    | .star p | .mark _ _ p => p.nodes

def isSingle : Tree → Bool
  | .any | .charSet _ | .negatedSet _ => true
  | .empty | .fail | .sequence .. | .alternation .. | .star _ | .mark .. => false

def isMark : Tree → Bool
  | .mark .. => true
  | .empty | .fail | .any | .charSet _ | .negatedSet _ | .sequence .. | .alternation ..
  | .star _ => false

/-- The number of nodes. -/
def size (t : Tree) : Nat := t.nodes.length

/-- Whether a node stands for single characters. -/
def consumes (t : Tree) : Bool := t.nodes.any isSingle

/-- Whether a node is a mark. -/
def hasMarks (t : Tree) : Bool := t.nodes.any isMark

/-- The number of nodes from the root down to the lowest leaf. -/
def height : Tree → Nat
  | .empty | .fail | .any | .charSet _ | .negatedSet _ => 1
  | .sequence p q | .alternation p q => max p.height q.height + 1
  | .star p | .mark _ _ p => p.height + 1

/-- The tree with a leaf in the place of each part that takes in no character. -/
def pruned (t : Tree) : Tree :=
  if !t.consumes then .empty
  else
    match t with
    | .empty | .fail | .any | .charSet _ | .negatedSet _ => t
    | .sequence p q => .sequence p.pruned q.pruned
    | .alternation p q => .alternation p.pruned q.pruned
    | .star p => .star p.pruned
    | .mark name buffer p => .mark name buffer p.pruned

/-- How deep the part that can still take in characters is nested. -/
def depth (t : Tree) : Nat := t.pruned.height

section

variable (p q : Tree) (name : String) (buffer : MarkBuffer)

@[simp] theorem size_sequence : (sequence p q).size = 1 + p.size + q.size := by
  have hparts : (p.nodes ++ q.nodes).length = p.size + q.size := List.length_append
  have hsize : (sequence p q).size = (p.nodes ++ q.nodes).length + 1 := rfl
  omega

@[simp] theorem size_alternation : (alternation p q).size = 1 + p.size + q.size := by
  have hparts : (p.nodes ++ q.nodes).length = p.size + q.size := List.length_append
  have hsize : (alternation p q).size = (p.nodes ++ q.nodes).length + 1 := rfl
  omega

@[simp] theorem size_star : (star p).size = 1 + p.size := Nat.add_comm p.size 1

@[simp] theorem size_mark : (mark name buffer p).size = 1 + p.size := Nat.add_comm p.size 1

@[simp] theorem consumes_sequence : (sequence p q).consumes = (p.consumes || q.consumes) :=
  List.any_append

@[simp] theorem consumes_alternation :
    (alternation p q).consumes = (p.consumes || q.consumes) :=
  List.any_append

@[simp] theorem consumes_star : (star p).consumes = p.consumes := rfl

@[simp] theorem consumes_mark : (mark name buffer p).consumes = p.consumes := rfl

@[simp] theorem hasMarks_sequence : (sequence p q).hasMarks = (p.hasMarks || q.hasMarks) :=
  List.any_append

@[simp] theorem hasMarks_alternation :
    (alternation p q).hasMarks = (p.hasMarks || q.hasMarks) :=
  List.any_append

@[simp] theorem hasMarks_star : (star p).hasMarks = p.hasMarks := rfl

@[simp] theorem hasMarks_mark : (mark name buffer p).hasMarks = true := rfl

omit q name buffer in
theorem size_pos : 0 < p.size := by
  unfold size nodes
  exact Nat.succ_pos _

/-! ## Depth, node by node -/

omit p q name buffer in
theorem depth_of_not_consumes {t : Tree} (h : t.consumes = false) : t.depth = 1 := by
  unfold depth pruned
  simp [h, height]

omit p q name buffer in
/-- The depth of a tree whose pruned form is `s` where it consumes. -/
theorem depth_of_pruned {t s : Tree} (h : t.pruned = if !t.consumes then .empty else s) :
    t.depth = if t.consumes then s.height else 1 := by
  have hdepth : t.depth = t.pruned.height := rfl
  rw [hdepth, h]
  cases t.consumes <;> rfl

theorem depth_sequence :
    (sequence p q).depth = if p.consumes || q.consumes then max p.depth q.depth + 1 else 1 := by
  rw [← consumes_sequence]
  exact depth_of_pruned (s := sequence p.pruned q.pruned) rfl

theorem depth_alternation :
    (alternation p q).depth = if p.consumes || q.consumes then max p.depth q.depth + 1 else 1 := by
  rw [← consumes_alternation]
  exact depth_of_pruned (s := alternation p.pruned q.pruned) rfl

theorem depth_star : (star p).depth = if p.consumes then p.depth + 1 else 1 :=
  depth_of_pruned (s := star p.pruned) rfl

theorem depth_mark : (mark name buffer p).depth = if p.consumes then p.depth + 1 else 1 :=
  depth_of_pruned (s := mark name buffer p.pruned) rfl

end

end Tree

/-! ## Attributes of patterns -/

namespace Pattern

theorem nullable_eq_tree (p : Pattern) : p.nullable = p.tree.nullable := by
  rw [nullable_eq_isSome, Tree.nullable_eq_isSome]
  rfl

theorem consumes_eq_tree (p : Pattern) : p.consumes = p.tree.consumes := by
  induction p with
  | empty => rfl
  | fail => rfl
  | any => rfl
  | charSet => rfl
  | negatedSet => rfl
  | sequence k p q ihp ihq => rw [consumes, ihp, ihq, tree, Tree.consumes_sequence]
  | alternation k p q ihp ihq => rw [consumes, ihp, ihq, tree, Tree.consumes_alternation]
  | star k p ih => rw [consumes, ih, tree, Tree.consumes_star]
  | mark k name buffer p ih => rw [consumes, ih, tree, Tree.consumes_mark]

theorem hasMarks_eq_tree (p : Pattern) : p.hasMarks = p.tree.hasMarks := by
  induction p with
  | empty => rfl
  | fail => rfl
  | any => rfl
  | charSet => rfl
  | negatedSet => rfl
  | sequence k p q ihp ihq => rw [hasMarks, ihp, ihq, tree, Tree.hasMarks_sequence]
  | alternation k p q ihp ihq => rw [hasMarks, ihp, ihq, tree, Tree.hasMarks_alternation]
  | star k p ih => rw [hasMarks, ih, tree, Tree.hasMarks_star]
  | mark k name buffer p _ => rw [hasMarks, tree, Tree.hasMarks_mark]

/-- The size is the number of nodes, up to the cap: capping parts on the way does not show. -/
theorem size_eq_tree (p : Pattern) : p.size = capped p.tree.size := by
  induction p with
  | empty => rfl
  | fail => rfl
  | any => rfl
  | charSet => rfl
  | negatedSet => rfl
  | sequence k p q ihp ihq =>
    rw [size, ihp, ihq, tree, Tree.size_sequence]
    simp only [capped]
    omega
  | alternation k p q ihp ihq =>
    rw [size, ihp, ihq, tree, Tree.size_alternation]
    simp only [capped]
    omega
  | star k p ih =>
    rw [size, ih, tree, Tree.size_star]
    simp only [capped]
    omega
  | mark k name buffer p ih =>
    rw [size, ih, tree, Tree.size_mark]
    simp only [capped]
    omega

theorem depth_eq_tree (p : Pattern) : p.depth = p.tree.depth := by
  induction p with
  | empty => rfl
  | fail => rfl
  | any => rfl
  | charSet => rfl
  | negatedSet => rfl
  | sequence k p q ihp ihq =>
    rw [depth, ihp, ihq, consumes_eq_tree, consumes_eq_tree, tree, Tree.depth_sequence]
  | alternation k p q ihp ihq =>
    rw [depth, ihp, ihq, consumes_eq_tree, consumes_eq_tree, tree, Tree.depth_alternation]
  | star k p ih => rw [depth, ih, consumes_eq_tree, tree, Tree.depth_star]
  | mark k name buffer p ih => rw [depth, ih, consumes_eq_tree, tree, Tree.depth_mark]

end Pattern

end MarkedRegex
