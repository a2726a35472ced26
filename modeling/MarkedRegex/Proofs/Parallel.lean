-- Differentiating in two monads side by side. The work on a node is the same in
-- every monad, so what relates the questions for the parts of a node relates the
-- work on the node, and by that the work on all nodes.
import MarkedRegex.Derivative

namespace MarkedRegex

/-! ## Inner patterns -/

namespace Pattern

/-- The patterns that a node is put together from. -/
def inners : Pattern → List Pattern
  | .empty | .fail | .any | .charSet .. | .negatedSet .. => []
  | .sequence _ p q | .alternation _ p q => [p, q]
  | .star _ p | .mark _ _ _ p => [p]

theorem sizeOf_lt_of_mem_inners {p q : Pattern} (h : q ∈ p.inners) : sizeOf q < sizeOf p := by
  cases p with
  | empty | fail | any | charSet | negatedSet => cases h
  | sequence k left right =>
    rw [sequence.sizeOf_spec]
    rcases List.mem_cons.mp h with rfl | h
    · omega
    · rw [List.mem_singleton.mp h]
      omega
  | alternation k left right =>
    rw [alternation.sizeOf_spec]
    rcases List.mem_cons.mp h with rfl | h
    · omega
    · rw [List.mem_singleton.mp h]
      omega
  | star k inner =>
    rw [star.sizeOf_spec, List.mem_singleton.mp h]
    omega
  | mark k name buffer inner =>
    rw [mark.sizeOf_spec, List.mem_singleton.mp h]
    omega

end Pattern

/-! ## Work side by side -/

/-- A way to relate actions of two monads in the work on a pattern. Building is related to itself,
and actions behind one another pass the relation on. Where the work on an inner pattern is related,
the questions for it are, and so are the ways to settle it. -/
structure Parallel (m m' : Type → Type) [Monad m] [MonadLiftT Build m] [MonadDerive m] [Monad m']
    [MonadLiftT Build m'] [MonadDerive m'] where
  Related : {α : Type} → Pattern → m α → m' α → Prop
  pure : ∀ {α : Type} {p : Pattern} (x : α), Related p (Pure.pure x) (Pure.pure x)
  build : ∀ {α : Type} {p : Pattern} (act : Build α), Related p (liftM act) (liftM act)
  bind : ∀ {α β : Type} {p : Pattern} {act : m α} {act' : m' α} {f : α → m β} {g : α → m' β},
    Related p act act' → (∀ x, Related p (f x) (g x)) → Related p (act >>= f) (act' >>= g)
  ask : ∀ {p q : Pattern} {c : Char}, q ∈ p.inners →
    Related q (q.deriveNodeIn m c) (q.deriveNodeIn m' c) →
    Related p (q.deriveIn m c) (q.deriveIn m' c)
  settle : ∀ {p q : Pattern}, q ∈ p.inners →
    Related p (MonadDerive.settle q) (MonadDerive.settle q)

/-- The work on each node is related, by induction on the pattern. -/
theorem Parallel.deriveNodeIn {m m' : Type → Type} [Monad m] [MonadLiftT Build m] [MonadDerive m]
    [Monad m'] [MonadLiftT Build m'] [MonadDerive m'] (P : Parallel m m') (p : Pattern) (c : Char) :
    P.Related p (p.deriveNodeIn m c) (p.deriveNodeIn m' c) := by
  induction p with
  | empty | fail | any | charSet | negatedSet => exact P.pure _
  | sequence k left right ihl ihr =>
    have hleft : left ∈ (Pattern.sequence k left right).inners := List.mem_cons_self
    have hright : right ∈ (Pattern.sequence k left right).inners :=
      List.mem_cons_of_mem _ List.mem_cons_self
    refine P.bind (P.ask hleft ihl) fun rest => P.bind (P.build _) fun head => ?_
    split
    · refine P.bind (P.ask hright ihr) fun tail => ?_
      split
      · exact P.pure head
      · refine P.bind (P.settle hleft) fun settled => P.bind (P.build _) fun behind => ?_
        exact P.build _
    · exact P.pure head
  | alternation k left right ihl ihr =>
    refine P.bind (P.ask List.mem_cons_self ihl) fun head => ?_
    refine P.bind (P.ask (List.mem_cons_of_mem _ List.mem_cons_self) ihr) fun tail => ?_
    exact P.build _
  | star k inner ih => exact P.bind (P.ask List.mem_cons_self ih) fun rest => P.build _
  | mark k name buffer inner ih =>
    exact P.bind (P.ask List.mem_cons_self ih) fun rest => P.build _

end MarkedRegex
