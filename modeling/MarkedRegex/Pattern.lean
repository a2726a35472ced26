-- The pattern tree. The attributes that matching consults are worked out once,
-- when a node is built. Every built node carries a serial number, so a node is
-- told apart from another one of the same form: patterns are equal when they are
-- the same node, and alike when they are the same tree but for serial numbers.
import MarkedRegex.MarkBuffer
import MarkedRegex.CharSet

namespace MarkedRegex

/-! ## The tree -/

/-- The largest size that is told apart from larger ones, the largest number of 64 bits. -/
def sizeCap : Nat := 0xffffffffffffffff

/-- A size, where those over the cap count as the cap. -/
def capped (n : Nat) : Nat := min n sizeCap

/-- A pattern over characters. The three constants have no serial number, for there is one node of
each. A mark's buffer holds what its inner pattern has taken in so far. -/
inductive Pattern where
  | empty
  | fail
  | any
  | charSet (serial : Nat) (set : CharSet)
  | negatedSet (serial : Nat) (set : CharSet)
  | sequence (serial : Nat) (left right : Pattern)
  | alternation (serial : Nat) (left right : Pattern)
  | star (serial : Nat) (inner : Pattern)
  | mark (serial : Nat) (name : String) (buffer : MarkBuffer) (inner : Pattern)
with
  /-- Whether the pattern accepts the empty text. -/
  @[computed_field] nullable : Pattern → Bool
    | .empty => true
    | .fail | .any | .charSet _ _ | .negatedSet _ _ => false
    | .sequence _ p q => p.nullable && q.nullable
    | .alternation _ p q => p.nullable || q.nullable
    | .star _ _ => true
    | .mark _ _ _ p => p.nullable
  /-- Whether the pattern can still take in a character. -/
  @[computed_field] consumes : Pattern → Bool
    | .empty | .fail => false
    | .any | .charSet _ _ | .negatedSet _ _ => true
    | .sequence _ p q => p.consumes || q.consumes
    | .alternation _ p q => p.consumes || q.consumes
    | .star _ p => p.consumes
    | .mark _ _ _ p => p.consumes
  /-- Whether a mark occurs in the tree. -/
  @[computed_field] hasMarks : Pattern → Bool
    | .empty | .fail | .any | .charSet _ _ | .negatedSet _ _ => false
    | .sequence _ p q => p.hasMarks || q.hasMarks
    | .alternation _ p q => p.hasMarks || q.hasMarks
    | .star _ p => p.hasMarks
    | .mark _ _ _ _ => true
  /-- The number of nodes of the unfolded tree, up to the cap. -/
  @[computed_field] size : Pattern → Nat
    | .empty | .fail | .any | .charSet _ _ | .negatedSet _ _ => 1
    | .sequence _ p q => capped (1 + p.size + q.size)
    | .alternation _ p q => capped (1 + p.size + q.size)
    | .star _ p => capped (1 + p.size)
    | .mark _ _ _ p => capped (1 + p.size)
  /-- How deep the part that can still take in characters is nested. A part that cannot is one
  level, however deep it is. -/
  @[computed_field] depth : Pattern → Nat
    | .empty | .fail | .any | .charSet _ _ | .negatedSet _ _ => 1
    | .sequence _ p q => if p.consumes || q.consumes then max p.depth q.depth + 1 else 1
    | .alternation _ p q => if p.consumes || q.consumes then max p.depth q.depth + 1 else 1
    | .star _ p => if p.consumes then p.depth + 1 else 1
    | .mark _ _ _ p => if p.consumes then p.depth + 1 else 1
  /-- The first number above all serial numbers in the tree. -/
  @[computed_field] serialBound : Pattern → Nat
    | .empty | .fail | .any => 0
    | .charSet s _ | .negatedSet s _ => s + 1
    | .sequence s p q => max (s + 1) (max p.serialBound q.serialBound)
    | .alternation s p q => max (s + 1) (max p.serialBound q.serialBound)
    | .star s p => max (s + 1) p.serialBound
    | .mark s _ _ p => max (s + 1) p.serialBound
  deriving Inhabited

namespace Pattern

/-- The forms of a node. -/
inductive Kind where
  | empty
  | fail
  | any
  | charSet
  | negatedSet
  | sequence
  | alternation
  | star
  | mark
  deriving DecidableEq

def kind : Pattern → Kind
  | .empty => .empty
  | .fail => .fail
  | .any => .any
  | .charSet .. => .charSet
  | .negatedSet .. => .negatedSet
  | .sequence .. => .sequence
  | .alternation .. => .alternation
  | .star .. => .star
  | .mark .. => .mark

def isEmpty (p : Pattern) : Bool := p.kind = .empty

def isFail (p : Pattern) : Bool := p.kind = .fail

/-- Whether the node stands for single characters or is a constant. -/
def isLeaf : Pattern → Bool
  | .empty | .fail | .any | .charSet .. | .negatedSet .. => true
  | .sequence .. | .alternation .. | .star .. | .mark .. => false

/-! ## Node identity -/

/-- Decides the second statement only when the first one holds. -/
def decideBoth {a b : Prop} (first : Decidable a) (second : Unit → Decidable b) :
    Decidable (a ∧ b) :=
  match first with
  | isTrue ha =>
    match second () with
    | isTrue hb => isTrue ⟨ha, hb⟩
    | isFalse hb => isFalse fun h => hb h.2
  | isFalse ha => isFalse fun h => ha h.1

/-- Nodes at the same place in memory are the same; else the serial numbers settle it at once for
nodes that were built apart. -/
instance : DecidableEq Pattern := fun p q => go p q
where
  go (p q : Pattern) : Decidable (p = q) :=
    withPtrEqDecEq p q fun _ =>
      if h : p.kind = q.kind then
        match p, q, h with
        | .empty, .empty, _ => isTrue rfl
        | .fail, .fail, _ => isTrue rfl
        | .any, .any, _ => isTrue rfl
        | .charSet s a, .charSet t b, _ => decidable_of_iff (s = t ∧ a = b) (by simp)
        | .negatedSet s a, .negatedSet t b, _ => decidable_of_iff (s = t ∧ a = b) (by simp)
        | .sequence s a b, .sequence t c d, _ =>
          have := decideBoth (decEq s t) fun _ => decideBoth (go a c) fun _ => go b d
          decidable_of_iff (s = t ∧ a = c ∧ b = d) (by simp)
        | .alternation s a b, .alternation t c d, _ =>
          have := decideBoth (decEq s t) fun _ => decideBoth (go a c) fun _ => go b d
          decidable_of_iff (s = t ∧ a = c ∧ b = d) (by simp)
        | .star s a, .star t c, _ =>
          have := decideBoth (decEq s t) fun _ => go a c
          decidable_of_iff (s = t ∧ a = c) (by simp)
        | .mark s m u a, .mark t n v c, _ =>
          have := decideBoth (decEq s t) fun _ => go a c
          decidable_of_iff ((s = t ∧ a = c) ∧ m = n ∧ u = v) (by simp; grind)
      else isFalse fun e => h (congrArg kind e)

/-- The serial number of a node; the constants, which have none, answer zero. -/
def serial : Pattern → Nat
  | .empty | .fail | .any => 0
  | .charSet s _ | .negatedSet s _ | .sequence s _ _ | .alternation s _ _ | .star s _
  | .mark s _ _ _ => s

/-! ## Trees of the same form -/

/-- Whether the trees agree in everything but serial numbers. The same node is alike itself, and
trees of different size or depth are not alike, so neither is walked. -/
def alike (p q : Pattern) : Bool :=
  decide (p = q) || p.size == q.size && p.depth == q.depth &&
    match p, q with
    | .empty, .empty | .fail, .fail | .any, .any => true
    | .charSet _ s, .charSet _ t | .negatedSet _ s, .negatedSet _ t => s = t
    | .sequence _ a b, .sequence _ c d | .alternation _ a b, .alternation _ c d =>
      a.alike c && b.alike d
    | .star _ a, .star _ c => a.alike c
    | .mark _ m u a, .mark _ n v c => m = n && u = v && a.alike c
    | _, _ => false

end Pattern

end MarkedRegex
