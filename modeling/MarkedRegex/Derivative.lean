-- The derivative: what is left of a pattern after one character. Marks take
-- the character into their buffers on the way, so what is left also holds the
-- text captured so far. It is worked out alike in every monad that builds nodes
-- and can be asked for a memory; the program has a memory as its state.
import MarkedRegex.Memo

namespace MarkedRegex

/-! ## The empty matches of a pattern -/

namespace Pattern

section

variable {m : Type → Type} [Monad m]

/-- Keeps the empty matches of a pattern alone, with every mark and its buffer. It fails when there
are none, and what it gives takes in no character. Only a pattern with marks that still takes in
characters is rebuilt, by the work on its node. -/
@[inline] def settleWith (p : Pattern) (work : m Pattern) : m Pattern :=
  if !p.nullable then pure .fail
  else if !p.hasMarks then pure .empty
  else if !p.consumes then pure p
  else work

/-- Settles a pattern, where `enter` goes into a node for the work on it. -/
@[specialize] def settleBy [MonadLiftT Build m] (enter : m Pattern → m Pattern) (p : Pattern) :
    m Pattern :=
  p.settleWith <|
    match p with
    | .sequence _ left right => enter do
      let head ← left.settleBy enter
      let tail ← right.settleBy enter
      Build.sequence head tail
    | .alternation _ left right => enter do
      let head ← left.settleBy enter
      let tail ← right.settleBy enter
      Build.alternation head tail
    | .star _ inner => enter do
      let rest ← inner.settleBy enter
      Build.star rest
    | .mark _ name buffer inner => enter do
      let rest ← inner.settleBy enter
      Build.markHolding name buffer rest
    | .empty | .fail | .any | .charSet .. | .negatedSet .. => pure .fail

end

/-- Settles a pattern, where the work on a node is done as it is. -/
def settle (p : Pattern) : Build Pattern := p.settleBy fun work => work

end Pattern

/-! ## Asking a memory -/

/-- What differentiating asks of a monad besides building nodes: to look into its memory, to count a
hit or a miss, to store what was worked out, to go into a node for the work on it, and to settle a
pattern. -/
class MonadDerive (m : Type → Type) where
  look : m Memo
  hit : m Unit
  miss (p : Pattern) (c : Char) : m Unit
  store (p : Pattern) (c : Char) (result : Pattern) : m Unit
  enter (work : m Pattern) : m Pattern
  settle (p : Pattern) : m Pattern

namespace MonadDerive

section

variable {m : Type → Type} [Monad m] [MonadDerive m]

/-- Works a derivative out and stores it. The work may itself add entries. -/
@[specialize] def workOut (p : Pattern) (c : Char) (work : m Pattern) : m Pattern := do
  miss p c
  let result ← work
  store p c result
  return result

/-- Answers from a memory, or by the work. -/
@[specialize] def answer (memo : Memo) (p : Pattern) (c : Char) (work : m Pattern) : m Pattern :=
  if memo.isOn then
    match memo.find? p c with
    | some found => do
      hit
      return found
    | none => workOut p c work
  else work

/-- Looks a derivative up, or works it out and stores it. -/
@[specialize] def remember (p : Pattern) (c : Char) (work : m Pattern) : m Pattern := do
  let memo ← look
  answer memo p c work

/-- What is left of a node: failure, if it takes in no character, or what the work on it gives,
which is remembered for a node with parts. -/
@[specialize] def ask (p : Pattern) (c : Char) (work : m Pattern) : m Pattern :=
  if !p.consumes then pure .fail
  else if p.isLeaf then enter work
  else remember p c (enter work)

variable {memo : Memo} {p r : Pattern} {c : Char} {work : m Pattern}

theorem answer_of_hit (h : memo.find? p c = some r) :
    answer memo p c work = do hit; return r := by
  unfold answer
  rw [if_pos (memo.isOn_of_find? h), h]

theorem answer_of_miss (hon : memo.isOn = true) (h : memo.find? p c = none) :
    answer memo p c work = workOut p c work := by
  unfold answer
  rw [if_pos hon, h]

theorem answer_of_off (h : memo.isOn = false) : answer memo p c work = work := by
  unfold answer
  rw [if_neg (by simp [h])]

theorem ask_of_not_consumes (h : p.consumes = false) : ask p c work = pure .fail := by
  unfold ask
  rw [if_pos (by simp [h])]

theorem ask_of_isLeaf (hconsumes : p.consumes = true) (h : p.isLeaf = true) :
    ask p c work = enter work := by
  unfold ask
  rw [if_neg (by simp [hconsumes]), if_pos h]

/-- A node with parts that takes in characters is remembered. -/
theorem ask_of_not_isLeaf (hconsumes : p.consumes = true) (h : p.isLeaf = false) :
    ask p c work = remember p c (enter work) := by
  unfold ask
  rw [if_neg (by simp [hconsumes]), if_neg (by simp [h])]

end

end MonadDerive

/-! ## The derivative -/

namespace Pattern

section

variable (m : Type → Type) [Monad m] [MonadLiftT Build m] [MonadDerive m]

/-- The work on one node, which asks for what is left of its parts. A sequence goes on with its left
part; if that one accepts the empty text and the right part can take `c`, the right part goes on as
well, behind the empty matches of the left one. A star goes through its inner pattern once and is
then the same star. -/
@[specialize] def deriveNodeIn : Pattern → Char → m Pattern
  | .empty, _ | .fail, _ => pure .fail
  | .any, _ => pure .empty
  | .charSet _ s, c => pure (if s.contains c then .empty else .fail)
  | .negatedSet _ s, c => pure (if s.contains c then .fail else .empty)
  | .sequence _ left right, c => do
    let rest ← MonadDerive.ask left c (left.deriveNodeIn c)
    let head ← Build.sequence rest right
    if left.nullable then
      let tail ← MonadDerive.ask right c (right.deriveNodeIn c)
      if tail.isFail then return head
      else
        let settled ← MonadDerive.settle left
        let behind ← Build.sequence settled tail
        Build.alternation head behind
    else return head
  | .alternation _ left right, c => do
    let head ← MonadDerive.ask left c (left.deriveNodeIn c)
    let tail ← MonadDerive.ask right c (right.deriveNodeIn c)
    Build.alternation head tail
  | .star k inner, c => do
    let rest ← MonadDerive.ask inner c (inner.deriveNodeIn c)
    Build.sequence rest (.star k inner)
  | .mark _ name buffer inner, c => do
    let rest ← MonadDerive.ask inner c (inner.deriveNodeIn c)
    Build.markHolding name (buffer.push c) rest

/-- What is left of a pattern after `c`. -/
@[inline] def deriveIn (p : Pattern) (c : Char) : m Pattern :=
  MonadDerive.ask p c (p.deriveNodeIn m c)

end

end Pattern

/-! ## With a memory -/

/-- Differentiating may look into the memory, and builds nodes. -/
abbrev Derive := StateT Memo Build

instance : MonadDerive Derive where
  look := get
  hit := modify (·.countHit)
  miss _ _ := modify (·.countMiss)
  store p c result := modify (·.store p c result)
  enter work := work
  settle p := p.settle

namespace Derive

theorem run_remember (p : Pattern) (c : Char) (work : Derive Pattern) (memo : Memo) :
    (MonadDerive.remember p c work).run memo = (MonadDerive.answer memo p c work).run memo := rfl

theorem run_workOut (p : Pattern) (c : Char) (work : Derive Pattern) (memo : Memo) (n : Nat) :
    ((MonadDerive.workOut p c work).run memo).run n =
      match (work.run memo.countMiss).run n with
      | ((r, memo'), n') => ((r, memo'.store p c r), n') := rfl

end Derive

namespace Pattern

/-- What is left of a pattern after `c`, remembered in the memory. -/
def derive (p : Pattern) (c : Char) : Derive Pattern := p.deriveIn Derive c

/-- The work on one node, where the memory remembers what is left of its parts. -/
def deriveNode (p : Pattern) (c : Char) : Derive Pattern := p.deriveNodeIn Derive c

section

variable {p r : Pattern} {c : Char} {memo : Memo}

theorem derive_eq_remember (hconsumes : p.consumes = true) (hleaf : p.isLeaf = false) :
    p.derive c = MonadDerive.remember p c (p.deriveNode c) :=
  MonadDerive.ask_of_not_isLeaf hconsumes hleaf

/-- A derivative that is found in the memory is the answer, and counted. -/
theorem run_derive_of_find? (hconsumes : p.consumes = true) (hleaf : p.isLeaf = false)
    (h : memo.find? p c = some r) (n : Nat) :
    ((p.derive c).run memo).run n = ((r, memo.countHit), n) := by
  rw [derive_eq_remember hconsumes hleaf, Derive.run_remember, MonadDerive.answer_of_hit h]
  rfl

end

/-- The derivative without a memo table. -/
def derivative (p : Pattern) (c : Char) : Build Pattern := (p.derive c).run' .off

/-- The derivatives by the characters of a text, one after the other. -/
def derivatives (p : Pattern) : List Char → Build Pattern
  | [] => pure p
  | c :: cs => do (← p.derivative c).derivatives cs

/-- What is left of a pattern after each character of a text, each time with the memory as it is
then. -/
def steps (p : Pattern) : List Char → Derive (List (Pattern × Memo))
  | [] => return []
  | c :: cs => do
    let next ← p.derive c
    let memo ← get
    return (next, memo) :: (← next.steps cs)

end Pattern

end MarkedRegex
