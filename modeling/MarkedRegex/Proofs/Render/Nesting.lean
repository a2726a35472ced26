-- From tokens back to a tree, level by level. A parenthesis opens a level, and
-- a level keeps the branches and the parts that have stood in it so far. What
-- is read from the tokens of a tree is the similar tree that leans to the left.
import MarkedRegex.Proofs.Render.Tokens
import MarkedRegex.Proofs.Tree.Similar

namespace MarkedRegex

/-! ## Parts and branches -/

namespace Tree

/-- The parts of a sequence that leans to the left, the last one first. -/
def parts : Tree → List Tree
  | .sequence t u => u :: t.parts
  | t => [t]

/-- The sequence of parts, which are given the last one first. -/
def joinParts : List Tree → Tree
  | [] => .empty
  | [t] => t
  | t :: ts => .sequence (joinParts ts) t

/-- The last branch of an alternation that leans to the left. -/
def lastBranch : Tree → Tree
  | .alternation t u => if t = .empty then .alternation t u else u
  | t => t

/-- The other branches, the last one first. -/
def earlierBranches : Tree → List Tree
  | .alternation t _ => if t = .empty then [] else t.lastBranch :: t.earlierBranches
  | _ => []

/-- The alternation of branches, where the others are given the last one first. -/
def joinBranches (last : Tree) : List Tree → Tree
  | [] => last
  | t :: ts => .alternation (joinBranches t ts) last

variable {t u : Tree}

theorem parts_ne_nil (t : Tree) : t.parts ≠ [] := by
  cases t <;> simp [parts]

theorem joinParts_cons {ts : List Tree} (t : Tree) (h : ts ≠ []) :
    joinParts (t :: ts) = .sequence (joinParts ts) t := by
  cases ts with
  | nil => exact absurd rfl h
  | cons => rfl

theorem joinParts_parts (t : Tree) : joinParts t.parts = t := by
  induction t with
  | sequence t u iht ihu => rw [parts, joinParts_cons u t.parts_ne_nil, iht]
  | _ => rfl

theorem parts_before : (t.before u).parts = u.parts ++ t.parts := by
  induction u with
  | sequence u v ihu ihv => rw [before, parts, parts, ihu, List.cons_append]
  | _ => rfl

theorem parts_beside : (t.beside u).parts = [t.beside u] := by
  cases u with
  | alternation u v =>
    unfold beside
    split <;> rfl
  | _ => rfl

theorem joinBranches_branches (t : Tree) : joinBranches t.lastBranch t.earlierBranches = t := by
  induction t with
  | alternation t u iht ihu =>
    by_cases ht : t = .empty
    · rw [lastBranch, earlierBranches, if_pos ht, if_pos ht, joinBranches]
    · rw [lastBranch, earlierBranches, if_neg ht, if_neg ht, joinBranches, iht]
  | _ => rfl

theorem lastBranch_before : (t.before u).lastBranch = t.before u := by
  cases u <;> rfl

theorem earlierBranches_before : (t.before u).earlierBranches = [] := by
  cases u <;> rfl

theorem lastBranch_beside (ht : t ≠ .empty) : (t.beside u).lastBranch = u.lastBranch := by
  cases u with
  | alternation u v =>
    unfold beside
    split
    · next hu => simp [lastBranch, ht, hu]
    · next hu => simp [lastBranch, beside_ne_empty, hu]
  | _ => simp [beside, lastBranch, ht]

theorem earlierBranches_beside (ht : t ≠ .empty) :
    (t.beside u).earlierBranches = u.earlierBranches ++ t.lastBranch :: t.earlierBranches := by
  induction u with
  | alternation u v ihu ihv =>
    unfold beside
    split
    · next hu => simp [earlierBranches, ht, hu]
    · next hu => simp [earlierBranches, beside_ne_empty, hu, lastBranch_beside ht, ihu]
  | _ => simp [beside, earlierBranches, ht]

end Tree

/-! ## Levels -/

namespace Writing

open MarkedRegex.Tree (joinParts joinBranches)

/-- What has stood so far behind an open parenthesis: the branches in front of the last bar and the
parts behind it, the last one first. The mark is the one that the parenthesis opened. -/
structure Level where
  mark : Option String
  branches : List Tree
  parts : List Tree

def Level.tree (l : Level) : Tree := joinBranches (joinParts l.parts) l.branches

theorem Level.tree_of_branches (mark : Option String) (t : Tree) :
    (Level.mk mark t.earlierBranches t.lastBranch.parts).tree = t := by
  rw [tree, Tree.joinParts_parts, Tree.joinBranches_branches]

/-- The tree of a level, within its mark. -/
def Level.whole (l : Level) : Tree := l.mark.elim l.tree fun name => .mark name ∅ l.tree

/-- What a token does to the open levels, the innermost one first. -/
def step : Token → List Level → Option (List Level)
  | .opened, levels => some (⟨none, [], []⟩ :: levels)
  | .mark name, levels => some (⟨some name, [], []⟩ :: levels)
  | .closed, l :: ⟨mark, branches, parts⟩ :: levels =>
    some (⟨mark, branches, l.whole :: parts⟩ :: levels)
  | .bar, ⟨mark, branches, parts⟩ :: levels =>
    some (⟨mark, joinParts parts :: branches, []⟩ :: levels)
  | .leaf form, ⟨mark, branches, parts⟩ :: levels =>
    some (⟨mark, branches, form.tree :: parts⟩ :: levels)
  | .optional, ⟨mark, branches, t :: parts⟩ :: levels =>
    some (⟨mark, branches, .alternation .empty t :: parts⟩ :: levels)
  | .star, ⟨mark, branches, t :: parts⟩ :: levels =>
    some (⟨mark, branches, .star t :: parts⟩ :: levels)
  | _, _ => none

def run : List Token → List Level → Option (List Level)
  | [], levels => some levels
  | t :: ts, levels => (step t levels).bind (run ts)

theorem run_append (ts us : List Token) (levels : List Level) :
    run (ts ++ us) levels = (run ts levels).bind (run us) := by
  induction ts generalizing levels with
  | nil => rfl
  | cons t ts ih =>
    rw [List.cons_append, run, run, Option.bind_assoc]
    exact congrArg (Option.bind _) (funext ih)

/-- What tokens leave behind when they are read at a place: their parts, their branches, or one
part that the next sign takes hold of. -/
def Yields (ts : List Token) (t : Tree) : Pattern.Place → Prop
  | .branch => ∀ mark branches levels, run ts (⟨mark, branches, []⟩ :: levels) =
      some (⟨mark, t.earlierBranches ++ branches, t.lastBranch.parts⟩ :: levels)
  | .part => ∀ mark branches parts levels, run ts (⟨mark, branches, parts⟩ :: levels) =
      some (⟨mark, branches, t.parts ++ parts⟩ :: levels)
  | .repeated => ∀ mark branches parts levels, run ts (⟨mark, branches, parts⟩ :: levels) =
      some (⟨mark, branches, t :: parts⟩ :: levels)

namespace Yields

variable {ts us : List Token} {t u : Tree}

theorem part (h : Yields ts t .repeated) (ht : t.parts = [t]) : Yields ts t .part := by
  intro mark branches parts levels
  rw [h, ht, List.singleton_append]

theorem branch (h : Yields ts t .part) (hlast : t.lastBranch = t)
    (hearlier : t.earlierBranches = []) : Yields ts t .branch := by
  intro mark branches levels
  rw [h, hlast, hearlier, List.append_nil, List.nil_append]

/-- A level that is closed is one part of the level around it. -/
theorem closed (h : Yields ts t .branch) (inner mark : Option String) (branches parts : List Tree)
    (levels : List Level) :
    run (ts ++ [.closed]) (⟨inner, [], []⟩ :: ⟨mark, branches, parts⟩ :: levels) =
      some (⟨mark, branches, (inner.elim t fun name => .mark name ∅ t) :: parts⟩ :: levels) := by
  rw [run_append, h, List.append_nil, Option.bind_some, run, step, Level.whole,
    Level.tree_of_branches]
  rfl

theorem enclosed (h : Yields ts t .branch) : Yields (.opened :: ts ++ [.closed]) t .repeated := by
  intro mark branches parts levels
  exact h.closed none mark branches parts levels

theorem mark (name : String) (h : Yields ts t .branch) :
    Yields (.mark name :: ts ++ [.closed]) (.mark name ∅ t) .repeated := by
  intro mark branches parts levels
  exact h.closed (some name) mark branches parts levels

theorem sequence (ht : Yields ts t .part) (hu : Yields us u .part) :
    Yields (ts ++ us) (t.before u) .part := by
  intro mark branches parts levels
  rw [run_append, ht, Option.bind_some, hu, Tree.parts_before, List.append_assoc]

theorem alternation (ht : Yields ts t .branch) (hu : Yields us u .branch) (hne : t ≠ .empty) :
    Yields (ts ++ .bar :: us) (t.beside u) .branch := by
  intro mark branches levels
  rw [run_append, ht, Option.bind_some, run, step, Option.bind_some, Tree.joinParts_parts, hu,
    Tree.lastBranch_beside hne, Tree.earlierBranches_beside hne, List.append_assoc,
    List.cons_append]

theorem optional (h : Yields ts t .repeated) :
    Yields (ts ++ [.optional]) (.alternation .empty t) .part := by
  intro mark branches parts levels
  rw [run_append, h]
  rfl

theorem star (h : Yields ts t .repeated) : Yields (ts ++ [.star]) (.star t) .part := by
  intro mark branches parts levels
  rw [run_append, h]
  rfl

/-- Tokens that yield a part do so at every place, if a repetition sign is kept off them. -/
theorem atPlace_part (h : Yields ts t .part) (hlast : t.lastBranch = t)
    (hearlier : t.earlierBranches = []) (place : Pattern.Place) :
    Yields (Writing.enclosed (place = .repeated) ts) t place := by
  cases place with
  | branch => exact h.branch hlast hearlier
  | part => exact h
  | repeated => exact (h.branch hlast hearlier).enclosed

/-- Tokens that yield branches do so at every place, if they are kept together. -/
theorem atPlace_branch (h : Yields ts t .branch) (ht : t.parts = [t]) (place : Pattern.Place) :
    Yields (Writing.enclosed (place ≠ .branch) ts) t place := by
  cases place with
  | branch => exact h
  | part => exact h.enclosed.part ht
  | repeated => exact h.enclosed

theorem atPlace_repeated (h : Yields ts t .repeated) (ht : t.parts = [t])
    (hlast : t.lastBranch = t) (hearlier : t.earlierBranches = []) (place : Pattern.Place) :
    Yields ts t place := by
  cases place with
  | branch => exact (h.part ht).branch hlast hearlier
  | part => exact h.part ht
  | repeated => exact h

theorem leaf (form : Leaf) (place : Pattern.Place) : Yields [.leaf form] form.tree place := by
  have hone : Yields [.leaf form] form.tree .repeated := fun _ _ _ _ => rfl
  cases form <;> exact hone.atPlace_repeated rfl rfl rfl place

end Yields

end Writing

/-! ## The tree that is read -/

namespace Tree

open Writing

/-- The tokens of a tree are read as its leaning form. A level without parts is the empty tree. -/
theorem yields_tokens (t : Tree) (place : Pattern.Place) :
    Yields (t.tokens place) t.leaning place := by
  induction t generalizing place with
  | empty =>
    have hpair : Yields [.opened, .closed] .empty .repeated := fun _ _ _ _ => rfl
    exact hpair.atPlace_repeated rfl rfl rfl place
  | fail => exact .leaf .fail place
  | any => exact .leaf .any place
  | charSet s => exact .leaf (.charSet s) place
  | negatedSet s => exact .leaf (.negatedSet s) place
  | sequence t u iht ihu =>
    exact ((iht _).sequence (ihu _)).atPlace_part lastBranch_before earlierBranches_before place
  | alternation t u iht ihu =>
    rw [tokens, leaning]
    split
    · exact (ihu _).optional.atPlace_part rfl rfl place
    · next ht =>
      exact ((iht _).alternation (ihu _) (leaning_ne_empty ht)).atPlace_branch parts_beside place
  | star t ih => exact (ih _).star.atPlace_part rfl rfl place
  | mark name buffer t ih => exact ((ih _).mark name).atPlace_repeated rfl rfl rfl place

/-- The tree of tokens in which every parenthesis is closed. -/
def ofTokens (ts : List Token) : Option Tree :=
  match run ts [⟨none, [], []⟩] with
  | some [l] => some l.tree
  | _ => none

theorem ofTokens_tokens (t : Tree) : ofTokens (t.tokens .branch) = some t.leaning := by
  rw [ofTokens, t.yields_tokens .branch]
  simp only [List.append_nil, Level.tree_of_branches]

/-- Similar trees have the same tokens at every place. -/
theorem Similar.tokens_eq {t u : Tree} (h : Similar t u) (place : Pattern.Place) :
    t.tokens place = u.tokens place := by
  induction h generalizing place with
  | refl => rfl
  | symm _ ih => exact (ih place).symm
  | trans _ _ ih ih' => exact (ih place).trans (ih' place)
  | sequence _ _ ih ih' => rw [tokens, tokens, ih, ih']
  | @alternation t t' u u' h _ ih ih' =>
    by_cases ht : t = .empty
    · rw [tokens, tokens, if_pos ht, if_pos (h.empty_iff.mp ht), ih']
    · rw [tokens, tokens, if_neg ht, if_neg (mt h.empty_iff.mpr ht), ih, ih']
  | star _ ih => rw [tokens, tokens, ih]
  | mark _ _ _ _ ih => rw [tokens, tokens, ih]
  | regroupSequence t u v => simp [tokens, enclosed]
  | regroupAlternation v ht hu => simp [tokens, enclosed, ht, hu]

/-- Two trees have the same tokens when they are similar, and not otherwise. -/
theorem tokens_eq_iff_similar {t u : Tree} : t.tokens .branch = u.tokens .branch ↔ t.Similar u := by
  refine ⟨fun h => ?_, fun h => h.tokens_eq .branch⟩
  have hleaning : some t.leaning = some u.leaning := by
    rw [← ofTokens_tokens, ← ofTokens_tokens, h]
  exact (similar_leaning t).trans (Option.some.inj hleaning ▸ (similar_leaning u).symm)

end Tree

end MarkedRegex
