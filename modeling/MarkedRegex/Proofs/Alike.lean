-- The law of equality: patterns are alike exactly when their trees are the same,
-- and the comparison ends. How alike patterns share nodes decides what is left
-- of them after a character, but no match ever shows it.
import MarkedRegex.Proofs.Calls
import MarkedRegex.Proofs.Search.Stream
import MarkedRegex.Proofs.Tree.Attributes

namespace MarkedRegex

namespace Pattern

/-! ## Node by node -/

/-- The parts that have to be alike for two nodes to be alike; none if the nodes differ already. -/
def pairs? : Pattern → Pattern → Option (List (Pattern × Pattern))
  | .empty, .empty | .fail, .fail | .any, .any => some []
  | .charSet _ s, .charSet _ t | .negatedSet _ s, .negatedSet _ t =>
    if s = t then some [] else none
  | .sequence _ a b, .sequence _ c d | .alternation _ a b, .alternation _ c d =>
    some [(a, c), (b, d)]
  | .star _ a, .star _ c => some [(a, c)]
  | .mark _ m u a, .mark _ n v c => if m = n ∧ u = v then some [(a, c)] else none
  | _, _ => none

/-- Trees are the same if the nodes are of one form and the trees of their parts are the same. -/
theorem tree_eq_iff (p q : Pattern) :
    p.tree = q.tree ↔ ∃ pairs, p.pairs? q = some pairs ∧ ∀ x ∈ pairs, x.1.tree = x.2.tree := by
  cases p <;> cases q <;> simp [tree, pairs?, and_assoc, -Prod.forall]

/-- The number of nodes on the left of some pairs, which a comparison may have to look at. -/
def leftSize : List (Pattern × Pattern) → Nat
  | [] => 0
  | (p, _) :: pairs => p.tree.size + leftSize pairs

theorem leftSize_append (xs ys : List (Pattern × Pattern)) :
    leftSize (xs ++ ys) = leftSize xs + leftSize ys := by
  induction xs with
  | nil => exact (Nat.zero_add _).symm
  | cons x xs ih => rw [List.cons_append, leftSize, leftSize, ih, Nat.add_assoc]

theorem size_le_leftSize {pairs : List (Pattern × Pattern)} {x : Pattern × Pattern}
    (h : x ∈ pairs) : x.1.tree.size ≤ leftSize pairs := by
  obtain ⟨front, rest, rfl⟩ := List.append_of_mem h
  rw [leftSize_append, leftSize]
  omega

/-- The parts together have fewer nodes than the whole. -/
theorem leftSize_pairs_lt {p q : Pattern} {pairs : List (Pattern × Pattern)}
    (h : p.pairs? q = some pairs) : leftSize pairs < p.tree.size := by
  revert h
  fun_cases pairs? p q
  case case1 | case2 | case3 | case4 | case6 =>
    intro h
    cases h
    exact Tree.size_pos _
  case case5 | case7 | case12 | case13 =>
    intro h
    cases h
  case case8 | case9 =>
    intro h
    cases h
    simp only [leftSize, tree, Tree.size_sequence, Tree.size_alternation]
    omega
  case case10 | case11 =>
    intro h
    cases h
    simp only [leftSize, tree, Tree.size_star, Tree.size_mark]
    omega

theorem alike_eq (p q : Pattern) :
    p.alike q = (decide (p = q) || p.size == q.size && p.depth == q.depth &&
      (p.pairs? q).any fun pairs => pairs.all fun x => x.1.alike x.2) := by
  conv => lhs; unfold alike
  congr 2
  cases p <;> cases q <;> simp only [pairs?, apply_ite, Option.any_some, Option.any_none,
    List.all_cons, List.all_nil, Bool.and_true]
  all_goals split <;> simp_all

/-! ## The comparison as a loop -/

/-- Compares pairs until two differ or none are left; no answer if the rounds run out. The same node
and nodes of different size or depth are not looked into. -/
def compareFor : Nat → List (Pattern × Pattern) → Option Bool
  | _, [] => some true
  | 0, _ :: _ => none
  | rounds + 1, (p, q) :: pending =>
    if p = q then compareFor rounds pending
    else if p.size ≠ q.size ∨ p.depth ≠ q.depth then some false
    else
      match p.pairs? q with
      | none => some false
      | some pairs => compareFor rounds (pairs ++ pending)

/-- As many rounds as there are nodes on the left are enough, and the answer is whether all pairs
are alike. -/
theorem compareFor_eq {rounds : Nat} {pending : List (Pattern × Pattern)}
    (h : leftSize pending ≤ rounds) :
    compareFor rounds pending = some (pending.all fun x => x.1.alike x.2) := by
  induction rounds generalizing pending with
  | zero =>
    cases pending with
    | nil => rfl
    | cons x pending =>
      have hpos := x.1.tree.size_pos
      rw [leftSize] at h
      omega
  | succ rounds ih =>
    cases pending with
    | nil => rfl
    | cons x pending =>
      obtain ⟨p, q⟩ := x
      have hpos := p.tree.size_pos
      rw [leftSize] at h
      have hrest : compareFor rounds pending = some (pending.all fun x => x.1.alike x.2) :=
        ih (by omega)
      rw [compareFor, List.all_cons, alike_eq]
      split
      · next heq => simp [heq, hrest]
      · next hne =>
        split
        · next hdiffer =>
          rcases hdiffer with hsize | hdepth
          · simp [hne, hsize]
          · simp [hne, hdepth]
        · next hsame =>
          obtain ⟨hsize, hdepth⟩ := not_or.mp hsame
          rw [ne_eq, not_not] at hsize hdepth
          cases hpairs : p.pairs? q with
          | none => simp [hne]
          | some pairs =>
            have hlt := leftSize_pairs_lt hpairs
            have hmore : leftSize (pairs ++ pending) ≤ rounds := by
              rw [leftSize_append]
              omega
            simp [ih hmore, hne, hsize, hdepth]

theorem alike_iff {p q : Pattern} : p.alike q = true ↔ p.tree = q.tree := by
  induction hn : p.tree.size using Nat.strongRecOn generalizing p q with
  | _ n ih =>
    have hpart : ∀ {pairs x}, p.pairs? q = some pairs → x ∈ pairs →
        (x.1.alike x.2 = true ↔ x.1.tree = x.2.tree) := by
      intro pairs x hpairs hx
      have hle := size_le_leftSize hx
      have hlt := leftSize_pairs_lt hpairs
      exact ih _ (by omega) rfl
    rw [alike_eq]
    constructor
    · intro h
      simp only [Bool.or_eq_true, Bool.and_eq_true, decide_eq_true_eq, Option.any_eq_true,
        List.all_eq_true] at h
      rcases h with rfl | ⟨-, pairs, hpairs, hall⟩
      · rfl
      · exact (tree_eq_iff p q).mpr ⟨pairs, hpairs, fun x hx => (hpart hpairs hx).mp (hall x hx)⟩
    · intro htree
      obtain ⟨pairs, hpairs, hall⟩ := (tree_eq_iff p q).mp htree
      have hsize : p.size = q.size := by rw [size_eq_tree, size_eq_tree, htree]
      have hdepth : p.depth = q.depth := by rw [depth_eq_tree, depth_eq_tree, htree]
      have halike : pairs.all (fun x => x.1.alike x.2) = true :=
        List.all_eq_true.mpr fun x hx => (hpart hpairs hx).mpr (hall x hx)
      simp [hsize, hdepth, hpairs, halike]

/-! ## Patterns of one meaning answer alike -/

section

variable {p q : Pattern}

/-- A run of one reduced pattern gets as far as one of another that means the same. -/
theorem Reaches.of_meaning_eq {s : List Char} {r : Reach} (hp : p.Reduced)
    (h : p.meaning = q.meaning) (hr : p.Reaches s r) : q.Reaches s r where
  length_le := hr.length_le
  captures := by
    rw [hr.captures, parse_eq_meaning, parse_eq_meaning, h]
  dead := h ▸ hr.dead
  live := fun _ hpos => h ▸ hr.live hp hpos

theorem matchGreedily_eq_of_meaning_eq (hp : p.Reduced) (hq : q.Reduced)
    (h : p.meaning = q.meaning) (s : List Char) : p.matchGreedily s = q.matchGreedily s := by
  obtain ⟨r, hr, hmatch⟩ := p.exists_reaches s
  rw [hmatch, (hr.of_meaning_eq hp h).matchGreedily hq]

/-- Reduced patterns of one meaning answer every question alike. -/
theorem answer_eq_of_meaning_eq (hp : p.Reduced) (hq : q.Reduced) (h : p.meaning = q.meaning)
    (c : Call) : p.answer c = q.answer c := by
  have hgreedy : p.matchGreedily = q.matchGreedily :=
    funext (matchGreedily_eq_of_meaning_eq hp hq h)
  cases c with
  | matchWhole s =>
    show p.matchWhole s = q.matchWhole s
    rw [matchWhole_eq_parse, matchWhole_eq_parse, parse_eq_meaning, parse_eq_meaning, h]
  | matchGreedily s => exact congrFun hgreedy s
  | findFirst s =>
    have hfirst := findFirst_leftmost hp s
    rw [hgreedy] at hfirst
    exact hfirst.unique q.functional_matchGreedily (findFirst_leftmost hq s)
  | findAll s =>
    have hall := findAll_successive hp s
    rw [hgreedy] at hall
    exact hall.unique q.functional_matchGreedily (findAll_successive hq s)
  | hasMatch s =>
    have hfirst := findFirst_leftmost hp s
    rw [hgreedy] at hfirst
    show (p.findFirst s).isSome = (q.findFirst s).isSome
    rw [hfirst.unique q.functional_matchGreedily (findFirst_leftmost hq s)]

end

end Pattern

/-! ## The law -/

/-- Patterns are alike exactly if their trees are the same, also where sizes have reached the cap.
The comparison as a loop ends after no more rounds than there are nodes, with that answer. And alike
patterns match alike, whichever parts of them are the same node. -/
theorem alike_patterns_have_one_tree_and_match_alike {p q : Pattern} (hp : Reachable p)
    (hq : Reachable q) :
    (p.alike q = true ↔ p.tree = q.tree) ∧
    (∀ rounds, p.tree.size ≤ rounds → Pattern.compareFor rounds [(p, q)] = some (p.alike q)) ∧
    (p.alike q = true → ∀ s,
      p.matchWhole s = q.matchWhole s ∧ p.matchGreedily s = q.matchGreedily s ∧
      p.findFirst s = q.findFirst s ∧ p.findAll s = q.findAll s ∧
      ∀ n, (MatchStream.ofText p s).takeNext n = (MatchStream.ofText q s).takeNext n) := by
  refine ⟨Pattern.alike_iff, fun rounds hrounds => ?_, fun halike s => ?_⟩
  · rw [Pattern.compareFor_eq (by simpa [Pattern.leftSize] using hrounds)]
    simp
  · have hmeaning : p.meaning = q.meaning := congrArg Tree.meaning (Pattern.alike_iff.mp halike)
    have hanswer := Pattern.answer_eq_of_meaning_eq hp.reduced hq.reduced hmeaning
    have hall : p.findAll s = q.findAll s := hanswer (.findAll s)
    refine ⟨hanswer (.matchWhole s), hanswer (.matchGreedily s), hanswer (.findFirst s), hall,
      fun n => ?_⟩
    rw [MatchStream.takeNext_ofText, MatchStream.takeNext_ofText, hall]

/-- Two branches that end in one mark, or in a mark each: behind `a`, the first pattern is down to
that mark, and the second one still has two branches, but both match the same. -/
theorem branches_with_one_mark_match_like_branches_with_a_mark_each :
    let m := Expr.mark "m" (.star .any)
    let branch := fun e => Expr.sequence (.char 'a') e
    let shared := Expr.alternation (branch (.shared 0)) (branch (.shared 0))
    let p := ((shared.buildBehind [m]).run 0).1
    let q := (((Expr.alternation (branch m) (branch m)).buildBehind [m]).run 0).1
    (Reachable p ∧ Reachable q) ∧ p ≠ q ∧
      ((p.derivative 'a').run 9).1.size = 3 ∧ ((q.derivative 'a').run 9).1.size = 7 ∧
      (p.alike q = true ↔ p.tree = q.tree) ∧ p.alike q = true ∧
      p.findAll ['b', 'a', 'c'] = q.findAll ['b', 'a', 'c'] := by
  intro m branch shared p q
  have hp : Reachable p := Expr.reachable_of_buildBehind (Build.gives_run _ 0)
  have hq : Reachable q := Expr.reachable_of_buildBehind (Build.gives_run _ 0)
  have hlaw := alike_patterns_have_one_tree_and_match_alike hp hq
  have halike : p.alike q = true := by decide +kernel
  exact ⟨⟨hp, hq⟩, by decide +kernel, by decide +kernel, by decide +kernel, hlaw.1, halike,
    (hlaw.2.2 halike _).2.2.2.1⟩

end MarkedRegex
