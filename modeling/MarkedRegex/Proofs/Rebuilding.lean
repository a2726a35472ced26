-- The law of rebuilding. To build a pattern anew from its leaves gives the same
-- tree, unless captures that gathered before are loose among themselves. Those
-- are regrouped, and nothing else changes.
import MarkedRegex.Proofs.Alike
import MarkedRegex.Proofs.Build.Cases
import MarkedRegex.Proofs.Rebuilding.Loose
import MarkedRegex.Proofs.Tree.Regrouped

namespace MarkedRegex

namespace Pattern

/-! ## Rebuilding -/

/-- Builds a pattern anew, from its leaves up through the constructors. -/
def rebuild : Pattern → Build Pattern
  | .empty => pure .empty
  | .fail => pure .fail
  | .any => pure .any
  | .charSet k s => pure (.charSet k s)
  | .negatedSet k s => pure (.negatedSet k s)
  | .sequence _ p q => do
    let left ← p.rebuild
    Build.sequence left (← q.rebuild)
  | .alternation _ p q => do
    let left ← p.rebuild
    Build.alternation left (← q.rebuild)
  | .star _ p => do Build.star (← p.rebuild)
  | .mark _ name buffer p => do Build.markHolding name buffer (← p.rebuild)

/-- What a pattern is rebuilt as: only a sequence may take another form. -/
inductive Rebuilt : Pattern → Pattern → Prop
  | leaf {p : Pattern} : p.isLeaf = true → Rebuilt p p
  | sequence {k : Nat} {p q a b r : Pattern} : Rebuilt p a → Rebuilt q b → Sequenced a b r →
      Rebuilt (.sequence k p q) r
  | alternation {k : Nat} (i : Nat) {p q a b : Pattern} : Rebuilt p a → Rebuilt q b →
      Rebuilt (.alternation k p q) (.alternation i a b)
  | star {k : Nat} (i : Nat) {p a : Pattern} : Rebuilt p a → Rebuilt (.star k p) (.star i a)
  | mark {k : Nat} (i : Nat) {name : String} {buffer : MarkBuffer} {p a : Pattern} : Rebuilt p a →
      Rebuilt (.mark k name buffer p) (.mark i name buffer a)

end Pattern

/-- A sequence of parts that are neither failure nor empty is one node, or two where captures
gather. -/
theorem Sequenced.eq_node_or_gathered {p q r : Pattern} (h : Sequenced p q r) (hpf : p ≠ .fail)
    (hpe : p ≠ .empty) (hqf : q ≠ .fail) (hqe : q ≠ .empty) :
    (∃ k, r = .sequence k p q ∧ r.isLoose = false) ∨
    ∃ i j k q₁ q₂, q = .sequence k q₁ q₂ ∧ p.consumes = false ∧ q₁.consumes = false ∧
      r = .sequence j (.sequence i p q₁) q₂ := by
  cases h with
  | failLeft => exact absurd rfl hpf
  | failRight => exact absurd rfl hqf
  | emptyLeft => exact absurd rfl hpe
  | emptyRight => exact absurd rfl hqe
  | @settled _ q₁ q₂ i j k _ _ hc hc₁ => exact Or.inr ⟨i, j, k, q₁, q₂, rfl, hc, hc₁, rfl⟩
  | node k _ _ _ _ h => exact Or.inl ⟨k, rfl, Pattern.isLoose_eq_false_iff.mpr h⟩

namespace Pattern

theorem ne_fail_of_kind_eq {p q : Pattern} (h : q.kind = p.kind) (hf : p ≠ .fail) : q ≠ .fail := by
  rintro rfl
  cases p with
  | fail => exact hf rfl
  | _ => cases h

theorem ne_empty_of_kind_eq {p q : Pattern} (h : q.kind = p.kind) (he : p ≠ .empty) :
    q ≠ .empty := by
  rintro rfl
  cases p with
  | empty => exact he rfl
  | _ => cases h

theorem ne_star_of_kind_eq {p q : Pattern} (h : q.kind = p.kind) (hs : ∀ k a, p ≠ .star k a) :
    ∀ k a, q ≠ .star k a := by
  rintro k a rfl
  cases p with
  | star i b => exact hs i b rfl
  | _ => cases h

theorem exists_sequence_of_kind_eq {p : Pattern} (h : p.kind = .sequence) :
    ∃ k q₁ q₂, p = .sequence k q₁ q₂ := by
  cases p with
  | sequence k q₁ q₂ => exact ⟨k, q₁, q₂, rfl⟩
  | _ => cases h

/-- What a pattern keeps when it is rebuilt. -/
structure Resembles (p r : Pattern) : Prop where
  kind : r.kind = p.kind
  consumes : r.consumes = p.consumes
  hasMarks : r.hasMarks = p.hasMarks

namespace Resembles

variable {p q a b r : Pattern}

/-- What comes out of a sequence, where its parts have become parts they resemble. -/
theorem eq_node_or_gathered {k : Nat} (ha : p.Resembles a) (hb : q.Resembles b)
    (hr : Sequenced a b r) (hp : (Pattern.sequence k p q).Reduced) :
    (∃ i, r = .sequence i a b ∧ r.isLoose = false) ∨
    ∃ i j l b₁ b₂, b = .sequence l b₁ b₂ ∧ a.consumes = false ∧ b₁.consumes = false ∧
      r = .sequence j (.sequence i a b₁) b₂ := by
  cases hp with
  | sequence _ _ _ hpf hpe hqf hqe =>
    exact hr.eq_node_or_gathered (ne_fail_of_kind_eq ha.kind hpf) (ne_empty_of_kind_eq ha.kind hpe)
      (ne_fail_of_kind_eq hb.kind hqf) (ne_empty_of_kind_eq hb.kind hqe)

theorem sequenced {k : Nat} (ha : p.Resembles a) (hb : q.Resembles b) (hr : Sequenced a b r)
    (hp : (Pattern.sequence k p q).Reduced) : (Pattern.sequence k p q).Resembles r := by
  obtain ⟨i, rfl, -⟩ | ⟨i, j, l, b₁, b₂, rfl, -, -, rfl⟩ := ha.eq_node_or_gathered hb hr hp
  · refine ⟨rfl, ?_, ?_⟩
    · simp only [Pattern.consumes, ha.consumes, hb.consumes]
    · simp only [Pattern.hasMarks, ha.hasMarks, hb.hasMarks]
  · refine ⟨rfl, ?_, ?_⟩
    · simp only [Pattern.consumes, ← ha.consumes, ← hb.consumes, Bool.or_assoc]
    · simp only [Pattern.hasMarks, ← ha.hasMarks, ← hb.hasMarks, Bool.or_assoc]

end Resembles

namespace Rebuilt

variable {k i : Nat} {p q r a b : Pattern}

theorem resembles (h : Rebuilt p r) (hp : p.Reduced) : p.Resembles r := by
  induction h with
  | leaf => exact ⟨rfl, rfl, rfl⟩
  | sequence _ _ hr iha ihb =>
    obtain ⟨hleft, hright⟩ := Reduced.invariant.sequenceParts hp
    exact (iha hleft).sequenced (ihb hright) hr hp
  | alternation _ _ _ iha ihb =>
    obtain ⟨hleft, hright⟩ := Reduced.invariant.alternationParts hp
    have ha := iha hleft
    have hb := ihb hright
    refine ⟨rfl, ?_, ?_⟩
    · rw [consumes, consumes, ha.consumes, hb.consumes]
    · rw [hasMarks, hasMarks, ha.hasMarks, hb.hasMarks]
  | star _ _ ih =>
    have ha := ih (Reduced.invariant.starPart hp)
    exact ⟨rfl, ha.consumes, ha.hasMarks⟩
  | mark _ _ ih =>
    have ha := ih (Reduced.invariant.markPart hp)
    exact ⟨rfl, ha.consumes, rfl⟩

/-- The part at the front of a sequence takes in characters if it did before. -/
theorem consumes_left (h : Rebuilt (.sequence k p q) (.sequence i a b))
    (hp : (Pattern.sequence k p q).Reduced) : a.consumes = p.consumes := by
  obtain ⟨hleft, hright⟩ := Reduced.invariant.sequenceParts hp
  cases h with
  | leaf hleaf => cases hleaf
  | sequence hpa hqb hr =>
    have ha := hpa.resembles hleft
    have hb := hqb.resembles hright
    obtain ⟨_, heq, -⟩ | ⟨_, _, _, _, _, -, hc, hc₁, heq⟩ := ha.eq_node_or_gathered hb hr hp
    · cases heq
      exact ha.consumes
    · cases heq
      rw [consumes, hc, hc₁, ← ha.consumes, hc]
      rfl

/-- A sequence comes out as two nodes exactly if it is loose. -/
theorem loose_cases (hpa : Rebuilt p a) (hqb : Rebuilt q b) (hr : Sequenced a b r)
    (hp : (Pattern.sequence k p q).Reduced) :
    ((Pattern.sequence k p q).isLoose = false ∧ ∃ i, r = .sequence i a b) ∨
    ((Pattern.sequence k p q).isLoose = true ∧ ∃ i j l b₁ b₂, b = .sequence l b₁ b₂ ∧
      a.consumes = false ∧ b₁.consumes = false ∧ r = .sequence j (.sequence i a b₁) b₂) := by
  obtain ⟨hleft, hright⟩ := Reduced.invariant.sequenceParts hp
  have ha := hpa.resembles hleft
  have hb := hqb.resembles hright
  obtain ⟨i, rfl, htight⟩ | ⟨i, j, l, b₁, b₂, rfl, hc, hc₁, rfl⟩ :=
    ha.eq_node_or_gathered hb hr hp
  · refine Or.inl ⟨?_, i, rfl⟩
    cases q with
    | sequence l q₁ q₂ =>
      obtain ⟨l', b₁, b₂, rfl⟩ := exists_sequence_of_kind_eq hb.kind
      have hhead := hqb.consumes_left hright
      rwa [isLoose_sequence, ← hhead, ← ha.consumes]
    | _ => rfl
  · obtain ⟨l', q₁, q₂, rfl⟩ := exists_sequence_of_kind_eq hb.kind.symm
    have hhead := hqb.consumes_left hright
    have hloose : (Pattern.sequence k p (.sequence l' q₁ q₂)).isLoose = true := by
      rw [isLoose_sequence, ← ha.consumes, ← hhead, hc, hc₁]
      rfl
    exact Or.inr ⟨hloose, i, j, l, b₁, b₂, rfl, hc, hc₁, rfl⟩

/-! ## Trees of what is rebuilt -/

/-- Only what takes in nothing is regrouped: what is loose takes in nothing, so neither does what is
behind the parts that gather. -/
theorem regrouped (h : Rebuilt p r) (hp : p.Reduced) (hl : p.Leans) : p.tree.Regrouped r.tree := by
  induction h with
  | leaf => exact .refl _
  | @sequence k p q a b r hpa hqb hr iha ihb =>
    obtain ⟨hwhole, hlp, hlq⟩ := forall_nodes_sequence.mp hl
    obtain ⟨hleft, hright⟩ := Reduced.invariant.sequenceParts hp
    have hparts : (Pattern.sequence k p q).tree.Regrouped (.sequence a.tree b.tree) :=
      .sequence (iha hleft hlp) (ihb hright hlq)
    obtain ⟨-, i, rfl⟩ | ⟨hloose, i, j, l, b₁, b₂, rfl, hc, hc₁, rfl⟩ :=
      hpa.loose_cases hqb hr hp
    · exact hparts
    · have hsettled := hwhole hloose
      rw [consumes, Bool.or_eq_false_iff, ← (hqb.resembles hright).consumes, consumes,
        Bool.or_eq_false_iff] at hsettled
      have hc₂ := hsettled.2.2
      rw [consumes_eq_tree] at hc hc₁ hc₂
      exact hparts.trans (.gather hc hc₁ hc₂)
  | alternation _ _ _ iha ihb =>
    obtain ⟨-, hlp, hlq⟩ := forall_nodes_alternation.mp hl
    obtain ⟨hleft, hright⟩ := Reduced.invariant.alternationParts hp
    exact .alternation (iha hleft hlp) (ihb hright hlq)
  | star _ _ ih =>
    exact .star (ih (Reduced.invariant.starPart hp) (forall_nodes_star.mp hl).2)
  | mark _ _ ih =>
    exact .mark _ _ (ih (Reduced.invariant.markPart hp) (forall_nodes_mark.mp hl).2)

/-- The tree comes out the same exactly if nothing in it is loose. Of what is loose, the right part
loses a node to the left one, so it is not what it was. -/
theorem tree_eq_iff (h : Rebuilt p r) (hp : p.Reduced) (hl : p.Leans) :
    r.tree = p.tree ↔ ∀ x ∈ p.nodes, x.isLoose = false := by
  induction h with
  | @leaf p hleaf =>
    rw [forall_nodes_leaf hleaf]
    cases p with
    | sequence => cases hleaf
    | _ => simp [isLoose]
  | @sequence k p q a b r hpa hqb hr iha ihb =>
    obtain ⟨-, hlp, hlq⟩ := forall_nodes_sequence.mp hl
    obtain ⟨hleft, hright⟩ := Reduced.invariant.sequenceParts hp
    rw [forall_nodes_sequence, ← iha hleft hlp, ← ihb hright hlq]
    obtain ⟨htight, i, rfl⟩ | ⟨hloose, i, j, l, b₁, b₂, rfl, -, -, rfl⟩ :=
      hpa.loose_cases hqb hr hp
    · simp [tree, htight]
    · have hsize := (hqb.regrouped hright hlq).size_eq
      have hsmaller : b₂.tree ≠ q.tree := by
        intro heq
        rw [← heq, tree, Tree.size_sequence] at hsize
        omega
      simp [tree, hloose, hsmaller]
  | alternation _ _ _ iha ihb =>
    obtain ⟨-, hlp, hlq⟩ := forall_nodes_alternation.mp hl
    obtain ⟨hleft, hright⟩ := Reduced.invariant.alternationParts hp
    rw [forall_nodes_alternation, ← iha hleft hlp, ← ihb hright hlq]
    simp [tree, isLoose]
  | star _ _ ih =>
    rw [forall_nodes_star, ← ih (Reduced.invariant.starPart hp) (forall_nodes_star.mp hl).2]
    simp [tree, isLoose]
  | mark _ _ ih =>
    rw [forall_nodes_mark, ← ih (Reduced.invariant.markPart hp) (forall_nodes_mark.mp hl).2]
    simp [tree, isLoose]

end Rebuilt

end Pattern

/-! ## New nodes -/

namespace Build

variable {p q : Pattern}

/-- The action gives a node under a serial number that it takes from the supply. -/
def BuildsNode (act : Build Pattern) : Prop :=
  ∀ n, n ≤ (act.run n).1.serial ∧ (act.run n).1.serial < (act.run n).2

theorem exists_of_run_bind {α β : Type} {act : Build α} {f : α → Build β} {y : β} {n m : Nat}
    (h : (act >>= f).run n = (y, m)) : ∃ x l, act.run n = (x, l) ∧ (f x).run l = (y, m) :=
  ⟨_, _, rfl, h⟩

theorem buildsNode_node {form : Nat → Pattern} (h : ∀ k, (form k).serial = k) :
    BuildsNode (node form) :=
  fun n => ⟨(h n).ge, (h n).trans_lt n.lt_succ_self⟩

theorem buildsNode_sequence (hpf : p ≠ .fail) (hpe : p ≠ .empty) (hqf : q ≠ .fail)
    (hqe : q ≠ .empty) : BuildsNode (sequence p q) := by
  fun_cases sequence p q with
  | case1 => exact absurd rfl hpf
  | case2 => exact absurd rfl hqf
  | case3 => exact absurd rfl hpe
  | case4 => exact absurd rfl hqe
  | case5 _ k q₁ q₂ hc =>
    rw [if_pos hc]
    exact fun n => ⟨Nat.le_succ n, Nat.lt_succ_self (n + 1)⟩
  | case6 _ k q₁ q₂ hc =>
    rw [if_neg hc]
    exact buildsNode_node fun _ => rfl
  | case7 => exact buildsNode_node fun _ => rfl

end Build

namespace Pattern

/-- What rebuilding a pattern comes to, from one serial number up to another. A node that is no leaf
comes out as a new one. -/
structure RebuiltBetween (p : Pattern) (n : Nat) (r : Pattern) (m : Nat) : Prop where
  rebuilt : Rebuilt p r
  le : n ≤ m
  new : p.isLeaf = false → n ≤ r.serial ∧ r.serial < m

theorem isLeaf_eq_of_kind_eq {p q : Pattern} (h : q.kind = p.kind) : q.isLeaf = p.isLeaf := by
  cases p <;> cases q <;> cases h <;> rfl

theorem isSingle_eq_of_kind_eq {p q : Pattern} (h : q.kind = p.kind) :
    q.isSingle = p.isSingle := by
  cases p <;> cases q <;> cases h <;> rfl

namespace RebuiltBetween

variable {k n m l : Nat} {p q r a b : Pattern}

theorem of_buildsNode {act : Build Pattern} (hact : act.BuildsNode) (h : act.run m = (r, l))
    (hn : n ≤ m) (hr : Rebuilt p r) : RebuiltBetween p n r l := by
  obtain ⟨hle, hlt⟩ := hact m
  rw [h] at hle hlt
  dsimp only at hle hlt
  exact ⟨hr, by omega, fun _ => ⟨by omega, hlt⟩⟩

theorem of_node {form : Nat → Pattern} (h : (Build.node form).run m = (r, l))
    (hform : ∀ k, (form k).serial = k) (hn : n ≤ m) (hr : Rebuilt p (form m)) :
    RebuiltBetween p n r l := by
  obtain rfl : form m = r := congrArg Prod.fst h
  exact of_buildsNode (Build.buildsNode_node hform) h hn hr

/-- Branches that were built one after the other are not one node: two leaves would have become
one leaf before, and a new node is none that was there. -/
theorem ne (ha : RebuiltBetween p n a m) (hb : RebuiltBetween q m b l)
    (hp : (Pattern.alternation k p q).Reduced) : a ≠ b := by
  rintro rfl
  cases hp with
  | alternation _ hp hq hpf _ hempty hsingle =>
    have hpa := (ha.rebuilt.resembles hp).kind
    have hqa := (hb.rebuilt.resembles hq).kind
    have hkind : q.kind = p.kind := hqa.symm.trans hpa
    cases p with
    | empty =>
      cases q with
      | empty => exact hempty ⟨rfl, rfl⟩
      | _ => cases hkind
    | fail => exact hpf rfl
    | any | charSet | negatedSet => exact hsingle ⟨rfl, isSingle_eq_of_kind_eq hkind⟩
    | sequence | alternation | star | mark =>
      have hearlier := ha.new rfl
      have hlater := hb.new (isLeaf_eq_of_kind_eq hkind)
      omega

end RebuiltBetween

theorem rebuiltBetween_of_run {p r : Pattern} {n m : Nat} (hp : p.Reduced)
    (h : p.rebuild.run n = (r, m)) : RebuiltBetween p n r m := by
  induction hp generalizing n r m with
  | empty | fail | any | charSet | negatedSet =>
    cases h
    exact ⟨.leaf rfl, Nat.le_refl n, nofun⟩
  | sequence k hp hq hpf hpe hqf hqe ihp ihq =>
    obtain ⟨a, i, ha, h⟩ := Build.exists_of_run_bind h
    obtain ⟨b, j, hb, h⟩ := Build.exists_of_run_bind h
    have ha := ihp ha
    have hb := ihq hb
    have hpa := (ha.rebuilt.resembles hp).kind
    have hqb := (hb.rebuilt.resembles hq).kind
    have hnode := Build.buildsNode_sequence (ne_fail_of_kind_eq hpa hpf)
      (ne_empty_of_kind_eq hpa hpe) (ne_fail_of_kind_eq hqb hqf) (ne_empty_of_kind_eq hqb hqe)
    have hr : Sequenced a b r := Build.sequenced_of_gives ⟨j, by rw [h]⟩
    exact .of_buildsNode hnode h (ha.le.trans hb.le) (.sequence ha.rebuilt hb.rebuilt hr)
  | alternation k hp hq hpf hqf hempty hsingle ihp ihq =>
    obtain ⟨a, i, ha, h⟩ := Build.exists_of_run_bind h
    obtain ⟨b, j, hb, h⟩ := Build.exists_of_run_bind h
    have ha := ihp ha
    have hb := ihq hb
    have hpa := (ha.rebuilt.resembles hp).kind
    have hqb := (hb.rebuilt.resembles hq).kind
    have hne := ha.ne hb (.alternation k hp hq hpf hqf hempty hsingle)
    rw [← isSingle_eq_of_kind_eq hpa, ← isSingle_eq_of_kind_eq hqb] at hsingle
    rw [Build.alternation_eq_node hne (ne_fail_of_kind_eq hpa hpf) (ne_fail_of_kind_eq hqb hqf)
      hsingle] at h
    exact .of_node h (fun _ => rfl) (ha.le.trans hb.le) (.alternation j ha.rebuilt hb.rebuilt)
  | star k hp hpf hpe hstar hlive ih =>
    obtain ⟨a, i, ha, h⟩ := Build.exists_of_run_bind h
    have ha := ih ha
    have hpa := ha.rebuilt.resembles hp
    rw [← hpa.hasMarks, ← hpa.consumes] at hlive
    rw [Build.star_eq_node (ne_fail_of_kind_eq hpa.kind hpf) (ne_empty_of_kind_eq hpa.kind hpe)
      (ne_star_of_kind_eq hpa.kind hstar) hlive] at h
    exact .of_node h (fun _ => rfl) ha.le (.star i ha.rebuilt)
  | mark k name buffer hp hpf ih =>
    obtain ⟨a, i, ha, h⟩ := Build.exists_of_run_bind h
    have ha := ih ha
    have hpa := (ha.rebuilt.resembles hp).kind
    rw [Build.markHolding_eq_node (ne_fail_of_kind_eq hpa hpf)] at h
    exact .of_node h (fun _ => rfl) ha.le (.mark i ha.rebuilt)

end Pattern

/-! ## The law -/

/-- To build a pattern anew from its leaves gives a pattern that is alike, exactly if none of its
sequences is loose. Those that are take in nothing, and only they are regrouped: neither the size
nor the depth changes. -/
theorem rebuilding_regroups_only_what_is_loose {p : Pattern} (hp : Reachable p) (n : Nat) :
    let r := (p.rebuild.run n).1
    (r.alike p = true ↔ ∀ q ∈ p.nodes, q.isLoose = false) ∧
    (∀ q ∈ p.nodes, q.isLoose = true → q.consumes = false) ∧
    p.tree.Regrouped r.tree ∧ r.size = p.size ∧ r.depth = p.depth := by
  intro r
  have hleans : p.Leans := Pattern.Leans.invariant.reachable hp
  have hr : p.Rebuilt r := (Pattern.rebuiltBetween_of_run hp.reduced rfl).rebuilt
  have hgroups := hr.regrouped hp.reduced hleans
  refine ⟨?_, hleans, hgroups, ?_, ?_⟩
  · rw [Pattern.alike_iff, hr.tree_eq_iff hp.reduced hleans]
  · rw [Pattern.size_eq_tree, Pattern.size_eq_tree, hgroups.size_eq]
  · rw [Pattern.depth_eq_tree, Pattern.depth_eq_tree, hgroups.depth_eq]

/-- A mark in front of a star of rounds with two marks: behind the first round, the marks of the
round have gathered before the mark in front joins them, and rebuilding regroups the three. -/
theorem marks_behind_a_round_of_two_are_regrouped :
    let round := Expr.sequence (.mark "y" .empty) (.mark "z" (.char 'c'))
    let e := Expr.sequence (.mark "x" .empty) (.star round)
    let p := (((Expr.derivatives e ['c']).buildBehind []).run 0).1
    let r := (p.rebuild.run 50).1
    Reachable p ∧
      ((r.alike p = true ↔ ∀ q ∈ p.nodes, q.isLoose = false) ∧
        (∀ q ∈ p.nodes, q.isLoose = true → q.consumes = false) ∧
        p.tree.Regrouped r.tree ∧ r.size = p.size ∧ r.depth = p.depth) ∧
      r.alike p = false ∧ (r.size, r.depth) = (15, 5) := by
  intro round e p r
  have hp : Reachable p := Expr.reachable_of_buildBehind (Build.gives_run _ 0)
  exact ⟨hp, rebuilding_regroups_only_what_is_loose hp 50, by decide +kernel, by decide +kernel⟩

/-- Three marks in front of a character, built from the right: the last two have gathered when the
first one joins them, and the node of the three is not looked at again. So the pattern is not alike
when it is rebuilt, with the constructors called on the same parts. -/
theorem three_marks_in_front_of_a_character_are_not_alike_when_rebuilt :
    let mark := fun name => Expr.mark name .empty
    let e := Expr.sequence (mark "x") (.sequence (mark "y") (.sequence (mark "z") (.char 'c')))
    let e' := Expr.sequence (.sequence (mark "x") (.sequence (mark "y") (mark "z"))) (.char 'c')
    let p := ((e.buildBehind []).run 0).1
    let r := (p.rebuild.run 20).1
    let r' := ((e'.buildBehind []).run 40).1
    Reachable p ∧ r.alike p = false ∧ r.alike r' = true ∧ ∃ q ∈ p.nodes, q.isLoose = true := by
  intro mark e e' p r r'
  have hp : Reachable p := Expr.reachable_of_buildBehind (Build.gives_run _ 0)
  exact ⟨hp, by decide +kernel⟩

end MarkedRegex
