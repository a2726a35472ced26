-- Sequences of folded patterns. A choice that was folded can show captures that
-- stood inside of it, so in front of it more captures are gathered; what is
-- gathered is no larger than what it was gathered from.
import MarkedRegex.Proofs.Folding.Pairing

namespace MarkedRegex

/-! ## Gathered captures -/

namespace Pattern.StandsFor

variable {s a b : Pattern}

/-- Captures in front of others may be gathered or not. -/
theorem gather_iff {u : Tree} (ha : a.consumes = false) (hb : b.consumes = false) :
    s.StandsFor (.sequence (.sequence a.tree b.tree) u) ↔
      s.StandsFor (.sequence a.tree (.sequence b.tree u)) := by
  have hmeaning : (Tree.sequence (.sequence a.tree b.tree) u).meaning =
      (Tree.sequence a.tree (.sequence b.tree u)).meaning :=
    Parse.sequence_assoc_of_onlyEmpty u.meaning (onlyEmpty_of_not_consumes ha)
      (onlyEmpty_of_not_consumes hb)
  have hmarks : (Tree.sequence (.sequence a.tree b.tree) u).hasMarks =
      (Tree.sequence a.tree (.sequence b.tree u)).hasMarks := by
    simp only [Tree.hasMarks_sequence, Bool.or_assoc]
  have hsize : (Tree.sequence (.sequence a.tree b.tree) u).size =
      (Tree.sequence a.tree (.sequence b.tree u)).size := by
    simp only [Tree.size_sequence]
    omega
  constructor
  · exact fun h => ⟨h.settled, h.meaning.trans hmeaning, h.hasMarks.trans hmarks,
      h.size_le.trans_eq hsize, by simp⟩
  · exact fun h => ⟨h.settled, h.meaning.trans hmeaning.symm, h.hasMarks.trans hmarks.symm,
      h.size_le.trans_eq hsize.symm, by simp⟩

/-- Captures may be replaced by those that they stand for. -/
theorem sequence {t u : Tree} (h : s.StandsFor (.sequence a.tree b.tree)) (ha : a.StandsFor t)
    (hb : b.StandsFor u) : s.StandsFor (.sequence t u) where
  settled := h.settled
  meaning := by
    have hta : a.tree.meaning = t.meaning := ha.meaning
    have hub : b.tree.meaning = u.meaning := hb.meaning
    rw [h.meaning, Tree.meaning, Tree.meaning, hta, hub]
  hasMarks := by
    rw [h.hasMarks, Tree.hasMarks_sequence, Tree.hasMarks_sequence, ← hasMarks_eq_tree a,
      ← hasMarks_eq_tree b, ha.hasMarks, hb.hasMarks]
  size_le := by
    have hle := h.size_le
    have hta := ha.size_le
    have hub := hb.size_le
    simp only [Tree.size_sequence] at hle ⊢
    omega
  star := by simp

/-- A node in front of which nothing is gathered stands for what its parts stand for. -/
theorem node {t u : Tree} (k : Nat) (ha : a.StandsFor t) (hb : b.StandsFor u) :
    (Pattern.sequence k a b).StandsFor (.sequence t u) := by
  have hc : (Pattern.sequence k a b).consumes = false := by
    simp [Pattern.consumes, ha.settled, hb.settled]
  exact (standsFor_self hc).sequence ha hb

end Pattern.StandsFor

namespace Pairing

variable {w : Pairing} {p q p' q' r' : Pattern}

/-- `s` holds the captures of `a`, and of `t`, behind which there is more. -/
structure Gathers (w : Pairing) (a t s : Pattern) : Prop where
  front : a.IsPart
  below : a.serialBound ≤ w.next
  settled : a.consumes = false
  behind : t.IsPart
  settledBehind : t.consumes = false
  isPart : s.IsPart
  standsFor : s.StandsFor (.sequence a.tree t.tree)

theorem Gathers.mono {w' : Pairing} {a t s : Pattern} (h : w.Gathers a t s) (hle : w ≤ w') :
    w'.Gathers a t s :=
  { h with below := Nat.le_trans h.below hle.1 }

/-- What is gathered stays so when there are more captures behind it. -/
theorem Gathers.sequence {a t s x : Pattern} (h : w.Gathers a t s) (hx : x.IsPart)
    (hxc : x.consumes = false) (i j : Nat) :
    w.Gathers a (.sequence i t x) (.sequence j s x) where
  front := h.front
  below := h.below
  settled := h.settled
  behind := h.behind.sequence hx i
  settledBehind := by simp [Pattern.consumes, h.settledBehind, hxc]
  isPart := h.isPart.sequence hx j
  standsFor := (Pattern.StandsFor.gather_iff h.settled h.settledBehind).mp
    (h.standsFor.node j (Pattern.standsFor_self hxc))

/-! ## Sequences in step -/

theorem serialBound_sequence {n : Nat} (hp : p.serialBound ≤ n) (hq : q.serialBound ≤ n) :
    (Pattern.sequence n p q).serialBound = n + 1 := by
  simp only [Pattern.serialBound]
  omega

theorem gives_sequence_of_settled (hp : p.IsPart) (hq : q.IsPart) (hpb : p.serialBound ≤ w.next)
    (hqb : q.serialBound ≤ w.next) (hpc : p.consumes = false) (hqc : q.consumes = false)
    (hr' : r'.Reduced) (hs : r'.StandsFor (.sequence p.tree q.tree)) :
    w.Gives (Build.sequence p q) r' := by
  by_cases hform : ∃ k q₁ q₂, q = .sequence k q₁ q₂
  · obtain ⟨k, q₁, q₂, rfl⟩ := hform
    obtain ⟨hq₁, hq₂⟩ := hq.reduced.parts
    obtain ⟨hc₁, hc₂⟩ : q₁.consumes = false ∧ q₂.consumes = false := by
      simpa [Pattern.consumes] using hqc
    rw [Build.sequence_gathers hp.ne_fail hp.ne_empty hpc hc₁]
    simp only [Pattern.serialBound, Nat.max_le] at hqb
    have hhead : (Pattern.sequence w.next p q₁).serialBound = w.next + 1 :=
      serialBound_sequence hpb hqb.2.1
    apply gives_node_bind
    refine gives_settled ?_ ((hp.sequence hq₁ _).sequence hq₂ _).reduced hr' ?_
      ((Pattern.StandsFor.gather_iff hpc hc₁).mpr hs)
    · exact serialBound_sequence (Nat.le_of_eq hhead) (Nat.le_succ_of_le hqb.2.2)
    · simp [Pattern.consumes, hpc, hc₁, hc₂]
  · have hnode : ∀ k q₁ q₂, q = .sequence k q₁ q₂ → p.consumes = true ∨ q₁.consumes = true :=
      fun k q₁ q₂ heq => absurd ⟨k, q₁, q₂, heq⟩ hform
    rw [Build.sequence_eq_node hp.ne_fail hp.ne_empty hq.ne_fail hq.ne_empty hnode]
    have hc : (Pattern.sequence w.next p q).consumes = false := by simp [Pattern.consumes, hpc, hqc]
    exact gives_settled (serialBound_sequence hpb hqb) (hp.sequence hq _).reduced hr' hc hs

/-- Captures in front of a pattern go to those that stand in front of what it is folded to: to its
left part, as they go to `t`, or along with what was gathered for a choice behind that part. -/
theorem gives_in_front {i : Nat} {a q s t r : Pattern} (h : w.Gathers a t s)
    (hq : w.Pairs q (.sequence i t r)) (j : Nat) :
    w.Gives (Build.sequence a q) (.sequence j s r) := by
  have ha := h.front
  have hac := h.settled
  have hab := h.below
  have hqb := hq.holds.below
  have hr : r.IsPart := hq.reduced.parts.2
  have hsr := (h.isPart.sequence hr j).reduced
  cases hq.folds with
  | single _ hsingle => cases hsingle
  | settled hqc =>
    have hqp : q.IsPart := hq.isPart_iff.mp ⟨hq.reduced, by simp, by simp⟩
    have hqs := hq.folds.standsFor hqc
    have hrc : r.consumes = false := by
      simpa [Pattern.consumes, h.settledBehind] using hqs.settled
    have hgathered := (h.sequence hr hrc i j).standsFor
    exact gives_sequence_of_settled ha hqp hab hqb hac hqc hsr
      (hgathered.sequence (Pattern.standsFor_self hac) hqs)
  | @sequence k _ x y _ _ hor hx hy _ =>
    obtain ⟨hxp, hyp⟩ := hq.holds.reduced.parts
    obtain ⟨hxh, hyh⟩ := hq.holds.sequence
    have hxc : x.consumes = false := by rw [← hx.consumes, h.settledBehind]
    have hyc : y.consumes = true := hor.resolve_left (by simp [hxc])
    have hhead : w.Gives (Build.node (.sequence · a x)) s := by
      have hc : (Pattern.sequence w.next a x).consumes = false := by
        simp [Pattern.consumes, hac, hxc]
      exact gives_settled (serialBound_sequence hab hxh.below) (ha.sequence hxp _).reduced
        h.isPart.reduced hc
        (h.standsFor.sequence (Pattern.standsFor_self hac) (hx.standsFor hxc))
    rw [Build.sequence_gathers ha.ne_fail ha.ne_empty hac hxc]
    refine hhead.bind fun w' head hle hhead => ?_
    have hy : w'.Pairs y r := Pairs.mono ⟨hyh, hr.reduced, hy⟩ hle
    have hheadb := hhead.holds.below
    have hyb := hy.holds.below
    refine gives_node (serialBound_sequence hheadb hyb)
      ((hhead.isPart_iff.mp h.isPart).sequence hyp _).reduced hsr fun partner hagree heq => ?_
    exact .sequence (Or.inr hyc) (hhead.folds.of_agree hagree hheadb)
      (hy.folds.of_agree hagree hyb) heq
  | @gathered k _ i' b y _ u _ hbc hyc hy hred huc htu _ =>
    obtain ⟨hbp, hyp⟩ := hq.holds.reduced.parts
    obtain ⟨hbh, hyh⟩ := hq.holds.sequence
    have hyb := Nat.le_succ_of_le hyh.below
    have hhead : (Pattern.sequence w.next a b).serialBound = w.next + 1 :=
      serialBound_sequence hab hbh.below
    have hheadc : (Pattern.sequence w.next a b).consumes = false := by
      simp [Pattern.consumes, hac, hbc]
    rw [Build.sequence_gathers ha.ne_fail ha.ne_empty hac hbc]
    apply gives_node_bind
    refine gives_node (serialBound_sequence (Nat.le_of_eq hhead) hyb)
      ((ha.sequence hbp _).sequence hyp _).reduced hsr fun partner hagree heq => ?_
    have hsu := (Pattern.StandsFor.gather_iff hac hbc).mpr
      (h.standsFor.sequence (Pattern.standsFor_self hac) htu)
    exact .gathered hheadc hyc (hy.of_agree hagree hyb) hred huc hsu heq
  | @folded k x y _ hor hx hy hsingle heq =>
    have hfolds := Folds.folded hor hx hy hsingle heq
    have hqp : (Pattern.alternation k x y).IsPart := ⟨hq.holds.reduced, by simp, by simp⟩
    have hqc : (Pattern.alternation k x y).consumes = true := by
      simpa [Pattern.consumes] using hor
    rw [Build.sequence_eq_node ha.ne_fail ha.ne_empty hqp.ne_fail hqp.ne_empty (by simp)]
    refine gives_node (serialBound_sequence hab hqb) (ha.sequence hqp _).reduced hsr
      fun partner hagree heq => ?_
    exact .gathered hac hqc (hfolds.of_agree hagree hqb) hq.reduced h.settledBehind h.standsFor heq

/-- Where captures are not gathered in front of the folded pattern, they are not gathered in front
of the pattern. -/
theorem consumes_of_folds {k : Nat} {q₁ q₂ : Pattern} (hp : Folds w.partner p p')
    (hq : Folds w.partner (.sequence k q₁ q₂) q')
    (hor : p.consumes = true ∨ (Pattern.sequence k q₁ q₂).consumes = true)
    (h : ∀ i a b, q' = .sequence i a b → p'.consumes = true ∨ a.consumes = true) :
    p.consumes = true ∨ q₁.consumes = true := by
  cases hq with
  | single hs => cases hs
  | settled hc =>
    rw [Pattern.consumes, Bool.or_eq_false_iff] at hc
    simpa [Pattern.consumes, hc] using hor
  | sequence _ hx _ _ =>
    have hfront := h _ _ _ rfl
    rwa [hp.consumes, hx.consumes] at hfront
  | gathered _ _ _ _ _ hs _ =>
    have hfront := h _ _ _ rfl
    rw [hp.consumes, hs.settled] at hfront
    exact Or.inl (by simpa using hfront)

theorem gives_sequence (hp : w.Pairs p p') (hq : w.Pairs q q') (h : Sequenced p' q' r') :
    w.Gives (Build.sequence p q) r' := by
  have hr' : r'.Reduced := h.reduced hp.reduced hq.reduced
  have hpb := hp.holds.below
  have hqb := hq.holds.below
  cases h with
  | failLeft =>
    rw [hp.eq_fail_iff.mp rfl, Build.fail_sequence]
    exact gives_pure w.pairs_fail
  | failRight =>
    rw [hq.eq_fail_iff.mp rfl, Build.sequence_fail]
    exact gives_pure w.pairs_fail
  | emptyLeft =>
    rw [hp.eq_empty_iff.mp rfl, Build.empty_sequence]
    exact gives_pure hq
  | emptyRight =>
    rw [hq.eq_empty_iff.mp rfl, Build.sequence_empty]
    exact gives_pure hp
  | @settled _ q₁ q₂ i j k hpf hpe hpc' hqc₁ =>
    have hpp' : p'.IsPart := ⟨hp.reduced, hpf, hpe⟩
    have hq₁ : q₁.IsPart := hq.reduced.parts.1
    have hpc : p.consumes = false := by rw [← hp.folds.consumes, hpc']
    have hgathers : w.Gathers p q₁ (.sequence i p' q₁) :=
      ⟨hp.isPart_iff.mp hpp', hpb, hpc, hq₁, hqc₁, hpp'.sequence hq₁ i,
        (hp.folds.standsFor hpc).node i (Pattern.standsFor_self hqc₁)⟩
    exact gives_in_front hgathers hq j
  | node k' hpf hpe hqf hqe hnode' =>
    have hpp := hp.isPart_iff.mp ⟨hp.reduced, hpf, hpe⟩
    have hqp := hq.isPart_iff.mp ⟨hq.reduced, hqf, hqe⟩
    by_cases hor : p.consumes = true ∨ q.consumes = true
    · have hnode : ∀ k q₁ q₂, q = .sequence k q₁ q₂ → p.consumes = true ∨ q₁.consumes = true := by
        rintro k q₁ q₂ rfl
        exact consumes_of_folds hp.folds hq.folds hor hnode'
      rw [Build.sequence_eq_node hpp.ne_fail hpp.ne_empty hqp.ne_fail hqp.ne_empty hnode]
      refine gives_node (serialBound_sequence hpb hqb) (hpp.sequence hqp _).reduced hr'
        fun partner hagree heq => ?_
      exact .sequence hor (hp.folds.of_agree hagree hpb) (hq.folds.of_agree hagree hqb) heq
    · obtain ⟨hpc, hqc⟩ : p.consumes = false ∧ q.consumes = false := by simpa using hor
      exact gives_sequence_of_settled hpp hqp hpb hqb hpc hqc hr'
        ((hp.folds.standsFor hpc).node k' (hq.folds.standsFor hqc))

/-- Captures that were gathered with others are in front of what the others are in front of. -/
theorem gives_gathered {a s t x b n : Pattern} (h : w.Gathers a t s) (hx : x.Reduced)
    (hb : w.Pairs b n) (hn : Sequenced t x n) (hr : Sequenced s x r') :
    w.Gives (Build.sequence a b) r' := by
  have hs := h.isPart
  have hsc := h.standsFor.settled
  have htc := h.settledBehind
  cases hn with
  | failLeft => exact absurd rfl h.behind.ne_fail
  | emptyLeft => exact absurd rfl h.behind.ne_empty
  | failRight =>
    rw [hb.eq_fail_iff.mp rfl, Build.sequence_fail, hr.eq_fail_right]
    exact gives_pure w.pairs_fail
  | emptyRight =>
    obtain rfl : r' = s := by
      cases hr with
      | emptyLeft | emptyRight => rfl
      | failLeft => exact absurd rfl hs.ne_fail
      | node _ _ _ _ he => exact absurd rfl he
    have hbc : b.consumes = false := by rw [← hb.folds.consumes, htc]
    exact gives_sequence_of_settled h.front (hb.isPart_iff.mp h.behind) h.below hb.holds.below
      h.settled hbc hs.reduced
      (h.standsFor.sequence (Pattern.standsFor_self h.settled) (hb.folds.standsFor hbc))
  | @settled _ x₁ x₂ i j k _ _ _ hc₁ =>
    cases hr with
    | failLeft => exact absurd rfl hs.ne_fail
    | emptyLeft => exact absurd rfl hs.ne_empty
    | node _ _ _ _ _ hnode => simp [hsc, hc₁] at hnode
    | settled _ i' j' => exact gives_in_front (h.sequence hx.parts.1 hc₁ i i') hb j'
  | node k _ _ hxf hxe hnode =>
    cases hr with
    | failLeft => exact absurd rfl hs.ne_fail
    | failRight => exact absurd rfl hxf
    | emptyLeft => exact absurd rfl hs.ne_empty
    | emptyRight => exact absurd rfl hxe
    | settled _ _ _ _ _ _ _ hc₁ => simpa [htc, hc₁] using hnode _ _ _ rfl
    | node k' => exact gives_in_front h hb k'

end Pairing

end MarkedRegex
