-- Similar trees differ in how their sequences and the open ones among their
-- alternations are grouped, and in what their marks hold. They accept the same
-- texts, and one of them, whose nests lean to the left, stands for all.
import MarkedRegex.Proofs.Tree

namespace MarkedRegex.Tree

open Computability

variable {t t' u u' v : Tree}

/-! ## Similar trees -/

/-- Trees that become the same when they are regrouped and what their marks hold is left out. An
alternation whose left branch is the empty tree is optional and keeps its place. -/
inductive Similar : Tree → Tree → Prop
  | refl (t : Tree) : Similar t t
  | symm {t u : Tree} : Similar t u → Similar u t
  | trans {t u v : Tree} : Similar t u → Similar u v → Similar t v
  | sequence {t t' u u' : Tree} : Similar t t' → Similar u u' →
      Similar (.sequence t u) (.sequence t' u')
  | alternation {t t' u u' : Tree} : Similar t t' → Similar u u' →
      Similar (.alternation t u) (.alternation t' u')
  | star {t t' : Tree} : Similar t t' → Similar (.star t) (.star t')
  | mark (name : String) (buffer buffer' : MarkBuffer) {t t' : Tree} : Similar t t' →
      Similar (.mark name buffer t) (.mark name buffer' t')
  | regroupSequence (t u v : Tree) :
      Similar (.sequence (.sequence t u) v) (.sequence t (.sequence u v))
  | regroupAlternation {t u : Tree} (v : Tree) : t ≠ .empty → u ≠ .empty →
      Similar (.alternation (.alternation t u) v) (.alternation t (.alternation u v))

theorem Similar.empty_iff (h : Similar t u) : t = .empty ↔ u = .empty := by
  induction h with
  | refl => rfl
  | symm _ ih => exact ih.symm
  | trans _ _ ih ih' => exact ih.trans ih'
  | sequence | alternation | star | mark | regroupSequence | regroupAlternation => simp

/-- Similar trees accept the same texts. -/
theorem Similar.accepts_eq (h : Similar t u) : t.parse.accepts = u.parse.accepts := by
  induction h with
  | refl => rfl
  | symm _ ih => exact ih.symm
  | trans _ _ ih ih' => exact ih.trans ih'
  | sequence _ _ ih ih' => simp only [parse, Parse.accepts_sequence, ih, ih']
  | alternation _ _ ih ih' => simp only [parse, Parse.accepts_alternation, ih, ih']
  | star _ ih => simp only [parse, Parse.accepts_star, ih]
  | mark _ _ _ _ ih => simp only [parse, Parse.accepts_mark, ih]
  | regroupSequence t u v => simp only [parse, Parse.accepts_sequence, mul_assoc]
  | regroupAlternation v => simp only [parse, Parse.accepts_alternation, add_assoc]

/-! ## Leaning to the left -/

/-- The sequence of two trees, where the right one is taken apart. -/
def before (t : Tree) : Tree → Tree
  | .sequence u v => .sequence (t.before u) v
  | u => .sequence t u

/-- The alternation of two trees, where the right one is taken apart unless it is optional. -/
def beside (t : Tree) : Tree → Tree
  | .alternation u v =>
    if u = .empty then .alternation t (.alternation u v) else .alternation (t.beside u) v
  | u => .alternation t u

/-- The similar tree whose sequences and alternations lean to the left and whose marks hold
nothing. -/
def leaning : Tree → Tree
  | .sequence t u => t.leaning.before u.leaning
  | .alternation t u =>
    if t = .empty then .alternation .empty u.leaning else t.leaning.beside u.leaning
  | .star t => .star t.leaning
  | .mark name _ t => .mark name ∅ t.leaning
  | t => t

theorem beside_ne_empty : t.beside u ≠ .empty := by
  cases u with
  | alternation => simp only [beside]; split <;> simp
  | _ => simp [beside]

theorem similar_before (t u : Tree) : Similar (.sequence t u) (t.before u) := by
  induction u with
  | sequence u v ihu ihv =>
    exact (Similar.regroupSequence t u v).symm.trans (ihu.sequence (.refl v))
  | _ => exact .refl _

theorem similar_beside (ht : t ≠ .empty) (u : Tree) : Similar (.alternation t u) (t.beside u) := by
  induction u with
  | alternation u v ihu ihv =>
    unfold beside
    split
    · exact .refl _
    · next hu => exact (Similar.regroupAlternation v ht hu).symm.trans (ihu.alternation (.refl v))
  | _ => exact .refl _

theorem similar_leaning (t : Tree) : t.Similar t.leaning := by
  induction t with
  | empty | fail | any | charSet | negatedSet => exact .refl _
  | sequence t u iht ihu => exact (iht.sequence ihu).trans (similar_before _ _)
  | alternation t u iht ihu =>
    unfold leaning
    split
    · next ht => exact ht ▸ (Similar.refl _).alternation ihu
    · next ht =>
      exact (iht.alternation ihu).trans (similar_beside (mt iht.empty_iff.mpr ht) _)
  | star t ih => exact ih.star
  | mark name buffer t ih => exact ih.mark name buffer ∅

theorem leaning_ne_empty (h : t ≠ .empty) : t.leaning ≠ .empty :=
  mt t.similar_leaning.empty_iff.mpr h

end MarkedRegex.Tree
