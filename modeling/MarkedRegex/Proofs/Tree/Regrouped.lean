-- Trees with some of their sequences regrouped to the left. Where only parts
-- that take in nothing are regrouped, no attribute of the tree changes.
import MarkedRegex.Proofs.Tree.Attributes

namespace MarkedRegex

/-! ## Regrouped trees -/

namespace Tree

/-- A tree in which some sequences of three parts that take in nothing lean to the left. -/
inductive Regrouped : Tree → Tree → Prop
  | refl (t : Tree) : Regrouped t t
  | trans {t u v : Tree} : Regrouped t u → Regrouped u v → Regrouped t v
  | sequence {t u t' u' : Tree} : Regrouped t t' → Regrouped u u' →
      Regrouped (.sequence t u) (.sequence t' u')
  | alternation {t u t' u' : Tree} : Regrouped t t' → Regrouped u u' →
      Regrouped (.alternation t u) (.alternation t' u')
  | star {t t' : Tree} : Regrouped t t' → Regrouped (.star t) (.star t')
  | mark (name : String) (buffer : MarkBuffer) {t t' : Tree} : Regrouped t t' →
      Regrouped (.mark name buffer t) (.mark name buffer t')
  | gather {t u v : Tree} : t.consumes = false → u.consumes = false → v.consumes = false →
      Regrouped (.sequence t (.sequence u v)) (.sequence (.sequence t u) v)

namespace Regrouped

variable {t u : Tree}

theorem size_eq (h : Regrouped t u) : u.size = t.size := by
  induction h with
  | refl => rfl
  | trans _ _ ih ih' => exact ih'.trans ih
  | sequence _ _ ih ih' => rw [size_sequence, size_sequence, ih, ih']
  | alternation _ _ ih ih' => rw [size_alternation, size_alternation, ih, ih']
  | star _ ih => rw [size_star, size_star, ih]
  | mark _ _ _ ih => rw [size_mark, size_mark, ih]
  | gather =>
    simp only [size_sequence]
    omega

theorem consumes_eq (h : Regrouped t u) : u.consumes = t.consumes := by
  induction h with
  | refl => rfl
  | trans _ _ ih ih' => exact ih'.trans ih
  | sequence _ _ ih ih' => rw [consumes_sequence, consumes_sequence, ih, ih']
  | alternation _ _ ih ih' => rw [consumes_alternation, consumes_alternation, ih, ih']
  | star _ ih => rwa [consumes_star, consumes_star]
  | mark _ _ _ ih => rwa [consumes_mark, consumes_mark]
  | gather => simp only [consumes_sequence, Bool.or_assoc]

/-- What is regrouped takes in nothing, so it is one level before and after. -/
theorem depth_eq (h : Regrouped t u) : u.depth = t.depth := by
  induction h with
  | refl => rfl
  | trans _ _ ih ih' => exact ih'.trans ih
  | sequence h h' ih ih' =>
    rw [depth_sequence, depth_sequence, ih, ih', h.consumes_eq, h'.consumes_eq]
  | alternation h h' ih ih' =>
    rw [depth_alternation, depth_alternation, ih, ih', h.consumes_eq, h'.consumes_eq]
  | star h ih => rw [depth_star, depth_star, ih, h.consumes_eq]
  | mark _ _ h ih => rw [depth_mark, depth_mark, ih, h.consumes_eq]
  | gather ht hu hv =>
    rw [depth_of_not_consumes (by simp [ht, hu, hv]), depth_of_not_consumes (by simp [ht, hu, hv])]

end Regrouped

end Tree

end MarkedRegex
