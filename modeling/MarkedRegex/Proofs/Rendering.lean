-- Rendering tells patterns apart as far as it can. Grouping and the contents of
-- marks are not written, and nothing else is lost: two patterns have one text
-- when their trees are similar, and only then.
import MarkedRegex.Proofs.Captures.Pieces
import MarkedRegex.Proofs.Reachable
import MarkedRegex.Proofs.Render.Nesting
import MarkedRegex.Proofs.Viable
import MarkedRegex.Proofs.WholeMatch

namespace MarkedRegex

variable {p q : Pattern}

theorem Pattern.render_eq_iff_spelled :
    p.render = q.render ↔
      Writing.spelled (p.tree.tokens .branch) = Writing.spelled (q.tree.tokens .branch) := by
  unfold render
  rw [renderOnto_eq_spelled, renderOnto_eq_spelled, List.append_nil, List.append_nil,
    String.ofList_inj]

/-- No set of a reachable pattern is empty, so it is legible where its names are. -/
theorem Reachable.legible (hp : Reachable p) (hmarks : ∀ name ∈ p.markNames, '>' ∉ name.toList) :
    p.tree.Legible :=
  hp.reduced.legible (Pattern.everyMark_of_markNamesInto hmarks)

theorem Tree.Similar.language_eq (h : p.tree.Similar q.tree) : p.language = q.language := by
  rw [← p.accepts_parse, ← q.accepts_parse]
  exact h.accepts_eq

theorem Pattern.isSome_matchWhole (p : Pattern) (s : List Char) :
    (p.matchWhole s).isSome ↔ s ∈ p.language := by
  rw [matchWhole_eq_parse, mem_language]

/-! ## Rendering is unambiguous -/

/-- Two reachable patterns whose marks have no angle bracket in their names are written alike just
when their trees differ in nothing but the contents of marks, the grouping of sequences and that of
open alternations. Then they match the same texts. -/
theorem patterns_written_alike_have_similar_trees (hp : Reachable p) (hq : Reachable q)
    (hpmarks : ∀ name ∈ p.markNames, '>' ∉ name.toList)
    (hqmarks : ∀ name ∈ q.markNames, '>' ∉ name.toList) :
    (p.render = q.render ↔ p.tree.Similar q.tree) ∧
      (p.render = q.render →
        p.language = q.language ∧ ∀ s, (p.matchWhole s).isSome = (q.matchWhole s).isSome) := by
  have htokens : p.render = q.render ↔ p.tree.tokens .branch = q.tree.tokens .branch := by
    rw [Pattern.render_eq_iff_spelled]
    exact ⟨Tree.tokens_eq_of_spelled (hp.legible hpmarks) (hq.legible hqmarks), congrArg _⟩
  have hsimilar := htokens.trans Tree.tokens_eq_iff_similar
  refine ⟨hsimilar, fun h => ?_⟩
  have hlanguage := (hsimilar.mp h).language_eq
  refine ⟨hlanguage, fun s => ?_⟩
  rw [Bool.eq_iff_iff, p.isSome_matchWhole, q.isSome_matchWhole, hlanguage]

/-- `(?<n>a*)bc|.*|(?<m>.*)` is written for either grouping, before and behind an `a`. -/
theorem a_text_shows_neither_grouping_nor_what_a_mark_holds :
    let first := Expr.mark "n" (.star (.char 'a'))
    let last := Expr.mark "m" (.star .any)
    let left := Expr.alternation (.alternation
      (.sequence (.sequence first (.char 'b')) (.char 'c')) (.star .any)) last
    let right := Expr.alternation
      (.sequence first (.sequence (.char 'b') (.char 'c'))) (.alternation (.star .any) last)
    let p := ((left.buildBehind []).run 0).1
    let q := ((((right.buildBehind []).run 0).1.derivative 'a').run 40).1
    (∀ name ∈ p.markNames, '>' ∉ name.toList) ∧ (∀ name ∈ q.markNames, '>' ∉ name.toList) ∧
      p.render = "(?<n>a*)bc|.*|(?<m>.*)" ∧ p.render = q.render ∧ p.tree ≠ q.tree ∧
      p.tree.Similar q.tree ∧ p.language = q.language := by
  intro first last left right p q
  have hp : Reachable p := Expr.reachable_of_buildBehind (Build.gives_run _ 0)
  have hright : Reachable ((right.buildBehind []).run 0).1 :=
    Expr.reachable_of_buildBehind (Build.gives_run _ 0)
  have hq : Reachable q := .derivative 'a' hright (Build.gives_run _ 40)
  have hpmarks : ∀ name ∈ p.markNames, '>' ∉ name.toList := by decide +kernel
  have hqmarks : ∀ name ∈ q.markNames, '>' ∉ name.toList := by decide +kernel
  have htext : p.render = q.render := by decide +kernel
  obtain ⟨hsimilar, hsame⟩ := patterns_written_alike_have_similar_trees hp hq hpmarks hqmarks
  exact ⟨hpmarks, hqmarks, by decide +kernel, htext, by decide +kernel, hsimilar.mp htext,
    (hsame htext).1⟩

end MarkedRegex
