-- Properties of patterns that steps keep. Where a property passes to the parts
-- of a pattern and the constructors keep it, it holds of the settled form and
-- of what is left after a character, which are put together from parts.
import MarkedRegex.Proofs.Residual

namespace MarkedRegex

/-! ## Invariants -/

/-- A property that the parts of a pattern share with it, and that the constructors keep. -/
structure Invariant (good : Pattern → Prop) : Prop where
  empty : good .empty
  fail : good .fail
  any : good .any
  ofSet : ∀ {s r}, OfSet s r → good r
  ofNegatedSet : ∀ {s r}, OfNegatedSet s r → good r
  sequenceParts : ∀ {k p q}, good (.sequence k p q) → good p ∧ good q
  alternationParts : ∀ {k p q}, good (.alternation k p q) → good p ∧ good q
  starPart : ∀ {k p}, good (.star k p) → good p
  markPart : ∀ {k name buffer p}, good (.mark k name buffer p) → good p
  sequenced : ∀ {p q r}, Sequenced p q r → good p → good q → good r
  alternated : ∀ {p q r}, Alternated p q r → good p → good q → good r
  starred : ∀ {p r}, Starred p r → good p → good r
  marked : ∀ {name buffer p r}, Marked name buffer p r → good p → good r

/-! ## Steps keep invariants -/

namespace Invariant

variable {good : Pattern → Prop} {p r : Pattern}

theorem settled (hgood : Invariant good) (h : Settled p r) (hp : good p) : good r := by
  induction h with
  | fail => exact hgood.fail
  | empty => exact hgood.empty
  | kept => exact hp
  | sequence _ _ _ _ _ hr iha ihb =>
    obtain ⟨hp, hq⟩ := hgood.sequenceParts hp
    exact hgood.sequenced hr (iha hp) (ihb hq)
  | alternation _ _ _ _ _ hr iha ihb =>
    obtain ⟨hp, hq⟩ := hgood.alternationParts hp
    exact hgood.alternated hr (iha hp) (ihb hq)
  | star _ _ _ hr ih => exact hgood.starred hr (ih (hgood.starPart hp))
  | mark _ _ _ hr ih => exact hgood.marked hr (ih (hgood.markPart hp))

theorem residual {c : Char} (hgood : Invariant good) (h : Residual p c r) (hp : good p) :
    good r := by
  induction h with
  | dead => exact hgood.fail
  | any => exact hgood.empty
  | charSet k s c =>
    split
    · exact hgood.empty
    · exact hgood.fail
  | negatedSet k s c =>
    split
    · exact hgood.fail
    · exact hgood.empty
  | sequence _ _ _ hr ih =>
    obtain ⟨hp, hq⟩ := hgood.sequenceParts hp
    exact hgood.sequenced hr (ih hp) hq
  | sequenceLeft _ _ _ hr _ ih _ =>
    obtain ⟨hp, hq⟩ := hgood.sequenceParts hp
    exact hgood.sequenced hr (ih hp) hq
  | sequenceBoth _ _ _ hhead _ _ he hrest hr iha ihtail =>
    obtain ⟨hp, hq⟩ := hgood.sequenceParts hp
    have hhead := hgood.sequenced hhead (iha hp) hq
    have hrest := hgood.sequenced hrest (hgood.settled he hp) (ihtail hq)
    exact hgood.alternated hr hhead hrest
  | alternation _ _ _ hr iha ihb =>
    obtain ⟨hp, hq⟩ := hgood.alternationParts hp
    exact hgood.alternated hr (iha hp) (ihb hq)
  | star _ _ hr ih => exact hgood.sequenced hr (ih (hgood.starPart hp)) hp
  | mark _ _ hr ih => exact hgood.marked hr (ih (hgood.markPart hp))

end Invariant

end MarkedRegex
