import ApduPlay.WrappedText

/-!
# Wrapping a text in pieces

A label is wrapped in three pieces, each with the room that the one before it
left. Together they are wrapped like the whole label as long as no end of a line
wraps around.
-/

namespace ApduPlay.WrappedPieces

open LineWrapping LogParser WrappedText

/-- Two texts are wrapped one after the other like both together, which gives
them in lines. -/
def WrapsInPieces (a b : JavaString) (wrapAfter firstWrap : ℤ) : Prop :=
  ∃ x r y r', wrapText a wrapAfter firstWrap = .ok (x, r) ∧ wrapText b wrapAfter r = .ok (y, r') ∧
    wrapText (a ++ b) wrapAfter firstWrap = .ok (x ++ y, r') ∧
    InLines wrapAfter.toNat lineBreak (firstLine wrapAfter firstWrap).toNat (a ++ b) (x ++ y)

variable {wrapAfter firstWrap : ℤ}

end ApduPlay.WrappedPieces
