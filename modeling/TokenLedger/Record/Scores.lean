import TokenLedger.Json.Record

/-! The financial standing of an actor. -/

namespace TokenLedger

structure Scores where
  trust : Binary64
  endorsement : Binary64
  deriving DecidableEq, Repr

namespace Scores

open Json in
def fields : List Field :=
  [.required "TrustScore" .binary64, .required "EndorsementScore" .binary64]

def layout : Json.Layout Scores where
  name := "FinancialScores"
  fields := fields
  ofRow := fun (trust, endorsement, _) => ⟨trust, endorsement⟩
  toRow s := (s.trust, s.endorsement, ())

def codec : Json.Codec Scores := layout.codec

end Scores
end TokenLedger
