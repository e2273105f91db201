import TokenLedger.Json.Value
import TokenLedger.Store.Key

/-! Choosing documents of a namespace by the value of one of their fields. -/

namespace TokenLedger

structure Selector where
  ns : Namespace
  field : String
  value : Json.Value

namespace Selector

/-- A document matches that is an object with the value in the field. -/
def accepts (s : Selector) (document : Bytes) : Bool :=
  match Json.Value.ofBytes Json.Value.maxDepth document with
  | .ok v => match v.member? s.field with
    | some v => v.same s.value
    | none => false
  | .error _ => false

def text (ns : Namespace) (field value : String) : Selector := ⟨ns, field, .text value⟩

end Selector
end TokenLedger
