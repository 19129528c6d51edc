import Blackboard.Kind
/-! Keys: an entity together with a kind, as in "the purity of method m". -/
namespace Blackboard

structure Key (E : Type) where
  entity : E
  kind : Kind
deriving DecidableEq, Repr

namespace Key
variable {E : Type} [DecidableEq E]

def same (a b : Key E) : Bool := decide (a.entity = b.entity) && a.kind.same b.kind

@[simp] theorem same_iff {a b : Key E} : a.same b = true ↔
    a.entity = b.entity ∧ a.kind.id = b.kind.id := by
  simp [same]

end Key

instance {E : Type} [ToString E] : ToString (Key E) :=
  ⟨fun k => "EPK(" ++ toString k.entity ++ ", " ++ k.kind.name ++ ")"⟩

end Blackboard
