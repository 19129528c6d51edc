/-! Property kinds, property values and the stamps that tell two occurrences of equal values
apart. -/
namespace Blackboard

/-- The id alone identifies a kind, the name is for people. -/
structure Kind where
  id : Nat
  name : String
deriving DecidableEq, Repr

namespace Kind

def same (a b : Kind) : Bool := a.id == b.id

@[simp] theorem same_iff {a b : Kind} : a.same b = true ↔ a.id = b.id := by simp [same]

instance : ToString Kind := ⟨name⟩

end Kind

/-- What the store asks of the values that analyses derive. Comparing two of them, unlike computing
one, always ends with an answer. -/
class Property (V : Type) where
  kind : V → Kind
  /-- Why the first value may not follow the second one; `none` if it may. -/
  refusal? : V → V → Option String

/-- A value together with the stamp of its occurrence. Two occurrences are the same only if they
were made by one and the same act, however equal their values are. -/
structure Stamped (V : Type) where
  stamp : Nat
  value : V
deriving DecidableEq, Repr

def Stamped.agrees {V : Type} [DecidableEq V] (a b : Stamped V) : Bool := decide (a.value = b.value)

instance {V : Type} [ToString V] : ToString (Stamped V) := ⟨fun a => toString a.value⟩

end Blackboard
