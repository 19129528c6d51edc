import Blackboard.Key
import Blackboard.Text.Quoted
import Blackboard.Text.Shape
/-!
What is known about a key: nothing yet, a pair of bounds that may still be refined, or a final
value. Statuses are compared in two ways. `sameState` asks whether one was read off the very state
the other was read off, so it looks at stamps; `sameValues` asks whether they say the same.
-/
namespace Blackboard

/-- A refinable value, bounded from below and above. -/
structure Interim (E V : Type) where
  key : Key E
  lower : Stamped V
  upper : Stamped V
deriving DecidableEq, Repr

structure Final (E V : Type) where
  key : Key E
  value : Stamped V
deriving DecidableEq, Repr

inductive Status (E V : Type) where
  | unknown (key : Key E)
  | interim (ep : Interim E V)
  | final (ep : Final E V)
deriving DecidableEq, Repr

def Interim.ofValue {E V : Type} (key : Key E) (value : Stamped V) : Interim E V :=
  ⟨key, value, value⟩

namespace Status
variable {E V : Type}

def key : Status E V → Key E
  | unknown k => k
  | interim ep => ep.key
  | final ep => ep.key

def isUnknown : Status E V → Bool
  | unknown _ => true
  | _ => false

def isFinal : Status E V → Bool
  | final _ => true
  | _ => false

def isRefinable (s : Status E V) : Bool := !s.isFinal
def hasValue (s : Status E V) : Bool := !s.isUnknown

/-- A final value is its own lower and upper bound. -/
def lower? : Status E V → Option (Stamped V)
  | unknown _ => none
  | interim ep => some ep.lower
  | final ep => some ep.value

def upper? : Status E V → Option (Stamped V)
  | unknown _ => none
  | interim ep => some ep.upper
  | final ep => some ep.value

def final? : Status E V → Option (Final E V)
  | final ep => some ep
  | _ => none

section
variable [DecidableEq V]

def sameState : Status E V → Status E V → Bool
  | unknown _, unknown _ => true
  | interim a, interim b => decide (a.lower = b.lower) && decide (a.upper = b.upper)
  | final a, final b => decide (a.value = b.value)
  | _, _ => false

def sameValues : Status E V → Status E V → Bool
  | unknown _, unknown _ => true
  | interim a, interim b => a.lower.agrees b.lower && a.upper.agrees b.upper
  | final a, final b => a.value.agrees b.value
  | _, _ => false

end

section
variable [ToString E] [ToString V]

def text : Status E V → String
  | unknown k => toString k
  | interim ep =>
    Text.tagged "InterimEP" [toString ep.key.entity, "lb=" ++ toString ep.lower,
      "ub=" ++ toString ep.upper]
  | final ep => Text.tagged "FinalEP" [toString ep.key.entity, toString ep.value]

instance : ToString (Status E V) := ⟨text⟩

end

end Status

/-! The long form names every field. -/

def Kind.detail (k : Kind) : String :=
  Text.record "PropertyKind" [("id", toString k.id), ("name", Text.quoted k.name)]

def Key.detail {E : Type} [ToString E] (k : Key E) : String :=
  Text.record "EPK" [("e", toString k.entity), ("kind", k.kind.detail)]

def Status.detail {E V : Type} [ToString E] [ToString V] : Status E V → String
  | .unknown k => Text.tagged "Epk" [k.detail]
  | .interim ep => Text.tagged "Interim"
      [Text.record "InterimEP" [("epk", ep.key.detail), ("lb", toString ep.lower),
        ("ub", toString ep.upper)]]
  | .final ep => Text.tagged "Final"
      [Text.record "FinalEP" [("epk", ep.key.detail), ("p", toString ep.value)]]

end Blackboard
