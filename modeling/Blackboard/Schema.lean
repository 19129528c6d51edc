import Blackboard.Status
import Blackboard.Error
/-!
The schema: for each registered kind, the value it falls back to and how bounds that can no longer
change are made final.
-/
namespace Blackboard

/-- Why a property is answered by the fallback of its kind. -/
inductive Reason where
  /-- No analysis computes the kind in the current phase. -/
  | notComputed
  /-- The kind is computed, but no computation derived a value for the entity. -/
  | notDerived
deriving DecidableEq, Repr

def Reason.name : Reason → String
  | notComputed => "PropertyIsNotComputedByAnyAnalysis"
  | notDerived => "PropertyIsNotDerivedByPreviouslyExecutedAnalysis"

/-- How an interim value that can no longer change becomes final. -/
inductive Resolution (V : Type) where
  | lower
  | upper
  /-- A value made from both bounds; where there is none, the lower bound. -/
  | merge (make : V → V → Option V)

namespace Resolution
variable {V : Type}

def name : Resolution V → String
  | lower => "LowerBound"
  | upper => "UpperBound"
  | merge _ => "Custom"

instance : Inhabited (Resolution V) := ⟨lower⟩

def resolve (r : Resolution V) (stamp : Nat) (lb ub : Stamped V) : Stamped V :=
  match r with
  | lower => lb
  | upper => ub
  | merge make => (make lb.value ub.value).elim lb (⟨stamp, ·⟩)

end Resolution

structure KindInfo (E V : Type) where
  kind : Kind
  fallback : Reason → E → V
  resolution : Resolution V

namespace KindInfo
variable {E V : Type}

def fallbackFor (info : KindInfo E V) (reason : Reason) (stamp : Nat) (e : E) : Final E V :=
  ⟨⟨e, info.kind⟩, ⟨stamp, info.fallback reason e⟩⟩

def resolve (info : KindInfo E V) (stamp : Nat) (ep : Interim E V) : Final E V :=
  ⟨ep.key, info.resolution.resolve stamp ep.lower ep.upper⟩

def detail (info : KindInfo E V) : String :=
  Text.record "PropertyKindInfo"
    [("kind", info.kind.detail), ("cycle_resolution", info.resolution.name)]

end KindInfo

structure Schema (E V : Type) where
  infos : List (KindInfo E V)

namespace Schema
variable {E V : Type}

def empty : Schema E V := ⟨[]⟩

def find? (s : Schema E V) (kind : Kind) : Option (KindInfo E V) := s.infos.find? (·.kind.same kind)

def place (info : KindInfo E V) : List (KindInfo E V) → List (KindInfo E V)
  | [] => [info]
  | i :: r => if info.kind.id < i.kind.id then info :: i :: r else i :: place info r

def register (s : Schema E V) (info : KindInfo E V) : Except Error (Schema E V) :=
  match s.find? info.kind with
  | some i => .error (.duplicateKind info.kind.id i.kind.name)
  | none => .ok ⟨place info s.infos⟩

def get (s : Schema E V) (kind : Kind) : Except Error (KindInfo E V) :=
  match s.find? kind with
  | some info => .ok info
  | none => .error (.unknownKind kind.name)

def kinds (s : Schema E V) : List Kind := s.infos.map (·.kind)
def size (s : Schema E V) : Nat := s.infos.length

end Schema
end Blackboard
