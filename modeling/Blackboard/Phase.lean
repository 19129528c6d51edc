import Blackboard.Schema
/-! What the current phase computes, and how. -/
namespace Blackboard

/-- `computed = none` means every registered kind. `lazy` and `triggered` hold the registrations of
this phase in the order they were made. -/
structure Phase (C : Type) where
  computed : Option (List Kind)
  delayed : List Kind
  lazy : List (Kind × C)
  triggered : List (Kind × C)

namespace Phase
variable {C : Type}

def initial : Phase C := ⟨none, [], [], []⟩
def of (computed delayed : List Kind) : Phase C := ⟨some computed, delayed, [], []⟩

def isComputed (p : Phase C) (kind : Kind) : Bool := p.computed.all (·.any (·.same kind))
def isDelayed (p : Phase C) (kind : Kind) : Bool := p.delayed.any (·.same kind)

def lazyFor (p : Phase C) (kind : Kind) : Option C := (p.lazy.find? (·.1.same kind)).map (·.2)

def triggeredBy (p : Phase C) (kind : Kind) : List C :=
  (p.triggered.filter (·.1.same kind)).map (·.2)

/-- Why a value of `kind` that nobody derived falls back: a kind that the phase declares, or that
has a lazy computation, counts as computed. -/
def reason (p : Phase C) (kind : Kind) : Reason :=
  if p.computed.any (·.any (·.same kind)) || (p.lazyFor kind).isSome then .notDerived
  else .notComputed

def registerLazy (p : Phase C) (kind : Kind) (c : C) : Except Error (Phase C) :=
  match p.lazyFor kind with
  | some _ => .error (.lazyAlreadyRegistered kind.name)
  | none => .ok { p with lazy := p.lazy ++ [(kind, c)] }

def registerTriggered (p : Phase C) (kind : Kind) (c : C) : Phase C :=
  { p with triggered := p.triggered ++ [(kind, c)] }

end Phase
end Blackboard
