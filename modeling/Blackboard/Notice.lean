import Blackboard.Event
import Blackboard.Depender
/-! Notices: what the store reports while it works, and how each is written on a line. -/
namespace Blackboard

inductive Level where
  | error | warn | info | debug | trace
deriving DecidableEq, Repr

namespace Level

def rank : Level → Nat
  | error => 0
  | warn => 1
  | info => 2
  | debug => 3
  | trace => 4

def name : Level → String
  | error => "ERROR"
  | warn => "WARN"
  | info => "INFO"
  | debug => "DEBUG"
  | trace => "TRACE"

def shows (limit l : Level) : Bool := l.rank ≤ limit.rank

end Level

inductive Notice (E V : Type) where
  | creating (workers : Nat) (debug traced : Bool)
  | registeringKind (kind : Kind)
  | settingUpPhase (computed delayed : List Kind)
  | registeredLazy (kind : Kind)
  | registeredTriggered (kind : Kind)
  | waiting (cells pending : Nat) (cycles fallbacks : Bool)
  | startingWorkers (workers pending : Nat)
  | workersStopped
  | phaseFailed (error : Error)
  | phaseComplete (cells executed updates rounds : Nat)
  | shuttingDown
  | handlingResult (result : String)
  | fault (error : Error)
  | continuationDropped (depender : Depender) (dependee : Key E)
  | updated (key : Key E) (new : Status E V) (dependers : Nat)
  | quiescent (round : Nat) (changed : Bool)
  | fallback (key : Key E) (value : V) (reason : Reason)
  | resolvedCycle (key : Key E) (value : V) (size : Nat)
  | finalizedInterim (key : Key E) (value : V)
  | traced (event : Event E V)

namespace Notice
variable {E V : Type}

def level : Notice E V → Level
  | creating .. | settingUpPhase .. | waiting .. | phaseComplete .. | shuttingDown
  | quiescent .. => .info
  | phaseFailed _ | fault _ => .warn
  | traced _ => .trace
  | _ => .debug

def eventMessage : Event E V → String
  | .force _ => "force"
  | .schedule _ _ => "schedule"
  | .update _ _ => "update"
  | .notification _ _ => "notification"
  | .fallback _ _ => "fallback"
  | .cycleResolution _ _ => "cycle resolved"
  | .fault _ => "computation fault"
  | .quiescence _ => "quiescence"

def message : Notice E V → String
  | creating .. => "Creating property store"
  | registeringKind _ => "Registering property kind"
  | settingUpPhase .. => "Setting up phase"
  | registeredLazy _ => "Registered lazy computation"
  | registeredTriggered _ => "Registered triggered computation"
  | waiting .. => "Waiting on phase completion"
  | startingWorkers .. => "Starting workers"
  | workersStopped => "Workers stopped"
  | phaseFailed _ => "Phase failed"
  | phaseComplete .. => "Phase complete"
  | shuttingDown => "Shutting down property store"
  | handlingResult _ => "Handling result"
  | fault _ => "Computation fault"
  | continuationDropped .. => "Store is shut down, continuation dropped"
  | updated .. => "Updated"
  | quiescent .. => "Quiescent"
  | fallback .. => "Fallback"
  | resolvedCycle .. => "Resolved cycle"
  | finalizedInterim .. => "Finalized interim value"
  | traced event => eventMessage event

section
variable [ToString E] [ToString V]

def eventFields : Event E V → List (String × String)
  | .force key => [("epk", toString key)]
  | .schedule e origin => [("entity", toString e), ("origin", origin)]
  | .update old new => [("old", toString old), ("new", toString new)]
  | .notification dependee depender =>
    [("dependee", toString dependee),
      ("depender", Text.optional (depender.map fun k => Text.quoted (toString k)))]
  | .fallback ep reason =>
    [("epk", toString ep.key), ("value", toString ep.value), ("reason", reason.name)]
  | .cycleResolution ep size =>
    [("epk", toString ep.key), ("value", toString ep.value), ("cycle_size", toString size)]
  | .fault e => [("error", e.message)]
  | .quiescence round => [("round", toString round)]

def fields : Notice E V → List (String × String)
  | creating workers debug observed =>
    [("threads", toString workers), ("debug", Text.truth debug), ("traced", Text.truth observed)]
  | registeringKind kind | registeredLazy kind | registeredTriggered kind => [("kind", kind.name)]
  | settingUpPhase computed delayed =>
    [("computed", Text.listing (computed.map (·.detail))),
      ("delayed", Text.listing (delayed.map (·.detail)))]
  | waiting cells pending cycles fallbacks =>
    [("states", toString cells), ("pending", toString pending),
      ("resolve_cycles", Text.truth cycles), ("use_fallbacks", Text.truth fallbacks)]
  | startingWorkers workers pending =>
    [("threads", toString workers), ("pending", toString pending)]
  | workersStopped | shuttingDown => []
  | phaseFailed e | fault e => [("error", e.message)]
  | phaseComplete cells executed updates rounds =>
    [("states", toString cells), ("executed", toString executed), ("updates", toString updates),
      ("rounds", toString rounds)]
  | handlingResult result => [("result", result)]
  | continuationDropped depender dependee =>
    [("depender", toString depender), ("dependee", toString dependee)]
  | updated key new dependers =>
    [("epk", toString key), ("new", toString new), ("dependers", toString dependers)]
  | quiescent round changed => [("round", toString round), ("changed", Text.truth changed)]
  | fallback key value reason =>
    [("epk", toString key), ("value", toString value), ("reason", reason.name)]
  | resolvedCycle key value size =>
    [("epk", toString key), ("value", toString value), ("size", toString size)]
  | finalizedInterim key value => [("epk", toString key), ("value", toString value)]
  | traced event => eventFields event

def line (n : Notice E V) : String :=
  " ".intercalate (n.level.name :: n.message :: n.fields.map fun f => f.1 ++ "=" ++ f.2)

end

end Notice
end Blackboard
