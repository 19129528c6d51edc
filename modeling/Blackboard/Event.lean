import Blackboard.Schema
/-!
What a tracer sees: scheduling decisions, updates, notifications, settled values, faults and
quiescence rounds. An event log numbers the events it records and keeps them until they are drained.
-/
namespace Blackboard

inductive Event (E V : Type) where
  | force (key : Key E)
  | schedule (entity : E) (origin : String)
  | update (old new : Status E V)
  /-- `depender` is `none` for a collaborator. -/
  | notification (dependee : Key E) (depender : Option (Key E))
  | fallback (ep : Final E V) (reason : Reason)
  | cycleResolution (ep : Final E V) (size : Nat)
  | fault (error : Error)
  | quiescence (round : Nat)
deriving DecidableEq, Repr

inductive Event.Field where
  | text (s : String)
  | number (n : Nat)
  | absent
deriving DecidableEq, Repr

namespace Event
variable {E V : Type} [ToString E] [ToString V]

def name : Event E V → String
  | force _ => "force"
  | schedule _ _ => "schedule"
  | update _ _ => "update"
  | notification _ _ => "notification"
  | fallback _ _ => "fallback"
  | cycleResolution _ _ => "cycle_resolution"
  | fault _ => "computation_fault"
  | quiescence _ => "quiescence"

def fields : Event E V → List (String × Field)
  | force key => [("epk", .text (toString key))]
  | schedule e origin => [("entity", .text (toString e)), ("origin", .text origin)]
  | update old new => [("old", .text (toString old)), ("new", .text (toString new))]
  | notification dependee depender =>
    [("dependee", .text (toString dependee)),
      ("depender", depender.elim .absent fun k => .text (toString k))]
  | fallback ep reason => [("ep", .text (Status.final ep).text), ("reason", .text reason.name)]
  | cycleResolution ep size => [("ep", .text (Status.final ep).text), ("cycle_size", .number size)]
  | fault e => [("error", .text e.message)]
  | quiescence round => [("round", .number round)]

def detail : Event E V → String
  | force key => Text.record "Force" [("epk", Text.quoted (toString key))]
  | schedule e origin =>
    Text.record "Schedule" [("entity", Text.quoted (toString e)), ("origin", Text.quoted origin)]
  | update old new =>
    Text.record "Update" [("old", Text.quoted (toString old)), ("new", Text.quoted (toString new))]
  | notification dependee depender =>
    Text.record "Notification" [("dependee", Text.quoted (toString dependee)),
      ("depender", Text.optional (depender.map fun k => Text.quoted (toString k)))]
  | fallback ep reason =>
    Text.record "Fallback" [("ep", Text.quoted (Status.final ep).text), ("reason", reason.name)]
  | cycleResolution ep size =>
    Text.record "CycleResolution" [("ep", Text.quoted (Status.final ep).text),
      ("cycle_size", toString size)]
  | fault e => Text.record "ComputationFault" [("error", Text.quoted e.message)]
  | quiescence round => Text.record "Quiescence" [("round", toString round)]

end Event

structure Record (E V : Type) where
  seq : Nat
  event : Event E V
deriving DecidableEq, Repr

structure EventLog (E V : Type) where
  records : Array (Record E V)
  next : Nat

namespace EventLog
variable {E V : Type}

def empty : EventLog E V := ⟨#[], 0⟩

def record (log : EventLog E V) (event : Event E V) : EventLog E V :=
  ⟨log.records.push ⟨log.next, event⟩, log.next + 1⟩

def size (log : EventLog E V) : Nat := log.records.size

def drain (log : EventLog E V) : List (Record E V) × EventLog E V :=
  (log.records.toList, { log with records := #[] })

def replay (records : List (Record E V)) : List (Event E V) :=
  (records.mergeSort fun a b => a.seq ≤ b.seq).map (·.event)

end EventLog

/-- Who observes a store: nobody, an observer that looks away, a log of events, or the notices. -/
inductive Tracer (E V : Type) where
  | none
  | silent
  | events (log : EventLog E V)
  | notices

end Blackboard
