import Blackboard.Store.Query
import Blackboard.Store.Registration
/-!
Computations as scripts. While it runs, a computation calls the store and goes on according to the
answers; a script is the tree of these calls. A client says, for each name of a computation or
continuation, which script it stands for. `σ` is what the client remembers from one run to the next.
-/
namespace Blackboard

/-- What can be asked of a store while a task runs. -/
inductive Call (E V C : Type) where
  | registerKind (info : KindInfo E V)
  | setupPhase (computed delayed : List Kind)
  | registerLazy (kind : Kind) (computation : C)
  | registerTriggered (kind : Kind) (computation : C)
  | scheduleEager (entities : List E) (computation : C)
  | setFinal (ep : Final E V)
  | query (key : Key E)
  | force (key : Key E)
  | hasProperty (key : Key E)
  | isKnown (key : Key E)
  | ofKind (kind : Kind)
  | finalsOfKind (kind : Kind)
  | entitiesWith (v : V)
  | properties (e : E)
  | stamp
  | shutdown
  | isShutdown
  | statistics
  | config
  | isTraced
  | events
  | drainEvents

@[reducible] def Call.Answer {E V C : Type} : Call E V C → Type
  | registerKind _ | setupPhase _ _ | registerLazy _ _ | registerTriggered _ _ | scheduleEager _ _
  | setFinal _ | force _ => Except Error Unit
  | query _ => Except Error (Status E V)
  | hasProperty _ | isKnown _ | isShutdown | isTraced => Bool
  | ofKind _ | properties _ => List (Status E V)
  | finalsOfKind _ => List (Final E V)
  | entitiesWith _ => List E
  | stamp => Nat
  | shutdown => Unit
  | statistics => Statistics
  | config => Config
  | events | drainEvents => List (Record E V)

inductive Script (E V C α : Type) where
  | pure (a : α)
  | call (c : Call E V C) (next : c.Answer → Script E V C α)

namespace Script
variable {E V C α β : Type}

def bind (s : Script E V C α) (f : α → Script E V C β) : Script E V C β :=
  match s with
  | pure a => f a
  | call c next => call c fun a => (next a).bind f

instance : Monad (Script E V C) := { pure, bind }

def ask (c : Call E V C) : Script E V C c.Answer := call c pure

end Script

namespace Store
variable {E V C K α : Type}

def answer (op : Op E V C K α) (s : Store E V C K) : Except Error α × Store E V C K :=
  match op s with
  | .ok a s => (.ok a, s)
  | .error e s => (.error e, s)

def records (s : Store E V C K) : List (Record E V) :=
  match s.tracer with
  | .events log => log.records.toList
  | _ => []

def drainRecords (s : Store E V C K) : List (Record E V) × Store E V C K :=
  match s.tracer with
  | .events log =>
    let (records, log) := log.drain
    (records, { s with tracer := .events log })
  | _ => ([], s)

variable [DecidableEq E] [DecidableEq V] [Property V] [ToString E] [ToString V]

def serve : (c : Call E V C) → Store E V C K → c.Answer × Store E V C K
  | .registerKind info, s => s.answer (registerKind info)
  | .setupPhase computed delayed, s => s.answer (setupPhase computed delayed)
  | .registerLazy kind c, s => s.answer (registerLazy kind c)
  | .registerTriggered kind c, s => s.answer (registerTriggered kind c)
  | .scheduleEager entities c, s => s.answer (scheduleEager entities c)
  | .setFinal ep, s => s.answer (setFinal ep)
  | .query key, s => s.answer (query key)
  | .force key, s => s.answer (force key)
  | .hasProperty key, s => (s.hasProperty key, s)
  | .isKnown key, s => (s.isKnown key, s)
  | .ofKind kind, s => (s.ofKind kind, s)
  | .finalsOfKind kind, s => (s.finalsOfKind kind, s)
  | .entitiesWith v, s => (s.entitiesWith v, s)
  | .properties e, s => (s.properties e, s)
  | .stamp, s => (s.nextStamp, { s with nextStamp := s.nextStamp + 1 })
  | .shutdown, s => ((), s.shutdown)
  | .isShutdown, s => (s.isShutdown, s)
  | .statistics, s => (s.stats, s)
  | .config, s => (s.config, s)
  | .isTraced, s => (s.isTraced, s)
  | .events, s => (s.records, s)
  | .drainEvents, s => s.drainRecords

end Store

def Script.run {E V C K α : Type} [DecidableEq E] [DecidableEq V] [Property V]
    [ToString E] [ToString V] :
    Script E V C α → Store E V C K → α × Store E V C K
  | .pure a, s => (a, s)
  | .call c next, s =>
    let (a, s) := s.serve c
    (next a).run s

structure Client (E V C K σ : Type) where
  start : C → E → σ → Script E V C (Except Crash (Result E V C K) × σ)
  resume : K → Status E V → σ → Script E V C (Except Crash (Result E V C K) × σ)

end Blackboard
