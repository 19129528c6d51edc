import Blackboard.CellTable
import Blackboard.Config
import Blackboard.Notice
import Blackboard.Phase
import Blackboard.Queue
import Blackboard.Result
import Blackboard.Statistics
/-!
The property store: the cells, the kinds and computations registered for them, the queue of tasks,
and what is told about the work: statistics, the tracer's events and the notices.

`E` is the type of entities, `V` that of values, `C` names computations and `K` continuations.
-/
namespace Blackboard

inductive Task (E C K : Type) where
  | compute (computation : C) (entity : E)
  /-- Resume a suspended computation with the dependee as it is when the task runs. -/
  | resume (depender : Depender) (dependee : Nat) (continuation : K)

structure Store (E V C K : Type) where
  config : Config
  workers : Nat
  schema : Schema E V
  phase : Phase C
  table : CellTable E V K
  queue : Queue (Task E C K)
  tracer : Tracer E V
  stats : Statistics
  /-- The first fault of a computation. -/
  fault : Option Error
  /-- Counts suspensions. -/
  epoch : Nat
  nextStamp : Nat
  notices : Array (Notice E V)

/-- Operations that may fail; what they did to the store before stays done. -/
abbrev Op (E V C K : Type) := EStateM Error (Store E V C K)

namespace Store
variable {E V C K : Type}

def notify (s : Store E V C K) (n : Notice E V) : Store E V C K :=
  { s with notices := s.notices.push n }

def isTraced (s : Store E V C K) : Bool :=
  match s.tracer with
  | .none => false
  | _ => true

def trace (s : Store E V C K) (e : Event E V) : Store E V C K :=
  match s.tracer with
  | .none | .silent => s
  | .events log => { s with tracer := .events (log.record e) }
  | .notices => s.notify (.traced e)

/-- A new store. `cores` is the number of workers if the configuration leaves it open. -/
def create (config : Config) (tracer : Tracer E V) (cores : Nat) : Store E V C K :=
  let s : Store E V C K :=
    { config, tracer, workers := config.workers cores, schema := .empty, phase := .initial,
      table := .empty, queue := .empty, stats := {}, fault := none, epoch := 0, nextStamp := 0,
      notices := #[] }
  s.notify (.creating s.workers config.debug s.isTraced)

def ofConfig (config : Config) (cores : Nat) : Store E V C K :=
  create config (if config.trace then .notices else .none) cores

def isShutdown (s : Store E V C K) : Bool := s.queue.closed

def inFlight (s : Store E V C K) : Bool := s.queue.pending > 0

def cell? (s : Store E V C K) (id : Nat) : Option (Cell E V K) := s.table.cell? id
def status? (s : Store E V C K) (id : Nat) : Option (Status E V) := (s.cell? id).map (·.status)
def cells (s : Store E V C K) : List (Cell E V K) := s.table.all

def modifyCell (s : Store E V C K) (id : Nat) (f : Cell E V K → Cell E V K) : Store E V C K :=
  { s with table := s.table.modify id f }

def count (s : Store E V C K) (f : Statistics → Statistics) : Store E V C K :=
  { s with stats := f s.stats }

def push (s : Store E V C K) (task : Task E C K) : Store E V C K :=
  { s with queue := s.queue.push task }

def freshStamp : Op E V C K Nat :=
  modifyGet fun s => (s.nextStamp, { s with nextStamp := s.nextStamp + 1 })

def checkRunning : Op E V C K Unit := do
  if (← get).isShutdown then throw .shutdown

/-- An operation that runs none of the client's code, so that nothing can break down. -/
def unbroken (op : Op E V C K Unit) : Op E V C K (Option Crash) := do
  op
  return none

def infoOf (kind : Kind) : Op E V C K (KindInfo E V) := do
  match (← get).schema.get kind with
  | .ok info => return info
  | .error e => throw e

def schedule (origin : String) (s : Store E V C K) (c : C) (e : E) : Store E V C K :=
  ((s.count fun n => { n with scheduledTasks := n.scheduledTasks + 1 }).trace
    (.schedule e origin)).push (.compute c e)

end Store
end Blackboard
