import Blackboard.Script
import Blackboard.Store.Quiescence
/-! Running phases: tasks are executed until a fixpoint is reached. -/
namespace Blackboard

/-- A store together with what its client remembers. `lost` is the breakdown that took the worker
away with its task unfinished. -/
structure World (E V C K σ : Type) where
  store : Store E V C K
  memory : σ
  lost : Option Crash := none

variable {E V C K σ : Type} [DecidableEq E] [DecidableEq V] [Property V] [ToString E] [ToString V]

namespace Store

/-- Takes up how a computation ended. A crash, or a result that cannot be handled, is a fault. What
breaks down while the result is handled is none: it is not noticed, and the worker is lost with
it. -/
def conclude (outcome : Except Crash (Result E V C K)) (s : Store E V C K) :
    Option Crash × Store E V C K :=
  match outcome with
  | .error crash => (none, s.fail (.computationFailed crash.message))
  | .ok result =>
    match handle result (s.notify (.handlingResult result.name)) with
    | .ok lost s => (lost, s)
    | .error e s => (none, s.fail e)

end Store

namespace Client

def scriptOf (client : Client E V C K σ) (task : Task E C K) (s : Store E V C K) (memory : σ) :
    Script E V C (Except Crash (Result E V C K) × σ) :=
  match task with
  | .compute c e => client.start c e memory
  | .resume _ dependee k =>
    match s.status? dependee with
    | some status => client.resume k status memory
    | none => .pure (.ok .nothing, memory)

def execute (client : Client E V C K σ) (task : Task E C K) (w : World E V C K σ) :
    World E V C K σ :=
  let s := w.store.count fun n => { n with executedTasks := n.executedTasks + 1 }
  let ((outcome, memory), s) := (client.scriptOf task s w.memory).run s
  let (lost, s) := s.conclude outcome
  ⟨s, memory, lost⟩

def worker (client : Client E V C K σ) (cycles fallbacks : Bool) :
    Worker (Task E C K) (World E V C K σ) where
  isLost w := w.lost.isSome
  queue w := w.store.queue
  setQueue w queue := { w with store := { w.store with queue } }
  execute := client.execute
  settle w :=
    let (changed, s) := w.store.onQuiescence cycles fallbacks
    (changed, { w with store := s })

end Client

namespace Store

def beginWait (cycles fallbacks : Bool) (s : Store E V C K) : Store E V C K :=
  let s := s.notify (.waiting s.table.size s.queue.pending cycles fallbacks)
  s.notify (.startingWorkers (max s.workers 1) s.queue.pending)

def endWait : Op E V C K Unit := do
  modify (·.notify .workersStopped)
  match (← get).fault with
  | some e =>
    modify (·.notify (.phaseFailed e))
    throw e
  | none =>
    checkRunning
    modify fun s => s.notify (.phaseComplete s.table.size s.stats.executedTasks s.stats.updates
      s.stats.quiescenceRounds)

end Store

namespace World

/-- Runs every scheduled computation to a fixpoint. Without `cycles` or `fallbacks` the phase may
end with values that are interim or unknown. `none` if that takes more than `fuel` turns. -/
def wait (client : Client E V C K σ) (fuel : Nat) (cycles fallbacks : Bool) (w : World E V C K σ) :
    Option (Except Error Unit × World E V C K σ) :=
  match w.store.answer Store.checkRunning with
  | (.error e, s) => some (.error e, { w with store := s })
  | (.ok (), s) =>
    ((client.worker cycles fallbacks).run fuel { w with store := s.beginWait cycles fallbacks }).map
      fun w =>
        let (a, s) := w.store.answer Store.endWait
        (a, { w with store := s })

end World
end Blackboard
