import Blackboard.Store.Update
/-! Registering kinds and computations, setting up phases, scheduling. -/
namespace Blackboard.Store
variable {E V C K : Type}

def registerKind (info : KindInfo E V) : Op E V C K Unit := do
  checkRunning
  modify (·.notify (.registeringKind info.kind))
  match (← get).schema.register info with
  | .ok schema => modify ({ · with schema })
  | .error e => throw e

/-- Starts a phase that computes `computed` and leaves `delayed` to a later one. The computations of
the phase before are forgotten. -/
def setupPhase (computed delayed : List Kind) : Op E V C K Unit := do
  checkRunning
  (computed ++ delayed).forM fun kind => discard (infoOf kind)
  modify (·.notify (.settingUpPhase computed delayed))
  modify ({ · with phase := .of computed delayed })

/-- Registers what computes a value of `kind` when it is first asked for. Keys asked for before, and
still unknown, are scheduled right away. -/
def registerLazy (kind : Kind) (c : C) : Op E V C K Unit := do
  checkRunning
  let _ ← infoOf kind
  match (← get).phase.registerLazy kind c with
  | .error e => throw e
  | .ok phase =>
    modify ({ · with phase })
    modify (·.notify (.registeredLazy kind))
    modify fun s =>
      (s.cells.filter fun cell => cell.key.kind.same kind && cell.status.isUnknown).foldl
        (fun s cell => s.schedule "lazy" c cell.key.entity) s

/-- Registers what runs once per entity as soon as a value of `kind` is known for it. Entities that
have one already are scheduled right away. -/
def registerTriggered (kind : Kind) (c : C) : Op E V C K Unit := do
  checkRunning
  let _ ← infoOf kind
  modify fun s => { s with phase := s.phase.registerTriggered kind c }
  modify (·.notify (.registeredTriggered kind))
  modify fun s => (s.cells.filter fun cell => cell.key.kind.same kind && cell.triggered).foldl
    (fun s cell => s.schedule "triggered" c cell.key.entity) s

def scheduleEager (entities : List E) (c : C) : Op E V C K Unit := do
  checkRunning
  modify fun s => entities.foldl (schedule "eager" · c ·) s

def shutdown (s : Store E V C K) : Store E V C K :=
  let s := s.notify .shuttingDown
  { s with queue := s.queue.close }

end Blackboard.Store
