import Blackboard.Store.Basic
/-! Changing cells: installing values, waking the dependers of what changed, and triggering. -/
namespace Blackboard.Store
variable {E V C K : Type}

section
variable [DecidableEq E]

def getOrCreate (key : Key E) : Op E V C K (Cell E V K × Bool) := do
  match (← get).table.getOrCreate key with
  | .ok (c, created, table) =>
    modify ({ · with table })
    return (c, created)
  | .error e => throw e

def cellOf (key : Key E) : Op E V C K (Cell E V K) := do
  let _ ← infoOf key.kind
  return (← getOrCreate key).1

end

def writeCell (c : Cell E V K) (s : Store E V C K) : Store E V C K := s.modifyCell c.id fun _ => c

def carryOut (change : Except Error (Update E V K × Cell E V K)) : Op E V C K (Update E V K) :=
  match change with
  | .ok (u, c) => do
    modify (writeCell c)
    return u
  | .error e => throw e

def takeSuspensionIf (d : Depender) (p : Suspension E V K → Bool) (s : Store E V C K) :
    Option (Suspension E V K) × Store E V C K :=
  let (taken, table) := s.table.takeSuspensionIf d p
  (taken, { s with table })

def unlink (s : Store E V C K) (d : Depender) (susp : Suspension E V K) : Store E V C K :=
  { s with table := s.table.unlink d susp }

def dependerKey (s : Store E V C K) : Depender → Option (Key E)
  | .cell id => (s.cell? id).map (·.key)
  | .collaborator _ => none

/-- Queues the continuation of a suspension that was taken from `d`, for the change of
`dependee`. -/
def resume (d : Depender) (dependee : Cell E V K) (susp : Suspension E V K) (s : Store E V C K) :
    Store E V C K :=
  let s := s.count fun n => { n with notifications := n.notifications + 1 }
  let s := s.trace (.notification dependee.key (s.dependerKey d))
  let s := s.unlink d susp
  if s.isShutdown then s.notify (.continuationDropped d dependee.key)
  else s.push (.resume d dependee.id susp.continuation)

def resumeIf (d : Depender) (dependee : Cell E V K) (p : Suspension E V K → Bool)
    (s : Store E V C K) : Store E V C K :=
  match s.takeSuspensionIf d p with
  | (some susp, s) => s.resume d dependee susp
  | (none, s) => s

/-- Resumes a depender that waits on `dependee`; one that moved on to other dependees sleeps on. -/
def wake (dependee : Cell E V K) (s : Store E V C K) (d : Depender) : Store E V C K :=
  s.resumeIf d dependee (·.waitsOn dependee.id)

def trigger (cell : Cell E V K) (s : Store E V C K) : Store E V C K :=
  match s.cell? cell.id with
  | some c =>
    let (first, c) := c.markTriggered
    if first then
      (s.phase.triggeredBy cell.key.kind).foldl (schedule "triggered" · · cell.key.entity)
        (s.writeCell c)
    else s
  | none => s

def afterUpdate (cell : Cell E V K) (u : Update E V K) (s : Store E V C K) : Store E V C K :=
  if !u.changed then s
  else
    let s := s.count fun n => { n with updates := n.updates + 1 }
    let s := s.notify (.updated cell.key u.new u.dependers.size)
    let s := s.trace (.update u.old u.new)
    let s := match u.dropped with
      | some susp => s.unlink (.cell cell.id) susp
      | none => s
    let s := u.dependers.members.foldl (wake cell) s
    if u.old.isUnknown then s.trigger cell else s

end Blackboard.Store
