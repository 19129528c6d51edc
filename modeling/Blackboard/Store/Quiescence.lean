import Blackboard.Component
import Blackboard.Store.Handling
/-!
Settling what cannot change any more. When no task is left, unknown values fall back, closed groups
of suspended computations are resolved, and interim values that nobody refines become final. Each
step ends as soon as it queued a task, so that what it woke runs before anything else is settled.
Cells that some computation waits on come first; the rest only once nothing else is left to do.
-/
namespace Blackboard.Store
variable {E V C K : Type}

/-- Settles one candidate after the other until a task is waiting; tells whether anything
changed. -/
def settleEach {α : Type} (settle : α → Op E V C K Bool) : List α → Op E V C K Bool
  | [] => return false
  | a :: rest => do
    let changed ← settle a
    if changed && (← get).inFlight then return true
    let more ← settleEach settle rest
    return changed || more

section
variable [DecidableEq E] [DecidableEq V] [Property V] [ToString E] [ToString V]

def finalizeIf (id : Nat) (observed : Status E V) (ep : Final E V) :
    Op E V C K (Option (Cell E V K × Update E V K)) := do
  match (← get).cell? id with
  | none => return none
  | some c =>
    match c.updateIf observed (.final ep) with
    | .ok (some (u, c)) =>
      modify (writeCell c)
      return some (c, u)
    | .ok none => return none
    | .error e => throw e

def settleable (s : Store E V C K) (waitedOn : Bool) : List (Cell E V K) :=
  s.cells.filter fun c => !s.phase.isDelayed c.key.kind && c.hasDependers == waitedOn

def fallBack (cell : Cell E V K) : Op E V C K Bool := do
  let reason := (← get).phase.reason cell.key.kind
  let info ← infoOf cell.key.kind
  let ep := info.fallbackFor reason (← freshStamp) cell.key.entity
  match ← finalizeIf cell.id cell.status ep with
  | none => return false
  | some (c, u) =>
    modify (·.notify (.fallback c.key ep.value.value reason))
    modify (·.count fun n => { n with fallbacks := n.fallbacks + 1 })
    modify (·.trace (.fallback ep reason))
    modify (afterUpdate c u)
    return true

def applyFallbacks (waitedOn : Bool) : Op E V C K Bool := do
  settleEach fallBack (((← get).settleable waitedOn).filter (·.status.isUnknown))

def finalize (cell : Cell E V K) : Op E V C K Bool := do
  match cell.status with
  | .interim ep =>
    let info ← infoOf ep.key.kind
    let resolved := info.resolve (← freshStamp) ep
    match ← finalizeIf cell.id cell.status resolved with
    | none => return false
    | some (c, u) =>
      modify (·.notify (.finalizedInterim resolved.key resolved.value.value))
      modify (·.count fun n => { n with resolvedInterims := n.resolvedInterims + 1 })
      modify (afterUpdate c u)
      return true
  | _ => return false

/-- Interim values that nobody refines any more, that is, those computed collaboratively. -/
def finalizeInterims (waitedOn : Bool) : Op E V C K Bool := do
  settleEach finalize (((← get).settleable waitedOn).filter (·.suspension.isNone))

def waiting (s : Store E V C K) : List Waiting :=
  (s.cells.filterMap fun c => c.suspendedOn.map (⟨.cell c.id, ·⟩)) ++
    s.table.collaborators.filterMap fun c => c.suspendedOn.map (⟨.collaborator c.id, ·⟩)

def isDelayedDepender (s : Store E V C K) : Depender → Bool
  | .cell id => (s.cell? id).any fun c => s.phase.isDelayed c.key.kind
  | .collaborator _ => false

def release (s : Store E V C K) (d : Depender) : Store E V C K :=
  match s.takeSuspensionIf d fun _ => true with
  | (some susp, s) => s.unlink d susp
  | (none, s) => s

/-- Makes the member of a closed group final; what follows from that is left to the caller. -/
def resolveMember : Depender → Op E V C K (Option (Cell E V K × Final E V × Update E V K))
  | .collaborator _ => return none
  | .cell id => do
    match (← get).status? id with
    | some (.interim ep) =>
      let info ← infoOf ep.key.kind
      let resolved := info.resolve (← freshStamp) ep
      return (← finalizeIf id (.interim ep) resolved).map fun (c, u) => (c, resolved, u)
    | _ => return none

def resolveMembers : List Depender → Op E V C K (List (Cell E V K × Final E V × Update E V K))
  | [] => return []
  | d :: rest => do
    let first ← resolveMember d
    return first.toList ++ (← resolveMembers rest)

def announceResolved (size : Nat) (s : Store E V C K) (r : Cell E V K × Final E V × Update E V K) :
    Store E V C K :=
  let (c, ep, u) := r
  let s := s.notify (.resolvedCycle ep.key ep.value.value size)
  let s := s.count fun n => { n with resolvedCycles := n.resolvedCycles + 1 }
  let s := s.trace (.cycleResolution ep size)
  s.afterUpdate c u

/-- Resolves a closed group: every member is final before anything outside is woken. Groups with a
member of a delayed kind stay as they are. -/
def resolveGroup (delayed : List Depender) (group : List Depender) : Op E V C K Bool := do
  if group.any (delayed.contains ·) then return false
  modify fun s => group.foldl release s
  let resolved ← resolveMembers group
  modify fun s => resolved.foldl (announceResolved group.length) s
  return true

def resolveClosedGroups : Op E V C K Bool := do
  let s ← get
  let waiting := s.waiting
  let delayed := (waiting.map (·.depender)).filter s.isDelayedDepender
  settleEach (resolveGroup delayed) (closedComponents waiting)

def settle (cycles fallbacks : Bool) : Op E V C K Bool := do
  if fallbacks then
    if ← applyFallbacks true then return true
  if cycles then
    if ← resolveClosedGroups then return true
    if ← finalizeInterims true then return true
  if fallbacks then
    if ← applyFallbacks false then return true
  if cycles then finalizeInterims false else return false

def fail (e : Error) (s : Store E V C K) : Store E V C K :=
  let s := s.notify (.fault e)
  let s := s.trace (.fault e)
  { s with fault := s.fault.or (some e), queue := s.queue.halt }

def onQuiescence (cycles fallbacks : Bool) (s : Store E V C K) : Bool × Store E V C K :=
  let s := s.count fun n => { n with quiescenceRounds := n.quiescenceRounds + 1 }
  let round := s.stats.quiescenceRounds
  let s := s.trace (.quiescence round)
  match settle cycles fallbacks s with
  | .ok changed s => (changed, s.notify (.quiescent round changed))
  | .error e s => (false, s.fail e)

end

end Blackboard.Store
