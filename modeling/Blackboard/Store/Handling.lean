import Blackboard.Store.Update
/-! Handling the results of computations. -/
namespace Blackboard.Store
variable {E V C K : Type} [DecidableEq E] [DecidableEq V] [Property V] [ToString E] [ToString V]

def installFinal (ep : Final E V) : Op E V C K Unit := do
  let c ← cellOf ep.key
  let u ← carryOut (c.update (.final ep) (← get).config.debug)
  modify (afterUpdate c u)

def checkDependees (depender : String) (own : Option (Key E)) :
    List (Status E V) → Except Error Unit
  | [] => .ok ()
  | d :: rest =>
    if own.any (·.same d.key) then .error (.selfDependency depender)
    else if d.isFinal then .error (.finalDependee depender (toString d))
    else checkDependees depender own rest

def checkSuspension (depender : String) (own : Option (Key E)) (dependees : List (Status E V)) :
    Op E V C K Unit := do
  if dependees.isEmpty then throw (.interimWithoutDependees depender)
  if (← get).config.debug then
    match checkDependees depender own dependees with
    | .ok () => pure ()
    | .error e => throw e

def observe : List (Status E V) → Op E V C K (List (Nat × Status E V))
  | [] => return []
  | d :: rest => do
    let c ← cellOf d.key
    return (c.id, d) :: (← observe rest)

def nextEpoch : Op E V C K Nat := modifyGet fun s => (s.epoch, { s with epoch := s.epoch + 1 })

/-- Registers a depender with its dependees in order. The first that changed since it was observed
resumes the depender at once. -/
def registerDependers (d : Depender) (epoch : Nat) : List (Nat × Status E V) → Op E V C K Unit
  | [] => return ()
  | (id, observed) :: rest => do
    match (← get).cell? id with
    | none => registerDependers d epoch rest
    | some c =>
      match c.addDepender d observed with
      | .ok (true, c) =>
        modify (writeCell c)
        registerDependers d epoch rest
      | .ok (false, _) => modify (resumeIf d c (·.epoch == epoch))
      | .error e => throw e

def suspend (ep : Interim E V) (dependees : List (Status E V)) (k : K) : Op E V C K Unit := do
  checkSuspension (toString ep.key) (some ep.key) dependees
  let observed ← observe dependees
  let c ← cellOf ep.key
  let u ← carryOut (c.update (.interim ep) (← get).config.debug)
  let epoch ← nextEpoch
  modify (·.modifyCell c.id (·.suspend ⟨epoch, k, observed⟩))
  modify (afterUpdate c u)
  registerDependers (.cell c.id) epoch observed

/-- Gives back the breakdown of the update, which nothing stops on its way out of the store. -/
def contributeTo (c : Cell E V K) (p : Contribution E V) : Op E V C K (Option Crash) := do
  match p.applied c.status with
  | .error crash => return some crash
  | .ok new =>
    let u ← carryOut (c.updateWith (fun _ => new.map .interim) (← get).config.debug)
    modify (afterUpdate c u)
    return none

/-- Kinds that are computed lazily take no contributions. -/
def contribute (p : Contribution E V) : Op E V C K (Option Crash) := do
  if ((← get).phase.lazyFor p.key.kind).isSome then
    throw (.partialOnLazyKind (toString p.key) p.key.kind.name)
  let c ← cellOf p.key
  contributeTo c p

def addCollaborator (susp : Suspension E V K) : Op E V C K Nat := do
  let (added, table) := (← get).table.addCollaborator susp
  modify ({ · with table })
  match added with
  | .ok id => return id
  | .error e => throw e

def collaborate (dependees : List (Status E V)) (k : K) : Op E V C K Unit := do
  checkSuspension "collaborative continuation" none dependees
  let observed ← observe dependees
  let epoch ← nextEpoch
  let id ← addCollaborator ⟨epoch, k, observed⟩
  registerDependers (.collaborator id) epoch observed

def perform : Action E V C K → Op E V C K (Option Crash)
  | .install ep => unbroken (installFinal ep)
  | .suspend ep dependees k => unbroken (suspend ep dependees k)
  | .contribute p => contribute p
  | .collaborate dependees k => unbroken (collaborate dependees k)
  | .schedule c e => unbroken (modify (·.schedule "incremental" c e))

def performAll : List (Action E V C K) → Op E V C K (Option Crash)
  | [] => return none
  | a :: rest => do
    match ← perform a with
    | some crash => return some crash
    | none => performAll rest

def handle (r : Result E V C K) : Op E V C K (Option Crash) := performAll r.actions

end Blackboard.Store
