import Blackboard.Store.Handling
/-! Asking the store, and giving it values that are known from elsewhere. -/
namespace Blackboard.Store
variable {E V C K : Type} [DecidableEq E]

section
variable [DecidableEq V] [Property V] [ToString E] [ToString V]

def setFinal (ep : Final E V) : Op E V C K Unit := do
  checkRunning
  installFinal ep

/-- Makes the cell of a key that nobody computes, now or later, with its fallback. -/
def fallBackNow (info : KindInfo E V) (key : Key E) : Op E V C K Unit := do
  let reason := (← get).phase.reason key.kind
  let (c, created) ← getOrCreate key
  if created then
    let ep := info.fallbackFor reason (← freshStamp) key.entity
    modify (·.count fun n => { n with fallbacks := n.fallbacks + 1 })
    modify (·.trace (.fallback ep reason))
    let u ← carryOut (c.update (.final ep) false)
    modify (afterUpdate c u)

def askFor (key : Key E) : Op E V C K Unit := do
  let (_, created) ← getOrCreate key
  if created then
    match (← get).phase.lazyFor key.kind with
    | some c => modify (·.schedule "lazy" c key.entity)
    | none => return ()

def statusOf (s : Store E V C K) (key : Key E) : Status E V :=
  (s.table.find? key).elim (.unknown key) (·.status)

/-- What is known about a key. The first question schedules the lazy computation of its kind; a kind
that nobody computes answers its fallback. -/
def query (key : Key E) : Op E V C K (Status E V) := do
  checkRunning
  if ((← get).table.find? key).isNone then
    let info ← infoOf key.kind
    let phase := (← get).phase
    if phase.isComputed key.kind || phase.isDelayed key.kind then askFor key
    else fallBackNow info key
  return (← get).statusOf key

def force (key : Key E) : Op E V C K Unit := do
  modify (·.trace (.force key))
  discard (query key)

end

def hasProperty (s : Store E V C K) (key : Key E) : Bool :=
  (s.table.find? key).any (·.status.hasValue)
def isKnown (s : Store E V C K) (key : Key E) : Bool := (s.table.find? key).isSome

def ofKind (s : Store E V C K) (kind : Kind) : List (Status E V) :=
  (s.cells.filter (·.key.kind.same kind)).map (·.status)

def finalsOfKind (s : Store E V C K) (kind : Kind) : List (Final E V) :=
  (s.ofKind kind).filterMap (·.final?)

def entitiesWith [DecidableEq V] [Property V] (s : Store E V C K) (v : V) : List E :=
  ((s.finalsOfKind (Property.kind v)).filter (·.value.value = v)).map (·.key.entity)

def properties (s : Store E V C K) (e : E) : List (Status E V) :=
  ((s.cells.filter fun c => decide (c.key.entity = e)).map (·.status)).filter (·.hasValue)

end Blackboard.Store
