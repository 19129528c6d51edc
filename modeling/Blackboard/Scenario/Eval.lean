import Blackboard.Scenario.Body
/-! Running steps and bodies against a store. -/
namespace Blackboard.Scenario

abbrev Run := ExceptT Crash (StateT Memory (Script Element Fact String))

namespace Run

def ask (c : Call Element Fact String) : Run c.Answer :=
  ExceptT.lift (StateT.lift (.ask c))

def lift {α : Type} (r : Analysis.Run String α) : Run α := ExceptT.mk (StateT.lift r.run)

def note (n : Note) : Run Unit := modify fun mem => { mem with notes := mem.notes.push n }

end Run

instance : Stamping Run := ⟨Run.ask .stamp⟩

open Run

def holds (f : Frame) : Condition → Run Bool
  | .is t name => return t.holds (← f.lookUp name)
  | .equals b name v => do
    let s ← f.lookUp name
    let v ← f.value v
    return decide (b.of s = some v.value)
  | .known k => do ask (.isKnown (← f.key k))
  | .not c => return !(← holds f c)

def dumpOf : List Kind → Run (List (Status Element Fact))
  | [] => return []
  | k :: rest => do
    let first ← ask (.ofKind k)
    return first ++ (← dumpOf rest)

mutual

def resultOf (f : Frame) : Return → Run (Result Element Fact String Rest)
  | .nothing => return .nothing
  | .final k v => return .final ⟨← f.key k, ← f.value v⟩
  | .finals eps => return .finals (← f.finals eps)
  | .interim k lower upper dependees next => do
    let ep := ⟨← f.key k, ← f.value lower, ← f.value upper⟩
    return .interim ep (← f.statuses dependees) ⟨f, next⟩
  | .contribution k c => do
    let key ← f.key k
    let update ← f.change key c
    return .contribution ⟨key, fun s => .ok (update s)⟩
  | .collaboration cs dependees next => do
    let cs ← f.contributions cs
    return .collaboration cs (← f.statuses dependees) ⟨f, next⟩
  | .incremental r next => do
    let r ← resultOf f r
    let es ← f.entities (next.map (·.2))
    return .incremental r ((next.map (·.1)).zip es)
  | .several rs => return .several (← resultsOf f rs)

def resultsOf (f : Frame) : List Return → Run (List (Result Element Fact String Rest))
  | [] => return []
  | r :: rest => do
    let first ← resultOf f r
    return first :: (← resultsOf f rest)

end

def bindRead (f : Frame) (into : Option String) (r : Except Error (Status Element Fact)) : Frame :=
  match into, r with
  | some name, .ok s => f.bind name s
  | _, _ => f

/-- Waiting inside a program would never end. -/
def Step.run (f : Frame) : Step → Run (Answer × Frame)
  | registerKind rule => return (.done (← ask (.registerKind rule.info)), f)
  | setupPhase computed delayed =>
    return (.done (← ask (.setupPhase (computed.map (·.kind)) (delayed.map (·.kind)))), f)
  | lazy sort program => return (.done (← ask (.registerLazy sort.kind program)), f)
  | triggered sort program => return (.done (← ask (.registerTriggered sort.kind program)), f)
  | eager es program => return (.done (← ask (.scheduleEager (← f.entities es) program)), f)
  | eagerOne e program => return (.done (← ask (.scheduleEager [← f.entity e] program)), f)
  | set k v => do
    let key ← f.key k
    let value ← f.value v
    return (.done (← ask (.setFinal ⟨key, value⟩)), f)
  | get k into | apply k into => do
    let r ← ask (.query (← f.key k))
    return (.status r, bindRead f into r)
  | force k => return (.done (← ask (.force (← f.key k))), f)
  | hasProperty k => return (.truth (← ask (.hasProperty (← f.key k))), f)
  | isKnown k => return (.truth (← ask (.isKnown (← f.key k))), f)
  | entities sort => return (.statuses (← ask (.ofKind sort.kind)), f)
  | finalEntities sort => return (.statuses ((← ask (.finalsOfKind sort.kind)).map .final), f)
  | entitiesWith v => return (.elements (← ask (.entitiesWith (← f.value v).value)), f)
  | properties e => return (.statuses (← ask (.properties (← f.entity e))), f)
  | wait _ _ => throw (.text "wait inside a program")
  | shutdown => do
    ask .shutdown
    return (.done (.ok ()), f)
  | isShutdown => return (.truth (← ask .isShutdown), f)
  | stats => return (.statistics (← ask .statistics), f)
  | config => return (.config (← ask .config) (← ask .isTraced), f)
  | alloc name v => do
    let value ← f.value v
    return (.text (toString value), f.share name value)
  | describe ret => do
    let r ← resultOf f ret
    return (.result r.name r.text, f)
  | panic crash => throw crash
  | dump => return (.statuses (← dumpOf catalogue), f)
  | logLength => return (.length (← ask .events).length, f)
  | logDrain => return (.count (← ask .drainEvents).length, f)
  | logRecords => return (.records (← ask .events), f)

def runSteps (f : Frame) : List Step → Run Frame
  | [] => return f
  | s :: rest => do
    let (answer, f) ← s.run f
    note (.step s.name answer)
    runSteps f rest

def callDepth : Nat := 1000

mutual

def eval (callee : String → Frame → Run (Result Element Fact String Rest)) (f : Frame) :
    Body → Run (Result Element Fact String Rest)
  | .call name => callee name f
  | .bySelf cases otherwise => evalCases callee f cases (eval callee f otherwise)
  | .ite c yes no => do
    if ← holds f c then eval callee f yes else eval callee f no
  | .callGraph graph useUpper =>
    lift (Analysis.callGraph f.entity graph useUpper f.self ⟨f, .callGraph graph useUpper⟩)
  | .reach graph => lift (Analysis.reach f.entity graph f.self ⟨f, .reach graph⟩)
  | .next steps body => do
    let f ← runSteps f steps
    eval callee f body
  | .ret steps r => do
    let f ← runSteps f steps
    resultOf f r

def evalCases (callee : String → Frame → Run (Result Element Fact String Rest)) (f : Frame) :
    List (EntityTerm × Body) → Run (Result Element Fact String Rest) →
      Run (Result Element Fact String Rest)
  | [], otherwise => otherwise
  | (e, body) :: rest, otherwise => do
    if (← f.entity e) = f.self then eval callee f body else evalCases callee f rest otherwise

end

def call (programs : Programs) : Nat → String → Frame → Run (Result Element Fact String Rest)
  | 0, _, _ => throw (.text "call depth exceeded")
  | depth + 1, name, f =>
    match programs.lookup name with
    | some body => eval (call programs depth) f body
    | none => throw (.text ("unknown program " ++ name))

def runBudget : Nat := 300

def countStart : Run Unit := do
  modify fun mem => { mem with starts := mem.starts + 1 }
  if (← MonadState.get).starts > runBudget then throw (.text "run budget exhausted")

def client (programs : Programs) : Client Element Fact String Rest Memory where
  start program e memory := (do
    countStart
    note (.run program e)
    call programs callDepth program (.initial e) : Run _).run.run memory
  resume rest update memory := (do
    countStart
    note (.resume update rest.frame.self)
    eval (call programs callDepth) (rest.frame.bind updateVariable update) rest.body :
      Run _).run.run memory

end Blackboard.Scenario
