import Blackboard.Demo.Finding
import Blackboard.Store.Run
/-!
The analyses of the demonstration: which methods are pure, who calls them, and which types a program
makes. A method is impure if it writes a global variable or calls an impure method; a cycle of calls
without such writes is pure.
-/
namespace Blackboard.Demo

structure Method where
  name : String
  calls : List Nat
  writesGlobal : Bool
  allocates : List String

abbrev Program := List Method

inductive Computation where
  | purity
  | recordCalls
  | forcePurity
deriving DecidableEq, Repr

structure Again where
  entity : Element

abbrev Known := Status Element Finding
abbrev Outcome := Result Element Finding Computation Again
abbrev Run := Script Element Finding Computation

def purityKey (m : Nat) : Key Element := ⟨.method m, purityKind⟩

def finalPurity? (s : Known) : Option Verdict := s.final?.bind (·.value.value.purity?)
def upperPurity? (s : Known) : Option Verdict := s.upper?.bind (·.value.purity?)

/-- What the callees say: nothing if one cannot be asked, `none` if one is or may be impure, and
else those that are not final. -/
def askCallees : List Nat → List Known → Run (Option (Option (List Known)))
  | [], unsettled => return some (some unsettled.reverse)
  | m :: rest, unsettled => do
    match ← Script.ask (.query (purityKey m)) with
    | .error _ => return none
    | .ok s =>
      match finalPurity? s with
      | some .impure => return some none
      | some .pure => askCallees rest unsettled
      | none =>
        if upperPurity? s = some .impure then return some none else askCallees rest (s :: unsettled)

def stamped (f : Finding) : Run (Stamped Finding) := return ⟨← Script.ask .stamp, f⟩

def verdict (m : Nat) (v : Verdict) : Run Outcome :=
  return .final ⟨purityKey m, ← stamped (.purity v)⟩

def purity (m : Nat) (method : Method) : Run Outcome := do
  if method.writesGlobal then return ← verdict m .impure
  match ← askCallees method.calls [] with
  | none => return .nothing
  | some none => verdict m .impure
  | some (some []) => verdict m .pure
  | some (some dependees) =>
    let lower ← stamped (.purity .impure)
    let upper ← stamped (.purity .pure)
    return .interim ⟨purityKey m, lower, upper⟩ dependees ⟨.method m⟩

def addCaller (m callee : Nat) : Run Outcome := do
  let stamp ← Script.ask .stamp
  let key : Key Element := ⟨.method callee, callersKind⟩
  return .contribution ⟨key, fun s =>
    let before := (s.lower?.bind (·.value.callers?)).getD ∅
    .ok (if m ∈ before then none else some (.ofValue key ⟨stamp, .callers (before.insert m)⟩))⟩

def addTypes (names : List String) : Run Outcome := do
  let stamp ← Script.ask .stamp
  let key : Key Element := ⟨.project, typesKind⟩
  return .contribution ⟨key, fun s =>
    let before := (s.lower?.bind (·.value.types?)).getD ∅
    let after := before.insertMany names
    .ok (if after.size > before.size then some (.ofValue key ⟨stamp, .types after⟩) else none)⟩

def addCallers (m : Nat) : List Nat → Run (List Outcome)
  | [] => return []
  | callee :: rest => do
    let first ← addCaller m callee
    return first :: (← addCallers m rest)

def recordCalls (m : Nat) (method : Method) : Run Outcome := do
  let callers ← addCallers m method.calls
  if method.allocates.isEmpty then return .several callers
  return .several (callers ++ [← addTypes method.allocates])

/-- Analyses a method; nothing else is analysed. A number that the program has no method for breaks
the analysis down. -/
def analyse (program : Program) (analysis : Nat → Method → Run Outcome) :
    Element → Run (Except Crash Outcome)
  | .method m =>
    match program[m]? with
    | some method => return .ok (← analysis m method)
    | none => return .error (.text ("index out of bounds: the len is " ++ toString program.length ++
        " but the index is " ++ toString m))
  | _ => return .ok .nothing

def forcePurity (e : Element) : Run (Except Crash Outcome) := do
  let _ ← Script.ask (.force ⟨e, purityKind⟩)
  return .ok .nothing

def client (program : Program) : Client Element Finding Computation Again Unit where
  start c e _ := do
    let outcome ← match c with
      | .purity => analyse program purity e
      | .recordCalls => analyse program recordCalls e
      | .forcePurity => forcePurity e
    return (outcome, ())
  resume again _ _ := return (← analyse program purity again.entity, ())

end Blackboard.Demo
