import Blackboard.Demo.Purity
/-! The demonstration: a small program is analysed and the findings are reported line by line. -/
namespace Blackboard.Demo

abbrev DemoStore := Store Element Finding Computation Again
abbrev DemoOp := Op Element Finding Computation Again

def sample : Program :=
  [⟨"main", [1, 2], false, ["Config"]⟩,
    ⟨"parse", [3], false, ["Token", "Ast"]⟩,
    ⟨"report", [5], false, ["String"]⟩,
    ⟨"helper_a", [4], false, []⟩,
    ⟨"helper_b", [3], false, ["Token"]⟩,
    ⟨"log", [], true, ["String"]⟩,
    ⟨"unused", [], false, []⟩]

/-- A cycle without side effects is pure, so purity takes the upper bound. -/
def registerKinds : DemoOp Unit := do
  Store.registerKind ⟨purityKind, fun _ _ => .purity .impure, .upper⟩
  Store.registerKind ⟨callersKind, fun _ _ => .callers ∅, .lower⟩
  Store.registerKind ⟨typesKind, fun _ _ => .types ∅, .lower⟩

/-- Every method that is called gets analysed, and so does the first one. -/
def prepare (program : Program) : DemoOp Unit := do
  registerKinds
  Store.registerLazy purityKind .purity
  Store.registerTriggered callersKind .forcePurity
  Store.scheduleEager ((List.range program.length).map .method) .recordCalls
  Store.force (purityKey 0)

def methodLine (m : Nat) (method : Method) : DemoOp String := do
  let purity ← Store.query (purityKey m)
  let callers ← Store.query ⟨.method m, callersKind⟩
  let callers := callers.final?.bind (·.value.value.callers?)
  return "Analysed method=" ++ Text.quoted method.name ++
    " purity=" ++ Text.optional ((finalPurity? purity).map (·.text)) ++
    " callers=" ++ Text.optional (callers.map Finding.numbersText)

def methodLines : Nat → Program → DemoOp (List String)
  | _, [] => return []
  | m, method :: rest => do
    let first ← methodLine m method
    return first :: (← methodLines (m + 1) rest)

def findings (program : Program) : DemoOp (List String) := do
  let lines ← methodLines 0 program
  let types ← Store.query ⟨.project, typesKind⟩
  let types := types.final?.bind (·.value.value.types?)
  let pure := (← get).entitiesWith (.purity .pure)
  return lines ++
    ["Instantiated types=" ++ Text.optional (types.map Finding.namesText),
      "Pure methods pure=" ++ Text.listing (pure.map toString)]

/-- More turns than the analyses of the sample take. -/
def patience : Nat := 100000

def report (program : Program) (config : Config) (cores : Nat) :
    Except Error (List String × Statistics) := do
  let (prepared, store) := (Store.ofConfig config cores : DemoStore).answer (prepare program)
  prepared
  match (World.mk store () none).wait (client program) patience true true with
  | none => .error (.invariant "the analyses do not end")
  | some (waited, w) =>
    waited
    let (lines, store) := w.store.answer (findings program)
    return (← lines, store.stats)

end Blackboard.Demo
