import Blackboard.Scenario.Eval
import Blackboard.Store.Run
/-! Playing a scenario: a store is made as described, and steps are taken one after the other. -/
namespace Blackboard.Scenario

structure Setup where
  store : Store Element Fact String Rest
  kinds : List KindRule
  programs : Programs
  steps : List Step

structure Report where
  answer : Answer
  notes : List Note
  records : List (Record Element Fact)
  notices : List (Notice Element Fact)

structure Session where
  world : World Element Fact String Rest Memory
  frame : Frame
  /-- Records from here on have not been reported. -/
  nextRecord : Nat

def defaultKinds : List KindRule :=
  [⟨.byReason (.purity .sideEffectFree) (.purity .impure), .lower⟩,
    ⟨.fixed (.callers ∅), .lower⟩,
    ⟨.fixed (.types ∅), .lower⟩,
    ⟨.byReason (.answer 1) (.answer 0), .lower⟩,
    ⟨.fixed (.level 0), .lower⟩,
    ⟨.byEntity .label, .lower⟩]

/-- More turns than any phase takes that stays within the run budget. -/
def patience : Nat := 1000000

namespace Session

def start (setup : Setup) : Session :=
  let store :=
    setup.kinds.foldl (fun s rule => (s.answer (Store.registerKind rule.info)).2) setup.store
  ⟨{ store, memory := ⟨0, #[]⟩ }, .initial .project, 0⟩

def take (programs : Programs) (s : Session) (step : Step) : Answer × Session :=
  match step with
  | .wait cycles fallbacks =>
    match s.world.wait (client programs) patience cycles fallbacks with
    | some (r, world) => (.done r, { s with world })
    | none => (.crashed, s)
  | step =>
    let ((r, memory), store) := ((step.run s.frame).run.run s.world.memory).run s.world.store
    match r with
    | .ok (answer, frame) => (answer, { s with world := { s.world with store, memory }, frame })
    | .error _ => (.crashed, { s with world := { s.world with store, memory } })

def report (answer : Answer) (s : Session) : Report × Session :=
  let store := s.world.store
  let records := store.records.filter (s.nextRecord ≤ ·.seq)
  let next := records.foldl (fun n r => max n (r.seq + 1)) s.nextRecord
  (⟨answer, s.world.memory.notes.toList, records, store.notices.toList⟩,
    { s with
      world := { s.world with
        store := { store with notices := #[] }, memory := { s.world.memory with notes := #[] } }
      nextRecord := next })

def takeAll (programs : Programs) : List Step → Session → List Report × Session
  | [], s => ([], s)
  | step :: rest, s =>
    let (answer, s) := s.take programs step
    let (first, s) := s.report answer
    let (others, s) := takeAll programs rest s
    (first :: others, s)

def dump (s : Session) : List (Status Element Fact) := catalogue.flatMap s.world.store.ofKind

end Session

def Setup.play (setup : Setup) : List Report × Session :=
  Session.takeAll setup.programs setup.steps (.start setup)

end Blackboard.Scenario
