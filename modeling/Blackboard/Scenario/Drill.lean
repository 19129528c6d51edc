import Blackboard.Queue
/-!
Drills for the queue: tasks are known by their keys and do nothing but push others, halt the queue
or close it. What happened is kept in order.
-/
namespace Blackboard.Scenario

inductive Happening where
  | ran (key : String)
  /-- The queue did not take a task. -/
  | refused (key : String)
  | quiescent (pending : Nat)
deriving DecidableEq, Repr

inductive Round where
  | push (keys : List String)
  | halt
deriving DecidableEq, Repr

structure Drill where
  /-- What a task pushes the first time it runs. -/
  children : List (String × List String)
  haltOn : Option String
  closeOn : Option String

structure Drill.State where
  queue : Queue String
  rounds : List Round
  ran : List String
  happened : Array Happening

namespace Drill.State

def note (s : State) (h : Happening) : State := { s with happened := s.happened.push h }

def offer (s : State) (key : String) : State :=
  if s.queue.closed then s.note (.refused key) else { s with queue := s.queue.push key }

def spawn (children : List String) (key : String) (s : State) : State :=
  if s.ran.contains key then s else children.foldl offer { s with ran := key :: s.ran }

def haltIf (b : Bool) (s : State) : State := if b then { s with queue := s.queue.halt } else s
def closeIf (b : Bool) (s : State) : State := if b then { s with queue := s.queue.close } else s

end Drill.State

namespace Drill

def worker (d : Drill) : Worker String State where
  isLost _ := false
  queue s := s.queue
  setQueue s queue := { s with queue }
  execute key s :=
    (s.note (.ran key)).spawn ((d.children.lookup key).getD []) key
      |>.haltIf (d.haltOn == some key) |>.closeIf (d.closeOn == some key)
  settle s :=
    let s := s.note (.quiescent s.queue.pending)
    match s.rounds with
    | [] => (false, s)
    | .push keys :: rest => (true, keys.foldl State.offer { s with rounds := rest })
    | .halt :: rest => (true, { s with rounds := rest }.haltIf true)

/-- More turns than any drill takes: a task spawns only once. -/
def patience : Nat := 1000000

def run (d : Drill) (rounds : List Round) (q : Queue String) :
    Option (List Happening × Queue String) :=
  (d.worker.run patience ⟨q, rounds, [], #[]⟩).map fun s => (s.happened.toList, s.queue)

end Drill
end Blackboard.Scenario
