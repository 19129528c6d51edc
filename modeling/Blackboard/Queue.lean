/-!
The queue of tasks and the worker that empties it. Tasks run one at a time, first come first served.
Whenever the queue runs dry the state is asked to settle what cannot change any more; the worker
stops once that changes nothing, or once the queue is halted.
-/
namespace Blackboard

/-- A halted queue drops its tasks instead of running them; a closed one also takes no new ones. -/
structure Queue (T : Type) where
  waiting : List T
  halted : Bool
  closed : Bool

namespace Queue
variable {T : Type}

def empty : Queue T := ⟨[], false, false⟩

def pending (q : Queue T) : Nat := q.waiting.length

def push (q : Queue T) (task : T) : Queue T :=
  if q.closed then q else { q with waiting := q.waiting ++ [task] }

def halt (q : Queue T) : Queue T := { q with halted := true }
def close (_ : Queue T) : Queue T := ⟨[], true, true⟩
def drop (q : Queue T) : Queue T := { q with waiting := [] }

end Queue

/-- How a worker acts on a state of type `S` that holds its queue. `settle` tells whether it changed
anything. -/
structure Worker (T S : Type) where
  isLost : S → Bool
  queue : S → Queue T
  setQueue : S → Queue T → S
  execute : T → S → S
  settle : S → Bool × S

namespace Worker
variable {T S : Type}

/-- One turn; the flag tells whether there may be another one. A worker that was lost leaves a task
unfinished, so that the queue never runs dry and nothing ever stops. -/
def turn (w : Worker T S) (s : S) : Bool × S :=
  let q := w.queue s
  if w.isLost s then (true, s)
  else if q.halted then (false, w.setQueue s q.drop)
  else match q.waiting with
    | task :: rest => (true, w.execute task (w.setQueue s { q with waiting := rest }))
    | [] =>
      let (changed, s) := w.settle s
      (changed || (w.queue s).halted, s)

def run (w : Worker T S) : Nat → S → Option S
  | 0, _ => none
  | fuel + 1, s =>
    match w.turn s with
    | (true, s) => w.run fuel s
    | (false, s) => some s

end Worker
end Blackboard
