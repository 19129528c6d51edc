/-! Counters of what a store did. Like its epochs and stamps they are unbounded numbers: counters of
64 bits would differ from them only after 2^64 events, which no run reaches. -/
namespace Blackboard

structure Statistics where
  scheduledTasks : Nat := 0
  executedTasks : Nat := 0
  updates : Nat := 0
  notifications : Nat := 0
  fallbacks : Nat := 0
  resolvedCycles : Nat := 0
  resolvedInterims : Nat := 0
  quiescenceRounds : Nat := 0
deriving DecidableEq, Repr

def Statistics.fields (s : Statistics) : List (String × Nat) :=
  [("scheduled_tasks", s.scheduledTasks), ("executed_tasks", s.executedTasks),
    ("updates", s.updates), ("notifications", s.notifications), ("fallbacks", s.fallbacks),
    ("resolved_cycles", s.resolvedCycles), ("resolved_interims", s.resolvedInterims),
    ("quiescence_rounds", s.quiescenceRounds)]

end Blackboard
