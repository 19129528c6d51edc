/-! How a store works. -/
namespace Blackboard

structure Config where
  /-- Workers; 0 stands for one per core. -/
  threads : Nat := 0
  /-- Validate refinements, and reject dependencies on oneself and on final values. -/
  debug : Bool := true
  /-- Report every event as a notice. -/
  trace : Bool := false
  /-- How long an idle worker sleeps before it looks for work again, in milliseconds. -/
  idleWait : Nat := 10
deriving DecidableEq, Repr

namespace Config

def workers (c : Config) (cores : Nat) : Nat := if c.threads = 0 then max cores 1 else c.threads

def sleep (c : Config) : Nat := max c.idleWait 1

end Config
end Blackboard
