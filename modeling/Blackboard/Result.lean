import Blackboard.Status
/-!
What a computation hands back to the store. Computations never block: one that needs values which
are not final yet names what it waits for together with a continuation, and is resumed when one of
those dependees changes.
-/
namespace Blackboard

/-- How a client's code breaks down: with a text, or with something else. -/
inductive Crash where
  | text (s : String)
  | other
deriving DecidableEq, Repr

def Crash.message : Crash → String
  | text s => s
  | other => "computation panicked"

/-- A contribution to a value that several computations share; `none` means no change. The update
runs while the result is handled, and may break down then. -/
structure Contribution (E V : Type) where
  key : Key E
  update : Status E V → Except Crash (Option (Interim E V))

/-- What is made of the present value. A final one is refused without asking. -/
def Contribution.applied {E V : Type} (p : Contribution E V) (current : Status E V) :
    Except Crash (Option (Interim E V)) :=
  if current.isFinal then .ok none else p.update current

/-- `C` names computations and `K` continuations. -/
inductive Result (E V C K : Type) where
  | nothing
  | final (ep : Final E V)
  | finals (eps : List (Final E V))
  | interim (ep : Interim E V) (dependees : List (Status E V)) (continuation : K)
  | contribution (c : Contribution E V)
  /-- Contributions to shared values and a continuation that belongs to no key. -/
  | collaboration (contributions : List (Contribution E V)) (dependees : List (Status E V))
      (continuation : K)
  /-- A result with computations to run next. -/
  | incremental (result : Result E V C K) (next : List (C × E))
  | several (results : List (Result E V C K))

inductive Action (E V C K : Type) where
  | install (ep : Final E V)
  | suspend (ep : Interim E V) (dependees : List (Status E V)) (continuation : K)
  | contribute (c : Contribution E V)
  | collaborate (dependees : List (Status E V)) (continuation : K)
  | schedule (computation : C) (entity : E)

namespace Result
variable {E V C K : Type}

def name : Result E V C K → String
  | nothing => "NoResult"
  | final _ => "Result"
  | finals _ => "MultiResult"
  | interim .. => "InterimResult"
  | contribution _ => "PartialResult"
  | collaboration .. => "InterimPartialResult"
  | incremental .. => "IncrementalResult"
  | several _ => "Results"

mutual

def actions : Result E V C K → List (Action E V C K)
  | nothing => []
  | final ep => [.install ep]
  | finals eps => eps.map .install
  | interim ep dependees k => [.suspend ep dependees k]
  | contribution c => [.contribute c]
  | collaboration cs dependees k => cs.map .contribute ++ [.collaborate dependees k]
  | incremental result next => result.actions ++ next.map fun n => .schedule n.1 n.2
  | several results => actionsOf results

def actionsOf : List (Result E V C K) → List (Action E V C K)
  | [] => []
  | r :: rest => r.actions ++ actionsOf rest

end

section
variable [ToString E] [ToString V]

mutual

def text : Result E V C K → String
  | nothing => "NoResult"
  | final ep => Text.tagged "Result" [(Status.final ep).text]
  | finals eps => Text.tagged "MultiResult" [toString eps.length ++ " values"]
  | interim ep dependees _ =>
    Text.tagged "InterimResult" [(Status.interim ep).text,
      toString dependees.length ++ " dependees"]
  | contribution c => Text.tagged "PartialResult" [toString c.key]
  | collaboration cs dependees _ =>
    Text.tagged "InterimPartialResult"
      [toString cs.length ++ " partials", toString dependees.length ++ " dependees"]
  | incremental result next =>
    Text.tagged "IncrementalResult" [result.text, toString next.length ++ " next"]
  | several results => Text.tagged "Results" [Text.listing (texts results)]

def texts : List (Result E V C K) → List String
  | [] => []
  | r :: rest => r.text :: texts rest

end

end

end Result
end Blackboard
