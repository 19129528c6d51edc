import Blackboard.Analysis.Fact
import Blackboard.Script
/-!
Two analyses of graphs: the purity of methods by what they call, and the numbers an element reaches.
Both read the elements next to their own, wait for those that are not final, and start over when one
of them changes. `again` names the continuation that starts over. Nodes stand for elements by
`name`, which is asked only when a node's turn comes, and may crash.
-/
namespace Blackboard.Analysis
variable {C K N : Type}

abbrev Run (C : Type) := ExceptT Crash (Script Element Fact C)

def ask (c : Call Element Fact C) : Run C c.Answer := ExceptT.lift (.ask c)

def liftExcept {α : Type} (r : Except Crash α) : Run C α := ExceptT.mk (pure r)

/-- What is known about an element; a question that fails is a crash. -/
def read (sort : FactSort) (e : Element) : Run C (Status Element Fact) := do
  match ← ask (.query ⟨e, sort.kind⟩) with
  | .ok status => return status
  | .error error => throw (.text error.message)

def readAll (name : N → Except Crash Element) (sort : FactSort) :
    List N → Run C (List (Status Element Fact))
  | [] => return []
  | n :: rest => do
    let status ← read sort (← liftExcept (name n))
    return status :: (← readAll name sort rest)

def find? {α : Type} (name : N → Except Crash Element) (self : Element) :
    List (N × α) → Except Crash (Option α)
  | [] => .ok none
  | (n, a) :: rest => do
    if (← name n) = self then return some a else find? name self rest

def finalPurity? (s : Status Element Fact) : Option Purity := s.final?.bind (·.value.value.purity?)

def upperPurity (s : Status Element Fact) : Purity :=
  ((s.upper?).bind (·.value.purity?)).getD .pure

def weigh (useUpper : Bool) (worst : Purity) (callee : Status Element Fact) : Purity :=
  match finalPurity? callee with
  | some p => worst.worse p
  | none => if useUpper then worst.worse (upperPurity callee) else worst

/-- A method is as impure as itself and all that it calls. With `useUpper`, what is known about a
callee that is not final counts as well. -/
def callGraph (name : N → Except Crash Element) (graph : List (N × List N × Purity))
    (useUpper : Bool) (self : Element) (again : K) : Run C (Result Element Fact C K) := do
  match ← liftExcept (find? name self graph) with
  | none => return .nothing
  | some (callees, own) =>
    let read ← readAll name .purity callees
    let worst := read.foldl (weigh useUpper) own
    let dependees := read.filter fun s => (finalPurity? s).isNone
    let key := ⟨self, FactSort.purity.kind⟩
    if worst = .impure || dependees.isEmpty then
      return .final ⟨key, ⟨← ask .stamp, .purity worst⟩⟩
    else
      let lower : Stamped Fact := ⟨← ask .stamp, .purity .impure⟩
      let upper : Stamped Fact := ⟨← ask .stamp, .purity worst⟩
      return .interim ⟨key, lower, upper⟩ dependees again

def lowerNumbers (s : Status Element Fact) : SortedSet Nat :=
  ((s.lower?).bind (·.value.callers?)).getD ∅

def reach (name : N → Except Crash Element) (graph : List (N × List N × List Nat)) (self : Element)
    (again : K) : Run C (Result Element Fact C K) := do
  match ← liftExcept (find? name self graph) with
  | none => return .nothing
  | some (successors, own) =>
    let read ← readAll name .callers successors
    let numbers := read.foldl (fun s r => s.union (lowerNumbers r)) (SortedSet.ofList own)
    let dependees := read.filter (·.isRefinable)
    let key := ⟨self, FactSort.callers.kind⟩
    let value : Stamped Fact := ⟨← ask .stamp, .callers numbers⟩
    if dependees.isEmpty then return .final ⟨key, value⟩
    else return .interim (.ofValue key value) dependees again

end Blackboard.Analysis
