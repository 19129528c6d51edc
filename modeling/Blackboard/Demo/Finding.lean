import Blackboard.Analysis.Element
import Blackboard.Schema
import Blackboard.SortedSet
/-! What the demonstration finds out about a program. -/
namespace Blackboard.Demo

inductive Verdict where
  | pure | impure
deriving DecidableEq, Repr

def Verdict.text : Verdict → String
  | pure => "Pure"
  | impure => "Impure"

inductive Finding where
  | purity (v : Verdict)
  | callers (methods : SortedSet Nat)
  | types (names : SortedSet String)
deriving DecidableEq

def purityKind : Kind := ⟨0, "Purity"⟩
def callersKind : Kind := ⟨1, "Callers"⟩
def typesKind : Kind := ⟨2, "InstantiatedTypes"⟩

namespace Finding

def kind : Finding → Kind
  | purity _ => purityKind
  | callers _ => callersKind
  | types _ => typesKind

def numbersText (s : SortedSet Nat) : String := Text.braced (s.toList.map toString)
def namesText (s : SortedSet String) : String := Text.braced (s.toList.map Text.quoted)

def text : Finding → String
  | purity v => v.text
  | callers s => Text.tagged "Callers" [numbersText s]
  | types s => Text.tagged "InstantiatedTypes" [namesText s]

instance : ToString Finding := ⟨text⟩

def refusal? : Finding → Finding → Option String
  | purity new, purity old =>
    if new = .impure ∧ old = .pure then some (new.text ++ " cannot follow " ++ old.text) else none
  | callers new, callers old => if old.subset new then none else some "callers were removed"
  | types new, types old => if old.subset new then none else some "types were removed"
  | new, old => some (new.text ++ " cannot succeed a value of kind " ++ old.kind.name)

instance : Property Finding := ⟨kind, refusal?⟩

def purity? : Finding → Option Verdict
  | purity v => some v
  | _ => none

def callers? : Finding → Option (SortedSet Nat)
  | callers s => some s
  | _ => none

def types? : Finding → Option (SortedSet String)
  | types s => some s
  | _ => none

end Finding
end Blackboard.Demo
