import Blackboard.Analysis.Element
import Blackboard.Schema
import Blackboard.SortedSet
/-!
The properties that analyses derive. A fact may only follow one of its own sort: purity gets more
precise, sets grow, levels rise, labels are extended.
-/
namespace Blackboard

inductive Purity where
  | pure | sideEffectFree | impure
deriving DecidableEq, Repr

namespace Purity

def rank : Purity → Nat
  | pure => 0
  | sideEffectFree => 1
  | impure => 2

def text : Purity → String
  | pure => "Pure"
  | sideEffectFree => "SideEffectFree"
  | impure => "Impure"

def worse (a b : Purity) : Purity := if a.rank ≤ b.rank then b else a

end Purity

inductive FactSort where
  | purity | callers | types | answer | level | shadow | label
deriving DecidableEq, Repr

inductive Fact where
  | purity (p : Purity)
  | callers (numbers : SortedSet Nat)
  | types (numbers : SortedSet Nat)
  | answer (n : UInt32)
  | level (n : Int64)
  | shadow (n : UInt32)
  | label (s : String)
deriving DecidableEq

/-- Answers and shadows are different sorts of one kind. -/
def FactSort.kind : FactSort → Kind
  | purity => ⟨0, "Purity"⟩
  | callers => ⟨1, "Callers"⟩
  | types => ⟨2, "InstantiatedTypes"⟩
  | answer => ⟨3, "Answer"⟩
  | level => ⟨5, "Level"⟩
  | shadow => ⟨3, "Shadow"⟩
  | label => ⟨40, "Étiquette"⟩

namespace Fact

def sort : Fact → FactSort
  | purity _ => .purity
  | callers _ => .callers
  | types _ => .types
  | answer _ => .answer
  | level _ => .level
  | shadow _ => .shadow
  | label _ => .label

def kind (f : Fact) : Kind := f.sort.kind

def text : Fact → String
  | purity p => p.text
  | callers s => Text.tagged "Callers" [Text.braced (s.toList.map toString)]
  | types s => Text.tagged "InstantiatedTypes" [Text.braced (s.toList.map toString)]
  | answer n => Text.tagged "Answer" [toString n]
  | level n => Text.tagged "Level" [toString n]
  | shadow n => Text.tagged "Shadow" [toString n]
  | label s => Text.tagged "Label" [Text.quoted s]

instance : ToString Fact := ⟨text⟩

def refusal? : Fact → Fact → Option String
  | purity new, purity old =>
    if new.rank ≤ old.rank then none else some (new.text ++ " is less precise than " ++ old.text)
  | callers new, callers old => if old.subset new then none else some "callers were removed"
  | types new, types old => if old.subset new then none else some "types were removed"
  | answer _, answer _ => none
  | level new, level old =>
    if old ≤ new then none else some ("level fell from " ++ toString old ++ " to " ++ toString new)
  | shadow _, shadow _ => none
  | label new, label old =>
    if old.toList.isPrefixOf new.toList then none
    else some (Text.quoted new ++ " does not extend " ++ Text.quoted old)
  | new, old => some (new.text ++ " cannot succeed a value of kind " ++ old.kind.name)

instance : Property Fact := ⟨kind, refusal?⟩

def ofNumber (n : Nat) : FactSort → Fact
  | .purity => purity (if n % 3 = 0 then .pure else if n % 3 = 1 then .sideEffectFree else .impure)
  | .callers => callers (.ofList [n])
  | .types => types (.ofList [n])
  | .answer => answer (.ofNat n)
  | .level => level (.ofNat n)
  | .shadow => shadow (.ofNat n)
  | .label => label (toString n)

/-- A fact made from two bounds of one sort: a pure upper bound gives up no more than it has to,
sets are united, numbers added and labels joined. -/
def merge : Fact → Fact → Option Fact
  | purity lower, purity upper => some (purity (if upper = .pure then .sideEffectFree else lower))
  | callers lower, callers upper => some (callers (lower.union upper))
  | types lower, types upper => some (types (lower.union upper))
  | answer lower, answer upper => some (answer (lower + upper))
  | level lower, level upper => some (level (lower + upper))
  | shadow lower, shadow upper => some (shadow (lower + upper))
  | label lower, label upper => some (label (lower ++ upper))
  | _, _ => none

def mergeOf (sort : FactSort) (lower upper : Fact) : Option Fact :=
  if lower.sort = sort then merge lower upper else none

def callers? : Fact → Option (SortedSet Nat)
  | callers s => some s
  | _ => none

def types? : Fact → Option (SortedSet Nat)
  | types s => some s
  | _ => none

def purity? : Fact → Option Purity
  | purity p => some p
  | _ => none

def level? : Fact → Option Int64
  | level n => some n
  | _ => none

end Fact

/-- Every sort under its kind, one sort a kind, by ascending id. -/
def catalogue : List Kind :=
  [FactSort.purity, .callers, .types, .answer, .level, .label].map (·.kind)

inductive FallbackRule where
  | fixed (f : Fact)
  | byReason (notComputed notDerived : Fact)
  /-- Made from the entity's number, or the one after it if no value was derived. -/
  | byEntity (sort : FactSort)
deriving DecidableEq

namespace FallbackRule

def kind : FallbackRule → Kind
  | fixed f => f.kind
  | byReason f _ => f.kind
  | byEntity sort => sort.kind

def apply : FallbackRule → Reason → Element → Fact
  | fixed f, _, _ => f
  | byReason f _, .notComputed, _ => f
  | byReason _ f, .notDerived, _ => f
  | byEntity sort, .notComputed, e => .ofNumber e.number sort
  | byEntity sort, .notDerived, e => .ofNumber ((e.number + 1) % Nat.pow 2 32) sort

def info (rule : FallbackRule) (resolution : Resolution Fact) : KindInfo Element Fact :=
  ⟨rule.kind, rule.apply, resolution⟩

end FallbackRule
end Blackboard
