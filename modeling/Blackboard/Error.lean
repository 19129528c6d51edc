import Blackboard.Text.Quoted
import Blackboard.Text.Shape
/-! Everything that can go wrong, as causes, and their wording. -/
namespace Blackboard

inductive Error where
  | config (reason : String)
  | finalOverwritten (key : String)
  | nonMonotonic (key message : String)
  | dependerOnFinal (key depender : String)
  | interimWithoutDependees (key : String)
  | selfDependency (key : String)
  | finalDependee (key dependee : String)
  | lazyAlreadyRegistered (kind : String)
  | partialOnLazyKind (key kind : String)
  | unknownKind (name : String)
  | duplicateKind (id : Nat) (existing : String)
  | computationFailed (message : String)
  | shutdown
  | invariant (message : String)
deriving DecidableEq, Repr

namespace Error

def name : Error → String
  | config _ => "Config"
  | finalOverwritten _ => "FinalValueOverwritten"
  | nonMonotonic _ _ => "NonMonotonicUpdate"
  | dependerOnFinal _ _ => "DependerOnFinal"
  | interimWithoutDependees _ => "InterimResultWithoutDependees"
  | selfDependency _ => "SelfDependency"
  | finalDependee _ _ => "FinalDependee"
  | lazyAlreadyRegistered _ => "LazyComputationAlreadyRegistered"
  | partialOnLazyKind _ _ => "PartialResultOnLazyKind"
  | unknownKind _ => "UnknownPropertyKind"
  | duplicateKind _ _ => "DuplicatePropertyKind"
  | computationFailed _ => "ComputationFailed"
  | shutdown => "Shutdown"
  | invariant _ => "Invariant"

def message : Error → String
  | config reason => "Config error: " ++ reason
  | finalOverwritten key => "Final value of " ++ key ++ " cannot be overwritten"
  | nonMonotonic key why => "Non monotonic update of " ++ key ++ ": " ++ why
  | dependerOnFinal key depender => "Cannot add depender " ++ depender ++ " to final " ++ key
  | interimWithoutDependees key =>
    "Interim result for " ++ key ++ " has no dependees (use a partial result instead)"
  | selfDependency key => key ++ " depends on itself"
  | finalDependee key dependee =>
    key ++ " declares the final value " ++ dependee ++ " as a dependee"
  | lazyAlreadyRegistered kind => "A lazy computation is already registered for " ++ kind
  | partialOnLazyKind key kind =>
    "Partial result for " ++ key ++ ", but " ++ kind ++ " is computed lazily"
  | unknownKind kind => "Unknown property kind: " ++ kind
  | duplicateKind id existing =>
    "Property kind id " ++ toString id ++ " is already registered as " ++ existing
  | computationFailed why => "Computation failed: " ++ why
  | shutdown => "Property store has been shut down"
  | invariant why => "Internal invariant violated: " ++ why

instance : ToString Error := ⟨message⟩

def detail (e : Error) : String :=
  match e with
  | config why | unknownKind why | computationFailed why | invariant why =>
    Text.tagged e.name [Text.quoted why]
  | finalOverwritten key | interimWithoutDependees key | selfDependency key =>
    Text.record e.name [("epk", Text.quoted key)]
  | nonMonotonic key why =>
    Text.record e.name [("epk", Text.quoted key), ("message", Text.quoted why)]
  | dependerOnFinal key depender =>
    Text.record e.name [("epk", Text.quoted key), ("depender", Text.quoted depender)]
  | finalDependee key dependee =>
    Text.record e.name [("epk", Text.quoted key), ("dependee", Text.quoted dependee)]
  | lazyAlreadyRegistered kind => Text.record e.name [("kind", Text.quoted kind)]
  | partialOnLazyKind key kind =>
    Text.record e.name [("epk", Text.quoted key), ("kind", Text.quoted kind)]
  | duplicateKind id existing =>
    Text.record e.name [("id", toString id), ("existing", Text.quoted existing)]
  | shutdown => e.name

end Error
end Blackboard
