import Blackboard.Analysis.Graph
/-!
Analyses written as data. Terms stand for entities, values and statuses; they are evaluated in a
frame, which knows the entity a computation was started for, the statuses it has read and the values
it shares.
-/
namespace Blackboard.Scenario

inductive EntityTerm where
  | lit (e : Element)
  /-- The entity the computation was started for. -/
  | self
  /-- The entity of the update that resumed the computation. -/
  | updated
deriving DecidableEq, Repr

structure KeyTerm where
  entity : EntityTerm
  sort : FactSort
deriving DecidableEq, Repr

inductive ValueTerm where
  /-- A new occurrence each time it is evaluated. -/
  | lit (f : Fact)
  | shared (name : String)
  | lower (name : String)
  | upper (name : String)
deriving DecidableEq

inductive StatusTerm where
  | var (name : String)
  | unknown (key : KeyTerm)
  | interim (key : KeyTerm) (lower upper : ValueTerm)
  | value (key : KeyTerm) (v : ValueTerm)
  | final (key : KeyTerm) (v : ValueTerm)
  /-- The same under the kind of the value, always with new occurrences. -/
  | ownInterim (entity : EntityTerm) (lower upper : ValueTerm)
  | ownValue (entity : EntityTerm) (v : ValueTerm)
  | ownFinal (entity : EntityTerm) (v : ValueTerm)
deriving DecidableEq

inductive ChangeTerm where
  | keep
  | addCallers (numbers : List Nat)
  | addTypes (numbers : List Nat)
  | raise (amount : Int64)
  | put (v : ValueTerm)
  | bounds (lower upper : ValueTerm)
  | putAt (key : KeyTerm) (v : ValueTerm)
deriving DecidableEq

inductive Trait where
  | unknown | interim | final | refinable | hasValue
deriving DecidableEq, Repr

inductive Bound where
  | lower | upper | final
deriving DecidableEq, Repr

inductive Condition where
  | is (t : Trait) (name : String)
  | equals (b : Bound) (name : String) (v : ValueTerm)
  | known (key : KeyTerm)
  | not (c : Condition)

def updateVariable : String := "$u"

structure Frame where
  self : Element
  known : List (String × Status Element Fact)
  shared : List (String × Stamped Fact)

namespace Frame

def initial (self : Element) : Frame := ⟨self, [], []⟩

def bind (f : Frame) (name : String) (s : Status Element Fact) : Frame :=
  { f with known := (name, s) :: f.known }

def share (f : Frame) (name : String) (v : Stamped Fact) : Frame :=
  { f with shared := (name, v) :: f.shared }

end Frame

class Stamping (m : Type → Type) where
  freshStamp : m Nat

variable {m : Type → Type} [Monad m] [MonadExceptOf Crash m]

def unbound {α : Type} (name : String) : m α := throw (.text ("unbound " ++ name))

namespace Frame

def lookUp (f : Frame) (name : String) : m (Status Element Fact) :=
  match f.known.lookup name with
  | some s => pure s
  | none => unbound name

def entity (f : Frame) : EntityTerm → m Element
  | .lit e => pure e
  | .self => pure f.self
  | .updated => return (← f.lookUp updateVariable).key.entity

def key (f : Frame) (k : KeyTerm) : m (Key Element) := return ⟨← f.entity k.entity, k.sort.kind⟩

def entities (f : Frame) : List EntityTerm → m (List Element)
  | [] => return []
  | e :: rest => do
    let e ← f.entity e
    return e :: (← f.entities rest)

variable [Stamping m]

def stamp (fact : Fact) : m (Stamped Fact) := return ⟨← Stamping.freshStamp, fact⟩

def value (f : Frame) : ValueTerm → m (Stamped Fact)
  | .lit fact => stamp fact
  | .shared name =>
    match f.shared.lookup name with
    | some v => pure v
    | none => unbound name
  | .lower name => do
    match (← f.lookUp name).lower? with
    | some v => return v
    | none => unbound name
  | .upper name => do
    match (← f.lookUp name).upper? with
    | some v => return v
    | none => unbound name

def status (f : Frame) : StatusTerm → m (Status Element Fact)
  | .var name => f.lookUp name
  | .unknown k => return .unknown (← f.key k)
  | .interim k lower upper => return .interim ⟨← f.key k, ← f.value lower, ← f.value upper⟩
  | .value k v => return .interim (.ofValue (← f.key k) (← f.value v))
  | .final k v => return .final ⟨← f.key k, ← f.value v⟩
  | .ownInterim e lower upper => do
    let e ← f.entity e
    let lower ← stamp (← f.value lower).value
    let upper ← stamp (← f.value upper).value
    return .interim ⟨⟨e, lower.value.kind⟩, lower, upper⟩
  | .ownValue e v => do
    let e ← f.entity e
    let v ← stamp (← f.value v).value
    return .interim (.ofValue ⟨e, v.value.kind⟩ v)
  | .ownFinal e v => do
    let e ← f.entity e
    let v ← stamp (← f.value v).value
    return .final ⟨⟨e, v.value.kind⟩, v⟩

def grow (set? : Fact → Option (SortedSet Nat)) (numbers : List Nat) (s : Status Element Fact) :
    Option (SortedSet Nat) :=
  let before := ((s.lower?).bind (set? ·.value)).getD ∅
  let after := before.insertMany numbers
  if after = before then none else some after

/-- The change as a function. A value it has to make is stamped in advance, so the function may be
used once. -/
def change (f : Frame) (key : Key Element) :
    ChangeTerm → m (Status Element Fact → Option (Interim Element Fact))
  | .keep => return fun _ => none
  | .addCallers numbers => do
    let stamp ← Stamping.freshStamp
    return fun s => (grow Fact.callers? numbers s).map fun n => .ofValue key ⟨stamp, .callers n⟩
  | .addTypes numbers => do
    let stamp ← Stamping.freshStamp
    return fun s => (grow Fact.types? numbers s).map fun n => .ofValue key ⟨stamp, .types n⟩
  | .raise n => do
    let stamp ← Stamping.freshStamp
    return fun s =>
      let before := ((s.upper?).bind (·.value.level?)).getD 0
      if n = 0 then none else some (.ofValue key ⟨stamp, .level (before + n)⟩)
  | .put v => do
    let v ← f.value v
    return fun _ => some (.ofValue key v)
  | .bounds lower upper => do
    let lower ← f.value lower
    let upper ← f.value upper
    return fun _ => some ⟨key, lower, upper⟩
  | .putAt other v => do
    let other ← f.key other
    let v ← f.value v
    return fun _ => some (.ofValue other v)

def statuses (f : Frame) : List StatusTerm → m (List (Status Element Fact))
  | [] => return []
  | s :: rest => do
    let status ← f.status s
    return status :: (← f.statuses rest)

def finals (f : Frame) : List (KeyTerm × ValueTerm) → m (List (Final Element Fact))
  | [] => return []
  | (k, v) :: rest => do
    let key ← f.key k
    let value ← f.value v
    return ⟨key, value⟩ :: (← f.finals rest)

def contributions (f : Frame) : List (KeyTerm × ChangeTerm) → m (List (Contribution Element Fact))
  | [] => return []
  | (k, c) :: rest => do
    let key ← f.key k
    let update ← f.change key c
    return ⟨key, fun s => .ok (update s)⟩ :: (← f.contributions rest)

end Frame

def Trait.holds (s : Status Element Fact) : Trait → Bool
  | unknown => s.isUnknown
  | interim => !s.isUnknown && !s.isFinal
  | final => s.isFinal
  | refinable => s.isRefinable
  | hasValue => s.hasValue

def Bound.of (s : Status Element Fact) : Bound → Option Fact
  | lower => s.lower?.map (·.value)
  | upper => s.upper?.map (·.value)
  | final => s.final?.map (·.value.value)

end Blackboard.Scenario
