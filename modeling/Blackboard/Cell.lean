import Blackboard.Status
import Blackboard.Error
import Blackboard.Depender
/-!
Cells. Each key the store has seen owns one: what is known about it, the suspended computation that
will refine it, and the dependers to wake when it changes.
-/
namespace Blackboard

/-- A continuation together with the dependees it was computed from, as they were observed. -/
structure Suspension (E V K : Type) where
  epoch : Nat
  continuation : K
  dependees : List (Nat × Status E V)

namespace Suspension
variable {E V K : Type}

def ids (s : Suspension E V K) : List Nat := s.dependees.map (·.1)
def waitsOn (s : Suspension E V K) (id : Nat) : Bool := s.dependees.any (·.1 == id)

end Suspension

/-- What an update did to a cell. `dependers` were drained from it and have to be woken, `dropped`
is the cell's own suspension, void because the value became final. -/
structure Update (E V K : Type) where
  old : Status E V
  new : Status E V
  changed : Bool
  dependers : DependerSet
  dropped : Option (Suspension E V K)

namespace Update
variable {E V K : Type}

def unchanged (current : Status E V) : Update E V K := ⟨current, current, false, ∅, none⟩

def detail [ToString E] [ToString V] (u : Update E V K) : String :=
  Text.record "Update" [("old", u.old.detail), ("new", u.new.detail),
    ("changed", Text.truth u.changed),
    ("dependers", u.dependers.detail), ("dropped", Text.truth u.dropped.isSome)]

end Update

structure Cell (E V K : Type) where
  id : Nat
  key : Key E
  status : Status E V
  suspension : Option (Suspension E V K)
  dependers : DependerSet
  triggered : Bool

namespace Cell
variable {E V K : Type}

def create (id : Nat) (key : Key E) : Cell E V K := ⟨id, key, .unknown key, none, ∅, false⟩

def suspendedOn (c : Cell E V K) : Option (List Nat) := c.suspension.map (·.ids)
def hasDependers (c : Cell E V K) : Bool := !c.dependers.isEmpty

/-- Why bounds may not follow others. A value whose bounds coincide only moves forward; otherwise
lower bounds only get better and upper bounds only get worse. -/
def objection? [DecidableEq V] [Property V] (oldLower oldUpper newLower newUpper : Stamped V) :
    Option String :=
  Property.refusal? newLower.value oldLower.value <|>
    if oldLower.agrees oldUpper then Property.refusal? newUpper.value oldUpper.value
    else Property.refusal? oldUpper.value newUpper.value

def checkRefinement [DecidableEq V] [Property V] [ToString E] (old new : Status E V) :
    Except Error Unit :=
  match old.lower?, old.upper?, new.lower?, new.upper? with
  | some ol, some ou, some nl, some nu =>
    match objection? ol ou nl nu with
    | some why => .error (.nonMonotonic (toString new.key) why)
    | none => .ok ()
  | _, _, _, _ => .ok ()

section
variable [DecidableEq E] [DecidableEq V] [ToString E] [ToString V]

def checkFit (c : Cell E V K) (new : Status E V) : Except Error Unit :=
  if c.status.isFinal then .error (.finalOverwritten (toString c.key))
  else if !new.key.same c.key || new.isUnknown then
    .error (.invariant (toString new ++ " cannot be stored in " ++ toString c.key))
  else .ok ()

/-- Puts a status into the cell. Bounds that say the same as before change nothing and keep the old
stamps; anything else drains the dependers, and a final value ends the cell's own suspension. -/
def replace (c : Cell E V K) (new : Status E V) : Update E V K × Cell E V K :=
  if !new.isFinal && c.status.sameValues new then (.unchanged c.status, c)
  else
    (⟨c.status, new, true, c.dependers, if new.isFinal then c.suspension else none⟩,
      { c with
        status := new
        dependers := ∅
        suspension := if new.isFinal then none else c.suspension })

def update [Property V] (c : Cell E V K) (new : Status E V) (validate : Bool) :
    Except Error (Update E V K × Cell E V K) := do
  c.checkFit new
  if validate then checkRefinement c.status new
  return c.replace new

def updateWith [Property V] (c : Cell E V K) (f : Status E V → Option (Status E V))
    (validate : Bool) : Except Error (Update E V K × Cell E V K) :=
  if c.status.isFinal then .error (.finalOverwritten (toString c.key))
  else match f c.status with
    | some new => c.update new validate
    | none => .ok (.unchanged c.status, c)

def updateIf [Property V] (c : Cell E V K) (expected new : Status E V) :
    Except Error (Option (Update E V K × Cell E V K)) :=
  if c.status.sameState expected then (c.update new false).map some else .ok none

/-- Registers a depender unless the cell moved on since `observed` was read; `false` then asks to
resume the depender right away. -/
def addDepender (c : Cell E V K) (d : Depender) (observed : Status E V) :
    Except Error (Bool × Cell E V K) :=
  if !c.status.sameState observed then .ok (false, c)
  else if c.status.isFinal then .error (.dependerOnFinal (toString c.key) (toString d))
  else .ok (true, { c with dependers := c.dependers.insert d.encode })

end

def suspend (c : Cell E V K) (s : Suspension E V K) : Cell E V K := { c with suspension := some s }

def takeSuspensionIf (c : Cell E V K) (p : Suspension E V K → Bool) :
    Option (Suspension E V K) × Cell E V K :=
  match c.suspension with
  | some s => if p s then (some s, { c with suspension := none }) else (none, c)
  | none => (none, c)

def removeDepender (c : Cell E V K) (d : Depender) : Cell E V K :=
  { c with dependers := c.dependers.erase d.encode }

def takeDependers (c : Cell E V K) : DependerSet × Cell E V K :=
  (c.dependers, { c with dependers := ∅ })

/-- The first answer is `true` once, for whoever sees the cell with a value first. -/
def markTriggered (c : Cell E V K) : Bool × Cell E V K :=
  (!c.triggered, { c with triggered := true })

end Cell
end Blackboard
