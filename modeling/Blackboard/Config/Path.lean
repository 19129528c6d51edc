import Blackboard.Toml.Document
/-!
Names of settings that lead into other settings: `a.b` to a name in a table, `a[2]` to a place in a
list, counted from the end if it is negative.
-/
namespace Blackboard.Config

inductive PathStep where
  | entry (name : String)
  | place (n : Int)
deriving DecidableEq, Repr

namespace PathStep

/-- The value that has `v` at the step, and nothing else that matters. -/
def enclose (step : PathStep) (v : Toml.Value) : Toml.Value :=
  match step with
  | entry name => .table [(name, v)]
  | place _ => .list [v]

def span : PathStep → Nat
  | entry _ => 0
  | place n => if n < 0 then n.natAbs else n.natAbs + 1

def itemSize : Nat := 96

def overflows (step : PathStep) : Bool := Nat.pow 2 63 ≤ step.span * itemSize

def place? (cs : List Char) : Option (Int × List Char) := do
  let (minus, r) := match Toml.skipBlanks cs with
    | '-' :: r => (true, r)
    | r => (false, r)
  let digits := r.takeWhile Char.isDigit
  if digits.isEmpty then none
  let n : Int := if minus then -Toml.numeral 10 digits else Toml.numeral 10 digits
  let _ ← Toml.fit n
  return (n, ← Toml.expect ']' (Toml.skipBlanks (r.dropWhile Char.isDigit)))

/-- The steps that a text describes. The fuel is at least its length. -/
def list? : Nat → List Char → Option (List PathStep)
  | _, [] => some []
  | fuel + 1, '.' :: r => do
    let name := r.takeWhile Toml.isBare
    if name.isEmpty then none
    return .entry (String.ofList name) :: (← list? fuel (r.dropWhile Toml.isBare))
  | fuel + 1, '[' :: r => do
    let (n, r) ← place? r
    return .place n :: (← list? fuel r)
  | _, _ => none

end PathStep

structure Path where
  /-- The setting it leads into. -/
  first : String
  steps : List PathStep
deriving DecidableEq, Repr

namespace Path

/-- A name that is no path stands for itself. -/
def ofName (name : String) : Path :=
  let first := name.toList.takeWhile Toml.isBare
  let rest := name.toList.dropWhile Toml.isBare
  match PathStep.list? rest.length rest with
  | some steps => if first.isEmpty then ⟨name, []⟩ else ⟨String.ofList first, steps⟩
  | none => ⟨name, []⟩

def enclose (p : Path) (v : Toml.Value) : Toml.Value := p.steps.foldr PathStep.enclose v

def overflows (p : Path) : Bool := p.steps.any PathStep.overflows

end Path
end Blackboard.Config
