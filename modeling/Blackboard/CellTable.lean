import Blackboard.Cell
/-!
All cells, numbered from 0 in the order of creation, and the collaborators: continuations that
refine no cell of their own. Cells are never removed, collaborators are once their continuation
fires.
-/
namespace Blackboard

/-- The id of the cell at a position. Codes of collaborators are never handed out. -/
def cellId (index : Nat) : Except Error Nat :=
  if index < collaboratorBit then .ok index
  else .error (.invariant ("more than " ++ toString collaboratorBit ++ " states"))

structure Collaborator (E V K : Type) where
  id : Nat
  suspension : Option (Suspension E V K)

namespace Collaborator
variable {E V K : Type}

def suspendedOn (c : Collaborator E V K) : Option (List Nat) := c.suspension.map (·.ids)

def takeSuspensionIf (c : Collaborator E V K) (p : Suspension E V K → Bool) :
    Option (Suspension E V K) × Collaborator E V K :=
  match c.suspension with
  | some s => if p s then (some s, { c with suspension := none }) else (none, c)
  | none => (none, c)

end Collaborator

structure CellTable (E V K : Type) where
  cells : Array (Cell E V K)
  collaborators : List (Collaborator E V K)
  nextCollaborator : Nat

namespace CellTable
variable {E V K : Type}

def empty : CellTable E V K := ⟨#[], [], 0⟩

def size (t : CellTable E V K) : Nat := t.cells.size
def all (t : CellTable E V K) : List (Cell E V K) := t.cells.toList
def cell? (t : CellTable E V K) (id : Nat) : Option (Cell E V K) := t.cells[id]?

def find? [DecidableEq E] (t : CellTable E V K) (key : Key E) : Option (Cell E V K) :=
  t.cells.find? (·.key.same key)

def getOrCreate [DecidableEq E] (t : CellTable E V K) (key : Key E) :
    Except Error (Cell E V K × Bool × CellTable E V K) :=
  match t.find? key with
  | some c => .ok (c, false, t)
  | none => do
    let id ← cellId t.size
    let c := Cell.create id key
    return (c, true, { t with cells := t.cells.push c })

def modify (t : CellTable E V K) (id : Nat) (f : Cell E V K → Cell E V K) : CellTable E V K :=
  { t with cells := t.cells.modify id f }

def collaborator? (t : CellTable E V K) (id : Nat) : Option (Collaborator E V K) :=
  t.collaborators.find? (·.id == id)

/-- A number is used up even if it turns out to be too large. -/
def addCollaborator (t : CellTable E V K) (s : Suspension E V K) :
    Except Error Nat × CellTable E V K :=
  let id := t.nextCollaborator
  let t := { t with nextCollaborator := id + 1 }
  if id < collaboratorBit then
    (.ok id, { t with collaborators := t.collaborators ++ [⟨id, some s⟩] })
  else (.error (.invariant ("collaborator id " ++ toString id ++ " out of range")), t)

def removeCollaborator (t : CellTable E V K) (id : Nat) : CellTable E V K :=
  { t with collaborators := t.collaborators.filter (·.id != id) }

def modifyCollaborator (t : CellTable E V K) (id : Nat)
    (f : Collaborator E V K → Collaborator E V K) : CellTable E V K :=
  { t with collaborators := t.collaborators.map fun c => if c.id == id then f c else c }

def takeSuspensionIf (t : CellTable E V K) (d : Depender) (p : Suspension E V K → Bool) :
    Option (Suspension E V K) × CellTable E V K :=
  match d with
  | .cell id =>
    (t.cell? id |>.bind (·.takeSuspensionIf p |>.1), t.modify id (·.takeSuspensionIf p |>.2))
  | .collaborator id =>
    (t.collaborator? id |>.bind (·.takeSuspensionIf p |>.1),
      t.modifyCollaborator id (·.takeSuspensionIf p |>.2))

/-- Removes a depender from every dependee of its suspension; a collaborator ceases to exist. -/
def unlink (t : CellTable E V K) (d : Depender) (s : Suspension E V K) : CellTable E V K :=
  let t := s.ids.foldl (fun t id => t.modify id (·.removeDepender d)) t
  match d with
  | .cell _ => t
  | .collaborator id => t.removeCollaborator id

end CellTable
end Blackboard
