import Blackboard.SortedSet
import Blackboard.Text.Shape
/-!
Dependers: who waits for a change. Cells and collaborators share one space of codes; a
collaborator's code carries the top bit, so cells come before collaborators in every set.
-/
namespace Blackboard

def collaboratorBit : Nat := Nat.pow 2 31

inductive Depender where
  /-- The computation of a cell. -/
  | cell (id : Nat)
  /-- A continuation that refines no cell of its own. -/
  | collaborator (id : Nat)
deriving DecidableEq, Repr

namespace Depender

def encode : Depender → Nat
  | cell id => id
  | collaborator id => id % collaboratorBit + collaboratorBit

def decode (code : Nat) : Depender :=
  if code < collaboratorBit then cell code else collaborator (code - collaboratorBit)

def id : Depender → Nat
  | cell i => i
  | collaborator i => i

theorem decode_encode {d : Depender} (h : d.id < collaboratorBit) : decode d.encode = d := by
  cases d with
  | cell i => simp_all [decode, encode, id]
  | collaborator i =>
    have h' : i % collaboratorBit = i := Nat.mod_eq_of_lt h
    simp [decode, encode, h']

def text : Depender → String
  | cell i => Text.tagged "State" [toString i]
  | collaborator i => Text.tagged "Collaborator" [toString i]

instance : ToString Depender := ⟨text⟩

end Depender

abbrev DependerSet := SortedSet Nat

namespace DependerSet

def members (s : DependerSet) : List Depender := s.toList.map Depender.decode

/-- Up to fifteen codes are listed, of more only count and range are told. The codes are held in
blocks of 2^16. -/
def detail (s : DependerSet) : String :=
  let codes := s.toList
  "RoaringBitmap<" ++
    (if codes.length < 16 then Text.listing (codes.map toString)
    else
      let blocks := (codes.map (· / Nat.pow 2 16)).eraseDups
      toString codes.length ++ " values between " ++ toString (codes.headD 0) ++ " and " ++
        toString (codes.getLastD 0) ++ " in " ++ toString blocks.length ++ " containers") ++ ">"

end DependerSet
end Blackboard
