import Blackboard.Text.Quoted
import Blackboard.Text.Shape
/-! The elements of a program that analyses attach properties to. -/
namespace Blackboard

inductive Element where
  | project
  | method (number : Nat)
  | type (number : Nat)
  | named (name : String)
deriving DecidableEq, Repr

namespace Element

def text : Element → String
  | project => "Project"
  | method n => Text.tagged "Method" [toString n]
  | type n => Text.tagged "Class" [toString n]
  | named s => Text.tagged "Named" [Text.quoted s]

instance : ToString Element := ⟨text⟩
instance : Inhabited Element := ⟨project⟩

/-- A number for every element; a name counts its characters. -/
def number : Element → Nat
  | project => 0
  | method n | type n => n
  | named s => s.length

end Element
end Blackboard
