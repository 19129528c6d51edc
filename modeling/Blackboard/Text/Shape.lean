/-! How compound values are written: lists, sets, options and named fields. -/
namespace Blackboard.Text

def commas (items : List String) : String := ", ".intercalate items

def listing (items : List String) : String := "[" ++ commas items ++ "]"

def braced (items : List String) : String := "\x7b" ++ commas items ++ "\x7d"

def tagged (name : String) (items : List String) : String := name ++ "(" ++ commas items ++ ")"

def optional : Option String → String
  | none => "None"
  | some text => tagged "Some" [text]

/-- `Name` with its fields in braces, each as `field: text`. -/
def record (name : String) (fields : List (String × String)) : String :=
  name ++ " \x7b " ++ commas (fields.map fun f => f.1 ++ ": " ++ f.2) ++ " \x7d"

def truth (b : Bool) : String := if b then "true" else "false"

end Blackboard.Text
