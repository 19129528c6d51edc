import Blackboard.Toml.Text
/-! TOML files: their lines, and the table these lines describe. -/
namespace Blackboard.Toml

/-- How a table came about: named by a header, on the way to one, by a key with points, or written
out as a value and then complete. -/
inductive Origin where
  | header | implied | dotted
deriving DecidableEq

inductive Node where
  | leaf (v : Value)
  | table (origin : Origin) (entries : List (String × Node))
  | tables (items : List (List (String × Node)))

abbrev Entries := List (String × Node)

def put (entries : Entries) (key : String) (n : Node) : Entries :=
  if entries.any (·.1 == key) then entries.map fun e => if e.1 == key then (key, n) else e
  else entries ++ [(key, n)]

/-- Sets a value under a key, which may not have one yet. Tables on the way must not have a header,
and no header may name them later. A list of tables is entered at its last one, but only to go
further. -/
def assign (v : Value) : List String → Entries → Option Entries
  | [], _ => none
  | [key], entries => if entries.any (·.1 == key) then none else some (entries ++ [(key, .leaf v)])
  | key :: path, entries =>
    match entries.lookup key with
    | none => (assign v path []).map fun inner => put entries key (.table .dotted inner)
    | some (.table .header _) => none
    | some (.table _ inner) => (assign v path inner).map fun inner =>
        put entries key (.table .dotted inner)
    | some (.tables items) => do
      if path.length = 1 then none
      let inner ← assign v path (← items.getLast?)
      return put entries key (.tables (items.dropLast ++ [inner]))
    | some (.leaf _) => none

/-- Changes the entries of the table that a header leads to, given what it does at the last part. A
list of tables is entered at its last one. -/
def descend (atLast : String → Entries → Option Entries) : List String → Entries → Option Entries
  | [], _ => none
  | [key], entries => atLast key entries
  | key :: path, entries =>
    match entries.lookup key with
    | none => (descend atLast path []).map fun inner => put entries key (.table .implied inner)
    | some (.table origin inner) =>
      (descend atLast path inner).map fun inner => put entries key (.table origin inner)
    | some (.tables items) => do
      let inner ← descend atLast path (← items.getLast?)
      return put entries key (.tables (items.dropLast ++ [inner]))
    | some (.leaf _) => none

def openTable (key : String) (entries : Entries) : Option Entries :=
  match entries.lookup key with
  | none => some (put entries key (.table .header []))
  | some (.table .implied inner) => some (put entries key (.table .header inner))
  | some _ => none

def openItem (key : String) (entries : Entries) : Option Entries :=
  match entries.lookup key with
  | none => some (put entries key (.tables [[]]))
  | some (.tables items) => some (put entries key (.tables (items ++ [[]])))
  | some _ => none

def within (change : Entries → Option Entries) (path : List String) (entries : Entries) :
    Option Entries :=
  if path.isEmpty then change entries
  else
    descend (fun key entries => do
      match ← entries.lookup key with
      | .table origin inner => return put entries key (.table origin (← change inner))
      | .tables items =>
        let inner ← change (← items.getLast?)
        return put entries key (.tables (items.dropLast ++ [inner]))
      | .leaf _ => none) path entries

mutual

def Node.value : Node → Value
  | .leaf v => v
  | .table _ entries => .table (valueOfEntries entries)
  | .tables items => .list (valuesOfItems items)

def valueOfEntries : List (String × Node) → List (String × Value)
  | [] => []
  | (key, n) :: rest => (key, n.value) :: valueOfEntries rest

def valuesOfItems : List (List (String × Node)) → List Value
  | [] => []
  | entries :: rest => .table (valueOfEntries entries) :: valuesOfItems rest

end

def skipComment (cs : List Char) : Option (List Char) :=
  match cs with
  | '#' :: r =>
    let line := r.takeWhile fun c => c != '\n' && c != '\r'
    if line.any isForbidden then none else some (r.dropWhile fun c => c != '\n' && c != '\r')
  | r => some r

def skipSpaceLines : Nat → List Char → Option (List Char)
  | 0, _ => none
  | fuel + 1, cs => do
    let r ← skipComment (skipBlanks cs)
    match newline? r with
    | some r => skipSpaceLines fuel r
    | none => return r

def skipSpace (cs : List Char) : Option (List Char) := skipSpaceLines (cs.length + 1) cs

def endLine (cs : List Char) : Option (List Char) := do
  let r ← skipComment (skipBlanks cs)
  if r.isEmpty then return [] else newline? r

def isScalarChar (c : Char) : Bool :=
  c.isAlphanum || c == '+' || c == '-' || c == '_' || c == '.' || c == ':'

/-- The run of characters of a plain value. A blank may stand between date and time. -/
def scalarRun (cs : List Char) : List Char × List Char :=
  let run := cs.takeWhile isScalarChar
  let rest := cs.dropWhile isScalarChar
  match rest with
  | ' ' :: c :: _ =>
    if date? run == some [] && c.isDigit then
      let more := (rest.drop 1).takeWhile isScalarChar
      (run ++ ' ' :: more, (rest.drop 1).dropWhile isScalarChar)
    else (run, rest)
  | _ => (run, rest)

mutual

def value? : Nat → Nat → List Char → Option (Value × List Char)
  | 0, _, _ => none
  | fuel + 1, depth, cs =>
    match cs, depth with
    | '[' :: r, depth + 1 => do
      let (items, r) ← items? fuel depth r
      return (.list items, r)
    | '\x7b' :: r, depth + 1 => do
      let (entries, r) ← entries? fuel depth r []
      return (.table (valueOfEntries entries), r)
    | c :: _, _ =>
      if c = '"' ∨ c = '\'' then do
        let (s, r) ← string? cs
        return (.text s, r)
      else do
        let (run, r) := scalarRun cs
        return (← scalar? run, r)
    | [], _ => none

/-- The items of a list after its opening bracket. A comma may follow the last one. -/
def items? : Nat → Nat → List Char → Option (List Value × List Char)
  | 0, _, _ => none
  | fuel + 1, depth, cs => do
    match ← skipSpace cs with
    | ']' :: r => return ([], r)
    | r =>
      let (v, r) ← value? fuel depth r
      match ← skipSpace r with
      | ',' :: r =>
        let (vs, r) ← items? fuel depth r
        return (v :: vs, r)
      | ']' :: r => return ([v], r)
      | _ => none

/-- The entries of a table written as a value, after its opening brace. It may run over several
lines, and a comma may follow the last entry. -/
def entries? : Nat → Nat → List Char → Entries → Option (Entries × List Char)
  | 0, _, _, _ => none
  | fuel + 1, depth, cs, entries => do
    match ← skipSpace cs with
    | '\x7d' :: r => return (entries, r)
    | r =>
      let (path, r) ← key? r
      let r ← expect '=' (← skipSpace r)
      let (v, r) ← value? fuel depth (← skipSpace r)
      let entries ← assign v path entries
      match ← skipSpace r with
      | ',' :: r => entries? fuel depth r entries
      | '\x7d' :: r => return (entries, r)
      | _ => none

end

def pair? (cs : List Char) : Option (List String × Value × List Char) := do
  let (path, r) ← key? cs
  let r ← expect '=' (skipBlanks r)
  let (v, r) ← value? (r.length + 1) maxDepth (skipBlanks r)
  return (path, v, r)

def header? (cs : List Char) : Option (List String × List Char) := do
  let (path, r) ← key? (skipBlanks cs)
  return (path, ← expect ']' (skipBlanks r))

/-- The lines of a file, one after the other. `path` leads to the table that is open. -/
def lines : Nat → List Char → List String → Entries → Option Entries
  | 0, _, _, _ => none
  | fuel + 1, cs, path, entries => do
    match ← skipSpace cs with
    | [] => return entries
    | '[' :: '[' :: r =>
      let (path, r) ← header? r
      let entries ← descend openItem path entries
      lines fuel (← endLine (← expect ']' r)) path entries
    | '[' :: r =>
      let (path, r) ← header? r
      let entries ← descend openTable path entries
      lines fuel (← endLine r) path entries
    | r =>
      let (key, v, r) ← pair? r
      let entries ← within (assign v key) path entries
      lines fuel (← endLine r) path entries

def parse? (s : String) : Option (List (String × Value)) :=
  let cs := skipMark s.toList
  (lines (cs.length + 1) cs [] []).map valueOfEntries

end Blackboard.Toml
