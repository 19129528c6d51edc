import Blackboard.Toml.Scalar
/-! Strings and keys of a TOML file. -/
namespace Blackboard.Toml

/-- Control characters other than the tab stand in no string and no comment. -/
def isForbidden (c : Char) : Bool := (c.toNat < 0x20 && c != '\t') || c.toNat == 0x7f

def charOf (hex : List Char) : Option Char :=
  let n := numeral 16 hex
  if hex.all isHex ∧ n.isValidChar then some (Char.ofNat n) else none

def escaped : List Char → Option (Char × List Char)
  | 'b' :: r => some ('\x08', r)
  | 't' :: r => some ('\t', r)
  | 'n' :: r => some ('\n', r)
  | 'f' :: r => some ('\x0c', r)
  | 'r' :: r => some ('\r', r)
  | 'e' :: r => some ('\x1b', r)
  | '"' :: r => some ('"', r)
  | '\\' :: r => some ('\\', r)
  | 'x' :: a :: b :: r => (charOf [a, b]).map (·, r)
  | 'u' :: a :: b :: c :: d :: r => (charOf [a, b, c, d]).map (·, r)
  | 'U' :: a :: b :: c :: d :: e :: f :: g :: h :: r => (charOf [a, b, c, d, e, f, g, h]).map (·, r)
  | _ => none

def isBlank (c : Char) : Bool := c == ' ' || c == '\t'
def skipBlanks (cs : List Char) : List Char := cs.dropWhile isBlank

def newline? : List Char → Option (List Char)
  | '\n' :: r => some r
  | '\r' :: '\n' :: r => some r
  | _ => none

/-- The rest of a string between double quotes. The fuel is more than the characters left. -/
def basicRest : Nat → List Char → List Char → Option (List Char × List Char)
  | 0, _, _ => none
  | fuel + 1, cs, acc =>
    match cs with
    | [] => none
    | '"' :: r => some (acc.reverse, r)
    | '\\' :: r => do
      let (c, r) ← escaped r
      basicRest fuel r (c :: acc)
    | c :: r => if isForbidden c then none else basicRest fuel r (c :: acc)

def literalRest : List Char → List Char → Option (List Char × List Char)
  | [], _ => none
  | c :: r, acc =>
    if c = '\'' then some (acc.reverse, r)
    else if isForbidden c then none
    else literalRest r (c :: acc)

def quotes (q : Char) (cs : List Char) : Nat := (cs.takeWhile (· == q)).length

/-- At three to five quotes a long string ends; those beyond three belong to it. -/
def longEnd? (q : Char) (cs acc : List Char) : Option (List Char × List Char) :=
  let n := min (quotes q cs) 5
  if n < 3 then none else some (acc.reverse ++ List.replicate (n - 3) q, cs.drop n)

def skipLines : List Char → List Char
  | [] => []
  | '\n' :: r => skipLines r
  | '\r' :: '\n' :: r => skipLines r
  | c :: r => if isBlank c then skipLines r else c :: r

/-- After a backslash at the end of a line, all blanks and line ends are passed over. -/
def lineContinuation? (cs : List Char) : Option (List Char) :=
  (newline? (skipBlanks cs)).map skipLines

def longRest (plain : Bool) : Nat → List Char → List Char → Option (List Char × List Char)
  | 0, _, _ => none
  | fuel + 1, cs, acc =>
    match longEnd? (if plain then '\'' else '"') cs acc with
    | some found => some found
    | none =>
      match newline? cs with
      | some r => longRest plain fuel r ('\n' :: acc)
      | none =>
        match cs with
        | [] => none
        | c :: r =>
          if c = '\\' && !plain then
            match lineContinuation? r with
            | some r => longRest plain fuel r acc
            | none => do
              let (c, r) ← escaped r
              longRest plain fuel r (c :: acc)
          else if isForbidden c then none
          else longRest plain fuel r (c :: acc)

/-- A line end right after the opening quotes is not part of the string. -/
def long? (plain : Bool) (cs : List Char) : Option (List Char × List Char) :=
  longRest plain (cs.length + 1) ((newline? cs).getD cs) []

def shortString? : List Char → Option (String × List Char)
  | '"' :: r => (basicRest (r.length + 1) r []).map fun (s, r) => (String.ofList s, r)
  | c :: r => if c = '\'' then (literalRest r []).map fun (s, r) => (String.ofList s, r) else none
  | [] => none

def string? (cs : List Char) : Option (String × List Char) :=
  if quotes '"' cs ≥ 3 then (long? false (cs.drop 3)).map fun (s, r) => (String.ofList s, r)
  else if quotes '\'' cs ≥ 3 then (long? true (cs.drop 3)).map fun (s, r) => (String.ofList s, r)
  else shortString? cs

def isBare (c : Char) : Bool := c.isAlphanum || c == '_' || c == '-'

def simpleKey? (cs : List Char) : Option (String × List Char) :=
  match cs.takeWhile isBare with
  | [] => shortString? cs
  | bare => some (String.ofList bare, cs.dropWhile isBare)

def parts? : Nat → List Char → Option (List String × List Char)
  | 0, _ => none
  | left + 1, cs => do
    let (part, r) ← simpleKey? cs
    match skipBlanks r with
    | '.' :: r => do
      let (parts, r) ← parts? left (skipBlanks r)
      return (part :: parts, r)
    | r => return ([part], r)

def maxDepth : Nat := 80

def key? (cs : List Char) : Option (List String × List Char) := parts? maxDepth cs

def skipMark : List Char → List Char
  | '\uFEFF' :: r => r
  | r => r

end Blackboard.Toml
