/-! Plain values of a TOML file: booleans, numbers, dates and times. -/
namespace Blackboard.Toml

inductive Value where
  | text (s : String)
  | integer (n : Int)
  | float (x : Float)
  | boolean (b : Bool)
  /-- A date, a time, or both, as written. -/
  | moment (s : String)
  | list (items : List Value)
  | table (entries : List (String × Value))

/-- Digits with single underscores between them, read without these. -/
def digits (isDigit : Char → Bool) : List Char → Option (List Char)
  | [] => none
  | [c] => if isDigit c then some [c] else none
  | c :: '_' :: d :: r => if isDigit c then (digits isDigit (d :: r)).map (c :: ·) else none
  | c :: d :: r => if isDigit c then (digits isDigit (d :: r)).map (c :: ·) else none

def digitValue (c : Char) : Nat :=
  if c.isDigit then c.toNat - '0'.toNat
  else if 'a' ≤ c ∧ c ≤ 'f' then c.toNat - 'a'.toNat + 10
  else if 'A' ≤ c ∧ c ≤ 'F' then c.toNat - 'A'.toNat + 10
  else 0

def numeral (base : Nat) (ds : List Char) : Nat := ds.foldl (fun n c => n * base + digitValue c) 0

def isHex (c : Char) : Bool := c.isDigit || ('a' ≤ c && c ≤ 'f') || ('A' ≤ c && c ≤ 'F')
def isOctal (c : Char) : Bool := '0' ≤ c && c ≤ '7'
def isBinary (c : Char) : Bool := c == '0' || c == '1'

def decimal (cs : List Char) : Option (List Char) := do
  let ds ← digits Char.isDigit cs
  if ds.length > 1 && ds.head? == some '0' then none else some ds

def splitSign : List Char → Bool × List Char
  | '-' :: r => (true, r)
  | '+' :: r => (false, r)
  | r => (false, r)

def fit (n : Int) : Option Value :=
  if -(Int.pow 2 63) ≤ n ∧ n < Int.pow 2 63 then some (.integer n) else none

def integer? : List Char → Option Value
  | '0' :: 'x' :: r => do fit (numeral 16 (← digits isHex r))
  | '0' :: 'o' :: r => do fit (numeral 8 (← digits isOctal r))
  | '0' :: 'b' :: r => do fit (numeral 2 (← digits isBinary r))
  | cs => do
    let (minus, r) := splitSign cs
    let n : Int := numeral 10 (← decimal r)
    fit (if minus then -n else n)

/-- The value of a decimal with `fraction` places, times a power of ten; nothing if it is too
large. -/
def scaled (mantissa fraction : List Char) (exponent : Int) : Option Float :=
  let m := numeral 10 (mantissa ++ fraction)
  let e := exponent - fraction.length
  if m = 0 ∨ e + mantissa.length + fraction.length < -400 then some 0.0
  else if 400 < e then none
  else
    let x := Float.ofScientific m (e < 0) e.natAbs
    if x.isInf then none else some x

def fraction? : List Char → Option (List Char)
  | [] => some []
  | _ :: r => digits Char.isDigit r

def exponent? : List Char → Option Int
  | [] => some 0
  | _ :: r => do
    let (minus, r) := splitSign r
    let n : Int := numeral 10 (← digits Char.isDigit r)
    return if minus then -n else n

def isExponentMark (c : Char) : Bool := c == 'e' || c == 'E'

def unsignedFloat? (cs : List Char) : Option Float := do
  if cs = "inf".toList then return 1.0 / 0.0
  if cs = "nan".toList then return 0.0 / 0.0
  let front := cs.takeWhile (!isExponentMark ·)
  let back := cs.dropWhile (!isExponentMark ·)
  let point := front.dropWhile (· != '.')
  let mantissa ← decimal (front.takeWhile (· != '.'))
  let fraction ← fraction? point
  let exponent ← exponent? back
  if point.isEmpty && back.isEmpty then none
  else scaled mantissa fraction exponent

def float? (cs : List Char) : Option Value := do
  let (minus, r) := splitSign cs
  let x ← unsignedFloat? r
  return .float (if minus then -x else x)

def field (width low high : Nat) (cs : List Char) : Option (Nat × List Char) :=
  let ds := cs.take width
  let n := numeral 10 ds
  if ds.length = width ∧ ds.all Char.isDigit ∧ low ≤ n ∧ n ≤ high then some (n, cs.drop width)
  else none

def expect (c : Char) : List Char → Option (List Char)
  | d :: r => if c = d then some r else none
  | [] => none

def daysIn (year month : Nat) : Nat :=
  if month = 2 then
    if year % 4 = 0 ∧ (year % 100 ≠ 0 ∨ year % 400 = 0) then 29 else 28
  else if month = 4 ∨ month = 6 ∨ month = 9 ∨ month = 11 then 30 else 31

def date? (cs : List Char) : Option (List Char) := do
  let (year, r) ← field 4 0 9999 cs
  let (month, r) ← field 2 1 12 (← expect '-' r)
  let (_, r) ← field 2 1 (daysIn year month) (← expect '-' r)
  return r

def seconds? (cs : List Char) : Option (List Char) := do
  let (_, r) ← field 2 0 60 cs
  match r with
  | '.' :: r => if (r.takeWhile Char.isDigit).isEmpty then none else some (r.dropWhile Char.isDigit)
  | r => some r

def time? (cs : List Char) : Option (List Char) := do
  let (_, r) ← field 2 0 23 cs
  let (_, r) ← field 2 0 59 (← expect ':' r)
  match r with
  | ':' :: r => seconds? r
  | r => some r

def offset? : List Char → Option Unit
  | [] => some ()
  | ['Z'] | ['z'] => some ()
  | c :: r => do
    if c ≠ '+' ∧ c ≠ '-' then none
    let (_, r) ← field 2 0 23 r
    let (_, r) ← field 2 0 59 (← expect ':' r)
    if r.isEmpty then some () else none

def isMoment (cs : List Char) : Bool :=
  match date? cs with
  | some [] => true
  | some (c :: r) =>
    (c == 'T' || c == 't' || c == ' ') && ((time? r).bind offset?).isSome
  | none => time? cs == some []

def scalar? (cs : List Char) : Option Value :=
  if cs = "true".toList then some (.boolean true)
  else if cs = "false".toList then some (.boolean false)
  else if isMoment cs then some (.moment (String.ofList cs))
  else integer? cs <|> float? cs

end Blackboard.Toml
