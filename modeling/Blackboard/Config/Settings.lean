import Blackboard.Config
import Blackboard.Config.Path
import Blackboard.Error
/-!
Reading a configuration: a TOML file, overridden by environment variables. A setting takes any value
that can be read as what it is: numbers and words for truth values, words, truth values and
fractions for numbers.
-/
namespace Blackboard

namespace Toml.Value

/-- The Kelvin sign has a lower case among the letters of ASCII; of the other letters beyond ASCII
none has, so they can be left alone wherever names and words of ASCII are looked for. -/
def lowercase (s : String) : String := s.map fun c => if c = '\u212a' then 'k' else c.toLower

def natural? (s : String) : Option Nat :=
  let ds := match s.toList with
    | '+' :: r => r
    | r => r
  let n := numeral 10 ds
  if ds ≠ [] ∧ ds.all Char.isDigit ∧ n < Nat.pow 2 64 then some n else none

/-- Fractions go to the nearest whole number, halves away from zero, and negative ones to 0. -/
def toNat? : Value → Option Nat
  | integer n => if 0 ≤ n then some n.toNat else none
  | boolean b => some (if b then 1 else 0)
  | float x => some x.round.toUInt64.toNat
  | text s | moment s =>
    if lowercase s ∈ ["true", "on", "yes"] then some 1
    else if lowercase s ∈ ["false", "off", "no"] then some 0
    else natural? s
  | list _ | table _ => none

def toBool? : Value → Option Bool
  | integer n => some (n ≠ 0)
  | boolean b => some b
  | float x => some (x != 0.0)
  | text s | moment s =>
    if lowercase s ∈ ["1", "true", "on", "yes"] then some true
    else if lowercase s ∈ ["0", "false", "off", "no"] then some false
    else none
  | list _ | table _ => none

end Toml.Value

namespace Config

abbrev Settings := List (String × Toml.Value)

def variableMark : List Char := "fpcf_".toList

def ofVariable (v : String × String) : Option (String × Toml.Value) :=
  let name := (Toml.Value.lowercase v.1).toList
  if variableMark.isPrefixOf name then
    some (String.ofList (name.drop variableMark.length), .text v.2)
  else none

def setting {α : Type} (settings : Settings) (name : String) (read : Toml.Value → Option α)
    (default : α) : Except Error α :=
  match settings.lookup name with
  | none => .ok default
  | some v =>
    match read v with
    | some a => .ok a
    | none => .error (.config ("invalid value for " ++ name))

def ofSettings (settings : Settings) : Except Error Config := do
  let default : Config := {}
  return {
    threads := ← setting settings "threads" Toml.Value.toNat? default.threads
    debug := ← setting settings "debug" Toml.Value.toBool? default.debug
    trace := ← setting settings "trace" Toml.Value.toBool? default.trace
    idleWait := ← setting settings "idle_wait_ms" Toml.Value.toNat? default.idleWait }

inductive LoadError where
  | refused (e : Error)
  /-- A setting asks for a list that memory cannot hold. -/
  | overflow
deriving DecidableEq, Repr

def LoadError.message : LoadError → String
  | refused e => e.detail
  | overflow => "capacity overflow"

/-- The settings of a file. A byte order mark belongs to the file, not to the text in it. -/
def ofFile (file : Option String) : Except Error Settings :=
  match file with
  | none => .ok []
  | some s =>
    match Toml.parse? (String.ofList (Toml.skipMark s.toList)) with
    | some settings => .ok settings
    | none => .error (.config "invalid file")

/-- The configuration that a file and the environment describe. Variables win over the file, and
later ones over earlier ones. -/
def load (file : Option String) (environment : List (String × String)) :
    Except LoadError Config := do
  let fromFile ← (ofFile file).mapError .refused
  let settings := (fromFile ++ environment.filterMap ofVariable).map fun s => (Path.ofName s.1, s.2)
  if settings.any (·.1.overflows) then throw .overflow
  (ofSettings (settings.reverse.map fun s => (s.1.first, s.1.enclose s.2))).mapError .refused

end Config
end Blackboard
