import Blackboard.Config.Settings
import Blackboard.Demo.Report
/-! The command line: runs the demonstration with the configuration found in the file and
environment. -/
namespace Blackboard

def settingNames : List String := ["threads", "debug", "trace", "idle_wait_ms"]

def readEnvironment : IO (List (String × String)) := do
  let names := settingNames.flatMap fun n => ["FPCF_" ++ n.toUpper, "fpcf_" ++ n]
  names.filterMapM fun n => return (← IO.getEnv n).map fun v => (n, v)

def readFile : IO (Option String) := do
  try
    return some (← IO.FS.readFile "fpcf.toml")
  catch _ => return none

def statisticsLine (s : Statistics) : String :=
  "Statistics stats=\x7b" ++ ",".intercalate
    (s.fields.map fun f => Text.quoted f.1 ++ ":" ++ toString f.2) ++ "\x7d"

def runDemo : IO UInt32 := do
  let file ← readFile
  let environment ← readEnvironment
  let run := do
    let config ← Config.load file environment
    (Demo.report Demo.sample config 1).mapError Config.LoadError.refused
  match run with
  | .error e =>
    IO.eprintln ("Error: " ++ e.message)
    return 1
  | .ok (lines, stats) =>
    for line in lines do
      IO.println line
    IO.println (statisticsLine stats)
    return 0

end Blackboard

def main : IO UInt32 := Blackboard.runDemo
