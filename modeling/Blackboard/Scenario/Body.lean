import Blackboard.Scenario.Term
/-!
Programs of scripted analyses: bodies decide what a computation returns, steps are the calls it
makes on the way. Programs are known by name; a continuation is a body together with the frame it
was left in.
-/
namespace Blackboard.Scenario

inductive ResolutionRule where
  | lower | upper
  | merge (sort : FactSort)
deriving DecidableEq, Repr

def ResolutionRule.resolution : ResolutionRule → Resolution Fact
  | lower => .lower
  | upper => .upper
  | merge sort => .merge (Fact.mergeOf sort)

structure KindRule where
  fallback : FallbackRule
  resolution : ResolutionRule

def KindRule.info (rule : KindRule) : KindInfo Element Fact :=
  rule.fallback.info rule.resolution.resolution

mutual

inductive Step where
  | registerKind (rule : KindRule)
  | setupPhase (computed delayed : List FactSort)
  | lazy (sort : FactSort) (program : String)
  | triggered (sort : FactSort) (program : String)
  | eager (entities : List EntityTerm) (program : String)
  | eagerOne (entity : EntityTerm) (program : String)
  | set (key : KeyTerm) (v : ValueTerm)
  | get (key : KeyTerm) (into : Option String)
  | apply (key : KeyTerm) (into : Option String)
  | force (key : KeyTerm)
  | hasProperty (key : KeyTerm)
  | isKnown (key : KeyTerm)
  | entities (sort : FactSort)
  | finalEntities (sort : FactSort)
  | entitiesWith (v : ValueTerm)
  | properties (entity : EntityTerm)
  /-- Only outside programs. -/
  | wait (cycles fallbacks : Bool)
  | shutdown
  | isShutdown
  | stats
  | config
  | alloc (name : String) (v : ValueTerm)
  | describe (ret : Return)
  | panic (crash : Crash)
  | dump
  | logLength
  | logDrain
  | logRecords

inductive Body where
  | call (program : String)
  | bySelf (cases : List (EntityTerm × Body)) (otherwise : Body)
  | ite (condition : Condition) (yes no : Body)
  | callGraph (graph : List (EntityTerm × List EntityTerm × Purity)) (useUpper : Bool)
  | reach (graph : List (EntityTerm × List EntityTerm × List Nat))
  | next (steps : List Step) (body : Body)
  | ret (steps : List Step) (ret : Return)

inductive Return where
  | nothing
  | final (key : KeyTerm) (v : ValueTerm)
  | finals (eps : List (KeyTerm × ValueTerm))
  | interim (key : KeyTerm) (lower upper : ValueTerm) (dependees : List StatusTerm) (next : Body)
  | contribution (key : KeyTerm) (change : ChangeTerm)
  | collaboration (contributions : List (KeyTerm × ChangeTerm))
      (dependees : List StatusTerm) (next : Body)
  | incremental (ret : Return) (next : List (String × EntityTerm))
  | several (rets : List Return)

end

def Step.name : Step → String
  | registerKind _ => "register_kind"
  | setupPhase _ _ => "setup_phase"
  | lazy _ _ => "lazy"
  | triggered _ _ => "triggered"
  | eager _ _ => "eager"
  | eagerOne _ _ => "eager_one"
  | set _ _ => "set"
  | get _ _ => "get"
  | apply _ _ => "apply"
  | force _ => "force"
  | hasProperty _ => "has_property"
  | isKnown _ => "is_known"
  | entities _ => "entities"
  | finalEntities _ => "final_entities"
  | entitiesWith _ => "entities_with"
  | properties _ => "properties"
  | wait _ _ => "wait"
  | shutdown => "shutdown"
  | isShutdown => "is_shutdown"
  | stats => "stats"
  | config => "config"
  | alloc _ _ => "alloc"
  | describe _ => "describe"
  | panic _ => "panic"
  | dump => "dump"
  | logLength => "log_len"
  | logDrain => "log_drain"
  | logRecords => "log_json"

inductive Answer where
  | done (r : Except Error Unit)
  | status (r : Except Error (Status Element Fact))
  | truth (b : Bool)
  | statuses (l : List (Status Element Fact))
  | elements (l : List Element)
  | statistics (s : Statistics)
  | config (c : Config) (traced : Bool)
  | text (s : String)
  | result (name text : String)
  | length (n : Nat)
  | count (n : Nat)
  | records (l : List (Record Element Fact))
  | crashed

inductive Note where
  | run (program : String) (e : Element)
  | resume (update : Status Element Fact) (e : Element)
  | step (name : String) (answer : Answer)

structure Rest where
  frame : Frame
  body : Body

structure Memory where
  starts : Nat
  notes : Array Note

abbrev Programs := List (String × Body)

end Blackboard.Scenario
