import Blackboard.Depender
/-!
Closed groups of suspended computations. If everything that a strongly connected group waits on lies
inside the group, nothing outside can ever wake one of its members.

The groups are found by one depth first search. A node leads back to the least index among the nodes
it reaches that are in no group yet; one that leads back to nothing before itself completes a group.
-/
namespace Blackboard

structure Waiting where
  depender : Depender
  dependees : List Nat
deriving DecidableEq, Repr

namespace Waiting

def code (w : Waiting) : Nat := w.depender.encode

def isSuspended (ws : List Waiting) (x : Nat) : Bool := ws.any (·.code == x)

/-- Codes in the order they are first mentioned, leaving out dependees that are not suspended. -/
def nodes (ws : List Waiting) : List Nat :=
  (ws.flatMap fun w => w.code :: w.dependees.filter (isSuspended ws)).eraseDups

def dependeesOf (ws : List Waiting) (x : Nat) : List Nat :=
  (ws.filter (·.code == x)).flatMap (·.dependees)

def successors (ws : List Waiting) (x : Nat) : List Nat :=
  ((dependeesOf ws x).filter (isSuspended ws)).eraseDups

def isOpen (ws : List Waiting) (x : Nat) : Bool := (dependeesOf ws x).any (!isSuspended ws ·)

end Waiting

/-- What a search knows of a node: nothing yet; the least index that it leads back to, as far as it
has been followed; or the number of its group. -/
inductive Mark where
  | unseen
  | index (n : Nat)
  | component (n : Nat)
deriving DecidableEq, Repr

/-- Unseen nodes come first, then indices; groups are numbered downwards from the top. -/
def Mark.below : Mark → Mark → Bool
  | unseen, unseen => false
  | unseen, index _ => true
  | unseen, component _ => true
  | index _, unseen => false
  | index m, index n => m < n
  | index _, component _ => true
  | component _, unseen => false
  | component _, index _ => false
  | component m, component n => n < m

/-- A depth first search for strongly connected groups. `stack` holds the nodes that are finished
and in no group yet, the latest first; `found` the groups, the latest first, each in the order its
members were finished. -/
structure Search where
  index : Nat
  marks : List (Nat × Mark)
  stack : List Nat
  found : List (List Nat)
deriving DecidableEq, Repr

namespace Search

def start : Search := ⟨1, [], [], []⟩

def root (t : Search) (x : Nat) : Mark := (t.marks.lookup x).getD .unseen

def mark (t : Search) (x : Nat) (m : Mark) : Search := { t with marks := (x, m) :: t.marks }

def enter (t : Search) (x : Nat) : Search := { t.mark x (.index t.index) with index := t.index + 1 }

/-- `x` leads to `y`, and so to whatever `y` leads back to. Tells whether `x` may still be the first
member of its group. -/
def lower (x : Nat) (s : Search × Bool) (y : Nat) : Search × Bool :=
  if (s.1.root y).below (s.1.root x) then (s.1.mark x (s.1.root y), false) else s

def above (t : Search) (x : Nat) : List Nat :=
  t.stack.takeWhile fun y => !(t.root y).below (t.root x)

/-- `x` leads back to nothing before it: with all above it, it is a group. The indices are free
again. -/
def close (t : Search) (x : Nat) : Search :=
  let members := x :: t.above x
  { index := t.index - members.length
    marks := members.map (·, .component t.found.length) ++ t.marks
    stack := t.stack.drop (t.above x).length
    found := members.reverse :: t.found }

def push (t : Search) (x : Nat) : Search := { t with stack := x :: t.stack }

def follow (visit : Search → Nat → Search) (x : Nat) (s : Search × Bool) (y : Nat) :
    Search × Bool :=
  lower x (if s.1.root y = .unseen then (visit s.1 y, s.2) else s) y

def visit (next : Nat → List Nat) : Nat → Search → Nat → Search
  | 0, t, _ => t
  | depth + 1, t, x =>
    let (t, isFirst) := (next x).foldl (follow (visit next depth) x) (t.enter x, true)
    if isFirst then t.close x else t.push x

end Search

/-- A function with some of its values worked out in advance. -/
structure Tabulated (β : Type) where
  known : List (Nat × β)
  other : Nat → β

namespace Tabulated
variable {β : Type}

def of (xs : List Nat) (f : Nat → β) : Tabulated β := ⟨xs.map fun x => (x, f x), f⟩

def get (t : Tabulated β) (x : Nat) : β := (t.known.lookup x).getD (t.other x)

@[simp] theorem get_of (xs : List Nat) (f : Nat → β) (x : Nat) : (of xs f).get x = f x := by
  simp only [of, get]
  induction xs with
  | nil => rfl
  | cons y r ih =>
    by_cases h : x = y
    · simp [h]
    · have h' : (x == y) = false := by simpa using h
      simpa [List.lookup_cons, h'] using ih

end Tabulated

structure WaitGraph where
  nodes : List Nat
  next : Tabulated (List Nat)
  isOpen : Tabulated Bool

namespace WaitGraph

def ofWaiting (ws : List Waiting) : WaitGraph :=
  let nodes := Waiting.nodes ws
  ⟨nodes, .of nodes (Waiting.successors ws), .of nodes (Waiting.isOpen ws)⟩

/-- Every node is visited, those first mentioned first. No path without repetition is longer than
the number of nodes. -/
def search (g : WaitGraph) : Search :=
  g.nodes.foldl
    (fun t x => if t.root x = .unseen then Search.visit g.next.get g.nodes.length t x else t) .start

def components (g : WaitGraph) : List (List Nat) := g.search.found.reverse

/-- No member waits on something that is not suspended, or on a computation of another group. -/
def isClosed (g : WaitGraph) (members : List Nat) : Bool :=
  members.all fun x => !g.isOpen.get x && (g.next.get x).all fun y => members.contains y

end WaitGraph

def closedComponents (ws : List Waiting) : List (List Depender) :=
  let g := WaitGraph.ofWaiting ws
  (g.components.filter g.isClosed).map (·.map Depender.decode)

end Blackboard
