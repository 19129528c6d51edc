import Blackboard.Proofs.Success
import Mathlib.Algebra.BigOperators.Group.Finset.Basic
import Mathlib.Algebra.Order.BigOperators.Group.Finset
import Mathlib.Data.Prod.Lex
import Mathlib.Logic.Relation
import Mathlib.Tactic.Abel

/-! Equations that an analysis solves by means of a store. The analysis has one equation for each
entity, in terms of other entities; the store holds bounds of the solution, and computations that
are queued or sleep. -/
namespace Blackboard

section
variable {E V C K : Type}

def Task.entity? : Task E C K → Option E
  | .compute _ e => some e
  | .resume _ _ _ => none

def asked (tasks : List (Task E C K)) : Multiset E := ↑(tasks.filterMap Task.entity?)

theorem asked_append (a b : List (Task E C K)) : asked (a ++ b) = asked a + asked b := by
  simp [asked]

/-- All tasks resume computations, for the change of one of the first `n` cells. -/
def Resumes (n : Nat) (tasks : List (Task E C K)) : Prop :=
  ∀ task ∈ tasks, ∃ d i k, task = .resume d i k ∧ i < n

theorem Resumes.asked_eq_zero {n : Nat} {tasks : List (Task E C K)} (h : Resumes n tasks) :
    asked tasks = 0 := by
  have hnone : tasks.filterMap Task.entity? = [] := by
    rw [List.filterMap_eq_nil_iff]
    intro task htask
    obtain ⟨d, i, k, rfl, -⟩ := h task htask
    rfl
  rw [asked, hnone]
  rfl

theorem Resumes.append {n : Nat} {a b : List (Task E C K)} (ha : Resumes n a) (hb : Resumes n b) :
    Resumes n (a ++ b) := by
  intro task htask
  cases List.mem_append.1 htask with
  | inl h => exact ha task h
  | inr h => exact hb task h

namespace CellTable

theorem resumes_wakeTasks (t : CellTable E V K) {id n : Nat} (h : id < n) (ds : List Depender) :
    Resumes n (ds.filterMap (t.wakeTask? (C := C) id)) := by
  intro task htask
  obtain ⟨d, -, hd⟩ := List.mem_filterMap.1 htask
  obtain ⟨susp, -, rfl⟩ := Option.map_eq_some_iff.1 hd
  exact ⟨d, id, susp.continuation, rfl, h⟩

theorem resumes_firstTasks {phase : Phase C} (h : phase.triggered = []) (t : CellTable E V K)
    (cell : Cell E V K) (n : Nat) : Resumes n (Store.firstTasks phase t cell) := by
  simp [Resumes, Store.firstTasks, Phase.triggeredBy, h]

theorem resumes_installTasks (t : CellTable E V K) {phase : Phase C} (h : phase.triggered = [])
    {c : Cell E V K} {n : Nat} (hc : c.id < n) (new : Status E V) :
    Resumes n (t.installTasks phase c new) := by
  refine (resumes_wakeTasks _ hc _).append ?_
  split
  · exact resumes_firstTasks h _ _ _
  · simp [Resumes]

theorem resumes_fallAsleepTasks [DecidableEq V] (t : CellTable E V K) {phase : Phase C}
    (h : phase.triggered = []) {c : Cell E V K} {n : Nat} (hc : c.id < n) (ep : Interim E V)
    (susp : Suspension E V K) : Resumes n (t.fallAsleepTasks phase c ep susp) := by
  unfold fallAsleepTasks
  split
  · refine (resumes_wakeTasks _ hc _).append ?_
    split
    · exact resumes_firstTasks h _ _ _
    · simp [Resumes]
  · simp [Resumes]

theorem resumes_announceTasks (t : CellTable E V K)
    {batch : List (Cell E V K × Final E V)} {n : Nat} (h : ∀ p ∈ batch, p.1.id < n) :
    Resumes n (t.announceTasks (C := C) batch) := by
  induction batch generalizing t with
  | nil => simp [Resumes, announceTasks]
  | cons p rest ih =>
    exact (resumes_wakeTasks t (h p List.mem_cons_self) _).append
      (ih _ fun q hq => h q (List.mem_cons_of_mem _ hq))

end CellTable
end

theorem exists_reached_iff {α : Type} {step : α → α → Prop} {P : α → Prop} {a : α} :
    (∃ y, Relation.ReflTransGen step a y ∧ P y) ↔
      P a ∨ ∃ b, step a b ∧ ∃ y, Relation.ReflTransGen step b y ∧ P y := by
  constructor
  · intro h
    obtain ⟨y, hy, hp⟩ := h
    cases Relation.ReflTransGen.cases_head_iff.1 hy with
    | inl heq => exact .inl (heq ▸ hp)
    | inr hstep =>
      obtain ⟨b, hb, hby⟩ := hstep
      exact .inr ⟨b, hb, y, hby, hp⟩
  · intro h
    cases h with
    | inl hp => exact ⟨a, .refl, hp⟩
    | inr hstep =>
      obtain ⟨b, hb, y, hby, hp⟩ := hstep
      exact ⟨y, .head hb hby, hp⟩

theorem Status.isFinal_of_sameValues {E V : Type} [DecidableEq V] {status : Status E V}
    {ep : Interim E V} (h : status.sameValues (.interim ep) = true) : status.isFinal = false := by
  cases status <;> simp_all [sameValues, isFinal]

/-- The equations that an analysis of one kind solves lazily, each in terms of an entity's
successors, and the bounds that it may leave on its way to their solution. -/
structure Equations (E V C K : Type) [DecidableEq V] where
  kind : Kind
  resolution : Resolution V
  computation : C
  /-- Whose computation a continuation goes on with. -/
  entity : K → E
  nodes : List E
  succ : E → List E
  Bounds : (E → Status E V) → Prop
  /-- Nothing is left to derive for the entity. -/
  Solved : (E → Status E V) → E → Prop
  Improves : (E → Status E V) → (E → Status E V) → Prop
  /-- How far a status is from a final one. -/
  level : Status E V → Nat
  succ_closed : ∀ {e x}, x ∈ succ e → x ≠ e ∧ x ∈ nodes
  bounds_unknown : Bounds fun e => .unknown ⟨e, kind⟩
  bounds_key : ∀ {v}, Bounds v → ∀ e, (v e).key = ⟨e, kind⟩
  level_pos : ∀ {s}, s.isFinal = false → 0 < level s
  level_of_isFinal : ∀ {s}, s.isFinal = true → level s = 0
  improves_refl : ∀ v, Improves v v
  improves_trans : ∀ {u v w}, Improves u v → Improves v w → Improves u w
  improves_final : ∀ {v v'}, Improves v v' → ∀ e, (v e).isFinal = true → v' e = v e
  improves_level : ∀ {v v'}, Improves v v' → ∀ e, level (v' e) ≤ level (v e)
  /-- A solved equation stays solved while the successors stay in the states that were observed. -/
  solved_mono : ∀ {v v' e}, Improves v v' → Solved v e →
    (∀ x ∈ succ e, ∃ seen, (v x).sameState seen = true ∧ (v' x).sameState seen = true) → Solved v' e
  /-- A group that solves its own equations, and depends on nothing else that is not final, may be
  resolved. -/
  settle : ∀ {v v'} {group : E → Prop}, Bounds v → (∀ e, group e → Solved v e) →
    (∀ e, group e → ∀ x ∈ succ e, (v x).isFinal = true ∨ group x) → (∀ e, ¬ group e → v' e = v e) →
    (∀ e, group e → ∃ n ep, v e = .interim ep ∧
      v' e = .final ⟨ep.key, resolution.resolve n ep.lower ep.upper⟩) →
    Bounds v' ∧ Improves v v'

namespace Equations
variable {E V C K : Type} [DecidableEq V] {eqs : Equations E V C K} {s r : Store E V C K}

def keyOf (eqs : Equations E V C K) (e : E) : Key E := ⟨e, eqs.kind⟩

def due (eqs : Equations E V C K) (s : Store E V C K) : Multiset E :=
  s.held.map (fun p => eqs.entity p.2) + asked s.queue.waiting

theorem due_of_becomes (eqs : Equations E V C K) {t : CellTable E V K} {ts : List (Task E C K)}
    (h : s.Becomes t ts r) (hopen : s.queue.closed = false) (gone more : Multiset (Depender × K))
    (hp : t.pending + carried ts + gone = s.table.pending + more) :
    eqs.due r + gone.map (fun p => eqs.entity p.2) =
      eqs.due s + more.map (fun p => eqs.entity p.2) + asked ts := by
  have hnames := congrArg (Multiset.map fun p => eqs.entity p.2) hp
  simp only [Multiset.map_add] at hnames
  have hwaiting : r.queue.waiting = s.queue.waiting ++ ts := by
    rw [h.queue, Queue.waiting_enqueue hopen]
  rw [due, due, h.held hopen, hwaiting, asked_append, Store.held]
  simp only [Multiset.map_add]
  generalize asked s.queue.waiting = a at *
  calc _ = t.pending.map (fun p => eqs.entity p.2) + (carried ts).map (fun p => eqs.entity p.2) +
          gone.map (fun p => eqs.entity p.2) +
          ((carried s.queue.waiting).map (fun p => eqs.entity p.2) + a + asked ts) := by abel
    _ = s.table.pending.map (fun p => eqs.entity p.2) + more.map (fun p => eqs.entity p.2) +
          ((carried s.queue.waiting).map (fun p => eqs.entity p.2) + a + asked ts) := by rw [hnames]
    _ = _ := by abel

variable {e : E}

/-- The store computes the kind lazily, and resolves cycles as the analysis expects. -/
structure Setting (eqs : Equations E V C K) (s : Store E V C K) : Prop where
  kind : ∃ info, s.schema.find? eqs.kind = some info ∧ info.resolution = eqs.resolution
  computed : s.phase.isComputed eqs.kind = true
  lazy : s.phase.lazyFor eqs.kind = some eqs.computation
  triggered : s.phase.triggered = []
  delayed : s.phase.delayed = []
  halted : s.queue.halted = false
  closed : s.queue.closed = false
  fault : s.fault = none

theorem Setting.of_becomes {t : CellTable E V K} {ts : List (Task E C K)} (h : eqs.Setting s)
    (hr : s.Becomes t ts r) : eqs.Setting r where
  kind := hr.schema ▸ h.kind
  computed := hr.phase ▸ h.computed
  lazy := hr.phase ▸ h.lazy
  triggered := hr.phase ▸ h.triggered
  delayed := hr.phase ▸ h.delayed
  halted := hr.halted.trans h.halted
  closed := hr.closed.trans h.closed
  fault := hr.fault.trans h.fault

/-- The tasks of the analysis: to compute an entity, or to go on after a change of one of the first
`n` cells. -/
inductive Expects (eqs : Equations E V C K) (n : Nat) : Task E C K → Prop
  | compute (e : E) : eqs.Expects n (.compute eqs.computation e)
  | resume (d : Depender) {i : Nat} (h : i < n) (k : K) : eqs.Expects n (.resume d i k)

theorem Expects.mono {n m : Nat} {task : Task E C K} (h : eqs.Expects n task) (hnm : n ≤ m) :
    eqs.Expects m task := by
  cases h with
  | compute e => exact .compute e
  | resume d h k => exact .resume d (h.trans_le hnm) k

variable [DecidableEq E] {running : Multiset E}

theorem keyOf_same {x y : E} : (eqs.keyOf x).same (eqs.keyOf y) = true ↔ x = y := by
  simp [keyOf]

def view (eqs : Equations E V C K) (s : Store E V C K) (e : E) : Status E V :=
  s.statusOf (eqs.keyOf e)

theorem view_congr (eqs : Equations E V C K) (h : r.table = s.table) : eqs.view r = eqs.view s := by
  funext e
  rw [view, view, Store.statusOf, Store.statusOf, h]

/-- A sleeping computation is that of its cell, has nothing left to derive, and waits on each
successor that is not final. -/
structure Rests (eqs : Equations E V C K) (s : Store E V C K) (d : Depender)
    (susp : Suspension E V K) : Prop where
  cell : ∃ c, s.table.find? (eqs.keyOf (eqs.entity susp.continuation)) = some c ∧ d = .cell c.id
  solved : eqs.Solved (eqs.view s) (eqs.entity susp.continuation)
  covers : ∀ x ∈ eqs.succ (eqs.entity susp.continuation), (eqs.view s x).isFinal = true ∨
    ∃ c, s.table.find? (eqs.keyOf x) = some c ∧ c.id ∈ susp.ids

/-- What a sleeper waits on stays in the state that it observed: had it changed, the sleeper would
have been woken. -/
theorem sameState_of_asleep {d : Depender} {susp : Suspension E V K} {x : E}
    {c : Cell E V K} (hs : s.Sound) (hr : r.Sound) (hl : s.table.Linked) (hl' : r.table.Linked)
    (hk : ∀ i own, s.table.key? i = some own → r.table.key? i = some own)
    (hasleep : s.table.suspension? d = some susp) (hasleep' : r.table.suspension? d = some susp)
    (hc : s.table.find? (eqs.keyOf x) = some c) (hmem : c.id ∈ susp.ids) :
    ∃ seen, (eqs.view s x).sameState seen = true ∧ (eqs.view r x).sameState seen = true := by
  obtain ⟨p, hp, hpid⟩ := List.mem_map.1 hmem
  obtain ⟨c', hc', hid⟩ := Store.find?_of_keys hs hr hk hc
  obtain ⟨-, b, hb, hstate, -⟩ := hl d susp hasleep p hp
  obtain ⟨-, b', hb', hstate', -⟩ := hl' d susp hasleep' p hp
  obtain ⟨hcell, -⟩ := CellTable.find?_eq_some hs.table hc
  obtain ⟨hcell', -⟩ := CellTable.find?_eq_some hr.table hc'
  rw [hpid] at hb hb'
  rw [hid] at hcell'
  obtain rfl : c = b := Option.some.inj (hcell.symm.trans hb)
  obtain rfl : c' = b' := Option.some.inj (hcell'.symm.trans hb')
  exact ⟨p.2, by rwa [view, Store.statusOf_found hc], by rwa [view, Store.statusOf_found hc']⟩

theorem Rests.mono {d : Depender} {susp : Suspension E V K} (h : eqs.Rests s d susp)
    (hs : s.Sound) (hr : r.Sound) (hl : s.table.Linked) (hl' : r.table.Linked)
    (hk : ∀ i own, s.table.key? i = some own → r.table.key? i = some own)
    (hi : eqs.Improves (eqs.view s) (eqs.view r)) (hasleep : s.table.suspension? d = some susp)
    (hasleep' : r.table.suspension? d = some susp) : eqs.Rests r d susp := by
  refine ⟨?_, eqs.solved_mono hi h.solved ?_, ?_⟩
  · obtain ⟨c, hc, rfl⟩ := h.cell
    obtain ⟨c', hc', hid⟩ := Store.find?_of_keys hs hr hk hc
    exact ⟨c', hc', by rw [hid]⟩
  · intro x hx
    cases h.covers x hx with
    | inl hfinal =>
      have hself := Status.sameState_self (eqs.view s x)
      exact ⟨_, hself, (eqs.improves_final hi x hfinal).symm ▸ hself⟩
    | inr hawaits =>
      obtain ⟨c, hc, hmem⟩ := hawaits
      exact sameState_of_asleep hs hr hl hl' hk hasleep hasleep' hc hmem
  · intro x hx
    cases h.covers x hx with
    | inl hfinal => exact .inl ((eqs.improves_final hi x hfinal).symm ▸ hfinal)
    | inr hawaits =>
      obtain ⟨c, hc, hmem⟩ := hawaits
      obtain ⟨c', hc', hid⟩ := Store.find?_of_keys hs hr hk hc
      exact .inr ⟨c', hc', hid ▸ hmem⟩

/-! How far a store is from the solution: the sum of what its entities still have to go and of the
cells still to be made, and then the number of queued tasks. -/

def distance (eqs : Equations E V C K) (s : Store E V C K) : Nat :=
  ∑ e ∈ eqs.nodes.toFinset, eqs.level (eqs.view s e) + (eqs.nodes.toFinset.card - s.table.size)

def remaining (eqs : Equations E V C K) (s : Store E V C K) : ℕ ×ₗ ℕ :=
  toLex (eqs.distance s, s.queue.pending)

theorem distance_congr (eqs : Equations E V C K) (h : r.table = s.table) :
    eqs.distance r = eqs.distance s := by
  rw [distance, distance, eqs.view_congr h, h]

theorem distance_le (hi : eqs.Improves (eqs.view s) (eqs.view r))
    (hsize : s.table.size ≤ r.table.size) : eqs.distance r ≤ eqs.distance s := by
  have hsum : ∑ e ∈ eqs.nodes.toFinset, eqs.level (eqs.view r e) ≤
      ∑ e ∈ eqs.nodes.toFinset, eqs.level (eqs.view s e) :=
    Finset.sum_le_sum fun e _ => eqs.improves_level hi e
  unfold distance
  omega

theorem distance_lt (hi : eqs.Improves (eqs.view s) (eqs.view r))
    (hsize : s.table.size ≤ r.table.size) {e : E} (he : e ∈ eqs.nodes)
    (hlt : eqs.level (eqs.view r e) < eqs.level (eqs.view s e)) :
    eqs.distance r < eqs.distance s := by
  have hsum : ∑ e ∈ eqs.nodes.toFinset, eqs.level (eqs.view r e) <
      ∑ e ∈ eqs.nodes.toFinset, eqs.level (eqs.view s e) :=
    Finset.sum_lt_sum (fun e _ => eqs.improves_level hi e) ⟨e, List.mem_toFinset.2 he, hlt⟩
  unfold distance
  omega

theorem remaining_lt (h : eqs.distance r < eqs.distance s) : eqs.remaining r < eqs.remaining s :=
  Prod.Lex.toLex_lt_toLex.2 (.inl h)

theorem remaining_le (h : eqs.distance r ≤ eqs.distance s)
    (hq : r.queue.pending ≤ s.queue.pending) : eqs.remaining r ≤ eqs.remaining s := by
  refine Prod.Lex.toLex_le_toLex.2 ?_
  cases Nat.lt_or_eq_of_le h with
  | inl hlt => exact .inl hlt
  | inr heq => exact .inr ⟨heq, hq⟩

/-- No cell is lost, and the solution gets no farther away. -/
structure Advances (eqs : Equations E V C K) (s r : Store E V C K) : Prop where
  known : ∀ e, s.isKnown (eqs.keyOf e) = true → r.isKnown (eqs.keyOf e) = true
  remaining : eqs.remaining r ≤ eqs.remaining s

namespace Advances

theorem refl (eqs : Equations E V C K) (s : Store E V C K) : eqs.Advances s s :=
  ⟨fun _ h => h, le_rfl⟩

theorem trans {q : Store E V C K} (h : eqs.Advances s q) (h' : eqs.Advances q r) :
    eqs.Advances s r :=
  ⟨fun e he => h'.known e (h.known e he), h'.remaining.trans h.remaining⟩

theorem of_quiet (h : s.Becomes s.table [] r) : eqs.Advances s r := by
  refine ⟨?_, remaining_le (eqs.distance_congr h.table).le (by simp [h.queue])⟩
  intro e he
  rwa [Store.isKnown, h.table]

theorem of_keys (hs : s.Sound) (hr : r.Sound) (hkeys : ∀ i, r.table.key? i = s.table.key? i)
    (h : eqs.remaining r ≤ eqs.remaining s) : eqs.Advances s r :=
  ⟨fun _ => Store.isKnown_of_keys hs hr fun i _ hi => (hkeys i).trans hi, h⟩

end Advances

end Equations
end Blackboard
