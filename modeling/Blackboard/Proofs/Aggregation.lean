import Blackboard.Analysis.Fact
import Blackboard.Proofs.Course
import Blackboard.Proofs.Observers
import Blackboard.Proofs.Success

/-! Contributions aggregate in any order. Computations that share a set-valued key each add their
part to what is known. Whoever comes first makes the cell, parts that are known already are passed
over, and when nobody is left to contribute the union of all parts becomes final. -/
namespace Blackboard

/-- Values that stand for finite sets. A set may follow those that it contains. -/
structure SetValues (V α : Type) [Ord α] [Property V] where
  ofSet : SortedSet α → V
  toSet : V → SortedSet α
  toSet_ofSet : ∀ t, toSet (ofSet t) = t
  follows : ∀ s t, Property.refusal? (ofSet t) (ofSet s) = none ↔ ∀ a, a ∈ s → a ∈ t

namespace SortedSet
variable {α : Type} [Ord α] [Std.TransOrd α] [Std.LawfulEqOrd α]

theorem mem_foldl_union {before : SortedSet α} {ts : List (SortedSet α)} {a : α} :
    a ∈ ts.foldl union before ↔ a ∈ before ∨ ∃ t ∈ ts, a ∈ t := by
  induction ts generalizing before with
  | nil => simp
  | cons t rest ih =>
    rw [List.foldl_cons, ih, mem_union]
    simp only [List.mem_cons, exists_eq_or_imp]
    tauto

variable [DecidableEq α]

theorem union_eq_left {s t : SortedSet α} : s.union t = s ↔ t.subset s = true := by
  rw [subset_iff]
  constructor
  · intro h a ha
    rw [← h]
    exact mem_union.2 (.inl ha)
  · intro h
    refine ext_mem fun a => mem_union.trans ?_
    exact ⟨fun ha => ha.elim (h a) id, .inr⟩

/-- How many sets of a list are not contained in the union of what was there before and the earlier
ones. -/
def news (before : SortedSet α) : List (SortedSet α) → Nat
  | [] => 0
  | t :: rest => (if t.subset before then 0 else 1) + news (before.union t) rest

end SortedSet

namespace SetValues
variable {E V C K α : Type} [Ord α] [Property V] (values : SetValues V α)

def known (status : Status E V) : SortedSet α :=
  (status.lower?.map fun v => values.toSet v.value).getD ∅

abbrev interimAt (key : Key E) (stamp : Nat) (t : SortedSet α) : Status E V :=
  .interim (.ofValue key ⟨stamp, values.ofSet t⟩)

abbrev finalAt (key : Key E) (stamp : Nat) (t : SortedSet α) : Status E V :=
  .final ⟨key, ⟨stamp, values.ofSet t⟩⟩

variable [Std.TransOrd α] [Std.LawfulEqOrd α] [DecidableEq α]

def add (key : Key E) (stamp : Nat) (part : SortedSet α) (status : Status E V) :
    Option (Interim E V) :=
  if part.subset (values.known status) then none
  else some (.ofValue key ⟨stamp, values.ofSet ((values.known status).union part)⟩)

def contributor (key : Key E) (part : C → SortedSet α) : Client E V C K Unit where
  start c _ _ := do
    let stamp ← Script.ask .stamp
    return (.ok (.contribution ⟨key, fun status => .ok (values.add key stamp (part c) status)⟩), ())
  resume _ _ _ := return (.ok .nothing, ())

end SetValues

/-! A store in which nothing but one key is known. -/

/-- A cell that nobody waits on and that nobody refines on their own. -/
def Cell.shared {E V K : Type} (key : Key E) (status : Status E V) : Cell E V K :=
  ⟨0, key, status, none, ∅, status.hasValue⟩

def Cell.sharedNext {E V K : Type} (key : Key E) (old new : Status E V) : Cell E V K :=
  { shared key old with status := new }

namespace CellTable
variable {E V K : Type} {cell : Cell E V K}

def only (cell : Cell E V K) : CellTable E V K := ⟨#[cell], [], 0⟩

theorem find?_shared [DecidableEq E] (key : Key E) (status : Status E V) :
    (only (.shared key status) : CellTable E V K).find? key = some (.shared key status) := by
  simp [only, find?, Cell.shared, Key.same, Kind.same]

theorem modify_only (f : Cell E V K → Cell E V K) : (only cell).modify 0 f = only (f cell) := by
  simp [only, modify]

end CellTable

namespace Store
variable {E V C K : Type} {s r : Store E V C K}

/-- Computations may share a key: its kind is registered with the default resolution, has no lazy or
triggered computation and is not left to a later phase; the store checks its values, and works. -/
structure Shares (key : Key E) (s : Store E V C K) : Prop where
  debug : s.config.debug = true
  kind : ∃ info, s.schema.find? key.kind = some info ∧ info.resolution = default
  lazy : s.phase.lazyFor key.kind = none
  triggered : s.phase.triggeredBy key.kind = []
  delayed : s.phase.isDelayed key.kind = false
  fault : s.fault = none
  halted : s.queue.halted = false
  closed : s.queue.closed = false

theorem trigger_alone {cell c : Cell E V K} (hc : s.cell? cell.id = some c)
    (hfirst : c.triggered = false) (hid : c.id = cell.id)
    (hnone : s.phase.triggeredBy cell.key.kind = []) :
    s.trigger cell = { s with table := s.table.mark cell.id } := by
  have htable : s.table.mark cell.id =
      s.table.modify cell.id fun _ => { c with triggered := true } := by
    refine CellTable.modify_congr fun e he => ?_
    rw [Option.some.inj (hc.symm.trans he)]
  simp [trigger, hc, Cell.markTriggered, hfirst, hnone, writeCell, modifyCell, hid, htable]

theorem afterUpdate_alone {cell c : Cell E V K} {u : Update E V K} (hchanged : u.changed = true)
    (hdependers : u.dependers = ∅) (hdropped : u.dropped = none) (hc : s.cell? cell.id = some c)
    (hfirst : u.old.isUnknown = true → c.triggered = false) (hid : c.id = cell.id)
    (hnone : s.phase.triggeredBy cell.key.kind = []) :
    AgreesWith { s with
      table := if u.old.isUnknown then s.table.mark cell.id else s.table
      stats := { s.stats with updates := s.stats.updates + 1 } } (s.afterUpdate cell u) := by
  have hmembers : (∅ : DependerSet).members = [] := rfl
  simp only [afterUpdate, hchanged, hdependers, hdropped, hmembers, List.foldl_nil, Bool.not_true,
    Bool.false_eq_true, if_false]
  generalize hcount : s.count (fun n => { n with updates := n.updates + 1 }) = q
  have htold := (AgreesWith.notify q (.updated cell.key u.new (∅ : DependerSet).size)).trans
    (.trace _ (.update u.old u.new))
  generalize (q.notify (.updated cell.key u.new (∅ : DependerSet).size)).trace
    (.update u.old u.new) = q' at htold ⊢
  subst hcount
  split
  · next hold =>
    have hc' : q'.cell? cell.id = some c := by rw [Store.cell?, htold.table]; exact hc
    rw [trigger_alone hc' (hfirst hold) hid (htold.phase ▸ hnone)]
    exact { htold with table := congrArg (CellTable.mark · cell.id) htold.table }
  · exact htold

theorem afterUpdate_shared {key : Key E} {status new : Status E V} (cell : Cell E V K)
    (hid : cell.id = 0) (hkey : cell.key = key)
    (htable : s.table = .only (.sharedNext key status new)) (hnew : new.isUnknown = false)
    (hnone : s.phase.triggeredBy key.kind = []) :
    AgreesWith { s with
      table := .only (.shared key new)
      stats := { s.stats with updates := s.stats.updates + 1 } }
        (s.afterUpdate cell ⟨status, new, true, ∅, none⟩) := by
  have hc : s.cell? cell.id = some (.sharedNext key status new) := by
    rw [Store.cell?, htable, hid]
    rfl
  have hfirst : status.isUnknown = true →
      (Cell.sharedNext key status new : Cell E V K).triggered = false := by
    intro hold
    simp [Cell.sharedNext, Cell.shared, Status.hasValue, hold]
  have halone := afterUpdate_alone (u := ⟨status, new, true, ∅, none⟩) rfl rfl rfl hc hfirst
    hid.symm (hkey ▸ hnone)
  have hmarked : (if status.isUnknown then s.table.mark cell.id else s.table) =
      .only (.shared key new) := by
    rw [htable, hid]
    cases hold : status.isUnknown <;>
      simp [CellTable.mark, CellTable.modify, CellTable.only, Cell.sharedNext, Cell.shared,
        Status.hasValue, hold, hnew]
  rwa [hmarked] at halone

theorem Shares.congr {key : Key E} (h : s.Shares key) (hconfig : r.config = s.config)
    (hschema : r.schema = s.schema) (hphase : r.phase = s.phase) (hfault : r.fault = s.fault)
    (hhalted : r.queue.halted = s.queue.halted) (hclosed : r.queue.closed = s.queue.closed) :
    r.Shares key :=
  ⟨hconfig ▸ h.debug, hschema ▸ h.kind, hphase ▸ h.lazy, hphase ▸ h.triggered, hphase ▸ h.delayed,
    hfault ▸ h.fault, hhalted ▸ h.halted, hclosed ▸ h.closed⟩

structure Tallied (key : Key E) (updates resolved : Nat) (s : Store E V C K) : Prop
    extends s.Shares key where
  updates : s.stats.updates = updates
  fallbacks : s.stats.fallbacks = 0
  resolved : s.stats.resolvedInterims = resolved

theorem Tallied.agrees {key : Key E} {updates resolved : Nat} (h : s.Tallied key updates resolved)
    (hr : s.AgreesWith r) : r.Tallied key updates resolved :=
  ⟨h.toShares.congr hr.config hr.schema hr.phase hr.fault (congrArg (·.halted) hr.queue)
    (congrArg (·.closed) hr.queue),
    hr.stats ▸ h.updates, hr.stats ▸ h.fallbacks, hr.stats ▸ h.resolved⟩

theorem Tallied.counted {key : Key E} {updates resolved : Nat} (h : s.Tallied key updates resolved)
    {f : Statistics → Statistics} (hupdates : (f s.stats).updates = s.stats.updates)
    (hfallbacks : (f s.stats).fallbacks = s.stats.fallbacks)
    (hresolved : (f s.stats).resolvedInterims = s.stats.resolvedInterims) :
    (s.count f).Tallied key updates resolved :=
  ⟨h.toShares.congr rfl rfl rfl rfl rfl rfl, hupdates.trans h.updates, hfallbacks.trans h.fallbacks,
    hresolved.trans h.resolved⟩

theorem Tallied.updated {key : Key E} {updates resolved : Nat} {status new : Status E V}
    (h : s.Tallied key updates resolved) (cell : Cell E V K) (hid : cell.id = 0)
    (hkey : cell.key = key) (htable : s.table = .only (.sharedNext key status new))
    (hnew : new.isUnknown = false) :
    (s.afterUpdate cell ⟨status, new, true, ∅, none⟩).queue = s.queue ∧
      (s.afterUpdate cell ⟨status, new, true, ∅, none⟩).table = .only (.shared key new) ∧
      (s.afterUpdate cell ⟨status, new, true, ∅, none⟩).Tallied key (updates + 1) resolved := by
  have hr := afterUpdate_shared cell hid hkey htable hnew h.triggered
  refine ⟨hr.queue, hr.table, Tallied.agrees ?_ hr⟩
  exact ⟨h.toShares.congr rfl rfl rfl rfl rfl rfl, congrArg (· + 1) h.updates,
    h.fallbacks, h.resolved⟩

theorem settle_shared [DecidableEq E] [DecidableEq V] [Property V] [ToString E]
    [ToString V] {key : Key E} {status : Status E V} (h : s.Shares key)
    (htable : s.table = .only (.shared key status)) (hvalue : status.isUnknown = false)
    {ok : Bool → Store E V C K → Prop} {bad : Store E V C K → Prop}
    (hlast : Ends (settleEach finalize [.shared key status]) s ok bad) :
    Ends (settle true true) s ok bad := by
  -- a pass without a candidate leaves the round to the next one
  have hskip {x y : Op E V C K Bool} (hx : Ends x s (fun done r => done = false ∧ r = s) bad)
      (hy : Ends y s ok bad) :
      Ends (x >>= fun done => if done then pure true else y) s ok bad := by
    refine .bind hx fun done r hr => ?_
    obtain ⟨rfl, rfl⟩ := hr
    exact hy
  have hcells : s.cells = [.shared key status] := by
    rw [cells, htable]
    rfl
  have hkey : (Cell.shared key status : Cell E V K).key = key := rfl
  have hsilent : (Cell.shared key status : Cell E V K).hasDependers = false := rfl
  have hawaited : s.settleable true = [] := by simp [settleable, hcells, hsilent]
  have hothers : s.settleable false = [.shared key status] := by
    simp [settleable, hcells, hsilent, hkey, h.delayed]
  have hfall (waitedOn : Bool) :
      Ends (applyFallbacks waitedOn) s (fun done r => done = false ∧ r = s) bad := by
    refine .read ?_
    have hnone : (s.settleable waitedOn).filter (·.status.isUnknown) = [] := by
      cases waitedOn <;> simp [hawaited, hothers, Cell.shared, hvalue]
    rw [hnone]
    exact .answer ⟨rfl, rfl⟩
  have hgroups : Ends resolveClosedGroups s (fun done r => done = false ∧ r = s) bad := by
    have hwaiting : s.waiting = [] := by
      rw [waiting, hcells, htable]
      rfl
    refine .read ?_
    dsimp only
    rw [hwaiting]
    exact .answer ⟨rfl, rfl⟩
  have hinterims : Ends (finalizeInterims true) s (fun done r => done = false ∧ r = s) bad := by
    refine .read ?_
    rw [hawaited]
    exact .answer ⟨rfl, rfl⟩
  refine hskip (hfall true) (hskip hgroups (hskip hinterims (hskip (hfall false) (.read ?_))))
  rw [hothers]
  exact hlast

theorem onQuiescence_of_settle [DecidableEq E] [DecidableEq V] [Property V] [ToString E]
    [ToString V] {changed : Bool} {P : Store E V C K → Prop}
    (hP : ∀ q r, q.AgreesWith r → P q → P r)
    (h : ∀ q,
      (s.count fun n => { n with quiescenceRounds := n.quiescenceRounds + 1 }).AgreesWith q →
      Ends (settle true true) q (fun done r => done = changed ∧ P r) fun _ => False) :
    (s.onQuiescence true true).1 = changed ∧ P (s.onQuiescence true true).2 := by
  obtain ⟨done, r, hr, hdone, hafter⟩ := (h s.beginRound (.trace _ _)).exists_ok
  rw [onQuiescence_of_ok hr]
  exact ⟨hdone, hP _ _ (.notify _ _) hafter⟩

end Store

namespace SetValues
variable {E V C K α : Type} [Ord α] [Property V] {values : SetValues V α}
  {s r : Store E V C K} {key : Key E} {total part : SortedSet α} {count : Nat}

/-- What is known of a key once parts with a union were contributed: nothing as long as all of them
are empty. -/
inductive Shows (values : SetValues V α) (key : Key E) : SortedSet α → Status E V → Prop
  | unknown : Shows values key ∅ (.unknown key)
  | bound (stamp : Nat) {total : SortedSet α} (h : total ≠ ∅) :
      Shows values key total (values.interimAt key stamp total)

inductive Holds (values : SetValues V α) (key : Key E) : SortedSet α → CellTable E V K → Prop
  | nothing : Holds values key ∅ .empty
  | cell {total : SortedSet α} {status : Status E V} (h : values.Shows key total status) :
      Holds values key total (.only (.shared key status))

/-- Parts with a union were contributed, `count` of them with something new. -/
structure Gathered (values : SetValues V α) (key : Key E) (total : SortedSet α) (count : Nat)
    (s : Store E V C K) : Prop extends s.Tallied key count 0 where
  table : values.Holds key total s.table

theorem Gathered.agrees (h : values.Gathered key total count s) (hr : s.AgreesWith r) :
    values.Gathered key total count r :=
  ⟨h.toTallied.agrees hr, hr.table ▸ h.table⟩

structure Settled (values : SetValues V α) (key : Key E) (total : SortedSet α) (count : Nat)
    (s : Store E V C K) : Prop extends s.Tallied key count 1 where
  table : ∃ stamp, s.table = .only (.shared key (values.finalAt key stamp total))

theorem Settled.agrees (h : values.Settled key total count s) (hr : s.AgreesWith r) :
    values.Settled key total count r :=
  ⟨h.toTallied.agrees hr, hr.table ▸ h.table⟩

theorem Settled.status [DecidableEq E] (h : values.Settled key total count s) :
    ∃ stamp, (s.table.find? key).map (·.status) = some (values.finalAt key stamp total) := by
  obtain ⟨stamp, htable⟩ := h.table
  refine ⟨stamp, ?_⟩
  rw [htable, CellTable.find?_shared]
  rfl

theorem Settled.of_update {cell : Cell E V K} {status : Status E V} {stamp : Nat}
    (hid : cell.id = 0) (hkey : cell.key = key)
    (htable : s.table = .only (.sharedNext key status (values.finalAt key stamp total)))
    (h : s.Tallied key count 1) :
    (s.afterUpdate cell ⟨status, values.finalAt key stamp total, true, ∅, none⟩).queue = s.queue ∧
      values.Settled key total (count + 1)
        (s.afterUpdate cell ⟨status, values.finalAt key stamp total, true, ∅, none⟩) := by
  obtain ⟨hqueue, hafter, htallied⟩ := h.updated cell hid hkey htable rfl
  exact ⟨hqueue, htallied, stamp, hafter⟩

theorem Gathered.cellOf [DecidableEq E] (h : values.Gathered key total count s) :
    Store.Ends (Store.cellOf key) s
      (fun c r => ∃ status, c = .shared key status ∧
        r = { s with table := .only (.shared key status) } ∧
        values.Shows key total status) (fun _ => False) := by
  obtain ⟨info, hinfo, -⟩ := h.kind
  have hmade : ∃ status created,
      s.table.getOrCreate key = .ok (.shared key status, created, .only (.shared key status)) ∧
        values.Shows key total status := by
    have htable := h.table
    generalize s.table = t at htable
    cases htable with
    | nothing => exact ⟨.unknown key, true, rfl, .unknown⟩
    | cell hshows => exact ⟨_, false, by rw [CellTable.getOrCreate, CellTable.find?_shared], hshows⟩
  obtain ⟨status, created, hget, hshows⟩ := hmade
  refine .bind (Store.infoOf_registered (by simp [hinfo])) fun _ r hr => ?_
  obtain ⟨rfl, -⟩ := hr
  have hcell : Store.Ends (Store.getOrCreate key) r
      (fun p q => p.1 = .shared key status ∧ q = { r with table := .only (.shared key status) })
      (fun _ => False) := by
    refine .read ?_
    rw [hget]
    exact .write_then (.answer ⟨rfl, rfl⟩)
  exact .bind hcell fun p q hq => .answer ⟨status, hq.1, hq.2, hshows⟩

theorem Shows.isFinal {status : Status E V} (h : values.Shows key total status) :
    status.isFinal = false := by
  cases h <;> rfl

theorem Shows.known {status : Status E V} (h : values.Shows key total status) :
    values.known status = total := by
  cases h with
  | unknown => rfl
  | bound stamp _ => exact values.toSet_ofSet _

variable [DecidableEq E] [DecidableEq V] [ToString E] [ToString V]

theorem Gathered.schedule (h : values.Gathered key total count s) (c : C) (e : E) :
    values.Gathered key total count (s.act (.call (.scheduleEager [e] c))) ∧
      (s.act (.call (.scheduleEager [e] c))).queue.waiting = s.queue.waiting ++ [.compute c e] := by
  have hact : s.act (.call (.scheduleEager [e] c)) = s.schedule "eager" c e := by
    have hends : Store.Ends (Store.scheduleEager [e] c) s (fun _ r => r = s.schedule "eager" c e)
        (fun _ => False) := by
      refine .bind (Store.checkRunning_succeeds h.closed) ?_
      rintro _ r rfl
      exact .write rfl
    exact (hends.mono (fun _ _ hr => hr) fun _ hr => hr.elim).answer_snd
  have htraced :=
    Store.AgreesWith.trace (s.count fun n => { n with scheduledTasks := n.scheduledTasks + 1 })
      (.schedule e "eager")
  have hq := Gathered.agrees ⟨h.toTallied.counted rfl rfl rfl, h.table⟩ htraced
  rw [hact, Store.schedule, Store.push, Queue.push, if_neg (Bool.eq_false_iff.1 hq.closed)]
  refine ⟨⟨⟨hq.toShares.congr rfl rfl rfl rfl rfl rfl, hq.updates, hq.fallbacks, hq.resolved⟩,
    hq.table⟩, ?_⟩
  exact congrArg (·.waiting ++ [.compute c e]) htraced.queue

theorem Gathered.scheduleAll (h : values.Gathered key total count s) (work : List (C × E)) :
    values.Gathered key total count (s.run (work.map fun p => .call (.scheduleEager [p.2] p.1))) ∧
      (s.run (work.map fun p => .call (.scheduleEager [p.2] p.1))).queue.waiting =
        s.queue.waiting ++ work.map fun p => .compute p.1 p.2 := by
  induction work generalizing s with
  | nil => exact ⟨h, (List.append_nil _).symm⟩
  | cons p rest ih =>
    obtain ⟨hscheduled, hwaiting⟩ := h.schedule p.1 p.2
    obtain ⟨hall, hqueue⟩ := ih hscheduled
    rw [hwaiting, List.append_assoc] at hqueue
    exact ⟨hall, hqueue⟩

section Contributing
variable [Std.TransOrd α] [Std.LawfulEqOrd α] [DecidableEq α]

section
variable {status : Status E V}

theorem Shows.add_known (h : values.Shows key total status) (stamp : Nat)
    (hpart : part.subset total = true) :
    (Cell.shared key status : Cell E V K).updateWith
      (fun _ => (values.add key stamp part status).map .interim) true =
        .ok (.unchanged status, .shared key status) := by
  simp [Cell.updateWith, Cell.shared, h.isFinal, add, h.known, hpart]

theorem Shows.add_new (h : values.Shows key total status) (stamp : Nat)
    (hpart : part.subset total = false) :
    (Cell.shared key status : Cell E V K).updateWith
      (fun _ => (values.add key stamp part status).map .interim) true =
        .ok (⟨status, values.interimAt key stamp (total.union part), true, ∅, none⟩,
        .sharedNext key status (values.interimAt key stamp (total.union part))) := by
  have hopen := h.isFinal
  generalize hnew : (values.interimAt key stamp (total.union part) : Status E V) = new
  have hfit : (Cell.shared key status : Cell E V K).Fits new := by
    subst hnew
    exact ⟨hopen, Key.same_iff.2 ⟨rfl, rfl⟩, rfl⟩
  have hrefines : Cell.checkRefinement status new = .ok () := by
    subst hnew
    cases h with
    | unknown => rfl
    | bound old _ =>
      have hgrows := (values.follows total (total.union part)).2 fun a ha =>
        SortedSet.mem_union.2 (.inr ha)
      simp [Cell.checkRefinement, Status.lower?, Status.upper?, Interim.ofValue,
        Cell.objection?, hgrows, Stamped.agrees]
  have hdiffers : status.sameValues new = false := by
    subst hnew
    cases h with
    | unknown => rfl
    | bound old _ =>
      have hne : values.ofSet total ≠ values.ofSet (total.union part) := by
        intro heq
        have hsame := congrArg values.toSet heq
        rw [values.toSet_ofSet, values.toSet_ofSet] at hsame
        rw [SortedSet.union_eq_left.1 hsame.symm] at hpart
        cases hpart
      simp [Status.sameValues, Stamped.agrees, Interim.ofValue, hne]
  have hreplace : (Cell.shared key status : Cell E V K).replace new =
      (⟨status, new, true, ∅, none⟩, .sharedNext key status new) := by
    have hinterim : new.isFinal = false := by rw [← hnew]; rfl
    simp [Cell.replace, Cell.sharedNext, Cell.shared, hinterim, hdiffers]
  have hadd : (values.add key stamp part status).map Status.interim = some new := by
    simp [add, h.known, hpart, hnew]
  rw [Cell.updateWith, if_neg (by simp [Cell.shared, hopen])]
  simp only [hadd]
  rw [Cell.update_of_fits hfit fun _ => hrefines, hreplace]

end

theorem Gathered.contribute (h : values.Gathered key total count s) (stamp : Nat)
    (part : SortedSet α) :
    Store.Ends (Store.contribute ⟨key, fun status => .ok (values.add key stamp part status)⟩) s
      (fun lost r => lost = none ∧ r.queue = s.queue ∧
        values.Gathered key (total.union part) (count + if part.subset total then 0 else 1) r)
          (fun _ => False) := by
  refine .read ?_
  rw [if_neg (by simp [h.lazy])]
  refine .bind h.cellOf ?_
  rintro c q ⟨status, rfl, rfl, hshows⟩
  have happlied : (⟨key, fun status => .ok (values.add key stamp part status)⟩ :
      Contribution E V).applied status = .ok (values.add key stamp part status) :=
    if_neg (by simp [hshows.isFinal])
  rw [Store.contributeTo, show (Cell.shared key status : Cell E V K).status = status from rfl,
    happlied]
  refine .read ?_
  rw [h.debug]
  cases hpart : part.subset total with
  | true =>
    rw [hshows.add_known stamp hpart]
    refine .bind ((Store.carryOut_succeeds _ _ _).mono (fun _ _ h => h) fun _ h => h) ?_
    rintro u r ⟨rfl, rfl⟩
    -- writing back the cell that was there
    have hsame : Store.writeCell (.shared key status)
        { s with table := .only (.shared key status) } =
          { s with table := .only (.shared key status) } := by
      simp only [Store.writeCell, Store.modifyCell, Cell.shared]
      rw [CellTable.modify_only]
    rw [hsame]
    refine .write_then (.answer ⟨rfl, rfl, ?_⟩)
    rw [SortedSet.union_eq_left.2 hpart]
    exact ⟨⟨h.toShares.congr rfl rfl rfl rfl rfl rfl, h.updates, h.fallbacks, h.resolved⟩,
      .cell hshows⟩
  | false =>
    rw [hshows.add_new stamp hpart]
    refine .bind ((Store.carryOut_succeeds _ _ _).mono (fun _ _ h => h) fun _ h => h) ?_
    rintro u r ⟨rfl, rfl⟩
    -- a new part has a member, so from now on there is a bound
    have hne : total.union part ≠ ∅ := by
      intro hempty
      have hall : part.subset total = true := SortedSet.subset_iff.2 fun a ha =>
        absurd (hempty ▸ SortedSet.mem_union.2 (.inl ha)) (SortedSet.not_mem_empty a)
      rw [hpart] at hall
      cases hall
    have hwritten : (Store.writeCell
        (.sharedNext key status (values.interimAt key stamp (total.union part)))
        { s with table := .only (.shared key status) }).Tallied key count 0 :=
      ⟨h.toShares.congr rfl rfl rfl rfl rfl rfl, h.updates, h.fallbacks, h.resolved⟩
    obtain ⟨hqueue, htable, htallied⟩ :=
      hwritten.updated (.shared key status) rfl rfl (CellTable.modify_only _) rfl
    exact .write_then (.answer ⟨rfl, hqueue, htallied, htable ▸ .cell (.bound stamp hne)⟩)

section
variable {w : World E V C K Unit}

theorem Gathered.execute (h : values.Gathered key total count w.store) (share : C → SortedSet α)
    (c : C) (e : E) :
    ((values.contributor key share).execute (.compute c e) w).lost = none ∧
      ((values.contributor key share).execute (.compute c e) w).store.queue = w.store.queue ∧
      values.Gathered key (total.union (share c)) (count + if (share c).subset total then 0 else 1)
        ((values.contributor key share).execute (.compute c e) w).store := by
  let q : Store E V C K := { w.store with
    stats := { w.store.stats with executedTasks := w.store.stats.executedTasks + 1 }
    nextStamp := w.store.nextStamp + 1 }
  let result : Result E V C K :=
    .contribution ⟨key, fun status => .ok (values.add key w.store.nextStamp (share c) status)⟩
  have hexecute : (values.contributor key share).execute (.compute c e) w =
      ⟨(q.conclude (.ok result)).2, (), (q.conclude (.ok result)).1⟩ := rfl
  have hq : values.Gathered key total count (q.notify (.handlingResult result.name)) :=
    ⟨⟨h.toShares.congr rfl rfl rfl rfl rfl rfl, h.updates, h.fallbacks, h.resolved⟩, h.table⟩
  have hhandle : Store.Ends (Store.handle result) (q.notify (.handlingResult result.name))
      (fun lost r => lost = none ∧ r.queue = w.store.queue ∧
        values.Gathered key (total.union (share c))
          (count + if (share c).subset total then 0 else 1) r) (fun _ => False) := by
    refine .bind (hq.contribute _ _) ?_
    rintro _ r ⟨rfl, hr⟩
    exact .answer ⟨rfl, hr⟩
  obtain ⟨_, r, hr, hgathered⟩ := hhandle.exists_ok
  rw [hexecute, Store.conclude]
  simp only [hr]
  exact hgathered

theorem Gathered.work (h : values.Gathered key total count w.store) (hlost : w.lost = none)
    (share : C → SortedSet α) {work : List (C × E)}
    (hqueue : w.store.queue.waiting = work.map fun p => .compute p.1 p.2) :
    ∃ w', (∀ fuel, ((values.contributor key share).worker true true).run (fuel + work.length) w =
        ((values.contributor key share).worker true true).run fuel w') ∧
      w'.lost = none ∧ w'.store.queue.waiting = [] ∧
      values.Gathered key ((work.map fun p => share p.1).foldl .union total)
        (count + SortedSet.news total (work.map fun p => share p.1)) w'.store := by
  induction work generalizing w total count with
  | nil => exact ⟨w, fun _ => rfl, hlost, hqueue, h⟩
  | cons p rest ih =>
    let started : World E V C K Unit :=
      { w with store := { w.store with queue :=
        { w.store.queue with waiting := rest.map fun p => .compute p.1 p.2 } } }
    have hstarted : values.Gathered key total count started.store :=
      ⟨⟨h.toShares.congr rfl rfl rfl rfl rfl rfl, h.updates, h.fallbacks, h.resolved⟩, h.table⟩
    have hturn : ((values.contributor key share).worker true true).turn w =
        (true, (values.contributor key share).execute (.compute p.1 p.2) started) :=
      Client.turn_execute _ true true hlost h.halted hqueue
    obtain ⟨hlost', hq, hexecuted⟩ := hstarted.execute share p.1 p.2
    obtain ⟨w', hrun, hstays, hempty, hw'⟩ := ih hexecuted hlost' (by rw [hq])
    refine ⟨w', fun fuel => ?_, hstays, hempty, ?_⟩
    · rw [← hrun fuel, List.length_cons, ← Nat.add_assoc, Worker.run, hturn]
    · rw [List.map_cons, List.foldl_cons, SortedSet.news, ← Nat.add_assoc]
      exact hw'

end
end Contributing

theorem finalizeIf_shared (stamp : Nat) (total : SortedSet α)
    (htable : s.table = .only (.shared key (values.interimAt key stamp total))) :
    Store.Ends (Store.finalizeIf 0 (values.interimAt key stamp total)
      ⟨key, ⟨stamp, values.ofSet total⟩⟩) s
      (fun done r => ∃ c, c = .sharedNext key (values.interimAt key stamp total)
        (values.finalAt key stamp total) ∧
        done = some (c, ⟨values.interimAt key stamp total, values.finalAt key stamp total,
          true, ∅, none⟩) ∧
        r = { s with table := .only c }) (fun _ => False) := by
  have hupdate : (Cell.shared key (values.interimAt key stamp total) : Cell E V K).updateIf
      (values.interimAt key stamp total) (values.finalAt key stamp total) =
      .ok (some (⟨values.interimAt key stamp total, values.finalAt key stamp total, true, ∅, none⟩,
        .sharedNext key (values.interimAt key stamp total) (values.finalAt key stamp total))) := by
    rw [Cell.updateIf, if_pos (by simp [Cell.shared, Status.sameState]),
      Cell.update_of_fits ⟨rfl, Key.same_iff.2 ⟨rfl, rfl⟩, rfl⟩ (by simp)]
    rfl
  have hcell : s.cell? 0 = some (.shared key (values.interimAt key stamp total)) := by
    rw [Store.cell?, htable]
    rfl
  refine .read ?_
  rw [hcell]
  dsimp only
  rw [hupdate]
  refine .write_then (.answer ⟨_, rfl, rfl, ?_⟩)
  rw [Store.writeCell, Store.modifyCell, htable]
  exact congrArg (fun t => { s with table := t }) (CellTable.modify_only _)

theorem Gathered.finalize (h : values.Gathered key total count s) {stamp : Nat}
    (htable : s.table = .only (.shared key (values.interimAt key stamp total))) :
    Store.Ends (Store.finalize (.shared key (values.interimAt key stamp total))) s
      (fun done r => done = true ∧ r.queue = s.queue ∧ values.Settled key total (count + 1) r)
      (fun _ => False) := by
  obtain ⟨info, hinfo, hresolution⟩ := h.kind
  refine .bind (Store.infoOf_registered (by simp [Interim.ofValue, hinfo])) ?_
  rintro info' q ⟨rfl, hinfo'⟩
  obtain rfl : info = info' := Option.some.inj (hinfo.symm.trans hinfo')
  have hstamp : Store.Ends Store.freshStamp q
      (fun _ r => r = { q with nextStamp := q.nextStamp + 1 }) fun _ => False :=
    rfl
  refine .bind hstamp ?_
  rintro n _ rfl
  have hresolve : info.resolve n (.ofValue key ⟨stamp, values.ofSet total⟩) =
      ⟨key, ⟨stamp, values.ofSet total⟩⟩ := by
    rw [KindInfo.resolve, hresolution]
    rfl
  rw [hresolve]
  refine .bind (finalizeIf_shared stamp total htable) ?_
  rintro done r ⟨c, rfl, rfl, rfl⟩
  refine .write_then (.write_then (.write_then (.answer ⟨rfl, Settled.of_update rfl rfl rfl ?_⟩)))
  exact ⟨h.toShares.congr rfl rfl rfl rfl rfl rfl, h.updates, h.fallbacks,
    congrArg (· + 1) h.resolved⟩

theorem Gathered.round (h : values.Gathered key total count s) (hne : total ≠ ∅)
    (hidle : s.queue.waiting = []) :
    (s.onQuiescence true true).1 = true ∧ (s.onQuiescence true true).2.queue = s.queue ∧
      values.Settled key total (count + 1) (s.onQuiescence true true).2 := by
  have hbound : ∃ stamp, s.table = .only (.shared key (values.interimAt key stamp total)) := by
    have htable := h.table
    generalize s.table = t at htable
    cases htable with
    | nothing => exact absurd rfl hne
    | cell hshows =>
      cases hshows with
      | unknown => exact absurd rfl hne
      | bound stamp _ => exact ⟨stamp, rfl⟩
  obtain ⟨stamp, htable⟩ := hbound
  refine Store.onQuiescence_of_settle
    (P := fun r => r.queue = s.queue ∧ values.Settled key total (count + 1) r)
    (fun q r hr hq => ⟨hr.queue.trans hq.1, hq.2.agrees hr⟩) fun q hq => ?_
  have hgathered : values.Gathered key total count q :=
    Gathered.agrees ⟨h.toTallied.counted rfl rfl rfl, h.table⟩ hq
  have htable' := hq.table.trans htable
  refine Store.settle_shared hgathered.toShares htable' rfl (.bind (hgathered.finalize htable') ?_)
  intro done r hr
  obtain ⟨rfl, hqueue, hsettled⟩ := hr
  refine .read ?_
  rw [if_neg (by simp [Store.inFlight, Queue.pending, hqueue, hq.queue, Store.count, hidle])]
  exact .answer ⟨rfl, hqueue.trans hq.queue, hsettled⟩

theorem Settled.round (h : values.Settled key total count s) :
    (s.onQuiescence true true).1 = false ∧
      values.Settled key total count (s.onQuiescence true true).2 := by
  obtain ⟨stamp, htable⟩ := h.table
  refine Store.onQuiescence_of_settle (fun q r hr hq => hq.agrees hr) fun q hq => ?_
  have hsettled : values.Settled key total count q :=
    Settled.agrees ⟨h.toTallied.counted rfl rfl rfl, h.table⟩ hq
  refine Store.settle_shared hsettled.toShares (hq.table.trans htable) rfl ?_
  exact .answer ⟨rfl, hsettled⟩

variable [Std.TransOrd α] [Std.LawfulEqOrd α] [DecidableEq α]

section
variable {share : C → SortedSet α} {work : List (C × E)}

theorem Gathered.run {w : World E V C K Unit} (h : values.Gathered key ∅ 0 w.store)
    (hlost : w.lost = none) (hqueue : w.store.queue.waiting = work.map fun p => .compute p.1 p.2)
    (hnonempty : ∃ p ∈ work, share p.1 ≠ ∅) :
    ∃ w', (∀ fuel ≥ work.length + 2,
      ((values.contributor key share).worker true true).run fuel w = some w') ∧
      values.Settled key ((work.map fun p => share p.1).foldl .union ∅)
        (SortedSet.news ∅ (work.map fun p => share p.1) + 1) w'.store := by
  obtain ⟨w₁, hrun, hlost₁, hidle, hgathered⟩ := h.work hlost share hqueue
  have hne : (work.map fun p => share p.1).foldl SortedSet.union ∅ ≠ ∅ := by
    obtain ⟨p, hp, hpart⟩ := hnonempty
    intro hempty
    refine hpart (SortedSet.ext_mem fun a =>
      ⟨fun ha => ?_, fun ha => absurd ha (SortedSet.not_mem_empty a)⟩)
    rw [← hempty]
    exact SortedSet.mem_foldl_union.2 (.inr ⟨_, List.mem_map_of_mem hp, ha⟩)
  rw [Nat.zero_add] at hgathered
  obtain ⟨hfirst, hsame, hsettled⟩ := hgathered.round hne hidle
  obtain ⟨hsecond, hlast⟩ := hsettled.round
  -- a turn for each computation, one for the round that settles and one for the round that does not
  refine ⟨⟨_, w₁.memory, w₁.lost⟩, fun fuel hfuel => ?_, hlast⟩
  obtain ⟨fuel, rfl⟩ : ∃ n, fuel = n + 1 + 1 + work.length := ⟨fuel - (work.length + 2), by omega⟩
  have hturn := (values.contributor key share).turn_round true true hlost₁ hgathered.halted hidle
  have hturn' := (values.contributor key share).turn_round true true
    (w := ⟨(w₁.store.onQuiescence true true).2, w₁.memory, w₁.lost⟩) hlost₁ hsettled.halted
    (hsame.symm ▸ hidle)
  rw [hrun, Worker.run, hturn, hfirst]
  simp only [Bool.true_or]
  rw [Worker.run, hturn', hsecond, hlast.halted]
  rfl

theorem Gathered.wait {w : World E V C K Unit} (h : values.Gathered key ∅ 0 w.store)
    (hlost : w.lost = none) (hqueue : w.store.queue.waiting = work.map fun p => .compute p.1 p.2)
    (hnonempty : ∃ p ∈ work, share p.1 ≠ ∅) :
    ∃ w', (∀ fuel ≥ work.length + 2, w.wait (values.contributor key share) fuel true true =
      some (.ok (), w')) ∧
      values.Settled key ((work.map fun p => share p.1).foldl .union ∅)
        (SortedSet.news ∅ (work.map fun p => share p.1) + 1) w'.store := by
  have hbegin : w.store.AgreesWith (w.store.beginWait true true) :=
    .trans (.notify _ _) (.notify _ _)
  obtain ⟨w', hrun, hsettled⟩ :=
    Gathered.run (w := ⟨w.store.beginWait true true, w.memory, w.lost⟩) (h.agrees hbegin) hlost
      (hbegin.queue ▸ hqueue) hnonempty
  have hverdict : w'.store.verdict = .ok () := by
    simp [Store.verdict, hsettled.fault, Store.isShutdown, hsettled.closed]
  have hend : w'.store.AgreesWith (w'.store.run w'.store.endActs) := by
    rw [w'.store.run_endActs]
    constructor <;> rfl
  refine ⟨{ w' with store := w'.store.run w'.store.endActs }, fun fuel hfuel => ?_,
    hsettled.agrees hend⟩
  have hopen : w.store.isShutdown = false := h.closed
  simp only [World.wait, Store.answer_checkRunning, hopen, hrun fuel hfuel, Option.map_some,
    Store.answer_endWait, hverdict, Bool.false_eq_true, if_false]

end

end SetValues

/-- Nothing has happened yet in a store in which computations may share a key. -/
structure Store.Fresh {E V C K : Type} (key : Key E) (s : Store E V C K) : Prop
    extends s.Shares key where
  table : s.table = .empty
  waiting : s.queue.waiting = []
  stats : s.stats = {}

namespace SetValues
variable {E V C K α : Type} [Ord α] [Std.TransOrd α] [Std.LawfulEqOrd α] [DecidableEq α]
  [DecidableEq E] [DecidableEq V] [Property V] [ToString E] [ToString V]

/-- Partial results aggregate in any order. Each computation of some work adds its share to one key
of a fresh store. However the work is ordered, the phase completes, and the key is final with the
union of all shares. One bound was resolved and nothing fell back, and besides this last update
there is one for each share that was not contained in the earlier ones. -/
theorem contributions_aggregate (values : SetValues V α) {key : Key E} {s : Store E V C K}
    (hs : s.Fresh key) (share : C → SortedSet α) {work order : List (C × E)}
    (hnonempty : ∃ p ∈ work, share p.1 ≠ ∅) (horder : order.Perm work) :
    ∃ bound w', (∀ fuel ≥ bound,
        World.wait (values.contributor key share) fuel true true
          ⟨s.run (order.map fun p => .call (.scheduleEager [p.2] p.1)), (), none⟩ =
            some (.ok (), w')) ∧
      (∃ stamp total, (w'.store.table.find? key).map (·.status) =
        some (.final ⟨key, ⟨stamp, values.ofSet total⟩⟩) ∧
        ∀ a, a ∈ total ↔ ∃ p ∈ work, a ∈ share p.1) ∧
      w'.store.stats.resolvedInterims = 1 ∧ w'.store.stats.fallbacks = 0 ∧
      w'.store.stats.updates = SortedSet.news ∅ (order.map fun p => share p.1) + 1 := by
  have hnothing : values.Gathered key ∅ 0 s :=
    ⟨⟨hs.toShares, by rw [hs.stats], by rw [hs.stats], by rw [hs.stats]⟩, hs.table ▸ .nothing⟩
  obtain ⟨hscheduled, hqueue⟩ := hnothing.scheduleAll order
  rw [hs.waiting, List.nil_append] at hqueue
  obtain ⟨p, hp, hpart⟩ := hnonempty
  obtain ⟨w', hwait, hsettled⟩ := SetValues.Gathered.wait (w := ⟨_, (), none⟩) hscheduled rfl hqueue
    ⟨p, horder.mem_iff.2 hp, hpart⟩
  obtain ⟨stamp, hfinal⟩ := hsettled.status
  have hunion : ∀ a, a ∈ (order.map fun p => share p.1).foldl SortedSet.union ∅ ↔ ∃ p ∈ work,
      a ∈ share p.1 := by
    intro a
    rw [SortedSet.mem_foldl_union]
    simp [SortedSet.not_mem_empty, horder.mem_iff]
  exact ⟨order.length + 2, w', hwait, ⟨stamp, _, hfinal, hunion⟩, hsettled.resolved,
    hsettled.fallbacks, hsettled.updates⟩

end SetValues

section
open FactSort (types)

def Fact.typeSets : SetValues Fact Nat where
  ofSet := .types
  toSet f := f.types?.getD ∅
  toSet_ofSet _ := rfl
  follows s t := by
    rw [← SortedSet.subset_iff]
    simp [Property.refusal?, Fact.refusal?]

def typeParts : List (SortedSet Nat × Element) :=
  [(.ofList [3], .method 3), (.ofList [2], .method 2), (.ofList [1, 2], .method 1), (∅, .method 0)]

/-- The empty part comes first and makes the cell, and one part is passed over. -/
theorem typeParts_contributions_aggregate :
    let s : Store Element Fact (SortedSet Nat) Unit := (Store.create { debug := true } .none 1).run
      [.call (.registerKind ((FallbackRule.fixed (.types ∅)).info .lower))]
    s.Fresh ⟨.project, types.kind⟩ ∧ (∃ p ∈ typeParts, p.1 ≠ ∅) ∧ typeParts.reverse.Perm typeParts ∧
    ∃ bound w', (∀ fuel ≥ bound,
        World.wait (Fact.typeSets.contributor ⟨.project, types.kind⟩ id) fuel true true
          ⟨s.run (typeParts.reverse.map fun p => .call (.scheduleEager [p.2] p.1)), (), none⟩ =
            some (.ok (), w')) ∧
      (∃ stamp total, (w'.store.table.find? ⟨.project, types.kind⟩).map (·.status) =
          some (.final ⟨⟨.project, types.kind⟩, ⟨stamp, .types total⟩⟩) ∧
        ∀ a, a ∈ total ↔ ∃ p ∈ typeParts, a ∈ p.1) ∧
      w'.store.stats.resolvedInterims = 1 ∧ w'.store.stats.fallbacks = 0 ∧
        w'.store.stats.updates = 3 := by
  intro s
  have hs : s.Fresh ⟨.project, types.kind⟩ :=
    ⟨⟨rfl, ⟨_, rfl, rfl⟩, rfl, rfl, rfl, rfl, rfl, rfl⟩, rfl, rfl, rfl⟩
  have hnonempty : ∃ p ∈ typeParts, p.1 ≠ ∅ := by decide
  have horder : typeParts.reverse.Perm typeParts := List.reverse_perm typeParts
  exact ⟨hs, hnonempty, horder, Fact.typeSets.contributions_aggregate hs id hnonempty horder⟩

end

end Blackboard
