import Blackboard.Proofs.Component
import Blackboard.Proofs.Invariants

/-! A phase that completes has settled all that does not hang on a later phase: whatever is not
final is of a delayed kind, or waits, over others, for something that is. -/
namespace Blackboard

namespace Store
variable {E V C K : Type} {s : Store E V C K}

theorem eq_cell_of_encode_lt {d : Depender} (h : d.encode < collaboratorBit) :
    d = .cell d.encode := by
  cases d with
  | cell i => rfl
  | collaborator i =>
    simp only [Depender.encode] at h
    omega

theorem Idle.delayed_of_awake (hidle : s.Idle true true) {c : Cell E V K} (hc : c ∈ s.cells)
    (hopen : c.status.isFinal = false) (hawake : c.suspension = none) :
    s.phase.isDelayed c.key.kind = true := by
  cases hst : c.status with
  | unknown k => exact hidle.known rfl c hc (by simp [hst, Status.isUnknown])
  | interim ep => exact hidle.refined rfl c hc hawake ⟨ep, hst⟩
  | final ep => simp [hst, Status.isFinal] at hopen

theorem dependee_open [DecidableEq V] (hl : s.table.Linked) {d : Depender} {susp : Suspension E V K}
    (hd : s.table.suspension? d = some susp) {j : Nat} (hj : j ∈ susp.ids) :
    ∃ c, s.table.cell? j = some c ∧ c.hasDependers = true ∧ c.status.isFinal = false := by
  obtain ⟨p, hp, rfl⟩ := List.mem_map.1 hj
  obtain ⟨⟨c, hc, hmem⟩, e, he, -, hopen⟩ := hl d susp hd p hp
  obtain rfl : c = e := Option.some.inj (hc.symm.trans he)
  have hne : c.dependers.toList ≠ [] := List.ne_nil_of_mem hmem
  exact ⟨c, hc, by simpa [Cell.hasDependers, SortedSet.isEmpty] using hne, hopen⟩

variable [DecidableEq E]

/-! The suspended computations as the table has them. -/

theorem mem_waiting (hs : s.Sound) {w : Waiting} :
    w ∈ s.waiting ↔ ∃ susp, s.table.suspension? w.depender = some susp ∧
      w.dependees = susp.ids := by
  unfold waiting
  rw [List.mem_append, List.mem_filterMap, List.mem_filterMap]
  constructor
  · rintro (⟨c, hc, hw⟩ | ⟨c, hc, hw⟩)
    · obtain ⟨ids, hids, rfl⟩ := Option.map_eq_some_iff.1 hw
      obtain ⟨susp, hsusp, rfl⟩ := Option.map_eq_some_iff.1 hids
      obtain ⟨hcell, -⟩ := Seen.current hs hc
      exact ⟨susp, by simp [CellTable.suspension?, hcell, hsusp], rfl⟩
    · obtain ⟨ids, hids, rfl⟩ := Option.map_eq_some_iff.1 hw
      obtain ⟨susp, hsusp, rfl⟩ := Option.map_eq_some_iff.1 hids
      exact ⟨susp, by simp [CellTable.suspension?, hs.table.apart.collaborator? hc, hsusp], rfl⟩
  · rintro ⟨susp, hsusp, hids⟩
    obtain ⟨d, dependees⟩ := w
    dsimp only at hsusp hids
    subst hids
    cases d with
    | cell i =>
      obtain ⟨c, hc, hcs⟩ := Option.bind_eq_some_iff.1 hsusp
      refine .inl ⟨c, CellTable.mem_all_iff.2 ⟨i, hc⟩, ?_⟩
      simp [Cell.suspendedOn, hcs, hs.table.id_eq hc]
    | collaborator i =>
      obtain ⟨c, hc, hcs⟩ := Option.bind_eq_some_iff.1 hsusp
      have hid : c.id = i := by simpa using List.find?_some hc
      refine .inr ⟨c, List.mem_of_find?_eq_some hc, ?_⟩
      simp [Collaborator.suspendedOn, hcs, hid]

theorem mem_nodes_waiting (hs : s.Sound) {x : Nat} :
    x ∈ Waiting.nodes s.waiting ↔ ∃ d susp, s.table.suspension? d = some susp ∧ d.encode = x := by
  rw [Waiting.mem_nodes, Waiting.isSuspended, List.any_eq_true]
  constructor
  · rintro ⟨w, hw, hx⟩
    obtain ⟨susp, hsusp, -⟩ := (mem_waiting hs).1 hw
    exact ⟨w.depender, susp, hsusp, by simpa [Waiting.code] using hx⟩
  · rintro ⟨d, susp, hd, rfl⟩
    exact ⟨⟨d, susp.ids⟩, (mem_waiting hs).2 ⟨susp, hd, rfl⟩, by simp [Waiting.code]⟩

theorem mem_dependeesOf_waiting (hs : s.Sound) {x j : Nat} :
    j ∈ Waiting.dependeesOf s.waiting x ↔
      ∃ d susp, s.table.suspension? d = some susp ∧ d.encode = x ∧ j ∈ susp.ids := by
  rw [Waiting.mem_dependeesOf]
  constructor
  · rintro ⟨w, hw, hx, hj⟩
    obtain ⟨susp, hsusp, hids⟩ := (mem_waiting hs).1 hw
    exact ⟨w.depender, susp, hsusp, hx, hids ▸ hj⟩
  · rintro ⟨d, susp, hd, hx, hj⟩
    exact ⟨⟨d, susp.ids⟩, (mem_waiting hs).2 ⟨susp, hd, rfl⟩, hx, hj⟩

/-- The computation of one cell is suspended and waits on another cell. -/
def Awaits (s : Store E V C K) (i j : Nat) : Prop :=
  ∃ c susp, s.cell? i = some c ∧ c.suspension = some susp ∧ j ∈ susp.ids

theorem awaits_of_mem_dependeesOf (hs : s.Sound) {i j : Nat} (hi : i < collaboratorBit)
    (hj : j ∈ Waiting.dependeesOf s.waiting i) : s.Awaits i j := by
  obtain ⟨d, susp, hd, rfl, hmem⟩ := (mem_dependeesOf_waiting hs).1 hj
  rw [eq_cell_of_encode_lt hi] at hd
  obtain ⟨c, hc, hcs⟩ := Option.bind_eq_some_iff.1 hd
  exact ⟨c, susp, hc, hcs, hmem⟩

theorem dependee_lt (hs : s.Sound) {x j : Nat} (hj : j ∈ Waiting.dependeesOf s.waiting x) :
    j < s.table.size ∧ j < collaboratorBit := by
  obtain ⟨d, susp, hd, -, hmem⟩ := (mem_dependeesOf_waiting hs).1 hj
  have hlt := (hs.table.awaits hd).2 j hmem
  exact ⟨hlt, Nat.lt_of_lt_of_le hlt hs.table.room⟩

theorem awaits_of_waitsFor (hs : s.Sound) {i y : Nat} (hi : i < collaboratorBit)
    (h : Waiting.WaitsFor s.waiting i y) : Relation.ReflTransGen s.Awaits i y ∧
      y < collaboratorBit := by
  induction h with
  | refl => exact ⟨.refl, hi⟩
  | tail _ hz ih =>
    obtain ⟨hdep, -⟩ := Waiting.mem_successors.1 hz
    exact ⟨ih.1.tail (awaits_of_mem_dependeesOf hs ih.2 hdep), (dependee_lt hs hdep).2⟩

/-- A closed group consists of suspended cells that wait only on one another. No collaborator is in
it, because nobody waits on a collaborator. -/
theorem asleep_in_closedComponent (hs : s.Sound) {group : List Depender}
    (h : group ∈ closedComponents s.waiting) {d : Depender} (hd : d ∈ group) :
    ∃ i susp, d = .cell i ∧ s.table.suspension? (.cell i) = some susp ∧ ∀ j ∈ susp.ids,
      .cell j ∈ group := by
  obtain ⟨x, hx, hiff, hclosed⟩ := Waiting.mem_closedComponents h
  -- whoever is waited for leads back to `x`, so `x` is a cell, and so are all that it leads to
  have hxlt : x < collaboratorBit := by
    obtain ⟨e, susp, he, rfl⟩ := (mem_nodes_waiting hs).1 hx
    obtain ⟨hne, -⟩ := hs.table.awaits he
    obtain ⟨p, rest, hp⟩ := List.exists_cons_of_ne_nil hne
    have hdep : p.1 ∈ Waiting.dependeesOf s.waiting e.encode :=
      (mem_dependeesOf_waiting hs).2 ⟨e, susp, he, rfl, by simp [Suspension.ids, hp]⟩
    have hnext := Waiting.mem_dependeesOf_of_not_open (hclosed _ .refl).1 hdep
    exact (awaits_of_waitsFor hs (dependee_lt hs hdep).2 (hclosed _ (.single hnext)).2).2
  obtain ⟨y, rfl, hy⟩ := (hiff d).1 hd
  obtain ⟨-, hylt⟩ := awaits_of_waitsFor hs hxlt hy
  obtain ⟨e, susp, he, rfl⟩ := (mem_nodes_waiting hs).1 (Waiting.waitsFor_mem hx hy)
  have hcell := eq_cell_of_encode_lt hylt
  refine ⟨e.encode, susp, by rw [Depender.decode, if_pos hylt], hcell ▸ he, ?_⟩
  intro j hj
  have hdep : j ∈ Waiting.dependeesOf s.waiting e.encode :=
    (mem_dependeesOf_waiting hs).2 ⟨e, susp, he, rfl, hj⟩
  have hnext := Waiting.mem_dependeesOf_of_not_open (hclosed _ hy).1 hdep
  exact (hiff _).2 ⟨j, by rw [Depender.decode, if_pos (dependee_lt hs hdep).2], hy.tail hnext⟩

variable [DecidableEq V]

/-- Where every closed group is blocked and what is waited on is asleep or delayed, every dependee
leads, over others, to an open cell of a delayed kind. -/
theorem dependee_awaits_delayed (hs : s.Sound) (hl : s.table.Linked)
    (hblocked : ∀ group ∈ closedComponents s.waiting,
      group.any (s.delayedDependers.contains ·) = true)
    (hawake : ∀ c ∈ s.cells, c.status.isFinal = false → c.suspension = none →
      c.hasDependers = true →
      s.phase.isDelayed c.key.kind = true)
    {d : Depender} {susp : Suspension E V K} (hd : s.table.suspension? d = some susp) {j : Nat}
    (hj : j ∈ susp.ids) :
    ∃ e ∈ s.cells, Relation.ReflTransGen s.Awaits j e.id ∧ e.status.isFinal = false ∧
      s.phase.isDelayed e.key.kind = true := by
  have hend : ∀ {d susp k}, s.table.suspension? d = some susp → k ∈ susp.ids →
      k ∉ Waiting.nodes s.waiting → Relation.ReflTransGen s.Awaits j k →
      ∃ e ∈ s.cells, Relation.ReflTransGen s.Awaits j e.id ∧ e.status.isFinal = false ∧
        s.phase.isDelayed e.key.kind = true := by
    intro d susp k hd hk hnode hpath
    obtain ⟨e, he, htold, hopen⟩ := dependee_open hl hd hk
    have hnone : e.suspension = none := by
      by_contra hne
      obtain ⟨susp', hsusp'⟩ := Option.ne_none_iff_exists'.1 hne
      exact hnode ((mem_nodes_waiting hs).2
        ⟨.cell k, susp', by simp [CellTable.suspension?, he, hsusp'], rfl⟩)
    have hcells : e ∈ s.cells := CellTable.mem_all_iff.2 ⟨k, he⟩
    exact ⟨e, hcells, hs.table.id_eq he ▸ hpath, hopen, hawake e hcells hopen hnone htold⟩
  by_cases hnode : j ∈ Waiting.nodes s.waiting
  · have hlt : j < collaboratorBit :=
      (dependee_lt hs ((mem_dependeesOf_waiting hs).2 ⟨d, susp, hd, rfl, hj⟩)).2
    by_cases hall : ∀ y, Waiting.WaitsFor s.waiting j y → Waiting.isOpen s.waiting y = false
    · -- a closed group is in reach, and what keeps it from being resolved is a delayed member
      obtain ⟨group, hgroup, hreach⟩ := Waiting.exists_closedComponent hnode hall
      obtain ⟨m, hm, hmem⟩ := List.any_eq_true.1 (hblocked group hgroup)
      obtain ⟨y, rfl, hy⟩ := hreach m hm
      obtain ⟨hpath, hylt⟩ := awaits_of_waitsFor hs hlt hy
      obtain ⟨hwait, hkind⟩ := List.mem_filter.1 (List.contains_iff_mem.1 hmem)
      obtain ⟨w, hw, hwy⟩ := List.mem_map.1 hwait
      obtain ⟨susp', hsusp', -⟩ := (mem_waiting hs).1 hw
      rw [hwy] at hsusp'
      rw [Depender.decode, if_pos hylt] at hsusp' hkind
      obtain ⟨e, he, hes⟩ := Option.bind_eq_some_iff.1 hsusp'
      obtain ⟨ep, hep⟩ := hs.table.interim he (by simp [hes])
      exact ⟨e, CellTable.mem_all_iff.2 ⟨y, he⟩,
        hs.table.id_eq he ▸ hpath, by simp [hep, Status.isFinal],
        by simpa [isDelayedDepender, cell?, he] using hkind⟩
    · -- a dependee that does not sleep is in reach
      push Not at hall
      obtain ⟨y, hy, hyopen⟩ := hall
      obtain ⟨hpath, hylt⟩ := awaits_of_waitsFor hs hlt hy
      rw [ne_eq, Bool.not_eq_false, Waiting.isOpen, List.any_eq_true] at hyopen
      obtain ⟨k, hk, hkawake⟩ := hyopen
      obtain ⟨e, susp', he, -, hmem⟩ := (mem_dependeesOf_waiting hs).1 hk
      refine hend he hmem ?_ (hpath.tail (awaits_of_mem_dependeesOf hs hylt hk))
      intro hin
      simp [Waiting.mem_nodes.1 hin] at hkawake
  · exact hend hd hj hnode .refl

/-- When nothing is left to settle, a cell that is not final and not delayed sleeps, and waits, over
others, for a cell of a delayed kind that is not final. -/
theorem Idle.awaits_delayed (hidle : s.Idle true true) (hs : s.Sound) (hl : s.table.Linked)
    {c : Cell E V K} (hc : c ∈ s.cells) (hopen : c.status.isFinal = false)
    (hdelayed : s.phase.isDelayed c.key.kind = false) :
    (∃ ep, c.status = .interim ep) ∧ c.suspension ≠ none ∧
      ∃ e ∈ s.cells, Relation.TransGen s.Awaits c.id e.id ∧ e.status.isFinal = false ∧
        s.phase.isDelayed e.key.kind = true := by
  obtain ⟨hcell, -⟩ := Seen.current hs hc
  have hasleep : c.suspension ≠ none := by
    intro hnone
    simp [hidle.delayed_of_awake hc hopen hnone] at hdelayed
  refine ⟨hs.table.interim hcell hasleep, hasleep, ?_⟩
  obtain ⟨susp, hsusp⟩ := Option.ne_none_iff_exists'.1 hasleep
  have hsleeps : s.table.suspension? (.cell c.id) = some susp := by
    simp [CellTable.suspension?, hcell, hsusp]
  obtain ⟨p, hp⟩ := List.exists_mem_of_ne_nil _ (hs.table.awaits hsleeps).1
  have hj : p.1 ∈ susp.ids := List.mem_map_of_mem hp
  obtain ⟨e, he, hpath, hrest⟩ := dependee_awaits_delayed hs hl (hidle.blocked rfl)
    (fun c hc hopen hnone _ => hidle.delayed_of_awake hc hopen hnone) hsleeps hj
  exact ⟨e, he, .head' ⟨c, susp, hcell, hsusp, hj⟩ hpath, hrest⟩

theorem Idle.all_final (hidle : s.Idle true true) (hs : s.Sound) (hl : s.table.Linked)
    (hnone : s.phase.delayed = []) :
    (∀ c ∈ s.cells, c.status.isFinal = true ∧ c.suspension = none) ∧
      s.table.collaborators = [] := by
  have hdelayed : ∀ kind, s.phase.isDelayed kind = false :=
    fun kind => by simp [Phase.isDelayed, hnone]
  have hfinal : ∀ c ∈ s.cells, c.status.isFinal = true := by
    intro c hc
    by_contra hopen
    obtain ⟨-, -, e, -, -, -, hdel⟩ :=
      hidle.awaits_delayed hs hl hc (by simpa using hopen) (hdelayed _)
    simp [hdelayed] at hdel
  refine ⟨fun c hc => ⟨hfinal c hc, ?_⟩, List.eq_nil_iff_forall_not_mem.2 fun c hc => ?_⟩
  · by_contra hasleep
    obtain ⟨hcell, -⟩ := Seen.current hs hc
    obtain ⟨ep, hep⟩ := hs.table.interim hcell hasleep
    simpa [hep, Status.isFinal] using hfinal c hc
  · obtain ⟨susp, hsusp⟩ := Option.ne_none_iff_exists'.1 (hs.table.asleep c hc)
    have hsleeps : s.table.suspension? (.collaborator c.id) = some susp := by
      simp [CellTable.suspension?, hs.table.apart.collaborator? hc, hsusp]
    obtain ⟨p, hp⟩ := List.exists_mem_of_ne_nil _ (hs.table.awaits hsleeps).1
    obtain ⟨-, e, he, -, hopen⟩ := hl _ _ hsleeps p hp
    simp [hfinal e (CellTable.mem_all_iff.2 ⟨_, he⟩)] at hopen

end Store

variable {E V C K σ : Type}

theorem Store.endWait_ok {s r : Store E V C K} (h : s.answer Store.endWait = (.ok (), r)) :
    s.fault = none ∧ s.queue.closed = false ∧ s.Becomes s.table [] r := by
  have hends : Store.Ends Store.endWait s
      (fun _ r => s.fault = none ∧ s.queue.closed = false ∧ s.Becomes s.table [] r)
      (fun _ => True) := by
    refine .write_then (.read ?_)
    split
    · exact .write_then (.failure trivial)
    · next hfault =>
      refine .bind ((Store.checkRunning_open _).mono (fun _ _ h => h) fun _ _ => trivial) ?_
      rintro _ r ⟨rfl, hopen⟩
      exact .write ⟨hfault, hopen, (notify_becomes s _).then_quiet (notify_becomes _ _)⟩
  unfold Store.answer at h
  cases hr : Store.endWait s with
  | ok u q =>
    rw [hr] at h
    obtain ⟨-, rfl⟩ := Prod.mk.inj h
    exact hends.of_ok hr
  | error e q =>
    rw [hr] at h
    simp at h

/-- No fault, no task, and nothing left to settle: how a phase completes. -/
structure Store.AtRest (s : Store E V C K) (cycles fallbacks : Bool) : Prop where
  fault : s.fault = none
  running : s.queue.halted = false
  taking : s.queue.closed = false
  empty : s.queue.waiting = []
  idle : s.Idle cycles fallbacks

theorem Store.AtRest.of_quiet {s r : Store E V C K} {cycles fallbacks : Bool}
    (h : s.AtRest cycles fallbacks) (hr : s.Becomes s.table [] r) : r.AtRest cycles fallbacks := by
  have hqueue : r.queue = s.queue := by rw [hr.queue, Queue.enqueue_nil]
  refine ⟨hr.fault.trans h.fault, ?_, ?_, ?_, h.idle.congr hr.table.symm hr.phase.symm⟩
  · rw [hqueue, h.running]
  · rw [hqueue, h.taking]
  · rw [hqueue, h.empty]

variable [DecidableEq E] [DecidableEq V] [Property V] [ToString E] [ToString V]

theorem Client.turn_stop {client : Client E V C K σ} {cycles fallbacks : Bool}
    {w w' : World E V C K σ} (h : (client.worker cycles fallbacks).turn w = (false, w')) :
    w'.store.queue.halted = true ∨
      (w.store.queue.halted = false ∧ w.store.inFlight = false ∧
        w.store.onQuiescence cycles fallbacks = (false, w'.store)) := by
  by_cases hlost : w.lost = none
  · cases hhalted : w.store.queue.halted with
    | true =>
      rw [client.turn_halted cycles fallbacks hlost hhalted] at h
      obtain ⟨-, rfl⟩ := Prod.mk.inj h
      exact .inl (by simp [Store.act, hhalted, Queue.drop])
    | false =>
      cases hq : w.store.queue.waiting with
      | cons task rest =>
        rw [client.turn_execute cycles fallbacks hlost hhalted hq] at h
        cases h
      | nil =>
        rw [client.turn_round cycles fallbacks hlost hhalted hq] at h
        simp only [Prod.mk.injEq, Bool.or_eq_false_iff] at h
        obtain ⟨⟨hchanged, -⟩, rfl⟩ := h
        refine .inr ⟨rfl, by simp [Store.inFlight, Queue.pending, hq], ?_⟩
        exact Prod.ext hchanged rfl
  · rw [client.turn_lost cycles fallbacks hlost] at h
    cases h

theorem Client.run_stop {client : Client E V C K σ} {cycles fallbacks : Bool} {fuel : Nat}
    {w w' : World E V C K σ} (hr : w.store.Reachable)
    (h : (client.worker cycles fallbacks).run fuel w = some w') :
    ∃ last : World E V C K σ, last.store.Reachable ∧
      (client.worker cycles fallbacks).turn last = (false, w') := by
  induction fuel generalizing w with
  | zero => simp [Worker.run] at h
  | succ fuel ih =>
    have hnext := hr.turn client cycles fallbacks
    unfold Worker.run at h
    cases ht : (client.worker cycles fallbacks).turn w with
    | mk more w₁ =>
      rw [ht] at h hnext
      cases more with
      | true => exact ih hnext h
      | false => exact ⟨w, hr, by rw [ht, Option.some.inj h]⟩

theorem Client.turn_atRest {client : Client E V C K σ} {cycles fallbacks : Bool}
    {w w' : World E V C K σ} (hr : w.store.Reachable)
    (h : (client.worker cycles fallbacks).turn w = (false, w')) (hfault : w'.store.fault = none)
    (hclosed : w'.store.queue.closed = false) : w'.store.AtRest cycles fallbacks := by
  have hrunning : w'.store.queue.halted = false := by
    have hreach := hr.turn client cycles fallbacks
    rw [h] at hreach
    simpa [hfault, hclosed] using hreach.healthy.flags
  rcases Client.turn_stop h with hhalted | ⟨hgo, hidle, hround⟩
  · simp [hrunning] at hhalted
  · have hkept : w.store.Kept (fun _ => True) (fun _ => True) := by
      constructor <;> simp
    have hdone := hkept.onQuiescence hr.healthy.sound hidle cycles fallbacks
    simp only [hround, Bool.false_eq_true, if_false] at hdone
    obtain ⟨hsame, hidle'⟩ := hdone
    have hempty : w.store.queue.waiting = [] := by simpa [Store.inFlight, Queue.pending] using hidle
    refine ⟨hfault, hrunning, hclosed, ?_, hidle'.congr hsame.table.symm hsame.phase.symm⟩
    rw [hsame.queue, Queue.enqueue_nil, hempty]

/-- A phase completes only in a store in which nothing is left to do or to settle. -/
theorem World.wait_atRest {client : Client E V C K σ} {fuel : Nat} {cycles fallbacks : Bool}
    {w w' : World E V C K σ} (hr : w.store.Reachable)
    (h : w.wait client fuel cycles fallbacks = some (.ok (), w')) :
    w'.store.AtRest cycles fallbacks := by
  unfold World.wait at h
  have hcheck := Store.checkRunning_ends w.store
  cases hc : Store.checkRunning w.store with
  | error e s => simp [Store.answer, hc] at h
  | ok u s =>
    obtain rfl : s = w.store := hcheck.of_ok hc
    have hans : w.store.answer Store.checkRunning = (.ok u, w.store) := by simp [Store.answer, hc]
    simp only [hans, Option.map_eq_some_iff] at h
    obtain ⟨w₁, hrun, hend⟩ := h
    obtain ⟨acts, hacts⟩ := w.store.beginWait_run cycles fallbacks
    have hbegin : (w.store.beginWait cycles fallbacks).Reachable := hacts ▸ hr.run acts
    obtain ⟨last, hlast, hturn⟩ := Client.run_stop hbegin hrun
    obtain ⟨hans', rfl⟩ := Prod.mk.inj hend
    obtain ⟨hfault, hclosed, hquiet⟩ := Store.endWait_ok (Prod.ext hans' rfl)
    exact (Client.turn_atRest hlast hturn hfault hclosed).of_quiet hquiet

theorem World.wait_idle {client : Client E V C K σ} {fuel : Nat} {cycles fallbacks : Bool}
    {w w' : World E V C K σ} (hr : w.store.Reachable)
    (h : w.wait client fuel cycles fallbacks = some (.ok (), w')) :
    w'.store.fault = none ∧ w'.store.Idle cycles fallbacks :=
  have hrest := World.wait_atRest hr h
  ⟨hrest.fault, hrest.idle⟩

/-- When a phase completes, every cell that is not final is of a delayed kind, or it is interim and
sleeps, and waits, over others, for a cell of a delayed kind that is not final. If no kind is
delayed, then every cell is final, none sleeps, and no collaborator is left. -/
theorem World.wait_complete {client : Client E V C K σ} {fuel : Nat} {w w' : World E V C K σ}
    (hr : w.store.Reachable) (h : w.wait client fuel true true = some (.ok (), w')) :
    (∀ c ∈ w'.store.cells, c.status.isFinal = false →
      w'.store.phase.isDelayed c.key.kind = true ∨
      ((∃ ep, c.status = .interim ep) ∧ c.suspension ≠ none ∧
        ∃ e ∈ w'.store.cells, Relation.TransGen w'.store.Awaits c.id e.id ∧
          e.status.isFinal = false ∧ w'.store.phase.isDelayed e.key.kind = true)) ∧
    (w'.store.phase.delayed = [] →
      (∀ c ∈ w'.store.cells, c.status.isFinal = true ∧ c.suspension = none) ∧
        w'.store.table.collaborators = []) := by
  obtain ⟨hfault, hidle⟩ := World.wait_idle hr h
  have hhealthy := (hr.wait h).healthy
  refine ⟨fun c hc hopen => ?_, hidle.all_final hhealthy.sound (hhealthy.linked hfault)⟩
  by_cases hdelayed : w'.store.phase.isDelayed c.key.kind = true
  · exact .inl hdelayed
  · exact .inr (hidle.awaits_delayed hhealthy.sound (hhealthy.linked hfault) hc hopen
      (by simpa using hdelayed))

def callersFirst : Client Element Fact Unit Unit Unit where
  start _ e _ := do
    match ← Script.ask (.query ⟨.method 1, FactSort.callers.kind⟩) with
    | .ok status => return (.ok (.interim
        ⟨⟨e, FactSort.purity.kind⟩, ⟨0, .purity .impure⟩, ⟨1, .purity .pure⟩⟩ [status] ()), ())
    | .error _ => return (.ok .nothing, ())
  resume _ _ _ := return (.ok .nothing, ())

def callersLater : World Element Fact Unit Unit Unit :=
  ⟨(Store.create {} .none 1).run
    [.call (.registerKind ((FallbackRule.fixed (.purity .impure)).info .lower)),
      .call (.registerKind ((FallbackRule.fixed (.callers ∅)).info .lower)),
      .call (.setupPhase [FactSort.purity.kind] [FactSort.callers.kind]),
      .call (.scheduleEager [.method 0] ())], (), none⟩

theorem callersLater_wait_complete : ∃ w',
    callersLater.store.Reachable ∧ callersLater.wait callersFirst 3 true true = some (.ok (), w') ∧
    (w'.store.cells.map fun c => (c.status.isFinal, c.suspension.isSome)) =
      [(false, false), (false, true)] ∧
    (∀ c ∈ w'.store.cells, c.status.isFinal = false →
      w'.store.phase.isDelayed c.key.kind = true ∨
      ((∃ ep, c.status = .interim ep) ∧ c.suspension ≠ none ∧
        ∃ e ∈ w'.store.cells, Relation.TransGen w'.store.Awaits c.id e.id ∧
          e.status.isFinal = false ∧ w'.store.phase.isDelayed e.key.kind = true)) ∧
    (w'.store.phase.delayed = [] →
      (∀ c ∈ w'.store.cells, c.status.isFinal = true ∧ c.suspension = none) ∧
        w'.store.table.collaborators = []) := by
  have hr : callersLater.store.Reachable := (Store.Reachable.create {} .none 1).run _
  have hw : callersLater.wait callersFirst 3 true true = some (.ok (), _) := rfl
  exact ⟨_, hr, hw, rfl, World.wait_complete hr hw⟩

end Blackboard
