import Blackboard.Proofs.Delayed
import Blackboard.Proofs.Notification

/-! Awaiting dependees. A continuation that awaits some dependees sleeps if all of them are still as
they were observed, and is resumed at once if one is not, for the first such. Its own value, the
waking of those who wait on it and the contributions that come with it happen before that; what was
registered already when a change is found late is undone. -/
namespace Blackboard

theorem Status.sameState_of_unknown {E V : Type} [DecidableEq V] {a b : Status E V}
    (ha : a.isUnknown = true) (hb : b.isUnknown = true) (x : Status E V) :
    a.sameState x = b.sameState x := by
  cases a <;> cases b <;> cases x <;> simp_all [sameState, isUnknown]

namespace CellTable
variable {E V C K : Type} {t : CellTable E V K} {c : Cell E V K}

/-! Numbers of collaborators are handed out by enlisting alone. -/

theorem nextCollaborator_wakeAll (t : CellTable E V K) (id : Nat) (ds : List Depender) :
    (t.wakeAll id ds).nextCollaborator = t.nextCollaborator := by
  induction ds generalizing t with
  | nil => rfl
  | cons d ds ih =>
    refine (ih (t.wake id d)).trans ?_
    rw [wake]
    split
    · exact nextCollaborator_detach _ _ _
    · rfl

theorem nextCollaborator_install (t : CellTable E V K) (c : Cell E V K) (new : Status E V) :
    (t.install c new).nextCollaborator = t.nextCollaborator := by
  have hin : (t.settleIn c.id new).nextCollaborator = t.nextCollaborator := by
    unfold settleIn put release
    split
    · split
      · exact nextCollaborator_detach _ _ _
      · rfl
    · rfl
  have hwoken := (nextCollaborator_wakeAll (t.settleIn c.id new) c.id c.dependers.members).trans hin
  unfold install
  split
  · exact hwoken
  · exact hwoken

theorem tells_of_mem_members {d : Depender} (hc : t.cell? c.id = some c)
    (h : d ∈ c.dependers.members) (hd : d.id < collaboratorBit) : t.Tells c.id d := by
  obtain ⟨code, hcode, hdecode⟩ := List.mem_map.1 h
  have hsame : d.encode = code :=
    Depender.decode_injective ((Depender.decode_encode hd).trans hdecode.symm)
  exact ⟨c, hc, hsame ▸ hcode⟩

/-! Whom the tasks of a change wake. -/

/-- The task wakes a sleeper, for a cell that it waits on, or starts a computation. -/
def Wakes (t : CellTable E V K) : Task E C K → Prop
  | .compute _ _ => True
  | .resume d id k => ∃ susp, t.suspension? d = some susp ∧ id ∈ susp.ids ∧ susp.continuation = k

theorem wakes_firstTasks {phase : Phase C} {u : CellTable E V K} {task : Task E C K}
    (h : task ∈ Store.firstTasks phase u c) : task.resumed? = none ∧ t.Wakes task := by
  unfold Store.firstTasks at h
  split at h
  · obtain ⟨comp, -, rfl⟩ := List.mem_map.1 h
    exact ⟨rfl, trivial⟩
  · cases h

theorem wakes_wakeTasks {id : Nat} {ds : List Depender} {task : Task E C K}
    (h : task ∈ ds.filterMap (t.wakeTask? id)) :
    ∃ d susp, task.resumed? = some d ∧ t.suspension? d = some susp ∧ id ∈ susp.ids ∧
      t.Wakes task := by
  rw [filterMap_wakeTask?] at h
  obtain ⟨⟨d, susp⟩, hw, rfl⟩ := List.mem_map.1 h
  obtain ⟨-, hd, hid⟩ := mem_waiters.1 hw
  exact ⟨d, susp, rfl, hd, hid, susp, hd, hid, rfl⟩

theorem Wakes.mono {u : CellTable E V K} {task : Task E C K} (h : u.Wakes task)
    (hle : ∀ {d susp}, u.suspension? d = some susp → t.suspension? d = some susp) :
    t.Wakes task := by
  cases task with
  | compute => trivial
  | resume d id k =>
    obtain ⟨susp, hd, hrest⟩ := h
    exact ⟨susp, hle hd, hrest⟩

theorem wakes_installTasks {phase : Phase C} {new : Status E V} {task : Task E C K}
    (h : task ∈ t.installTasks phase c new) : t.Wakes task := by
  rcases List.mem_append.1 h with hwoken | hfirst
  · obtain ⟨d, susp, -, -, -, hwakes⟩ := wakes_wakeTasks hwoken
    refine hwakes.mono fun hd => ?_
    rw [settleIn, suspension?_put] at hd
    split at hd
    · exact suspension?_release_le hd
    · exact hd
  · split at hfirst
    · exact (wakes_firstTasks hfirst).2
    · cases hfirst

theorem wakes_fallAsleepTasks [DecidableEq V] {phase : Phase C} {ep : Interim E V}
    {susp : Suspension E V K} {task : Task E C K} (hc : t.cell? c.id = some c)
    (hself : c.id ∉ susp.ids) (h : task ∈ t.fallAsleepTasks phase c ep susp) :
    t.Wakes task ∧ task.resumed? ≠ some (.cell c.id) := by
  unfold fallAsleepTasks at h
  split at h
  · have hcell := cell?_put t c.id c.id (.interim ep)
    rw [hc, Option.map_some, if_pos rfl] at hcell
    have hsusp (d : Depender) :
        ((t.put c.id (.interim ep)).modify c.id (·.suspend susp)).suspension? d = if d =
          .cell c.id then some susp else t.suspension? d := by
      rw [suspension?_modify_suspend hcell, suspension?_put]
    rcases List.mem_append.1 h with hwoken | hfirst
    · obtain ⟨d, other, hresumed, hd, hid, hwakes⟩ := wakes_wakeTasks hwoken
      have hne : d ≠ .cell c.id := by
        intro heq
        rw [hsusp, if_pos heq] at hd
        exact hself (Option.some.inj hd ▸ hid)
      refine ⟨?_, by simpa [hresumed] using hne⟩
      cases task with
      | compute => cases hresumed
      | resume e id k =>
        obtain rfl : e = d := Option.some.inj hresumed
        obtain ⟨susp', he, hrest⟩ := hwakes
        exact ⟨susp', by rwa [hsusp, if_neg hne] at he, hrest⟩
    · split at hfirst
      · obtain ⟨hnone, hwakes⟩ := wakes_firstTasks hfirst
        exact ⟨hwakes, by simp [hnone]⟩
      · cases hfirst
  · cases h

end CellTable

namespace Store
variable {E V C K : Type} {s q r : Store E V C K}

/-- Some sleepers were woken, and nobody fell asleep. -/
structure Stirs (s q : Store E V C K) : Prop where
  asleep : ∀ {d susp}, q.table.suspension? d = some susp → s.table.suspension? d = some susp
  next : q.table.nextCollaborator = s.table.nextCollaborator
  queue : ∃ woken, q.queue = s.queue.enqueue woken ∧ ∀ task ∈ woken, s.table.Wakes task

theorem Stirs.of_quiet (h : s.Becomes s.table [] q) : s.Stirs q :=
  ⟨fun hd => h.table ▸ hd, by rw [h.table], [], h.queue, by simp⟩

theorem Stirs.trans (h : s.Stirs q) (h' : q.Stirs r) : s.Stirs r where
  asleep hd := h.asleep (h'.asleep hd)
  next := h'.next.trans h.next
  queue := by
    obtain ⟨first, hfirst, hwakes⟩ := h.queue
    obtain ⟨second, hsecond, hwakes'⟩ := h'.queue
    refine ⟨first ++ second, by rw [hsecond, hfirst, Queue.enqueue_enqueue], ?_⟩
    exact List.forall_mem_append.2 ⟨hwakes, fun task htask => (hwakes' task htask).mono h.asleep⟩

theorem Stirs.of_takes [DecidableEq V] {c : Cell E V K} {new : Status E V} (h : s.Takes c new r) :
    s.Stirs r := by
  unfold Takes at h
  split at h
  · refine ⟨fun hd => CellTable.suspension?_install_le (h.table ▸ hd), ?_, _, h.queue, ?_⟩
    · rw [h.table, CellTable.nextCollaborator_install]
    · exact fun task => CellTable.wakes_installTasks
  · exact of_quiet h

variable [DecidableEq E]

namespace Stirs

theorem of_grows (h : s.Grows q) : s.Stirs q where
  asleep hd := h.grown.suspension? _ ▸ hd
  next := h.grown.nextCollaborator
  queue := ⟨[], h.becomes.queue, by simp⟩

variable [DecidableEq V]

variable [Property V] [ToString E] [ToString V]

theorem contribute (hs : s.Sound) (p : Contribution E V) :
    Ends (contribute p) s (fun _ r => s.Stirs r) (fun _ => True) := by
  refine (contribute_ends hs p).mono ?_ fun _ _ => trivial
  rintro _ r ⟨q, c, hgrows, -, -, hquiet | ⟨ep, -, -, htakes⟩⟩
  · exact (of_grows hgrows).trans (of_quiet hquiet)
  · exact (of_grows hgrows).trans (of_takes htakes)

theorem contributions (hs : s.Sound) (ps : List (Contribution E V)) :
    Ends (performAll (ps.map (.contribute ·))) s (fun _ r => s.Stirs r) (fun _ => True) := by
  induction ps generalizing s with
  | nil => exact .answer (of_quiet (.refl s))
  | cons p ps ih =>
    have hfirst := (contribute hs p).and
      ((perform_ends hs (.contribute p)).mono (fun _ _ h => h.1) fun _ h => h)
    refine .bind (hfirst.mono (fun _ _ h => h) fun _ _ => trivial) fun lost q hq => ?_
    cases lost with
    | none => exact (ih hq.2.sound).mono (fun _ _ h => hq.1.trans h) fun _ h => h
    | some crash => exact .answer hq.1

end Stirs

theorem Grows.status_cases (h : s.Grows q) (hs : s.Sound) {i : Nat} {c : Cell E V K} {key : Key E}
    (hc : q.table.cell? i = some c) (hkey : c.key.same key = true) :
    c.status = s.statusOf key ∨ c.status.isUnknown = true ∧ (s.statusOf key).isUnknown = true := by
  by_cases hi : i < s.table.size
  · left
    have hold : s.table.cell? i = some c := h.grown.old hi ▸ hc
    have hface : s.table.face? i = some (i, c.key, c.status) := by
      rw [CellTable.face?_of_cell? hold, Cell.face, hs.table.id_eq hold]
    exact (statusOf_of_face? hs hface hkey).symm
  · right
    have hnone : s.table.find? key = none := by
      rw [CellTable.find?_eq_none_iff]
      intro j e he hsame
      have hj := CellTable.lt_size_of_cell? he
      have heq :=
        h.sound.table.key_inj hc (h.grown.cell? he) (Key.same_trans hkey (Key.same_symm hsame))
      omega
    obtain ⟨own, rfl⟩ := h.grown.new (Nat.not_lt.1 hi) hc
    simp [Cell.create, Status.isUnknown, statusOf, hnone]

theorem Sound.resumed_ne (hs : s.Sound) {task : Task E C K} (h : s.table.Wakes task) :
    task.resumed? ≠ some (.collaborator s.table.nextCollaborator) := by
  intro heq
  cases task with
  | compute => cases heq
  | resume d id k =>
    obtain ⟨susp, hd, -⟩ := h
    obtain rfl : d = .collaborator s.table.nextCollaborator := Option.some.inj heq
    obtain ⟨c, hc, -⟩ := Option.bind_eq_some_iff.1 hd
    have hlt := (hs.table.numbered c (List.mem_of_find?_eq_some hc)).1
    have hid : c.id = s.table.nextCollaborator := by simpa using List.find?_some hc
    omega

variable [DecidableEq V]

/-- The first of some dependees whose state is not the one that was observed. -/
def changed? (s : Store E V C K) (dependees : List (Status E V)) : Option (Status E V) :=
  dependees.find? fun d => !(s.statusOf d.key).sameState d

/-- The depender sleeps over exactly these dependees, and each of them tells it. -/
def SleepsOn (s : Store E V C K) (d : Depender) (dependees : List (Status E V)) (k : K) : Prop :=
  ∃ susp, s.table.suspension? d = some susp ∧ susp.continuation = k ∧
    susp.dependees.map (·.2) = dependees ∧
    ∀ p ∈ susp.dependees, ∃ c, s.table.find? p.2.key = some c ∧ c.id = p.1 ∧ d ∈ c.dependers.members

/-- What becomes of a continuation that awaits dependees, besides the tasks that were queued
before. -/
structure Enrols (r : Store E V C K) (tasks : List (Task E C K)) (d : Depender)
    (dependees : List (Status E V)) (k : K) : Prop where
  asleep : r.changed? dependees = none → r.SleepsOn d dependees k ∧ r.queue.waiting = tasks
  resumed : ∀ x, r.changed? dependees = some x →
    (∃ c, r.table.find? x.key = some c ∧ r.queue.waiting = tasks ++ [.resume d c.id k]) ∧
      r.table.suspension? d = none ∧
        (∀ id, d = .collaborator id → r.table.collaborator? id = none) ∧
      ∀ y ∈ dependees, ∃ c, r.table.find? y.key = some c ∧ d ∉ c.dependers.members

theorem Registered.found {d : Depender} {n : Nat} {dependees : List (Status E V)}
    {obs : List (Nat × Status E V)} (h : s.Registered d n obs r) (hs : s.Sound)
    (hobs : s.Observed dependees obs) {p : Nat × Status E V} (hp : p ∈ obs) :
    ∃ c e, s.table.cell? p.1 = some c ∧ r.table.find? p.2.key = some e ∧ e.id = p.1 ∧
      e.status = c.status := by
  obtain ⟨c, hc, hkey⟩ := hobs.cells p hp
  have hface : r.table.face? p.1 = some (p.1, c.key, c.status) := by
    rw [h.face?, CellTable.face?_of_cell? hc, Cell.face, hs.table.id_eq hc]
  obtain ⟨e, he, hid, hstatus⟩ := find?_of_face? (h.retains hs).sound hface hkey
  exact ⟨c, e, hc, he, hid, hstatus⟩

theorem Registered.enrols {d : Depender} {n : Nat} {k : K} {dependees : List (Status E V)}
    {obs : List (Nat × Status E V)} (h : s.Registered d n obs r) (hs : s.Sound)
    (hobs : s.Observed dependees obs) (hd : s.table.suspension? d = some ⟨n, k, obs⟩)
    (hopen : s.queue.closed = false) : r.Enrols s.queue.waiting d dependees k := by
  have hsound := (h.retains hs).sound
  have hlt := hs.table.depender_lt hd
  have hfound {p : Nat × Status E V} (hp : p ∈ obs) := h.found hs hobs hp
  have hstate {p : Nat × Status E V} (hp : p ∈ obs) {c : Cell E V K}
      (hc : s.table.cell? p.1 = some c) :
      r.statusOf p.2.key = c.status := by
    obtain ⟨c', e, hc', he, -, hstatus⟩ := hfound hp
    obtain rfl : c' = c := Option.some.inj (hc'.symm.trans hc)
    rw [statusOf_found he, hstatus]
  have hchanged : r.changed? dependees =
      (obs.find? fun p => !(r.statusOf p.2.key).sameState p.2).map (·.2) := by
    rw [changed?, ← hobs.values, List.find?_map]
    rfl
  cases h with
  | asleep hcurrent hr =>
    have hnone : r.changed? dependees = none := by
      rw [hchanged, Option.map_eq_none_iff, List.find?_eq_none]
      intro p hp
      obtain ⟨c, hc, hsame, -⟩ := hcurrent p hp
      simp [hstate hp hc, hsame]
    refine ⟨fun _ => ⟨⟨⟨n, k, obs⟩, ?_, rfl, hobs.values, ?_⟩, ?_⟩, ?_⟩
    · rw [hr.table, CellTable.suspension?_watch, hd]
    · intro p hp
      obtain ⟨c, e, hc, he, hid, -⟩ := hfound hp
      refine ⟨e, he, hid, ?_⟩
      have htells : r.table.Tells e.id d := by
        rw [hr.table, CellTable.tells_watch, hid]
        exact .inr ⟨rfl, List.mem_map_of_mem hp, CellTable.lt_size_of_cell? hc⟩
      exact CellTable.mem_members_of_tells (CellTable.find?_eq_some hsound.table he).1 htells hlt
    · rw [hr.queue, Queue.enqueue_nil]
    · intro x hx
      cases hnone.symm.trans hx
  | stopped pre post p c hsplit hpre hc hp hr =>
    have hmem : p ∈ obs := by rw [hsplit]; exact List.mem_append_right _ List.mem_cons_self
    have hsome : r.changed? dependees = some p.2 := by
      have hfirst : (obs.find? fun p => !(r.statusOf p.2.key).sameState p.2) = some p := by
        rw [List.find?_eq_some_iff_append]
        refine ⟨by simp [hstate hmem hc, hp], pre, post, hsplit, ?_⟩
        intro b hb
        obtain ⟨e, he, hsame, -⟩ := hpre b hb
        have hbmem : b ∈ obs := by rw [hsplit]; exact List.mem_append_left _ hb
        simp [hstate hbmem he, hsame]
      rw [hchanged, hfirst]
      rfl
    simp only [hd, Option.filter_some, beq_self_eq_true, if_true] at hr
    refine ⟨fun hnone => ?_, fun x hx => ?_⟩
    · cases hnone.symm.trans hsome
    · obtain rfl : p.2 = x := Option.some.inj (hsome.symm.trans hx)
      obtain ⟨-, e, -, he, hid, -⟩ := hfound hmem
      refine ⟨⟨e, he, ?_⟩, ?_, ?_, ?_⟩
      · rw [hr.queue, Queue.waiting_enqueue hopen, hid]
      · rw [hr.table, CellTable.suspension?_detach, if_pos rfl]
      · intro id hid
        rw [hr.table, CellTable.collaborator?, CellTable.collaborators_detach, hid,
          List.find?_eq_none]
        intro b hb
        simpa [CellTable.others] using (List.mem_filter.1 hb).2
      · intro y hy
        rw [← hobs.values] at hy
        obtain ⟨b, hb, rfl⟩ := List.mem_map.1 hy
        obtain ⟨-, e', -, he', hid', -⟩ := hfound hb
        refine ⟨e', he', fun hmember => ?_⟩
        -- whoever is detached is forgotten by all it waited on
        have hnot : ¬ r.table.Tells e'.id d := by
          rw [hr.table, CellTable.tells_detach]
          exact fun htells => htells.2 ⟨rfl, hid' ▸ List.mem_map_of_mem hb⟩
        exact hnot (CellTable.tells_of_mem_members
          (CellTable.find?_eq_some hsound.table he').1 hmember hlt)

theorem changed?_congr {dependees : List (Status E V)}
    (h : ∀ x ∈ dependees, (r.statusOf x.key).sameState x = (s.statusOf x.key).sameState x) :
    r.changed? dependees = s.changed? dependees := by
  unfold changed?
  induction dependees with
  | nil => rfl
  | cons x xs ih =>
    obtain ⟨hx, hxs⟩ := List.forall_mem_cons.1 h
    simp only [List.find?_cons, hx, ih hxs]

/-- Cells that are made, or that fall asleep, leave the dependees as they were observed. -/
theorem Registered.changed? {d : Depender} {n : Nat} {dependees : List (Status E V)}
    {obs : List (Nat × Status E V)} {u : Store E V C K} (h : u.Registered d n obs r) (hu : u.Sound)
    (hs : s.Sound) (hgrows : s.Grows q) (hobs : q.Observed dependees obs)
    (hface : ∀ p ∈ obs, u.table.face? p.1 = q.table.face? p.1) :
    r.changed? dependees = s.changed? dependees := by
  refine changed?_congr fun x hx => ?_
  rw [← hobs.values] at hx
  obtain ⟨p, hp, rfl⟩ := List.mem_map.1 hx
  obtain ⟨c, hc, hkey⟩ := hobs.cells p hp
  have hshown : r.table.face? p.1 = some (p.1, c.key, c.status) := by
    rw [h.face?, hface p hp, CellTable.face?_of_cell? hc, Cell.face, hgrows.sound.table.id_eq hc]
  rw [statusOf_of_face? (h.retains hu).sound hshown hkey]
  rcases hgrows.status_cases hs hc hkey with heq | ⟨hunknown, hunknown'⟩
  · rw [heq]
  · exact Status.sameState_of_unknown hunknown hunknown' p.2

/-- An interim result: its cell takes the bounds, unless they say what it knows already, those who
wait on the cell are woken, and then its continuation awaits the dependees. -/
structure Suspends (s : Store E V C K) (ep : Interim E V) (dependees : List (Status E V)) (k : K)
    (c : Cell E V K) (woken : List (Task E C K)) (r : Store E V C K) : Prop where
  cell : r.table.find? ep.key = some c
  value : c.status =
    if (s.statusOf ep.key).sameValues (.interim ep) then s.statusOf ep.key else .interim ep
  others : ∀ task ∈ woken, s.table.Wakes task ∧ task.resumed? ≠ some (.cell c.id)
  observed : r.changed? dependees = s.changed? dependees
  enrols : r.Enrols (s.queue.waiting ++ woken) (.cell c.id) dependees k

section
variable [Property V] [ToString E]

theorem FallsAsleep.value {ep : Interim E V} {dependees : List (Status E V)} {k : K}
    {c : Cell E V K} {n : Nat} {obs : List (Nat × Status E V)} {u : Store E V C K}
    (h : s.FallsAsleep ep dependees k q c n obs u) (hs : s.Sound) :
    (c.replace (.interim ep)).2.status =
      if (s.statusOf ep.key).sameValues (.interim ep) then s.statusOf ep.key else .interim ep := by
  have hunknown {a : Status E V} (ha : a.isUnknown = true) :
      a.sameValues (.interim ep) = false := by
    cases a <;> simp_all [Status.sameValues, Status.isUnknown]
  cases hch : (c.replace (.interim ep)).1.changed with
  | true =>
    have hnew : c.status.sameValues (.interim ep) = false := by
      simpa [Cell.changed_interim] using hch
    rw [Cell.replace_of_changed hch]
    rcases h.grows.status_cases hs h.cell h.key with heq | ⟨-, hnone⟩
    · rw [← heq, hnew]
      rfl
    · rw [hunknown hnone]
      rfl
  | false =>
    obtain ⟨hkept, -, hsame⟩ := Cell.replace_of_unchanged hch
    rw [hkept]
    rcases h.grows.status_cases hs h.cell h.key with heq | ⟨hnone, -⟩
    · rw [← heq, hsame]
      rfl
    · cases (hunknown hnone).symm.trans hsame

theorem FallsAsleep.suspends {ep : Interim E V} {dependees : List (Status E V)} {k : K}
    {c : Cell E V K} {n : Nat} {obs : List (Nat × Status E V)} {u : Store E V C K}
    (h : s.FallsAsleep ep dependees k q c n obs u) (hreg : u.Registered (.cell c.id) n obs r)
    (hs : s.Sound) (hopen : s.queue.closed = false) (hdebug : s.config.debug = true) :
    ∃ c woken, s.Suspends ep dependees k c woken r := by
  have hself := h.not_self hdebug
  have hwaiting : u.queue.waiting =
      s.queue.waiting ++ q.table.fallAsleepTasks q.phase c ep ⟨n, k, obs⟩ := by
    rw [(h.grows.becomes.trans h.becomes).queue, Queue.waiting_enqueue hopen, List.nil_append]
  have hasleep : u.table.suspension? (.cell c.id) = some ⟨n, k, obs⟩ := by
    rw [h.becomes.table, CellTable.suspension?_fallAsleep_self h.cell ep hself]
  have hface (i : Nat) : u.table.face? i =
      if i = c.id then some (c.id, c.key, (c.replace (.interim ep)).2.status)
      else q.table.face? i := by
    rw [h.becomes.table, CellTable.face?_fallAsleep h.cell]
  have hother {p : Nat × Status E V} (hp : p ∈ obs) : p.1 ≠ c.id := by
    intro heq
    exact hself (heq ▸ List.mem_map_of_mem hp)
  have hobs : u.Observed dependees obs := by
    refine ⟨h.observed.values, h.observed.nonempty, fun p hp => ?_⟩
    obtain ⟨e, he, hkey⟩ := h.observed.cells p hp
    have hshown : u.table.face? p.1 = some (e.id, e.key, e.status) := by
      rw [hface, if_neg (hother hp), CellTable.face?_of_cell? he]
      rfl
    obtain ⟨b, hb, -, hown, -⟩ := CellTable.cell?_of_shown hshown
    exact ⟨b, hb, hown ▸ hkey⟩
  have hshown : r.table.face? c.id = some (c.id, c.key, (c.replace (.interim ep)).2.status) := by
    rw [hreg.face?, hface, if_pos rfl]
  obtain ⟨e, he, hid, hstatus⟩ := find?_of_face? (hreg.retains h.sound).sound hshown h.key
  have henrols :=
    hreg.enrols h.sound hobs hasleep ((h.grows.becomes.trans h.becomes).closed.trans hopen)
  rw [hwaiting] at henrols
  refine ⟨e, _, he, hstatus.trans (h.value hs), ?_, ?_, hid.symm ▸ henrols⟩
  · intro task htask
    obtain ⟨hwakes, hne⟩ := CellTable.wakes_fallAsleepTasks h.cell hself htask
    exact ⟨hwakes.mono fun hd => h.grows.grown.suspension? _ ▸ hd, hid.symm ▸ hne⟩
  · exact hreg.changed? h.sound hs h.grows h.observed fun p hp => by rw [hface, if_neg (hother hp)]

end

variable [ToString E] [ToString V]

theorem collaborate_enrols (hs : s.Sound) (hopen : s.queue.closed = false)
    (dependees : List (Status E V)) (k : K) :
    Ends (collaborate dependees k) s (fun _ r => r.changed? dependees = s.changed? dependees ∧
      r.Enrols s.queue.waiting (.collaborator s.table.nextCollaborator) dependees k)
        (fun _ => True) := by
  refine (collaborate_ends hs dependees k).mono ?_ fun _ _ => trivial
  rintro _ r ⟨q, n, obs, u, hgrows, hobs, hadd, hu, hreg⟩
  have hcells (i : Nat) : u.table.cell? i = q.table.cell? i := by rw [hadd.table]; rfl
  have hobs' : u.Observed dependees obs := by
    refine ⟨hobs.values, hobs.nonempty, fun p hp => ?_⟩
    rw [hcells]
    exact hobs.cells p hp
  have hasleep : u.table.suspension? (.collaborator q.table.nextCollaborator) =
      some ⟨n, k, obs⟩ := by
    rw [hadd.table, hgrows.sound.table.suspension?_enlist, if_pos rfl]
  have hboth := hgrows.becomes.trans hadd
  have henrols := hreg.enrols hu hobs' hasleep (hboth.closed.trans hopen)
  rw [hboth.queue, List.nil_append, Queue.enqueue_nil, hgrows.grown.nextCollaborator] at henrols
  refine ⟨hreg.changed? hu hs hgrows hobs fun p _ => ?_, henrols⟩
  rw [CellTable.face?, hcells, CellTable.face?]

variable [Property V]

/-- A collaboration: its contributions are made first, from `s` to `q`, and then its continuation
awaits the dependees as a new collaborator. -/
structure Collaborates (s : Store E V C K) (contributions : List (Contribution E V))
    (dependees : List (Status E V)) (k : K) (q : Store E V C K) (woken : List (Task E C K))
    (r : Store E V C K) : Prop where
  contributed : performAll (contributions.map (.contribute ·)) s = .ok none q
  queued : q.queue.waiting = s.queue.waiting ++ woken
  others : ∀ task ∈ woken, s.table.Wakes task ∧
    task.resumed? ≠ some (.collaborator q.table.nextCollaborator)
  fresh : ∀ c ∈ q.table.collaborators, c.id < q.table.nextCollaborator
  observed : r.changed? dependees = q.changed? dependees
  enrols : r.Enrols q.queue.waiting (.collaborator q.table.nextCollaborator) dependees k

theorem performAll_append_ok {as bs : List (Action E V C K)}
    (h : performAll (as ++ bs) s = .ok none r) :
    ∃ q, performAll as s = .ok none q ∧ performAll bs q = .ok none r := by
  induction as generalizing s with
  | nil => exact ⟨s, rfl, h⟩
  | cons a as ih =>
    rw [List.cons_append, performAll_cons] at h
    rw [performAll_cons]
    cases ha : perform a s with
    | error e q => simp [ha] at h
    | ok lost q =>
      cases lost with
      | none => exact ih (by simpa [ha] using h)
      | some crash => simp [ha] at h

theorem performAll_single_ok {a : Action E V C K} {op : Op E V C K Unit} {lost : Option Crash}
    (ha : perform a = unbroken op) (h : performAll [a] s = .ok lost r) : op s = .ok () r := by
  rw [performAll_cons, ha] at h
  cases hr : unbroken op s with
  | error e q => simp [hr] at h
  | ok lost' q =>
    rw [hr] at h
    have hq : q = r := by cases lost' <;> exact (EStateM.Result.ok.inj h).2
    exact hq ▸ unbroken_ok hr

theorem collaborates_of_ok (hs : s.Sound) (hopen : s.queue.closed = false)
    {contributions : List (Contribution E V)} {dependees : List (Status E V)} {k : K}
    (h : handle (.collaboration contributions dependees k : Result E V C K) s = .ok none r) :
    ∃ q woken, s.Collaborates contributions dependees k q woken r := by
  obtain ⟨q, hcontributed, hlast⟩ := performAll_append_ok h
  have hawait : collaborate dependees k q = .ok () r := performAll_single_ok rfl hlast
  have hq := (performAll_leaves hs _).of_ok hcontributed
  have hstirs := (Stirs.contributions hs contributions).of_ok hcontributed
  obtain ⟨woken, hqueue, hwakes⟩ := hstirs.queue
  obtain ⟨t, ts, hbecomes⟩ := hq.becomes
  obtain ⟨hobserved, henrols⟩ :=
    (collaborate_enrols hq.sound (hbecomes.closed.trans hopen) dependees k).of_ok hawait
  refine ⟨q, woken, hcontributed, ?_, ?_, ?_, hobserved, henrols⟩
  · rw [hqueue, Queue.waiting_enqueue hopen]
  · intro task htask
    exact ⟨hwakes task htask, hstirs.next ▸ hs.resumed_ne (hwakes task htask)⟩
  · intro c hc
    exact (hq.sound.table.numbered c hc).1

/-- Whatever awaits dependees sleeps or is resumed, as their states say. -/
structure AwaitsExactly (s : Store E V C K) : Prop where
  interim : ∀ ep dependees k lost r,
    handle (.interim ep dependees k : Result E V C K) s = .ok lost r →
    ∃ c woken, s.Suspends ep dependees k c woken r
  collaboration : ∀ contributions dependees k r,
    handle (.collaboration contributions dependees k : Result E V C K) s = .ok none r →
      ∃ q woken, s.Collaborates contributions dependees k q woken r

theorem awaiting_exact (h : s.Reachable) (hopen : s.isShutdown = false)
    (hdebug : s.config.debug = true) : s.AwaitsExactly := by
  have hs := h.healthy.sound
  constructor
  · intro ep dependees k lost r hr
    have hsuspend : suspend ep dependees k s = .ok () r := performAll_single_ok rfl hr
    obtain ⟨_, c, n, obs, u, hasleep, hreg⟩ := (suspend_ends hs ep dependees k).of_ok hsuspend
    exact hasleep.suspends hreg hs hopen hdebug
  · intro contributions dependees k r hr
    exact collaborates_of_ok hs hopen hr

/-- A third method awaits the two others. Of the second nothing is known, as it observed, but the
first is not any more as it was: the registration with the second is undone. -/
def awaitMethods : Action Element Fact Unit Nat :=
  let purity := FactSort.purity.kind
  .suspend ⟨⟨.method 3, purity⟩, ⟨4, .purity .impure⟩, ⟨5, .purity .pure⟩⟩
    [.unknown ⟨.method 2, purity⟩, .unknown ⟨.method 1, purity⟩] 9

theorem awaitedMethod_awaiting_exact :
    awaitedMethod.Reachable ∧ awaitedMethod.isShutdown = false ∧ awaitedMethod.config.debug = true ∧
    awaitedMethod.AwaitsExactly ∧
    (let r := awaitedMethod.act (.perform awaitMethods)
     r.fault.isNone = true ∧ r.queue.waiting.filterMap (Task.resumes? (.cell 2)) = [(1, 9)] ∧
     (r.table.suspension? (.cell 2)).isNone = true ∧
     (r.cell? 0).map (·.dependers.members) = some [.cell 1, .collaborator 0]) := by
  have hr : awaitedMethod.Reachable := (Reachable.create {} .none 1).run _
  exact ⟨hr, by decide +kernel, by decide +kernel,
    awaiting_exact hr (by decide +kernel) (by decide +kernel), by decide +kernel⟩

end Store
end Blackboard
