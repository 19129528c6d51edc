import Blackboard.Proofs.Asking
import Blackboard.Proofs.Keeping
import Blackboard.Proofs.StaleLinks

/-! Who is notified of a change. The dependers that a cell tells may have moved on, and a cell tells
them as bare codes; still, when it takes a new value, exactly those are resumed who sleep and wait
on it. That nobody is missed is owed to the links of sleepers, and that nobody is resumed for
nothing to the look at what each of them waits on. -/
namespace Blackboard

/-- Cells come before collaborators, and both by ascending number. -/
def Depender.Before : Depender → Depender → Prop
  | .cell i, .cell j => i < j
  | .cell _, .collaborator _ => True
  | .collaborator _, .cell _ => False
  | .collaborator i, .collaborator j => i < j

theorem Depender.before_decode {a b : Nat} (h : a < b) : (decode a).Before (decode b) := by
  unfold decode
  split <;> split <;> simp only [Before] <;> omega

theorem DependerSet.ordered_members (ds : DependerSet) : ds.members.Pairwise Depender.Before :=
  List.pairwise_map.2 (ds.sorted.imp fun h => Depender.before_decode (Nat.compare_eq_lt.1 h))

def Task.resumed? {E C K : Type} : Task E C K → Option Depender
  | .resume d _ _ => some d
  | .compute _ _ => none

namespace CellTable
variable {E V C K : Type} {t : CellTable E V K} {c : Cell E V K} {d : Depender}
  {susp : Suspension E V K} {id : Nat}

/-- Of some dependers those who wait on a cell, with what they sleep on. -/
def waiters (t : CellTable E V K) (id : Nat) (ds : List Depender) :
    List (Depender × Suspension E V K) :=
  ds.filterMap fun d => ((t.suspension? d).filter (·.waitsOn id)).map (d, ·)

theorem mem_waiters {ds : List Depender} :
    (d, susp) ∈ t.waiters id ds ↔ d ∈ ds ∧ t.suspension? d = some susp ∧ id ∈ susp.ids := by
  simp [waiters, List.mem_filterMap, Option.filter_eq_some_iff, Suspension.waitsOn_iff]

theorem ordered_waiters {ds : List Depender} (h : ds.Pairwise Depender.Before) :
    ((t.waiters id ds).map (·.1)).Pairwise Depender.Before := by
  rw [waiters, List.map_filterMap]
  refine h.filterMap _ fun a b hab a' ha' b' hb' => ?_
  have hself {x x' : Depender} (hx :
      Option.map (·.1) (((t.suspension? x).filter (·.waitsOn id)).map (x, ·)) = some x') :
      x' = x := by
    cases hf : (t.suspension? x).filter (·.waitsOn id) <;> simp [hf] at hx
    exact hx.symm
  rw [hself ha', hself hb']
  exact hab

theorem filterMap_wakeTask? (t : CellTable E V K) (id : Nat) (ds : List Depender) :
    ds.filterMap (t.wakeTask? id) =
      (t.waiters id ds).map fun w => (.resume w.1 id w.2.continuation : Task E C K) := by
  rw [waiters, List.map_filterMap]
  refine List.filterMap_congr fun d _ => ?_
  rw [wakeTask?, Option.map_map]
  rfl

theorem Linked.mem_waiters [DecidableEq E] [DecidableEq V] (hl : t.Linked) (ht : t.Sound)
    (hc : t.cell? c.id = some c) :
    (d, susp) ∈ t.waiters c.id c.dependers.members ↔ t.suspension? d = some susp ∧
      c.id ∈ susp.ids := by
  rw [CellTable.mem_waiters]
  refine ⟨fun h => h.2, fun h => ⟨?_, h⟩⟩
  obtain ⟨p, hp, hid⟩ := List.mem_map.1 h.2
  exact mem_members_of_tells hc (hid ▸ (hl d susp h.1 p hp).1) (ht.depender_lt h.1)

/-! A cell takes a status. Only its own suspension may go, and it does not wait on itself. -/

theorem suspension?_settleIn_of_ne (t : CellTable E V K) (new : Status E V) (h : d ≠ .cell id) :
    (t.settleIn id new).suspension? d = t.suspension? d := by
  rw [settleIn, suspension?_put]
  split
  · rw [suspension?_release, if_neg h]
  · rfl

theorem Outward.ne_of_waits (ho : t.Outward) (hd : t.suspension? d = some susp)
    (hid : id ∈ susp.ids) : d ≠ .cell id := by
  intro heq
  exact ho id susp (heq ▸ hd) hid

theorem Outward.waiters_settleIn (ho : t.Outward) (new : Status E V) (ds : List Depender) :
    (t.settleIn id new).waiters id ds = t.waiters id ds := by
  refine List.filterMap_congr fun d _ => ?_
  by_cases hd : d = .cell id
  · have hnone (u : CellTable E V K) (hu : u.Outward) :
        (u.suspension? d).filter (·.waitsOn id) = none := by
      rw [Option.filter_eq_none_iff]
      intro susp hsusp hwaits
      exact hu.ne_of_waits hsusp (Suspension.waitsOn_iff.1 hwaits) hd
    have hle {e : Depender} {susp : Suspension E V K}
        (he : (t.settleIn id new).suspension? e = some susp) :
        t.suspension? e = some susp := by
      rw [settleIn, suspension?_put] at he
      split at he
      · exact suspension?_release_le he
      · exact he
    rw [hnone t ho, hnone _ (ho.of_le hle)]
  · rw [suspension?_settleIn_of_ne t new hd]

theorem suspension?_install_of_ne (t : CellTable E V K) (new : Status E V) (h : d ≠ .cell c.id) :
    (t.install c new).suspension? d =
      if d ∈ c.dependers.members then (t.suspension? d).filter (!·.waitsOn c.id)
      else t.suspension? d := by
  rw [← suspension?_settleIn_of_ne t new h, ← suspension?_wakeAll]
  unfold install
  split
  · exact suspension?_mark _ _ _
  · rfl

theorem Outward.installTasks_eq (ho : t.Outward) (phase : Phase C) (new : Status E V) :
    ∃ triggered : List (C × E), t.installTasks phase c new =
      (t.waiters c.id c.dependers.members).map (fun w => .resume w.1 c.id w.2.continuation) ++
        triggered.map fun p => .compute p.1 p.2 := by
  rw [installTasks, filterMap_wakeTask?, ho.waiters_settleIn]
  have hnone : ∃ triggered : List (C × E),
      ([] : List (Task E C K)) = triggered.map fun p => .compute p.1 p.2 := ⟨[], rfl⟩
  have hfirst : ∃ triggered : List (C × E),
      (if c.status.isUnknown then
        Store.firstTasks phase ((t.settleIn c.id new).wakeAll c.id c.dependers.members) c
      else []) = triggered.map fun p => (.compute p.1 p.2 : Task E C K) := by
    split
    · unfold Store.firstTasks
      split
      · exact ⟨(phase.triggeredBy c.key.kind).map (·, c.key.entity), by rw [List.map_map]; rfl⟩
      · exact hnone
    · exact hnone
  obtain ⟨triggered, htriggered⟩ := hfirst
  exact ⟨triggered, by rw [htriggered]⟩

end CellTable

namespace Store
variable {E V C K : Type} {s q r : Store E V C K}

/-- As long as the queue takes tasks, the sleepers that were resumed are counted. -/
structure Counted (s r : Store E V C K) : Prop where
  closed : r.queue.closed = s.queue.closed
  tasks : s.queue.closed = false → ∃ tasks, r.queue.waiting = s.queue.waiting ++ tasks ∧
    r.stats.notifications = s.stats.notifications + (tasks.filterMap Task.resumed?).length

theorem Counted.trans (h : s.Counted q) (h' : q.Counted r) : s.Counted r where
  closed := h'.closed.trans h.closed
  tasks hopen := by
    obtain ⟨first, hwaiting, hcount⟩ := h.tasks hopen
    obtain ⟨second, hwaiting', hcount'⟩ := h'.tasks (h.closed.trans hopen)
    refine ⟨first ++ second, ?_, ?_⟩
    · rw [hwaiting', hwaiting, List.append_assoc]
    · rw [hcount', hcount, List.filterMap_append, List.length_append, Nat.add_assoc]

theorem Counted.of_becomes {t : CellTable E V K} {ts : List (Task E C K)} (h : s.Becomes t ts r)
    (hcount : r.stats.notifications = s.stats.notifications + (ts.filterMap Task.resumed?).length) :
    s.Counted r :=
  ⟨h.closed, fun hopen => ⟨ts, by rw [h.queue, Queue.waiting_enqueue hopen], hcount⟩⟩

theorem Counted.of_queue (hqueue : r.queue = s.queue)
    (hcount : r.stats.notifications = s.stats.notifications) :
    s.Counted r :=
  ⟨congrArg Queue.closed hqueue, fun _ => ⟨[], by simp [hqueue], by simp [hcount]⟩⟩

theorem Counted.stats_trace (s : Store E V C K) (e : Event E V) : (s.trace e).stats = s.stats := by
  unfold Store.trace
  split <;> rfl

theorem Counted.schedule (origin : String) (s : Store E V C K) (c : C) (e : E) :
    s.Counted (s.schedule origin c e) := by
  refine of_becomes (schedule_becomes origin s c e) ?_
  simp [Store.schedule, Store.push, Store.count, stats_trace, Task.resumed?]

theorem logEach_keeps {α : Type} {R : Store E V C K → Store E V C K → Prop}
    {settle : α → Op E V C K Bool} (h : ∀ a, Keeps R (settle a)) (target : α → Target E V K)
    (l : List α) (s : Store E V C K) :
    Ends (logEach target settle l) s (fun log _ => ∀ st ∈ log, R st.before st.after)
      (fun _ => True) := by
  induction l generalizing s with
  | nil => exact .answer (by simp)
  | cons a rest ih =>
    refine .read (.bind ((h a s).mono (fun _ _ h => h) fun _ _ => trivial)
      fun changed r hr => .read ?_)
    cases changed with
    | false => exact ih r
    | true =>
      simp only [if_true]
      split
      · exact .answer (by simpa using hr)
      · exact .bind (ih r) fun more _ hmore => .answer (List.forall_mem_cons.2 ⟨hr, hmore⟩)

theorem bind_eq_ok {α β : Type} {x : Op E V C K α} {f : α → Op E V C K β} {b : β}
    (h : (x >>= f) s = .ok b r) : ∃ a q, x s = .ok a q ∧ f a q = .ok b r := by
  change EStateM.bind x f s = .ok b r at h
  unfold EStateM.bind at h
  cases hx : x s with
  | ok a q => exact ⟨a, q, rfl, by simpa [hx] using h⟩
  | error e q => simp [hx] at h

variable [DecidableEq E]

namespace Counted

theorem recorder : Recorder (Counted : Store E V C K → Store E V C K → Prop) where
  trans := .trans
  silent h := of_queue h.queue (congrArg Statistics.notifications h.stats)
  resume s d dependee susp := by
    refine of_becomes (resume_becomes d dependee susp s) ?_
    unfold Store.resume
    dsimp only
    split <;> exact congrArg Statistics.notifications (stats_trace _ _)
  writeCell _ _ := of_queue rfl rfl
  trace s _ _ := of_queue (trace_queue s _) (congrArg Statistics.notifications (stats_trace s _))
  count _ _ h := of_queue rfl (h _)
  schedule := .schedule "triggered"

end Counted

/-- Notice of a change of a cell: who was woken, from which suspensions. -/
structure Notifies (s : Store E V C K) (id : Nat) (woken : List (Depender × Suspension E V K))
    (r : Store E V C K) : Prop where
  /-- All who waited on the cell, and nobody else. -/
  waiters : ∀ d susp, (d, susp) ∈ woken ↔ s.table.suspension? d = some susp ∧ id ∈ susp.ids
  ordered : (woken.map (·.1)).Pairwise Depender.Before
  /-- Each of them is resumed once, behind all that was queued; what the change triggers comes
  last. -/
  queued : ∃ triggered : List (C × E), r.queue.waiting = s.queue.waiting ++
    woken.map (fun w => .resume w.1 id w.2.continuation) ++ triggered.map fun p => .compute p.1 p.2
  awake : ∀ w ∈ woken, r.table.suspension? w.1 = none
  asleep : ∀ d, d ≠ .cell id → d ∉ woken.map (·.1) → r.table.suspension? d = s.table.suspension? d
  counted : r.stats.notifications = s.stats.notifications + woken.length

structure Locates (s : Store E V C K) (key : Key E) (c : Cell E V K)
    (q : Store E V C K) : Prop where
  grows : s.Grows q
  cell : q.table.cell? c.id = some c
  own : c.key.same key = true
  status : c.status = s.statusOf key
  found : c.status.isUnknown = false → q = s

theorem cellOf_locates (hs : s.Sound) (key : Key E) :
    Ends (cellOf key) s (fun c q => s.Locates key c q) (· = s) := by
  refine (cellOf_effect key s).mono ?_ fun _ h => h
  rintro c q ⟨hreg, ⟨hf, rfl⟩ | ⟨hnone, hroom, rfl, rfl⟩⟩
  · obtain ⟨hc, hkey⟩ := CellTable.find?_eq_some hs.table hf
    exact ⟨.refl hs, hc, hkey, (statusOf_found hf).symm, fun _ => rfl⟩
  · obtain ⟨hsound, hc⟩ := hs.made hreg hnone hroom rfl
    have hgrow : s.Becomes (s.table.grow key) [] { s with table := s.table.grow key } := by
      constructor <;> simp
    refine ⟨⟨hgrow, .grow s.table key, hsound⟩, hc, Key.same_iff.2 ⟨rfl, rfl⟩, ?_, ?_⟩
    · simp [statusOf, hnone, Cell.create]
    · intro hknown
      simp [Cell.create, Status.isUnknown] at hknown

def Changes (s : Store E V C K) (key : Key E) (new : Status E V) (r : Store E V C K) : Prop :=
  ∃ c, r.table.find? key = some c ∧ c.status = new ∧ ∃ woken, s.Notifies c.id woken r

theorem Changes.of_trace {e : Event E V} {key : Key E} {new : Status E V}
    (h : (s.trace e).Changes key new r) : s.Changes key new r := by
  obtain ⟨c, hc, hnew, woken, hwaiters, hordered, hqueued, hawake, hasleep, hcounted⟩ := h
  rw [trace_table] at hwaiters hasleep
  rw [trace_queue] at hqueued
  rw [Counted.stats_trace] at hcounted
  exact ⟨c, hc, hnew, woken, hwaiters, hordered, hqueued, hawake, hasleep, hcounted⟩

variable [DecidableEq V]

theorem Takes.notifies {c : Cell E V K} {new : Status E V} (htakes : q.Takes c new r)
    (hgrows : s.Grows q) (hl : s.table.Linked) (ho : s.table.Outward)
    (hopen : s.queue.closed = false) (hc : q.table.cell? c.id = some c)
    (hch : (c.replace new).1.changed = true) (hcount : s.Counted r) :
    ∃ woken, s.Notifies c.id woken r := by
  rw [Takes, if_pos hch] at htakes
  have hsame := hgrows.grown.suspension?
  have hlinked := hl.grown hgrows.grown
  have houtward : q.table.Outward := lasting_outward.grown ho hgrows.grown
  have hmem (d : Depender) (susp : Suspension E V K) :
      (d, susp) ∈ q.table.waiters c.id c.dependers.members ↔
      q.table.suspension? d = some susp ∧ c.id ∈ susp.ids :=
        hlinked.mem_waiters hgrows.sound.table hc
  obtain ⟨triggered, htasks⟩ := houtward.installTasks_eq q.phase new (c := c)
  have hwaiting := (hgrows.becomes.trans htakes).queue
  rw [List.nil_append, htasks] at hwaiting
  refine ⟨q.table.waiters c.id c.dependers.members, ?_, ?_, ⟨triggered, ?_⟩, ?_, ?_, ?_⟩
  · intro d susp
    rw [hmem, hsame]
  · exact CellTable.ordered_waiters c.dependers.ordered_members
  · rw [hwaiting, Queue.waiting_enqueue hopen, List.append_assoc]
  · intro w hw
    obtain ⟨hmember, hsusp, hid⟩ := CellTable.mem_waiters.1 hw
    rw [htakes.table, CellTable.suspension?_install_of_ne _ _ (houtward.ne_of_waits hsusp hid),
      if_pos hmember, hsusp]
    simp [Suspension.waitsOn_iff.2 hid]
  · intro d hne hnot
    rw [htakes.table, CellTable.suspension?_install_of_ne _ _ hne, ← hsame]
    split
    · cases hsusp : q.table.suspension? d with
      | none => rfl
      | some susp =>
        have hwaits : susp.waitsOn c.id = false := by
          rw [← Bool.not_eq_true, Suspension.waitsOn_iff]
          intro hid
          exact hnot (List.mem_map_of_mem ((hmem d susp).2 ⟨hsusp, hid⟩))
        simp [hwaits]
    · rfl
  · obtain ⟨tasks, hqueue, hnotified⟩ := hcount.tasks hopen
    rw [hwaiting, Queue.waiting_enqueue hopen] at hqueue
    rw [hnotified, ← List.append_cancel_left hqueue]
    simp [List.filterMap_map, Function.comp_def, Task.resumed?]

/-- What notification rests on: sleepers are linked to what they wait on, no cell waits on itself,
and the queue takes tasks. -/
structure Alert (s : Store E V C K) : Prop where
  sound : s.Sound
  linked : s.table.Linked
  outward : s.table.Outward
  opened : s.queue.closed = false

theorem Alert.of_quiet (h : s.Alert) (hr : s.Becomes s.table [] r) : r.Alert where
  sound := (Settles.of_quiet h.sound hr).sound
  linked := hr.table ▸ h.linked
  outward := hr.table ▸ h.outward
  opened := hr.closed.trans h.opened

theorem Takes.changes {c : Cell E V K} {new : Status E V} {key : Key E}
    (htakes : q.Takes c new r) (h : s.Alert) (hgrows : s.Grows q) (hc : q.table.cell? c.id = some c)
    (hkey : c.key.same key = true) (hfit : c.Fits new) (hch : (c.replace new).1.changed = true)
    (hcount : s.Counted r) : s.Changes key new r := by
  have hnotifies := htakes.notifies hgrows h.linked h.outward h.opened hc hch hcount
  have hsound := (htakes.leaves hgrows.sound hc hfit).sound
  rw [Takes, if_pos hch] at htakes
  have hface : r.table.face? c.id = some (c.id, c.key, new) := by
    rw [htakes.table, CellTable.face?_install hc, if_pos rfl]
  obtain ⟨e, he, hid, hstatus⟩ := find?_of_face? hsound hface hkey
  exact ⟨e, he, hstatus, hid.symm ▸ hnotifies⟩

/-- A contribution either leaves all as it was, because it says nothing new, or it changes the
value. -/
structure Contributes (s : Store E V C K) (p : Contribution E V) (r : Store E V C K) : Prop where
  kept : ∀ ep, p.update (s.statusOf p.key) = .ok (some ep) →
    (s.statusOf p.key).sameValues (.interim ep) = true →
    r.table = s.table ∧ r.queue = s.queue ∧ r.stats.notifications = s.stats.notifications
  changes : ∀ ep, p.update (s.statusOf p.key) = .ok (some ep) →
    (s.statusOf p.key).sameValues (.interim ep) = false →
    s.Changes p.key (.interim ep) r

section
variable [Property V] [ToString E] [ToString V]

theorem installFinal_changes (h : s.Alert) (ep : Final E V) :
    Ends (installFinal ep) s (fun _ r => s.Changes ep.key (.final ep) r) (fun _ => True) := by
  refine ((installFinal_ends h.sound ep).and (Counted.recorder.installFinal ep s)).mono ?_
    fun _ _ => trivial
  rintro _ r ⟨⟨q, c, hgrows, hc, hkey, hfit, -, htakes⟩, hcount⟩
  exact htakes.changes h hgrows hc hkey hfit (Cell.changed_final c ep) hcount

theorem contribute_contributes (h : s.Alert) (p : Contribution E V) :
    Ends (contribute p) s (fun _ r => s.Contributes p r) (fun _ => True) := by
  have hcell : Ends (contribute p) s (fun _ r => ∃ q c, s.Locates p.key c q ∧
      ∀ ep, p.update c.status = .ok (some ep) → c.Fits (.interim ep) ∧
        q.Takes c (.interim ep) r) (fun _ => True) := by
    refine .read ?_
    split
    · exact .failure trivial
    refine .bind ((cellOf_locates h.sound p.key).mono (fun _ _ h => h) fun _ _ => trivial)
      fun c q hq => ?_
    refine (contributeTo_ends hq.grows.sound hq.cell p).mono
      (fun _ r hr => ⟨q, c, hq, fun ep hep => ?_⟩) fun _ _ => trivial
    rcases hr with ⟨hnone, -⟩ | ⟨ep', hep', hfit, -, htakes⟩
    · exact absurd hep (hnone ep)
    · obtain rfl : ep' = ep := Option.some.inj (Except.ok.inj (hep'.symm.trans hep))
      exact ⟨hfit, htakes⟩
  refine (hcell.and (Counted.recorder.contribute p s)).mono ?_ fun _ _ => trivial
  rintro _ r ⟨⟨q, c, hq, hupdate⟩, hcount⟩
  rw [hq.status] at hupdate
  constructor
  · intro ep hep hsame
    obtain ⟨-, htakes⟩ := hupdate ep hep
    have hch : (c.replace (.interim ep)).1.changed = false := by
      rw [Cell.changed_interim, hq.status, hsame]; rfl
    obtain ⟨old, hold⟩ := CellTable.interim_of_unchanged hch
    obtain rfl : q = s := hq.found (by rw [hold]; rfl)
    rw [Takes, if_neg (by simp [hch])] at htakes
    obtain ⟨tasks, hqueue, hnotified⟩ := hcount.tasks h.opened
    rw [htakes.queue, Queue.enqueue_nil, List.self_eq_append_right] at hqueue
    exact ⟨htakes.table, by rw [htakes.queue, Queue.enqueue_nil], by simpa [hqueue] using hnotified⟩
  · intro ep hep hnew
    obtain ⟨hfit, htakes⟩ := hupdate ep hep
    refine htakes.changes h hq.grows hq.cell hq.own hfit ?_ hcount
    rw [Cell.changed_interim, hq.status, hnew]
    rfl

/-! Rounds. -/

theorem settlements_keep {R : Store E V C K → Store E V C K → Prop} (hR : Recorder R)
    (cycles fallbacks : Bool) (s : Store E V C K) :
    Ends (settlements cycles fallbacks) s (fun log _ => ∀ st ∈ log, R st.before st.after)
      (fun _ => True) := by
  unfold settlements
  generalize passes cycles fallbacks = ps
  induction ps generalizing s with
  | nil => exact .answer (by simp)
  | cons pass ps ih =>
    have hpass : Ends pass.log s (fun log _ => ∀ st ∈ log, R st.before st.after)
        (fun _ => True) := by
      cases pass with
      | fallbacks waitedOn => exact .read (logEach_keeps hR.fallBack _ _ s)
      | groups => exact .read (logEach_keeps (hR.resolveGroup _) _ _ s)
      | interims waitedOn => exact .read (logEach_keeps hR.finalize _ _ s)
    refine .bind hpass fun log r hlog => ?_
    split
    · exact ih r
    · exact .answer hlog

theorem settlements_change (h : s.Alert) (cycles fallbacks : Bool) :
    Ends (settlements cycles fallbacks) s
      (fun log _ => ∀ st ∈ log, ∀ cell, st.target = .cell cell → ∃ ep,
        st.before.Changes cell.key (.final ep) st.after)
      (fun _ => True) := by
  refine ((logPasses_ends h.sound (passes cycles fallbacks)).and
    (settlements_keep Counted.recorder cycles fallbacks s)).mono ?_ fun _ _ => trivial
  rintro log r ⟨⟨rfl, -, -⟩ | ⟨-, pre, pass, post, -, -, hr⟩, hcounts⟩
  · simp
  -- every settlement starts from a store that can give notice
  obtain ⟨-, -, hall⟩ :=
    hr.keeps (P := Alert) (.refl h.sound) h Alert.of_quiet fun st hst hmakes hset hq => by
    refine ⟨(hmakes.settles hq.sound).sound, hmakes.linked hq.sound hq.linked, ?_, ?_⟩
    · cases hmakes with
      | cell _ _ hc _ hfit _ hr => exact lasting_outward.takes hr hq.outward hc hfit
      | group _ _ _ hr => exact hr.becomes.table ▸ lasting_outward.resolve hq.outward hr.fit
    · obtain ⟨t, ts, hbecomes⟩ := (hmakes.settles hq.sound).becomes
      exact hbecomes.closed.trans hq.opened
  intro st hst cell htarget
  obtain ⟨hset, halert⟩ := hall st hst
  have hcount := hcounts st hst
  cases hr.makes st hst with
  | group => cases htarget
  | @cell before after cell' c ep hcell hid hc hawake hfit hep hr =>
    obtain rfl : cell' = cell := Target.cell.inj htarget
    have hown : before.table.key? cell'.id = some cell'.key :=
      (hset.seen (Seen.current h.sound (candidate_mem hcell).1).2).key
    have hkey : c.key = cell'.key := by
      rw [CellTable.key?, ← hid, hc] at hown
      exact Option.some.inj hown
    exact ⟨ep, hr.changes halert (.refl halert.sound) hc
      (Key.same_iff.2 ⟨by rw [hkey], by rw [hkey]⟩) hfit (Cell.changed_final c ep) hcount⟩

/-! Questions, and results as a whole. -/

theorem query_changes (h : s.Alert) {key : Key E} (hknown : s.isKnown key = false)
    (hprovides : s.phase.provides key.kind = false) :
    Ends (query key) s (fun _ r => ∃ ep, s.Changes key (.final ep) r) (fun _ => True) := by
  have hcounted := Counted.recorder.query (fun s => Counted.schedule "lazy" s) key s
  refine ((query_effect h.sound key).and hcounted).mono ?_ fun _ _ => trivial
  rintro status r ⟨⟨-, hasked⟩, hcount⟩
  cases hasked with
  | found hfound => simp [hfound] at hknown
  | provided _ _ hnot => simp [hnot] at hprovides
  | fellBack _ _ _ hmade =>
    obtain ⟨q, c, ep, hgrows, hc, hkey, hfit, htakes⟩ := hmade
    exact ⟨ep, htakes.changes h hgrows hc hkey hfit (Cell.changed_final c ep) hcount⟩

theorem force_changes (h : s.Alert) {key : Key E} (hknown : s.isKnown key = false)
    (hprovides : s.phase.provides key.kind = false) :
    Ends (force key) s (fun _ r => ∃ ep, s.Changes key (.final ep) r) (fun _ => True) := by
  have htold := trace_becomes s (.force key)
  have hnot : (s.trace (.force key)).isKnown key = false := by
    rw [isKnown, trace_table]; exact hknown
  have hasked := query_changes (h.of_quiet htold) hnot (by rw [trace_phase]; exact hprovides)
  refine .write_then (.bind hasked ?_)
  rintro _ r ⟨ep, hr⟩
  exact .answer ⟨ep, hr.of_trace⟩

theorem performAll_leaves (hs : s.Sound) (as : List (Action E V C K)) :
    Ends (performAll as) s (fun _ r => s.Leaves r) (fun _ => True) := by
  induction as generalizing s with
  | nil => exact .answer ⟨⟨_, _, .refl s⟩, hs⟩
  | cons a as ih =>
    refine .bind ((perform_ends hs a).mono (fun _ _ h => h.1) fun _ _ => trivial)
      fun lost q hq => ?_
    cases lost with
    | none => exact (ih hq.sound).mono (fun _ _ h => hq.trans h) fun _ h => h
    | some crash => exact .answer hq

theorem Reachable.performAll (h : s.Reachable) {as : List (Action E V C K)} {lost : Option Crash}
    (hr : Store.performAll as s = .ok lost r) :
    r.Reachable := by
  have hrun : s.run (s.performed as) = r := by rw [run_performed, hr]
  exact hrun ▸ h.run _

theorem Reachable.outward (h : s.Reachable) (hfault : s.fault = none)
    (hdebug : s.config.debug = true) : s.table.Outward := by
  induction h with
  | create config tracer cores =>
    intro i susp hd
    simp [Store.create, notify, CellTable.suspension?, CellTable.empty, CellTable.cell?] at hd
  | act h a ih =>
    have hages := act_ages h.healthy.sound a
    have hvalidates := hages.config ▸ hdebug
    exact act_outward h.healthy.sound hvalidates (ih (hages.fault hfault) hvalidates) hfault

theorem Reachable.alert (h : s.Reachable) (hfault : s.fault = none) (hopen : s.isShutdown = false)
    (hdebug : s.config.debug = true) : s.Alert :=
  ⟨h.healthy.sound, h.healthy.linked hfault, h.outward hfault hdebug, hopen⟩

/-- Whatever gives a cell a new value, exactly those who wait on it are notified. -/
structure NotifiesExactly (s : Store E V C K) : Prop where
  /-- Each single act of a result, once those before it are done, and whatever becomes of those
  after it. -/
  result : ∀ (result : Result E V C K) pre a post, result.actions = pre ++ a :: post →
    ∀ q lost r, performAll pre s = .ok none q → perform a q = .ok lost r →
      (∀ ep, a = .install ep → q.Changes ep.key (.final ep) r) ∧ ∀ p, a = .contribute p →
        q.Contributes p r
  set : ∀ ep r, setFinal ep s = .ok () r → s.Changes ep.key (.final ep) r
  /-- A key that nobody computes falls back when it is first asked for. -/
  asked : ∀ key, s.isKnown key = false → s.phase.provides key.kind = false →
    (∀ status r, query key s = .ok status r → ∃ ep, s.Changes key (.final ep) r) ∧
      ∀ r, force key s = .ok () r → ∃ ep, s.Changes key (.final ep) r
  /-- Cells fall back in a round, or their interim values become final. -/
  round : ∀ cycles fallbacks log r, settlements cycles fallbacks s.beginRound = .ok log r →
    ∀ st ∈ log, ∀ cell, st.target = .cell cell →
      ∃ ep, st.before.Changes cell.key (.final ep) st.after

theorem notification_exact (h : s.Reachable) (hfault : s.fault = none)
    (hopen : s.isShutdown = false) (hdebug : s.config.debug = true) : s.NotifiesExactly := by
  have halert := h.alert hfault hopen hdebug
  refine ⟨?_, ?_, ?_, ?_⟩
  · intro result pre a post _ q lost r hpre ha
    obtain ⟨t, ts, hq⟩ := ((performAll_leaves halert.sound pre).of_ok hpre).becomes
    have hqalert := (h.performAll hpre).alert (hq.fault.trans hfault) (hq.closed.trans hopen)
      (hq.config ▸ hdebug)
    constructor
    · rintro ep rfl
      exact (installFinal_changes hqalert ep).of_ok (unbroken_ok ha)
    · rintro p rfl
      exact (contribute_contributes hqalert p).of_ok ha
  · intro ep r hr
    obtain ⟨_, q, hcheck, hinstall⟩ := bind_eq_ok hr
    obtain rfl : q = s := (checkRunning_ends s).of_ok hcheck
    exact (installFinal_changes halert ep).of_ok hinstall
  · intro key hknown hprovides
    exact ⟨fun status r hr => (query_changes halert hknown hprovides).of_ok hr,
      fun r hr => (force_changes halert hknown hprovides).of_ok hr⟩
  · intro cycles fallbacks log r hr
    have hbegun : s.Becomes s.table [] s.beginRound :=
      (count_becomes s _).then_quiet (trace_becomes _ _)
    exact (settlements_change (halert.of_quiet hbegun) cycles fallbacks).of_ok hr

end

def awaitedMethod : Store Element Fact Unit Nat :=
  let purity := FactSort.purity.kind
  (create {} .none 1).run
    [.call (.registerKind ((FallbackRule.fixed (.purity .impure)).info .lower)),
      .perform (.collaborate [.unknown ⟨.method 2, purity⟩] 8),
      .perform (.suspend ⟨⟨.method 1, purity⟩, ⟨0, .purity .impure⟩, ⟨1, .purity .pure⟩⟩
        [.unknown ⟨.method 2, purity⟩] 7)]

/-- It becomes known: the method is resumed before the collaborator. -/
theorem awaitedMethod_notification_exact :
    awaitedMethod.Reachable ∧ awaitedMethod.fault = none ∧ awaitedMethod.isShutdown = false ∧
    awaitedMethod.config.debug = true ∧ awaitedMethod.NotifiesExactly ∧
    (let r := awaitedMethod.act
      (.call (.setFinal ⟨⟨.method 2, FactSort.purity.kind⟩, ⟨2, .purity .pure⟩⟩))
     r.stats.notifications = 2 ∧ r.queue.waiting.filterMap Task.resumed? =
       [.cell 1, .collaborator 0]) := by
  have hr : awaitedMethod.Reachable := (Reachable.create {} .none 1).run _
  have hfault : awaitedMethod.fault = none := Option.isNone_iff_eq_none.1 (by decide +kernel)
  exact ⟨hr, hfault, by decide +kernel, by decide +kernel,
    notification_exact hr hfault (by decide +kernel) (by decide +kernel), by decide +kernel⟩

end Store
end Blackboard
