import Blackboard.Proofs.Recording
import Blackboard.Proofs.Success

/-! The books of a store. Its statistics count what it tells its observer, and what it tells about
updates is what became of the cells. Between the steps of an operation the books may be behind: a
status was put in place and the update is still to be told, or a cell became final and it is still
to be said how. At the end of every operation they balance. -/
namespace Blackboard

namespace Store
variable {E V C K : Type} {s q r : Store E V C K}

def logged (s : Store E V C K) : List (Event E V) := s.records.map Record.event

theorem logged_congr (h : r.tracer = s.tracer) : r.logged = s.logged := by
  rw [logged, records, h, logged, records]

theorem logged_record {log : EventLog E V} {e : Event E V} (hs : s.tracer = .events log)
    (hr : r.tracer = .events (log.record e)) : r.logged = s.logged ++ [e] := by
  simp [logged, records, hs, hr, EventLog.record]

variable [DecidableEq E]

/-- One event was told and counted, and the task that goes with it was queued. -/
structure Tells (s : Store E V C K) (e : Event E V) (r : Store E V C K) : Prop where
  table : s.table.Labelled → s.table.Adds r.table
  tracer : ∀ {log}, s.tracer = .events log → r.tracer = .events (log.record e)
  stats : r.stats = s.stats.tally e
  round : ∀ k ∈ e.round?, k = r.stats.quiescenceRounds
  fault : r.fault = none → s.fault = none
  closed : r.queue.closed = s.queue.closed
  pending : s.queue.closed = false → r.queue.pending = s.queue.pending + e.tasks

namespace Tells
variable {e : Event E V}

theorem of_becomes {t : CellTable E V K} {ts : List (Task E C K)} (h : s.Becomes t ts r)
    (hfaces : ∀ i, t.face? i = s.table.face? i)
    (htracer : ∀ {log}, s.tracer = .events log → r.tracer = .events (log.record e))
    (hstats : r.stats = s.stats.tally e) (hround : ∀ k ∈ e.round?, k = r.stats.quiescenceRounds)
    (htasks : ts.length = e.tasks) : s.Tells e r where
  table := h.table ▸ .of_faces hfaces
  tracer := htracer
  stats := hstats
  round := hround
  fault hnone := h.fault ▸ hnone
  closed := h.closed
  pending hopen := by simp [h.queue, Queue.pending, Queue.waiting_enqueue hopen, htasks]

theorem count_trace {f : Statistics → Statistics} (hcount : f s.stats = s.stats.tally e)
    (hround : ∀ k ∈ e.round?, k = (f s.stats).quiescenceRounds) (htasks : e.tasks = 0) :
    s.Tells e ((s.count f).trace e) := by
  have hstats : ((s.count f).trace e).stats = f s.stats := by
    unfold trace
    split <;> rfl
  exact of_becomes ((count_becomes s f).then_quiet (trace_becomes _ e)) (fun _ => rfl)
    (fun hlog => by simp [trace, count, hlog]) (hstats.trans hcount) (hstats ▸ hround) htasks.symm

theorem trace (hcount : s.stats.tally e = s.stats) (hround : e.round? = none)
    (htasks : e.tasks = 0) : s.Tells e (s.trace e) :=
  count_trace (f := id) hcount.symm (by simp [hround]) htasks

theorem schedule (origin : String) (s : Store E V C K) (c : C) (e : E) :
    s.Tells (.schedule e origin) (s.schedule origin c e) := by
  have hstats : (s.schedule origin c e).stats = s.stats.tally (.schedule e origin : Event E V) := by
    unfold Store.schedule Store.trace
    split <;> rfl
  exact of_becomes (schedule_becomes origin s c e) (fun _ => rfl)
    (fun hlog => by simp [Store.schedule, Store.push, Store.trace, Store.count, hlog]) hstats
    (by simp [Event.round?]) rfl

theorem resume (s : Store E V C K) (d : Depender) (dependee : Cell E V K)
    (susp : Suspension E V K) :
    ∃ depender, s.Tells (.notification dependee.key depender) (s.resume d dependee susp) := by
  have hbecomes := resume_becomes d dependee susp s
  refine ⟨s.dependerKey d, of_becomes hbecomes (CellTable.face?_unlink _ _ _) ?_ ?_
    (by simp [Event.round?]) rfl⟩
  · intro log hlog
    unfold Store.resume
    dsimp only
    split <;> simp [Store.push, Store.notify, Store.unlink, Store.trace, Store.count, hlog] <;> rfl
  · unfold Store.resume Store.trace
    dsimp only
    split <;> split <;> rfl

theorem fail (s : Store E V C K) (e : Error) : s.Tells (.fault e) (s.fail e) where
  table := by
    have htable : (s.fail e).table = s.table := by simp [Store.fail, notify]
    rw [htable]
    exact .of_faces fun _ => rfl
  tracer hlog := by simp [Store.fail, Store.trace, notify, hlog]
  stats := by
    unfold Store.fail Store.trace
    dsimp only
    split <;> rfl
  round := by simp [Event.round?]
  fault hnone := by
    unfold Store.fail at hnone
    dsimp only at hnone
    simp at hnone
  closed := by simp [Store.fail, Queue.halt, notify]
  pending _ := by simp [Store.fail, Queue.halt, Queue.pending, notify, Event.tasks]

end Tells

variable [DecidableEq V]

/-- The books of a store balance, but for some updates that are still owed to the observer and some
final cells that are to the credit of the caller. `past` is what was told before and taken out of
the log. -/
structure Balanced (s : Store E V C K) (past : List (Event E V))
    (owed : List (Status E V × Status E V)) (credit : Nat) : Prop where
  labelled : s.table.Labelled
  traced : ∃ log, s.tracer = .events log
  history : s.table.History ((past ++ s.logged).filterMap Event.update? ++ owed)
  counters : s.stats.Counts (past ++ s.logged)
  rounds : (past ++ s.logged).filterMap Event.round? = List.range' 1 s.stats.quiescenceRounds
  finals : s.finals = s.stats.fallbacks + s.stats.resolvedCycles + s.stats.resolvedInterims + credit
  tasks : s.fault = none → s.queue.closed = false →
    s.stats.executedTasks + s.queue.pending = s.stats.scheduledTasks + s.stats.notifications

namespace Balanced
variable {past : List (Event E V)} {owed : List (Status E V × Status E V)} {credit : Nat}

theorem silent (h : s.Balanced past owed credit) (hr : s.Silent r) :
    r.Balanced past owed credit := by
  have hlogged := logged_congr hr.tracer
  have hadds := hr.table h.labelled
  refine ⟨hadds.labelled, hr.tracer ▸ h.traced, ?_, ?_, ?_, ?_, ?_⟩
  · rw [hlogged]
    exact h.history.adds hadds
  · rw [hlogged, hr.stats]
    exact h.counters
  · rw [hlogged, hr.stats]
    exact h.rounds
  · rw [finals_of_adds hadds, hr.stats]
    exact h.finals
  · rw [hr.fault, hr.queue, hr.stats]
    exact h.tasks

theorem tells {e : Event E V}
    (h : s.Balanced past (e.update?.toList ++ owed) (credit + e.settlements)) (hr : s.Tells e r) :
    r.Balanced past owed credit := by
  obtain ⟨log, hlog⟩ := h.traced
  have hlogged := logged_record hlog (hr.tracer hlog)
  have hadds := hr.table h.labelled
  refine ⟨hadds.labelled, ⟨_, hr.tracer hlog⟩, ?_, ?_, ?_, ?_, ?_⟩
  · rw [hlogged, ← List.append_assoc, List.filterMap_append, List.append_assoc]
    have hlast : [e].filterMap Event.update? = e.update?.toList := by cases e <;> rfl
    rw [hlast]
    exact h.history.adds hadds
  · rw [hlogged, hr.stats, ← List.append_assoc]
    exact h.counters.tally e
  · rw [hlogged, ← List.append_assoc, List.filterMap_append, h.rounds]
    have hstats := hr.stats
    have hround := hr.round
    cases e with
    | quiescence k =>
      have hk : k = r.stats.quiescenceRounds := hround k rfl
      rw [hk, hstats]
      simp [Statistics.tally, Event.round?, List.range'_concat, Nat.add_comm]
    | _ => simp [hstats, Statistics.tally, Event.round?]
  · rw [finals_of_adds hadds, h.finals, hr.stats]
    cases e <;> simp only [Statistics.tally, Event.settlements] <;> omega
  · intro hfault hclosed
    have hopen := hr.closed.symm.trans hclosed
    have htasks := h.tasks (hr.fault hfault) hopen
    rw [hr.pending hopen, hr.stats]
    cases e <;> simp only [Statistics.tally, Event.tasks] <;> omega

end Balanced

def Balances (s r : Store E V C K) : Prop :=
  ∀ past owed credit, s.Balanced past owed credit → r.Balanced past owed credit

theorem Tells.balances {e : Event E V} (h : s.Tells e r) (hupdate : e.update? = none)
    (hsettle : e.settlements = 0) : s.Balances r := by
  intro past owed credit hs
  refine Balanced.tells ?_ h
  rw [hupdate, hsettle]
  exact hs

theorem Balances.keeper : Keeper (Balances : Store E V C K → Store E V C K → Prop) where
  trans h h' _ _ _ hs := h' _ _ _ (h _ _ _ hs)
  silent h _ _ _ hs := hs.silent h
  resume s d dependee susp := by
    obtain ⟨depender, htells⟩ := Tells.resume s d dependee susp
    exact htells.balances rfl rfl

theorem Balances.schedule (origin : String) (s : Store E V C K) (c : C) (e : E) :
    s.Balances (s.schedule origin c e) :=
  (Tells.schedule origin s c e).balances rfl rfl

end Store

/-! Putting a status in place. -/

namespace Update
variable {E V K : Type}

def owed (u : Update E V K) : List (Status E V × Status E V) :=
  if u.changed then [(u.old, u.new)] else []

def settles (u : Update E V K) : Nat := if u.changed && u.new.isFinal then 1 else 0

end Update

/-- What an update makes of a cell: nothing, or it puts a status in place that fits. -/
inductive Cell.Yields {E V K : Type} [DecidableEq E] (c : Cell E V K) :
    Update E V K → Cell E V K → Prop
  | same : Yields c (.unchanged c.status) c
  | new {u : Update E V K} {c' : Cell E V K} (hchanged : u.changed = true) (hold : u.old = c.status)
      (hfit : c.Fits u.new) (hface : c'.face = (c.id, c.key, u.new)) : Yields c u c'

namespace Cell
variable {E V K : Type} [DecidableEq V]

theorem settles_replace (c : Cell E V K) (new : Status E V) :
    (c.replace new).1.settles = if new.isFinal then 1 else 0 := by
  unfold replace
  cases hfinal : new.isFinal with
  | true => simp [Update.settles, hfinal]
  | false => split <;> simp [Update.settles, Update.unchanged, hfinal]

variable [DecidableEq E] {c c' : Cell E V K} {new : Status E V} {u : Update E V K}

theorem yields_replace (hfit : c.Fits new) : c.Yields (c.replace new).1 (c.replace new).2 := by
  cases hchanged : (c.replace new).1.changed with
  | true =>
    rw [replace_of_changed hchanged]
    exact .new rfl rfl hfit rfl
  | false =>
    rw [(replace_of_unchanged hchanged).1]
    exact .same

variable [Property V] [ToString E] [ToString V]

theorem update_yields {validate : Bool} (h : c.update new validate = .ok (u, c')) :
    c.Yields u c' ∧ u.settles = if new.isFinal then 1 else 0 := by
  obtain ⟨hfit, -, hr⟩ := update_eq_ok h
  have hu : u = (c.replace new).1 := congrArg Prod.fst hr
  have hc' : c' = (c.replace new).2 := congrArg Prod.snd hr
  rw [hu, hc']
  exact ⟨yields_replace hfit, settles_replace c new⟩

theorem updateIf_yields {expected : Status E V} (h : c.updateIf expected new = .ok (some (u, c'))) :
    c.Yields u c' ∧ u.settles = if new.isFinal then 1 else 0 := by
  unfold updateIf at h
  split at h
  · cases hup : c.update new false with
    | error e => simp [hup, Except.map] at h
    | ok x =>
      obtain rfl : x = (u, c') := by simpa [hup, Except.map] using h
      exact update_yields hup
  · simp at h

end Cell

namespace Store
variable {E V C K : Type}

theorem Balanced.writeCell_trace (s : Store E V C K) (f : Statistics → Statistics) (e : Event E V)
    (c : Cell E V K) :
    Store.writeCell c ((s.count f).trace e) = ((s.writeCell c).count f).trace e := by
  unfold Store.trace
  cases htracer : s.tracer <;> simp [count, Store.writeCell, modifyCell, notify, htracer]

variable [DecidableEq E] [DecidableEq V] {s q r : Store E V C K} {past : List (Event E V)}
  {owed : List (Status E V × Status E V)} {credit : Nat}

namespace Balanced

theorem writeCell {c c' : Cell E V K} {u : Update E V K} (h : s.Balanced past owed credit)
    (hc : s.table.cell? c.id = some c) (hu : c.Yields u c') :
    (s.writeCell c').Balanced past (owed ++ u.owed) (credit + u.settles) := by
  cases hu with
  | same =>
    have hwritten := h.silent (.writeCell hc rfl)
    simpa [Update.owed, Update.settles, Update.unchanged] using hwritten
  | new hchanged hold hfit hface =>
    have hputs : s.table.Puts c u.new (s.writeCell c').table := .overwrite hc hface
    refine ⟨hputs.labelled h.labelled hc hfit, h.traced, ?_, h.counters, h.rounds, ?_, h.tasks⟩
    · rw [Update.owed, if_pos hchanged, hold, ← List.append_assoc]
      exact hputs.history h.labelled hc hfit h.history
    · rw [finals_of_puts hputs hc hfit.refinable, h.finals, Update.settles, hchanged,
        Bool.true_and, Nat.add_assoc]
      rfl

theorem afterUpdate {u : Update E V K} (h : s.Balanced past (u.owed ++ owed) credit)
    (cell : Cell E V K) : (s.afterUpdate cell u).Balanced past owed credit := by
  rw [afterUpdate_eq]
  unfold Update.owed at h
  cases hchanged : u.changed with
  | false => simpa [hchanged] using h
  | true =>
    have htells : s.Tells (.update u.old u.new)
        (((s.count fun n => { n with updates := n.updates + 1 }).notify
          (.updated cell.key u.new u.dependers.size)).trace (.update u.old u.new)) := by
      have htold := Tells.count_trace (s := s.notify (.updated cell.key u.new u.dependers.size))
        (f := fun n => { n with updates := n.updates + 1 }) (e := .update u.old u.new) rfl
        (by simp [Event.round?]) rfl
      exact ⟨htold.table, htold.tracer, htold.stats, htold.round, htold.fault,
        htold.closed, htold.pending⟩
    have hbefore : s.Balanced past ((Event.update u.old u.new).update?.toList ++ owed)
        (credit + (Event.update u.old u.new).settlements) := by
      simpa [hchanged, Event.update?, Event.settlements] using h
    exact Balances.keeper.aftermath (Balances.schedule "triggered") _ cell u _ _ _
      (hbefore.tells htells)

/-! Operations. -/

theorem keeps {α : Type} {op : Op E V C K α} (h : s.Balanced past owed credit)
    (hop : Keeps Balances op) :
    Ends op s (fun _ r => r.Balanced past owed credit) (·.Balanced past owed credit) :=
  (hop s).mono (fun _ _ hr => hr _ _ _ h) fun _ hr => hr _ _ _ h

theorem getOrCreate (h : s.Balanced past owed credit) (key : Key E) :
    Ends (getOrCreate key) s
      (fun p r => r.Balanced past owed credit ∧ r.table.cell? p.1.id = some p.1 ∧
        (p.2 = true → p.1.key = key ∧ p.1.status = .unknown key))
      (·.Balanced past owed credit) := by
  refine ((h.keeps (Balances.keeper.getOrCreate key)).and (getOrCreate_effect key s)).mono
    ?_ fun _ h => h.1
  rintro p r ⟨hr, ⟨hfind, hold, rfl⟩ | ⟨-, -, rfl, rfl⟩⟩
  · obtain ⟨i, hi⟩ := Array.mem_iff_getElem?.1 (Array.mem_of_find?_eq_some hfind)
    refine ⟨hr, ?_, fun hnew => ?_⟩
    · rw [h.labelled.id_eq hi]
      exact hi
    · simp [hold] at hnew
  · refine ⟨hr, ?_, fun _ => ⟨rfl, rfl⟩⟩
    change (s.table.grow key).cell? s.table.size = _
    rw [CellTable.cell?_grow, if_pos rfl]

theorem cellOf (h : s.Balanced past owed credit) (key : Key E) :
    Ends (cellOf key) s (fun c r => r.Balanced past owed credit ∧ r.table.cell? c.id = some c)
      (·.Balanced past owed credit) :=
  .bind (h.keeps (Balances.keeper.infoOf key.kind)) fun _ _ hq =>
    .bind (hq.getOrCreate key) fun _ _ hr =>
    .answer ⟨hr.1, hr.2.1⟩

theorem carryOut {change : Except Error (Update E V K × Cell E V K)} {c : Cell E V K} {n : Nat}
    (h : s.Balanced past owed credit) (hc : s.table.cell? c.id = some c)
    (hchange : ∀ {u c'}, change = .ok (u, c') → c.Yields u c' ∧ u.settles = n) :
    Ends (carryOut change) s (fun u r => r.Balanced past (owed ++ u.owed) (credit + n))
      (·.Balanced past owed credit) := by
  refine (carryOut_ends change s).mono ?_ ?_
  · rintro u r ⟨c', hok, rfl⟩
    obtain ⟨hyields, rfl⟩ := hchange hok
    exact h.writeCell hc hyields
  · rintro r rfl
    exact h

theorem count_interim (h : s.Balanced past owed (credit + 1)) :
    (s.count fun n => { n with resolvedInterims := n.resolvedInterims + 1 }).Balanced past owed
      credit where
  labelled := h.labelled
  traced := h.traced
  history := h.history
  counters := ⟨h.counters.1, h.counters.2, h.counters.3, h.counters.4, h.counters.5, h.counters.6⟩
  rounds := h.rounds
  finals := by
    change s.finals = s.stats.fallbacks + s.stats.resolvedCycles +
      (s.stats.resolvedInterims + 1) + credit
    rw [h.finals]
    omega
  tasks := h.tasks

theorem announceResolved {u : Update E V K}
    (h : s.Balanced past (u.owed ++ owed) (credit + 1)) (size : Nat) (c : Cell E V K)
    (ep : Final E V) : (s.announceResolved size (c, ep, u)).Balanced past owed credit := by
  refine afterUpdate (tells (e := .cycleResolution _ _) ?_
    (.count_trace rfl (by simp [Event.round?]) rfl)) c
  simpa [Event.update?, Event.settlements] using h.silent (.notify s _)

theorem announceAll {resolved : List (Cell E V K × Final E V × Update E V K)}
    (h : s.Balanced past (resolved.flatMap (·.2.2.owed)) (credit + resolved.length)) (size : Nat) :
    (resolved.foldl (Store.announceResolved size) s).Balanced past [] credit := by
  induction resolved generalizing s with
  | nil => simpa using h
  | cons x resolved ih =>
    refine ih (announceResolved ?_ size x.1 x.2.1)
    simpa [Nat.add_assoc] using h

variable [Property V] [ToString E] [ToString V]

theorem installFinal (h : s.Balanced past [] credit) (ep : Final E V) :
    Ends (installFinal ep) s (fun _ r => r.Balanced past [] (credit + 1))
      (·.Balanced past [] credit) := by
  refine .bind (h.cellOf ep.key) ?_
  rintro c q ⟨hq, hc⟩
  refine .read (.bind (hq.carryOut (n := 1) hc Cell.update_yields) ?_)
  intro u r hr
  exact .write (afterUpdate (by simpa using hr) c)

theorem contribute (h : s.Balanced past [] credit) (p : Contribution E V) :
    Ends (contribute p) s (fun _ r => r.Balanced past [] credit) (·.Balanced past [] credit) := by
  refine .read ?_
  split
  · exact .failure h
  · refine .bind (h.cellOf p.key) ?_
    rintro c q ⟨hq, hc⟩
    unfold contributeTo
    cases p.applied c.status with
    | error crash => exact .answer hq
    | ok new =>
    refine .read (.bind (hq.carryOut (n := 0) hc ?_) ?_)
    · intro u c' hup
      unfold Cell.updateWith at hup
      split at hup
      · simp at hup
      · split at hup
        · next new hnew =>
          obtain ⟨ep, -, rfl⟩ := Option.map_eq_some_iff.1 hnew
          exact Cell.update_yields hup
        · simp only [Except.ok.injEq, Prod.mk.injEq] at hup
          obtain ⟨rfl, rfl⟩ := hup
          exact ⟨.same, rfl⟩
    · intro u r hr
      exact .write_then (.answer (afterUpdate (by simpa using hr) c))

theorem suspend (h : s.Balanced past [] credit) (ep : Interim E V)
    (dependees : List (Status E V)) (k : K) :
    Ends (suspend ep dependees k) s (fun _ r => r.Balanced past [] credit)
      (·.Balanced past [] credit) := by
  refine .bind (h.keeps (Balances.keeper.checkSuspension _ _ _)) fun _ q₁ h₁ =>
    .bind (h₁.keeps (Balances.keeper.observe dependees)) fun obs q₂ h₂ =>
      .bind (h₂.cellOf ep.key) ?_
  rintro c q₃ ⟨h₃, hc⟩
  refine .read (.bind (h₃.carryOut (n := 0) hc Cell.update_yields) fun u q₄ h₄ =>
    .bind ((nextEpoch_silent q₄).mono (fun _ _ h => h) fun _ h => h.elim) ?_)
  rintro n q₅ ⟨hepoch, -⟩
  refine .write_then (.write_then ?_)
  have hasleep :=
    (h₄.silent hepoch).silent (.modifyCell q₅ c.id (f := (·.suspend ⟨n, k, obs⟩)) fun _ => rfl)
  exact (afterUpdate (by simpa using hasleep) c).keeps (Balances.keeper.registerDependers _ n obs)

theorem fallBackNow (h : s.Balanced past [] credit) {info : KindInfo E V} {key : Key E}
    (hinfo : s.schema.find? key.kind = some info) :
    Ends (fallBackNow info key) s (fun _ r => r.Balanced past [] credit)
      (·.Balanced past [] credit) := by
  refine .read (.bind (h.getOrCreate key) ?_)
  rintro ⟨c, created⟩ q ⟨hq, hc, hnew⟩
  cases created with
  | false => exact .answer hq
  | true =>
    obtain ⟨hkey, hstatus⟩ : c.key = key ∧ c.status = .unknown key := hnew rfl
    refine .bind ((freshStamp_silent q).mono (fun _ _ h => h) fun _ h => h.elim) ?_
    rintro n q' ⟨hstamp, htable⟩
    refine .write_then (.write_then ?_)
    generalize hep : info.fallbackFor (s.phase.reason key.kind) n key.entity = ep
    have hfit : c.Fits (.final ep) := by
      refine ⟨by simp [hstatus, Status.isFinal], ?_, rfl⟩
      rw [hkey, ← hep]
      exact Key.same_iff.2 ⟨rfl, Kind.same_iff.1 (Schema.same_of_find? hinfo)⟩
    have hyields := Cell.yields_replace hfit
    have hone : (c.replace (.final ep)).1.settles = 1 := Cell.settles_replace c (.final ep)
    rw [Cell.update_of_fits hfit fun h => by cases h]
    generalize c.replace (.final ep) = x at hyields hone
    refine .bind ((carryOut_succeeds x.1 x.2 _).mono (fun _ _ h => h) fun _ h => h.elim) ?_
    rintro u r ⟨rfl, rfl⟩
    -- it makes no difference whether the cell is written before
    rw [writeCell_trace]
    have hwritten := (hq.silent hstamp).writeCell (htable ▸ hc) hyields
    rw [hone] at hwritten
    refine .write (afterUpdate
      (tells (e := .fallback _ _) ?_ (.count_trace rfl (by simp [Event.round?]) rfl)) c)
    simpa [Event.update?, Event.settlements] using hwritten

theorem query (h : s.Balanced past [] credit) (key : Key E) :
    Ends (query key) s (fun _ r => r.Balanced past [] credit) (·.Balanced past [] credit) := by
  have hstatus (q : Store E V C K) (hq : q.Balanced past [] credit) :
      Ends (do return (← get).statusOf key) q (fun _ r => r.Balanced past [] credit)
        (·.Balanced past [] credit) :=
    .read (.answer hq)
  refine .bind (h.keeps Balances.keeper.checkRunning) fun _ q hq => .read ?_
  split
  · refine .bind ((infoOf_ends key.kind q).mono (fun _ _ h => h) fun _ h => h ▸ hq) ?_
    rintro info r ⟨rfl, hinfo⟩
    refine .read ?_
    dsimp only
    split
    · exact .bind (hq.keeps (Balances.keeper.askFor (.schedule "lazy") key)) fun _ r hr =>
        hstatus r hr
    · exact .bind (hq.fallBackNow hinfo) fun _ r hr => hstatus r hr
  · exact hstatus q hq

theorem force (h : s.Balanced past [] credit) (key : Key E) :
    Ends (force key) s (fun _ r => r.Balanced past [] credit) (·.Balanced past [] credit) := by
  have htold : (s.trace (.force key)).Balanced past [] credit :=
    Tells.balances (.trace rfl rfl rfl) rfl rfl _ _ _ h
  exact .write_then (.bind (htold.query key) fun _ _ hr => .answer hr)

/-! Rounds. -/

theorem finalizeIf (h : s.Balanced past owed credit) (id : Nat) (observed : Status E V)
    (ep : Final E V) :
    Ends (finalizeIf id observed ep) s
      (fun done r => done = none ∧ r.Balanced past owed credit ∨
        ∃ c u, done = some (c, u) ∧ r.Balanced past (owed ++ u.owed) (credit + 1))
      (·.Balanced past owed credit) := by
  refine .read ?_
  split
  · exact .answer (.inl ⟨rfl, h⟩)
  next c hc =>
    have hc' : s.table.cell? c.id = some c := (h.labelled.id_eq hc).symm ▸ hc
    split
    · next u c' hup =>
      obtain ⟨hyields, hone⟩ := Cell.updateIf_yields hup
      have hwritten := h.writeCell hc' hyields
      rw [hone] at hwritten
      exact .write_then (.answer (.inr ⟨c', u, rfl, hwritten⟩))
    · exact .answer (.inl ⟨rfl, h⟩)
    · exact .failure h

theorem fallBack (h : s.Balanced past [] credit) (cell : Cell E V K) :
    Ends (fallBack cell) s (fun _ r => r.Balanced past [] credit) (·.Balanced past [] credit) := by
  refine .read (.bind (h.keeps (Balances.keeper.infoOf _)) fun info q₁ h₁ =>
    .bind (h₁.keeps Balances.keeper.freshStamp) fun n q₂ h₂ => .bind (h₂.finalizeIf _ _ _) ?_)
  rintro done r (⟨rfl, hr⟩ | ⟨c, u, rfl, hr⟩)
  · exact .answer hr
  · refine .write_then (.write_then (.write_then (.write_then (.answer ?_))))
    refine afterUpdate
      (tells (e := .fallback _ _) ?_ (.count_trace rfl (by simp [Event.round?]) rfl)) c
    simpa [Event.update?, Event.settlements] using hr.silent (.notify r _)

theorem finalize (h : s.Balanced past [] credit) (cell : Cell E V K) :
    Ends (finalize cell) s (fun _ r => r.Balanced past [] credit) (·.Balanced past [] credit) := by
  unfold Store.finalize
  split
  · refine .bind (h.keeps (Balances.keeper.infoOf _)) fun info q₁ h₁ =>
      .bind (h₁.keeps Balances.keeper.freshStamp) fun n q₂ h₂ => .bind (h₂.finalizeIf _ _ _) ?_
    rintro done r (⟨rfl, hr⟩ | ⟨c, u, rfl, hr⟩)
    · exact .answer hr
    · refine .write_then (.write_then (.write_then (.answer (afterUpdate ?_ c))))
      simpa using (hr.silent (.notify r _)).count_interim
  · exact .answer h

theorem resolveMember (h : s.Balanced past owed credit) (d : Depender) :
    Ends (resolveMember d) s
      (fun done r => r.Balanced past (owed ++ done.toList.flatMap (·.2.2.owed))
        (credit + done.toList.length))
      (fun _ => True) := by
  have hnone : s.Balanced past (owed ++ []) (credit + 0) := by simpa using h
  cases d with
  | collaborator id => exact .answer hnone
  | cell id =>
    refine .read ?_
    split
    · refine .bind ((h.keeps (Balances.keeper.infoOf _)).mono (fun _ _ h => h) fun _ _ => trivial)
          fun info q₁ h₁ =>
        .bind ((h₁.keeps Balances.keeper.freshStamp).mono (fun _ _ h => h) fun _ _ => trivial)
          fun n q₂ h₂ =>
          .bind ((h₂.finalizeIf _ _ _).mono (fun _ _ h => h) fun _ _ => trivial) ?_
      rintro done r (⟨rfl, hr⟩ | ⟨c, u, rfl, hr⟩)
      · exact .answer (by simpa using hr)
      · exact .answer (by simpa using hr)
    · exact .answer hnone

theorem resolveMembers (h : s.Balanced past owed credit) (group : List Depender) :
    Ends (resolveMembers group) s
      (fun resolved r => r.Balanced past (owed ++ resolved.flatMap (·.2.2.owed))
        (credit + resolved.length))
      (fun _ => True) := by
  induction group generalizing s owed credit with
  | nil => exact .answer (by simpa using h)
  | cons d group ih =>
    refine .bind (h.resolveMember d) fun done q hq => .bind (ih hq) fun resolved r hr => .answer ?_
    simpa [Nat.add_assoc] using hr

theorem resolveGroup (h : s.Balanced past [] credit) (delayed group : List Depender) :
    Ends (resolveGroup delayed group) s (fun _ r => r.Balanced past [] credit) (fun _ => True) := by
  unfold Store.resolveGroup
  split
  · exact .answer h
  · have hreleased := Balances.keeper.foldl Balances.keeper.release group s _ _ _ h
    refine .write_then (.bind (hreleased.resolveMembers group) fun resolved r hr =>
      .write_then (.answer ?_))
    exact announceAll (by simpa using hr) group.length

theorem settle (h : s.Balanced past [] credit) (cycles fallbacks : Bool) :
    Ends (settle cycles fallbacks) s (fun _ r => r.Balanced past [] credit) (fun _ => True) :=
  settle_keeps (fun cell _ hq => (hq.fallBack cell).mono (fun _ _ h => h) fun _ _ => trivial)
    (fun delayed group _ hq => hq.resolveGroup delayed group)
    (fun cell _ hq => (hq.finalize cell).mono (fun _ _ h => h) fun _ _ => trivial) h
    cycles fallbacks

theorem onQuiescence (h : s.Balanced past [] credit) (hs : s.Sound) (hidle : s.inFlight = false)
    (cycles fallbacks : Bool) : (s.onQuiescence cycles fallbacks).2.Balanced past [] credit := by
  have htells : s.Tells (.quiescence (s.stats.quiescenceRounds + 1)) s.beginRound :=
    .count_trace rfl (by simp [Event.round?]) rfl
  have hq : s.beginRound.Balanced past [] credit := htells.balances rfl rfl _ _ _ h
  have hquiet : s.Becomes s.table [] s.beginRound :=
    (count_becomes s _).then_quiet (trace_becomes _ _)
  obtain ⟨changed, r, hr, -⟩ := settle_progress (hs.congr hquiet.table hquiet.schema)
    ((inFlight_of_quiet hquiet).trans hidle) cycles fallbacks
  rw [onQuiescence_of_ok hr]
  exact ((hq.settle cycles fallbacks).of_ok hr).silent (.notify r _)

end Balanced
end Store
end Blackboard
