import Blackboard.Proofs.Asking
import Blackboard.Proofs.Keeping
import Blackboard.Proofs.Observers

/-! What operations do besides changing cells: they tell the tracer, and they queue tasks. A
computation is scheduled with an origin, and each act schedules with one origin only: registering a
lazy computation and asking for a key that is going to be computed schedule lazily, scheduling from
outside is eager, that by a result is incremental, and all the rest schedules what the first values
of cells trigger. -/
namespace Blackboard

inductive Effect (E V C K : Type) where
  | schedule (origin : String) (computation : C) (entity : E)
  | resume (depender : Depender) (dependee : Nat) (continuation : K)
  | tell (event : Event E V)

theorem Queue.waiting_enqueue_congr {T : Type} {q r : Queue T} (hwaiting : r.waiting = q.waiting)
    (hclosed : r.closed = q.closed) (tasks : List T) :
    (r.enqueue tasks).waiting = (q.enqueue tasks).waiting := by
  simp only [enqueue, hclosed]
  split
  · exact hwaiting
  · simp only [hwaiting]

theorem Task.computations_compute {E C K : Type} (l : List (C × E)) :
    (l.map fun p => (.compute p.1 p.2 : Task E C K)).filterMap Task.computation? = l := by
  simp [List.filterMap_map, Function.comp_def, Task.computation?]

namespace Effect
variable {E V C K : Type}

def event? : Effect E V C K → Option (Event E V)
  | schedule origin _ e => some (.schedule e origin)
  | resume _ _ _ => none
  | tell event => some event

def task? : Effect E V C K → Option (Task E C K)
  | schedule _ c e => some (.compute c e)
  | resume d id k => some (.resume d id k)
  | tell _ => none

def IsOf (origin : String) : Effect E V C K → Prop
  | schedule o _ _ => o = origin
  | resume _ _ _ => True
  | tell event => event.scheduled? = none

theorem scheduled_eq {origin : String} {effects : List (Effect E V C K)}
    (h : ∀ x ∈ effects, x.IsOf origin) :
    (effects.filterMap event?).filterMap Event.scheduled? =
      ((effects.filterMap task?).filterMap Task.computation?).map fun p => (p.2, origin) := by
  induction effects with
  | nil => rfl
  | cons x effects ih =>
    obtain ⟨hx, hrest⟩ := List.forall_mem_cons.1 h
    have htail := ih hrest
    cases x with
    | schedule o c e =>
      obtain rfl : o = origin := hx
      simpa [List.filterMap_cons, event?, task?, Event.scheduled?, Task.computation?] using htail
    | resume d id k => simpa [List.filterMap_cons, event?, task?, Task.computation?] using htail
    | tell event =>
      have hnone : event.scheduled? = none := hx
      simpa [List.filterMap_cons, event?, task?, hnone] using htail

end Effect

namespace Store
variable {E V C K α β : Type} {s q r : Store E V C K} {origin : String}

/-- What was told and queued between two stores. -/
structure Does (s : Store E V C K) (effects : List (Effect E V C K))
    (r : Store E V C K) : Prop where
  closed : r.queue.closed = s.queue.closed
  waiting : r.queue.waiting = (s.queue.enqueue (effects.filterMap Effect.task?)).waiting
  tracer : ∀ log, s.tracer = .events log →
    r.tracer = .events ((effects.filterMap Effect.event?).foldl .record log)

theorem Does.trans {first second : List (Effect E V C K)} (h : s.Does first q)
    (h' : q.Does second r) : s.Does (first ++ second) r where
  closed := h'.closed.trans h.closed
  waiting := by
    rw [h'.waiting, List.filterMap_append, ← Queue.enqueue_enqueue]
    exact Queue.waiting_enqueue_congr h.waiting (h.closed.trans (Queue.closed_enqueue _ _).symm) _
  tracer log hlog := by
    rw [h'.tracer _ (h.tracer log hlog), List.filterMap_append, List.foldl_append]

def Works (origin : String) (s r : Store E V C K) : Prop :=
  ∃ effects, (∀ x ∈ effects, Effect.IsOf origin x) ∧ s.Does effects r

namespace Works

theorem trans (h : s.Works origin q) (h' : q.Works origin r) : s.Works origin r := by
  obtain ⟨first, hfirst, hq⟩ := h
  obtain ⟨second, hsecond, hr⟩ := h'
  exact ⟨first ++ second, List.forall_mem_append.2 ⟨hfirst, hsecond⟩, hq.trans hr⟩

theorem of_silent (hqueue : r.queue = s.queue) (htracer : r.tracer = s.tracer) : s.Works origin r :=
  ⟨[], by simp, by rw [hqueue], by simp [hqueue], fun log hlog => by simp [htracer, hlog]⟩

theorem refl (s : Store E V C K) : s.Works origin s := of_silent rfl rfl

theorem trace (s : Store E V C K) {e : Event E V} (h : e.scheduled? = none) :
    s.Works origin (s.trace e) := by
  refine ⟨[.tell e], by simpa [Effect.IsOf] using h, by simp,
    by simp [List.filterMap_cons, Effect.task?], ?_⟩
  intro log hlog
  simp [Store.trace, hlog, Effect.event?]

theorem push_resume (s : Store E V C K) (d : Depender) (id : Nat) (k : K) :
    s.Works origin (s.push (.resume d id k)) := by
  refine ⟨[.resume d id k], by simp [Effect.IsOf], ?_, ?_, fun log hlog => ?_⟩
  · exact Queue.closed_enqueue s.queue [_]
  · simp [Store.push, Queue.push, Queue.enqueue, Effect.task?]
  · simp [Store.push, hlog, List.filterMap_cons, Effect.event?]

theorem schedule (origin : String) (s : Store E V C K) (c : C) (e : E) :
    s.Works origin (s.schedule origin c e) := by
  have hbecomes := schedule_becomes origin s c e
  refine ⟨[.schedule origin c e], by simp [Effect.IsOf], hbecomes.closed, ?_, fun log hlog => ?_⟩
  · simp [hbecomes.queue, Effect.task?]
  · simp [Store.schedule, Store.push, Store.trace, Store.count, hlog, Effect.event?]

/-! Changing cells. -/

theorem resume (s : Store E V C K) (d : Depender) (dependee : Cell E V K)
    (susp : Suspension E V K) : s.Works origin (s.resume d dependee susp) := by
  unfold Store.resume
  dsimp only
  generalize hcount : s.count (fun n => { n with notifications := n.notifications + 1 }) = q
  have htold : s.Works origin (q.trace (.notification dependee.key (q.dependerKey d))) :=
    (of_silent (hcount ▸ rfl) (hcount ▸ rfl)).trans (trace q rfl)
  generalize q.trace _ = q at htold
  have hunlinked : s.Works origin (q.unlink d susp) := htold.trans (of_silent rfl rfl)
  split
  · exact hunlinked.trans (of_silent rfl rfl)
  · exact hunlinked.trans (push_resume _ d dependee.id susp.continuation)

variable [DecidableEq E]

theorem keeper (origin : String) :
    Keeper (Works origin : Store E V C K → Store E V C K → Prop) where
  trans := .trans
  silent h := .of_silent h.queue h.tracer
  resume := .resume

theorem recorder : Recorder (Works "triggered" : Store E V C K → Store E V C K → Prop) where
  toKeeper := keeper _
  writeCell _ _ := .of_silent rfl rfl
  trace := .trace
  count _ _ _ := .of_silent rfl rfl
  schedule := .schedule "triggered"

end Works

theorem Works.fail (s : Store E V C K) (e : Error) : s.Works origin (s.fail e) := by
  have htold : s.Works origin ((s.notify (.fault e)).trace (.fault e)) :=
    .trans (q := s.notify (.fault e)) (.of_silent rfl rfl) (.trace _ rfl)
  refine htold.trans ?_
  unfold Store.fail
  dsimp only
  generalize (s.notify (.fault e)).trace (.fault e) = q
  exact ⟨[], by simp, rfl, by simp [Queue.halt], fun log hlog => by simp [hlog]⟩

def recording (s : Store E V C K) : Store E V C K := { s with tracer := .events .empty }

theorem agreesWith_recording (s : Store E V C K) : s.AgreesWith s.recording := by
  constructor <;> rfl

theorem events_foldl_record (log : EventLog E V) (events : List (Event E V)) :
    (events.foldl EventLog.record log).records.toList.map Record.event =
      log.records.toList.map Record.event ++ events := by
  induction events generalizing log with
  | nil => simp
  | cons e events ih => simp [ih, EventLog.record]

variable [DecidableEq E] [DecidableEq V] [Property V] [ToString E] [ToString V]

theorem onQuiescence_works (s : Store E V C K) (cycles fallbacks : Bool) :
    s.Works "triggered" (s.onQuiescence cycles fallbacks).2 := by
  unfold onQuiescence
  dsimp only
  generalize hcount : s.count (fun n => { n with quiescenceRounds := n.quiescenceRounds + 1 }) = q
  have htold : s.Works "triggered" (q.trace (.quiescence q.stats.quiescenceRounds)) :=
    (Works.of_silent (hcount ▸ rfl) (hcount ▸ rfl)).trans (.trace q rfl)
  have hsettled :=
    Works.recorder.settle cycles fallbacks (q.trace (.quiescence q.stats.quiescenceRounds))
  cases hr : Store.settle cycles fallbacks (q.trace (.quiescence q.stats.quiescenceRounds)) with
  | ok changed r => exact (htold.trans (hsettled.of_ok hr)).trans (.of_silent rfl rfl)
  | error e r => exact (htold.trans (hsettled.of_error hr)).trans (.fail r e)

/-- The origin with which an act schedules, if it schedules anything. -/
def originOf (s : Store E V C K) : Act E V C K → String
  | .call (.scheduleEager _ _) => "eager"
  | .call (.registerLazy _ _) => "lazy"
  | .call (.query key) | .call (.force key) =>
    if s.phase.provides key.kind then "lazy" else "triggered"
  | .perform (.schedule _ _) => "incremental"
  | _ => "triggered"

theorem query_works (s : Store E V C K) (key : Key E) :
    let origin := if s.phase.provides key.kind then "lazy" else "triggered"
    Ends (query key) s (fun _ r => s.Works origin r) (s.Works origin ·) := by
  intro origin
  have hstatus (q : Store E V C K) (h : s.Works origin q) :
      Ends (do return (← get).statusOf key) q (fun _ r => s.Works origin r) (s.Works origin ·) :=
        .read (.answer h)
  have hself {q : Store E V C K} (h : q = s) : s.Works origin q := h ▸ .refl q
  refine .bind ((checkRunning_ends s).mono (fun _ _ h => h) fun _ h => hself h) ?_
  intro _ r hr
  subst hr
  refine .read ?_
  split
  · refine .bind ((infoOf_ends key.kind r).mono (fun _ _ h => h) fun _ h => hself h) ?_
    intro info q hq
    obtain ⟨rfl, -⟩ := hq
    refine .read ?_
    dsimp only
    split
    · next hprovides =>
      have horigin : origin = "lazy" := if_pos hprovides
      exact .bind (horigin ▸ (Works.keeper _).askFor (.schedule "lazy") key q) fun _ q' hq' =>
        hstatus q' (horigin ▸ hq')
    · next hprovides =>
      have horigin : origin = "triggered" := if_neg hprovides
      exact .bind (horigin ▸ Works.recorder.fallBackNow info key q) fun _ q' hq' =>
        hstatus q' (horigin ▸ hq')
  · exact hstatus r (.refl r)

theorem serve_works (s : Store E V C K) {c : Call E V C} (hshut : c ≠ .shutdown)
    (hdrain : c ≠ .drainEvents) : s.Works (s.originOf (.call c : Act E V C K)) (s.serve c).2 := by
  cases c with
  | registerKind info => exact ((Works.keeper _).registerKind info s).answer_snd
  | setupPhase computed delayed => exact ((Works.keeper _).setupPhase computed delayed s).answer_snd
  | registerLazy kind c =>
    exact ((Works.keeper _).registerLazy (.schedule "lazy") kind c s).answer_snd
  | registerTriggered kind c =>
    exact ((Works.keeper _).registerTriggered (.schedule "triggered") kind c s).answer_snd
  | scheduleEager entities c =>
    exact ((Works.keeper _).scheduleEager (.schedule "eager") entities c s).answer_snd
  | setFinal ep =>
    have hset : Keeps (Works "triggered") (setFinal ep : Op E V C K Unit) :=
      (Works.keeper _).bind (Works.keeper _).checkRunning fun _ => Works.recorder.installFinal ep
    exact (hset s).answer_snd
  | query key => exact (query_works s key).answer_snd
  | force key =>
    have hforce : Ends (force key) s
        (fun _ r => s.Works (s.originOf (.call (.force key) : Act E V C K)) r)
        (s.Works (s.originOf (.call (.force key) : Act E V C K)) ·) := by
      have htold : s.Works (s.originOf (.call (.force key) : Act E V C K)) (s.trace (.force key)) :=
        .trace s rfl
      have hquery := query_works (s.trace (.force key)) key
      rw [trace_phase] at hquery
      exact .write_then (.bind (hquery.mono (fun _ _ h => htold.trans h) fun _ h => htold.trans h)
        fun _ _ h => .answer h)
    exact hforce.answer_snd
  | shutdown => exact absurd rfl hshut
  | drainEvents => exact absurd rfl hdrain
  | stamp => exact .of_silent rfl rfl
  | hasProperty | isKnown | ofKind | finalsOfKind | entitiesWith | properties | isShutdown
    | statistics | config
    | isTraced | events => exact .refl s

theorem perform_works (s : Store E V C K) (a : Action E V C K) :
    s.Works (s.originOf (.perform a)) (s.act (.perform a)) := by
  have hends : Keeps (Works (s.originOf (.perform a))) (perform a : Op E V C K (Option Crash)) := by
    cases a with
    | install ep => exact .unbroken (Works.recorder.installFinal ep)
    | suspend ep dependees k => exact .unbroken (Works.recorder.suspend ep dependees k)
    | contribute p => exact Works.recorder.contribute p
    | collaborate dependees k => exact .unbroken ((Works.keeper _).collaborate dependees k)
    | schedule c e => exact .unbroken (.write fun s => .schedule "incremental" s c e)
  simp only [Store.act]
  cases hr : perform a s with
  | ok u r => exact (hends s).of_ok hr
  | error e r => exact ((hends s).of_error hr).trans (.fail r e)

def told (s : Store E V C K) (a : Act E V C K) : List (Event E V) :=
  (s.recording.act a).records.map Record.event

/-- The computations that an act schedules with an origin: those that it tells of and queues. -/
def scheduledAs (origin : String) (s : Store E V C K) (a : Act E V C K) : List (C × E) :=
  (((s.told a).filterMap Event.scheduled?).zip (s.scheduled a)).filterMap fun p =>
    if p.1.2 = origin then some p.2 else none

theorem scheduled_recording (s : Store E V C K) (a : Act E V C K) :
    s.recording.scheduled a = s.scheduled a := by
  rw [scheduled, scheduled, ((agreesWith_recording s).act a).queue, (agreesWith_recording s).queue]

theorem Works.told_eq {a : Act E V C K} (h : s.recording.Works origin (s.recording.act a)) :
    (s.queue.closed = false →
      (s.told a).filterMap Event.scheduled? = (s.scheduled a).map fun p => (p.2, origin)) ∧
    (s.queue.closed = true → s.scheduled a = []) := by
  obtain ⟨effects, hof, hdoes⟩ := h
  have htold : s.told a = effects.filterMap Effect.event? := by
    rw [told, records, hdoes.tracer .empty rfl]
    simpa [EventLog.empty] using events_foldl_record .empty (effects.filterMap Effect.event?)
  have hqueue : s.scheduled a = ((s.queue.enqueue (effects.filterMap Effect.task?)).waiting.drop
      s.queue.waiting.length).filterMap Task.computation? := by
    rw [← scheduled_recording, scheduled, hdoes.waiting]
    rfl
  constructor
  · intro hopen
    rw [htold, hqueue, Queue.waiting_enqueue hopen, List.drop_left]
    exact Effect.scheduled_eq hof
  · intro hclosed
    simp [hqueue, Queue.enqueue, hclosed]

/-- An act tells of what it schedules, all with one origin; a closed store schedules nothing. -/
theorem act_told (s : Store E V C K) (a : Act E V C K) :
    (s.queue.closed = false →
      (s.told a).filterMap Event.scheduled? = (s.scheduled a).map fun p => (p.2, s.originOf a)) ∧
    (s.queue.closed = true → s.scheduled a = []) := by
  -- acts that take tasks away tell nothing
  have hnothing (htold : s.told a = [])
      (hqueue : (s.act a).queue.waiting.length ≤ s.queue.waiting.length) :
      (s.queue.closed = false →
        (s.told a).filterMap Event.scheduled? = (s.scheduled a).map fun p => (p.2, s.originOf a)) ∧
      (s.queue.closed = true → s.scheduled a = []) := by
    have hnone : s.scheduled a = [] := by
      rw [scheduled, List.drop_eq_nil_of_le hqueue, List.filterMap_nil]
    exact ⟨fun _ => by rw [htold, hnone]; rfl, fun _ => hnone⟩
  cases a with
  | call c =>
    by_cases hshut : c = .shutdown
    · subst hshut
      exact hnothing rfl (Nat.zero_le _)
    by_cases hdrain : c = .drainEvents
    · subst hdrain
      refine hnothing rfl ?_
      rw [show (s.act (.call .drainEvents)).queue = s.queue from (AgreesWith.drain s).queue]
    exact Works.told_eq (serve_works s.recording hshut hdrain)
  | start =>
    have hact (q : Store E V C K) : (q.act .start).tracer = q.tracer ∧
        (q.act .start).queue.waiting.length ≤ q.queue.waiting.length := by
      simp only [act]
      split
      · exact ⟨rfl, Nat.le_refl _⟩
      · split
        · exact ⟨rfl, Nat.le_refl _⟩
        · next hwaiting => exact ⟨rfl, by simp [count, hwaiting]⟩
    refine hnothing ?_ (hact s).2
    rw [told, records, (hact s.recording).1]
    rfl
  | perform x => exact Works.told_eq (perform_works s.recording x)
  | crash c => exact Works.told_eq (.fail _ _)
  | round cycles fallbacks =>
    refine Works.told_eq ?_
    simp only [act]
    split
    · exact .refl _
    · exact onQuiescence_works _ cycles fallbacks
  | drop =>
    have hact (q : Store E V C K) : (q.act .drop).tracer = q.tracer ∧
        (q.act .drop).queue.waiting.length ≤ q.queue.waiting.length := by
      simp only [act]
      split
      · exact ⟨rfl, Nat.zero_le _⟩
      · exact ⟨rfl, Nat.le_refl _⟩
    refine hnothing ?_ (hact s).2
    rw [told, records, (hact s.recording).1]
    rfl
  | tell n => exact Works.told_eq (.of_silent rfl rfl)

theorem scheduledAs_eq (origin : String) (s : Store E V C K) (a : Act E V C K) :
    s.scheduledAs origin a = if s.originOf a = origin then s.scheduled a else [] := by
  obtain ⟨hopen, hclosed⟩ := s.act_told a
  cases hq : s.queue.closed with
  | true => simp [scheduledAs, hclosed hq]
  | false =>
    rw [scheduledAs, hopen hq]
    generalize s.scheduled a = l
    split
    · next horigin =>
      induction l with
      | nil => rfl
      | cons p l ih => simpa [List.filterMap_cons, horigin] using ih
    · next horigin =>
      induction l with
      | nil => rfl
      | cons p l ih => simpa [List.filterMap_cons, horigin] using ih

end Store
end Blackboard
