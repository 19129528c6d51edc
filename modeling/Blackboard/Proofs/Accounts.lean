import Blackboard.Proofs.Bookkeeping

/-! The whole history of a store. Whoever observes a store from the start, and keeps all that is
recorded, can tell from the events what became of every cell, how often what happened, and who made
the final cells final. -/
namespace Blackboard

def Event.updatesOf {E V : Type} [DecidableEq E] (key : Key E) (events : List (Event E V)) :
    List (Status E V × Status E V) :=
  (events.filterMap Event.update?).filter (·.2.key.same key)

namespace Store
variable {E V C K : Type} {s : Store E V C K}

theorem Ends.answer_isOk {op : Op E V C K Unit} {P : Nat → Store E V C K → Prop} {n : Nat}
    (h : Ends op s (fun _ r => P (n + 1) r) (P n ·)) :
    P (n + if (s.answer op).1.isOk then 1 else 0) (s.answer op).2 := by
  unfold Store.answer
  cases hr : op s with
  | ok a r => exact h.of_ok hr
  | error e r => exact h.of_error hr

variable [DecidableEq E] [DecidableEq V]

/-- Events and statistics tell all that happened to a store into which clients installed some final
values. -/
structure Documented (s : Store E V C K) (events : List (Event E V)) (installs : Nat) : Prop where
  /-- Each update of a cell begins where the one before ended, the first with nothing, and the last
  ends with what the cell holds. -/
  history : ∀ c ∈ s.cells, (Status.unknown c.key).Leads (Event.updatesOf c.key events) c.status
  unknown : ∀ c ∈ s.cells, Event.updatesOf c.key events = [] ↔ c.status.isUnknown = true
  /-- There are no other updates than those of cells. -/
  updates : ∀ u ∈ events.filterMap Event.update?, ∃ c ∈ s.cells,
    u.1.key.same c.key = true ∧ u.2.key.same c.key = true
  counters : s.stats.Counts events
  /-- Rounds are numbered from 1. -/
  rounds : events.filterMap Event.round? = List.range' 1 s.stats.quiescenceRounds
  finals : s.finals = s.stats.fallbacks + s.stats.resolvedCycles +
    s.stats.resolvedInterims + installs
  /-- Without a fault or a shutdown, tasks are executed or still waiting. -/
  tasks : s.fault = none → s.isShutdown = false →
    s.stats.executedTasks + s.queue.pending = s.stats.scheduledTasks + s.stats.notifications

theorem Balanced.documented {past : List (Event E V)} {credit : Nat}
    (h : s.Balanced past [] credit) : s.Documented (past ++ s.logged) credit := by
  have hhistory := h.history
  rw [List.append_nil] at hhistory
  refine ⟨fun c hc => ?_, fun c hc => ?_, fun u hu => ?_, h.counters, h.rounds, h.finals, h.tasks⟩
  · obtain ⟨i, hi⟩ := CellTable.mem_all_iff.1 hc
    exact hhistory.leads hi
  · obtain ⟨i, hi⟩ := CellTable.mem_all_iff.1 hc
    exact (hhistory.leads hi).eq_nil_iff fun u hu => hhistory.known u (List.mem_of_mem_filter hu)
  · obtain ⟨i, c, hc, hold, hnew⟩ := hhistory.placed u hu
    exact ⟨c, CellTable.mem_all_iff.2 ⟨i, hc⟩, hold, hnew⟩

namespace Balanced
variable {past : List (Event E V)} {credit : Nat}

theorem create (config : Config) (cores : Nat) :
    (create config (.events .empty) cores : Store E V C K).Balanced [] [] 0 where
  labelled := CellTable.Sound.empty.labelled
  traced := ⟨_, rfl⟩
  history := by
    refine ⟨fun {i c} hc => ?_, by simp [logged, records, Store.create, notify, EventLog.empty],
      by simp [logged, records, Store.create, notify, EventLog.empty]⟩
    have hnone : (CellTable.empty : CellTable E V K).cell? i = some c := hc
    simp [CellTable.empty, CellTable.cell?] at hnone
  counters := by constructor <;> rfl
  rounds := rfl
  finals := rfl
  tasks _ _ := rfl

theorem fail (h : s.Balanced past [] credit) (e : Error) : (s.fail e).Balanced past [] credit :=
  (Tells.fail s e).balances rfl rfl _ _ _ h

end Balanced

variable [Property V] [ToString E] [ToString V]

/-- The number of final values that an act installs: one, if it is there to install one and
succeeds. -/
def installs (s : Store E V C K) : Act E V C K → Nat
  | .call (.setFinal ep) => if (s.serve (.setFinal ep)).1.isOk then 1 else 0
  | .perform (.install ep) => if (s.answer (perform (.install ep))).1.isOk then 1 else 0
  | _ => 0

def taken (s : Store E V C K) : Act E V C K → List (Record E V)
  | .call .drainEvents => (s.serve .drainEvents).1
  | _ => []

def installed (s : Store E V C K) : List (Act E V C K) → Nat
  | [] => 0
  | a :: acts => s.installs a + (s.act a).installed acts

/-- All that is recorded in a run: what is taken out of the log on the way, and what is in it at the
end. -/
def recorded (s : Store E V C K) : List (Act E V C K) → List (Record E V)
  | [] => s.records
  | a :: acts => s.taken a ++ (s.act a).recorded acts

namespace Balanced
variable {past : List (Event E V)} {credit : Nat}

theorem drain (h : s.Balanced past [] credit) :
    (s.serve .drainEvents).2.Balanced (past ++ (s.serve .drainEvents).1.map Record.event) []
      credit := by
  obtain ⟨log, hlog⟩ := h.traced
  have hserve : s.serve .drainEvents =
      (log.records.toList, { s with tracer := .events { log with records := #[] } }) := by
    simp [serve, drainRecords, hlog, EventLog.drain]
  have hlogged : s.logged = log.records.toList.map Record.event := by simp [logged, records, hlog]
  have hevents : past ++ log.records.toList.map Record.event ++
      ({ s with tracer := .events { log with records := #[] } } : Store E V C K).logged =
        past ++ s.logged := by
    simp [logged, records, hlog]
  rw [hserve]
  refine ⟨h.labelled, ⟨_, rfl⟩, ?_, ?_, ?_, h.finals, h.tasks⟩
  · rw [hevents]
    exact h.history
  · rw [hevents]
    exact h.counters
  · rw [hevents]
    exact h.rounds

theorem serve (h : s.Balanced past [] credit) (c : Call E V C) :
    (s.serve c).2.Balanced (past ++ (s.taken (.call c : Act E V C K)).map Record.event) []
      (credit + s.installs (.call c : Act E V C K)) := by
  -- most calls take nothing out of the log and install nothing
  have hplain {r : Store E V C K} (hr : r.Balanced past [] credit) :
      r.Balanced (past ++ [].map Record.event) [] (credit + 0) := by simpa using hr
  have hkeeps {op : Op E V C K Unit} (hop : Keeps Balances op) :
      (s.answer op).2.Balanced (past ++ [].map Record.event) [] (credit + 0) :=
        hplain (h.keeps hop).answer_snd
  cases c with
  | registerKind info => exact hkeeps (Balances.keeper.registerKind info)
  | setupPhase computed delayed => exact hkeeps (Balances.keeper.setupPhase computed delayed)
  | registerLazy kind c => exact hkeeps (Balances.keeper.registerLazy (.schedule "lazy") kind c)
  | registerTriggered kind c =>
    exact hkeeps (Balances.keeper.registerTriggered (.schedule "triggered") kind c)
  | scheduleEager entities c =>
    exact hkeeps (Balances.keeper.scheduleEager (.schedule "eager") entities c)
  | setFinal ep =>
    have hset : Ends (setFinal ep) s (fun _ r => r.Balanced past [] (credit + 1))
        (·.Balanced past [] credit) :=
      .bind (h.keeps Balances.keeper.checkRunning) fun _ _ hq => hq.installFinal ep
    have hcounted := Ends.answer_isOk (P := fun n r => r.Balanced past [] n) hset
    rw [← List.append_nil past] at hcounted
    exact hcounted
  | query key => exact hplain (h.query key).answer_snd
  | force key => exact hplain (h.force key).answer_snd
  | shutdown =>
    exact hplain ⟨h.labelled, h.traced, h.history, h.counters, h.rounds, h.finals,
      fun _ hclosed => by cases hclosed⟩
  | drainEvents => exact h.drain
  | stamp => exact hplain (h.silent (.of_cells rfl rfl rfl rfl rfl))
  | hasProperty | isKnown | ofKind | finalsOfKind | entitiesWith | properties | isShutdown
    | statistics | config
    | isTraced | events => exact hplain h

theorem performed {a : Action E V C K} {n : Nat} (h : Ends (Store.perform a) s
    (fun _ r => r.Balanced past [] (credit + n)) (·.Balanced past [] credit)) :
    (s.act (.perform a)).Balanced past
      [] (credit + if (s.answer (Store.perform a)).1.isOk then n else 0) := by
  cases hr : Store.perform a s with
  | ok u r =>
    have hact : s.act (.perform a) = r := by simp only [Store.act, hr]
    have hanswer : (s.answer (Store.perform a)).1.isOk = true := by
      simp [Store.answer, hr, Except.isOk, Except.toBool]
    rw [hact, if_pos hanswer]
    exact h.of_ok hr
  | error e r =>
    have hact : s.act (.perform a) = r.fail e := by simp only [Store.act, hr]
    have hanswer : ¬ (s.answer (Store.perform a)).1.isOk = true := by
      simp [Store.answer, hr, Except.isOk, Except.toBool]
    rw [hact, if_neg hanswer]
    exact (h.of_error hr).fail e

theorem perform (h : s.Balanced past [] credit) (a : Action E V C K) :
    (s.act (.perform a)).Balanced past [] (credit + s.installs (.perform a)) := by
  have hplain {a : Action E V C K}
      (hop : Ends (Store.perform a) s (fun _ r => r.Balanced past [] credit)
        (·.Balanced past [] credit)) : (s.act (.perform a)).Balanced past [] (credit + 0) := by
    simpa using performed (n := 0) hop
  cases a with
  | install ep => exact performed (h.installFinal ep).unbroken
  | suspend ep dependees k => exact hplain (h.suspend ep dependees k).unbroken
  | contribute p => exact hplain (h.contribute p)
  | collaborate dependees k =>
    exact hplain (h.keeps (Balances.keeper.collaborate dependees k)).unbroken
  | schedule c e =>
    exact hplain (h.keeps (.write fun s => Balances.schedule "incremental" s c e)).unbroken

theorem act (h : s.Balanced past [] credit) (hs : s.Healthy) (a : Act E V C K) :
    (s.act a).Balanced (past ++ (s.taken a).map Record.event) [] (credit + s.installs a) := by
  have hplain {r : Store E V C K} (hr : r.Balanced past [] credit) :
      r.Balanced (past ++ [].map Record.event) [] (credit + 0) := by simpa using hr
  cases a with
  | call c => exact h.serve c
  | start =>
    refine hplain ?_
    simp only [Store.act]
    split
    · exact h
    · split
      · exact h
      · next task rest hwaiting =>
        refine ⟨h.labelled, h.traced, h.history, ?_, h.rounds, h.finals, fun hfault hclosed => ?_⟩
        · exact ⟨h.counters.1, h.counters.2, h.counters.3, h.counters.4, h.counters.5, h.counters.6⟩
        · have htasks := h.tasks hfault hclosed
          simp only [Queue.pending, hwaiting, List.length_cons] at htasks
          change s.stats.executedTasks + 1 + rest.length =
            s.stats.scheduledTasks + s.stats.notifications
          omega
  | perform x => simpa [Store.taken] using h.perform x
  | crash c => exact hplain (h.fail _)
  | round cycles fallbacks =>
    refine hplain ?_
    simp only [Store.act]
    split
    · exact h
    · next hgo =>
      have hidle : s.inFlight = false := by
        simp only [Bool.or_eq_true, not_or, Bool.not_eq_true] at hgo
        exact hgo.2
      exact h.onQuiescence hs.sound hidle cycles fallbacks
  | drop =>
    refine hplain ?_
    simp only [Store.act]
    split
    · next hhalted =>
      -- a queue that runs neither saw a fault nor a shutdown, so it is not dropped
      refine ⟨h.labelled, h.traced, h.history, h.counters, h.rounds, h.finals,
        fun hfault hclosed => ?_⟩
      have hflags := hs.flags
      have hfault' : s.fault = none := hfault
      have hclosed' : s.queue.closed = false := hclosed
      simp [hhalted, hfault', hclosed'] at hflags
    · exact h
  | tell n => exact hplain (h.silent (.notify s n))

theorem run (h : s.Balanced past [] credit) (hs : s.Reachable) (acts : List (Act E V C K)) :
    (s.run acts).Documented (past ++ (s.recorded acts).map Record.event)
      (credit + s.installed acts) := by
  induction acts generalizing s past credit with
  | nil => exact h.documented
  | cons a acts ih =>
    have hrest := ih (h.act hs.healthy a) (hs.act a)
    rw [List.append_assoc, ← List.map_append, Nat.add_assoc] at hrest
    exact hrest

end Balanced

/-- In every run whose events are recorded, events and statistics tell the whole history. -/
theorem run_documented (config : Config) (cores : Nat) (acts : List (Act E V C K)) :
    let s : Store E V C K := create config (.events .empty) cores
    (s.run acts).Documented ((s.recorded acts).map Record.event) (s.installed acts) := by
  intro s
  have hrun := (Balanced.create config cores).run (.create config _ cores) acts
  rw [List.nil_append, Nat.zero_add] at hrun
  exact hrun

/-- One value is installed, another falls back because the phase computes nothing. -/
example :
    let s : Store Element Fact Unit Unit := create {} (.events .empty) 1
    let acts := [.call (.registerKind ((FallbackRule.fixed (.purity .pure)).info .lower)),
      .call (.setFinal ⟨⟨.method 1, FactSort.purity.kind⟩, ⟨0, .purity .impure⟩⟩),
      .call .drainEvents,
      .call (.setupPhase [] []), .call (.query ⟨.method 2, FactSort.purity.kind⟩)]
    (s.recorded acts).map (·.event.name) = ["update", "fallback", "update"] ∧ s.installed acts = 1 ∧
      (s.run acts).finals = 2 := by
  decide +kernel

end Store
end Blackboard
