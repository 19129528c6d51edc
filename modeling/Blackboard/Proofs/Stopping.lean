import Blackboard.Proofs.Progress

/-!
What stops a store stops it for good. After a fault, or after shutdown, the queue is halted and
stays so: whatever is called and scheduled, no task is taken up any more, and waits tell the first
fault, or that the store is closed. An update that breaks down while a result is handled is no
fault. Nothing is recorded then, the worker is lost with its task unfinished, and no wait ends any
more.
-/
namespace Blackboard

/-- The calls that a closed store refuses. -/
def Call.isGuarded {E V C : Type} : Call E V C → Bool
  | registerKind _ | setupPhase _ _ | registerLazy _ _ | registerTriggered _ _ | scheduleEager _ _
  | setFinal _ | query _ | force _ => true
  | _ => false

namespace Store
variable {E V C K α : Type} {s r : Store E V C K}

theorem fail_fault (s : Store E V C K) (e : Error) : (s.fail e).fault = s.fault.or (some e) := by
  simp [fail, notify]

theorem refused (h : s.isShutdown = true) (k : Unit → Op E V C K α) :
    (checkRunning >>= k) s = .error .shutdown s := by
  have hcheck : checkRunning s = .error .shutdown s := by
    change (if s.isShutdown then throw Error.shutdown else pure () : Op E V C K Unit) s = _
    rw [if_pos h]
    rfl
  change EStateM.bind checkRunning k s = _
  rw [EStateM.bind, hcheck]

variable [DecidableEq E] [DecidableEq V]

theorem Served.flags {given : Option (Final E V)} {asked : Option (Key E)} [Property V] [ToString E]
    (h : s.Served given asked r) : r.fault = s.fault ∧ r.queue.halted = s.queue.halted := by
  have hsteady {q : Store E V C K} (hq : s.Steady q) :
      q.fault = s.fault ∧ q.queue.halted = s.queue.halted := by
    obtain ⟨tasks, hqueue⟩ := hq.queue
    exact ⟨hq.fault, by rw [hqueue, Queue.halted_enqueue]⟩
  cases h with
  | steady hr => exact hsteady hr
  | settled q c ep hq _ _ _ _ hr _ =>
    obtain ⟨hfault, hhalted⟩ := hsteady hq
    have hbecomes := takes_final.1 hr
    exact ⟨hbecomes.fault.trans hfault, hbecomes.halted.trans hhalted⟩

variable [Property V] [ToString E] [ToString V]

/-! The first fault is kept. -/

theorem serve_fault (hs : s.Sound) (c : Call E V C) : (s.serve c).2.fault = s.fault := by
  rcases serve_cases hs c with ⟨-, hr⟩ | hr
  · rw [hr]
    rfl
  · exact hr.flags.1

theorem act_fault (h : s.Healthy) (a : Act E V C K) :
    (s.act a).fault = s.fault.or (s.raised? a) := by
  cases a with
  | call c => exact (serve_fault h.sound c).trans (Option.or_none).symm
  | start =>
    simp only [act, raised?, Option.or_none]
    split
    · rfl
    · split <;> rfl
  | perform a =>
    have hends := perform_ends h.sound a
    simp only [act, raised?, answer]
    cases hr : perform a s with
    | ok lost r =>
      obtain ⟨t, ts, hb⟩ := (hends.of_ok hr).1.becomes
      simp [failureOf, hb.fault]
    | error e r =>
      obtain ⟨t, ts, hb⟩ := (hends.of_error hr).becomes
      simp [failureOf, fail_fault, hb.fault]
  | crash c => exact fail_fault s _
  | round cycles fallbacks =>
    simp only [act, raised?]
    split
    · simp
    · next hguard =>
      simp only [Bool.or_eq_true, not_or, Bool.not_eq_true] at hguard
      obtain ⟨changed, r, hr, -⟩ := settle_progress h.sound hguard.2 cycles fallbacks
      have hround := (kept_ages (s := s)).onQuiescence h.sound hguard.2 cycles fallbacks
      simp only [answer, hr, failureOf, Option.or_none]
      split at hround
      · obtain ⟨t, ts, hb⟩ := hround.1.becomes
        exact hb.fault
      · exact hround.1.fault
  | drop =>
    simp only [act, raised?, Option.or_none]
    split <;> rfl
  | tell n => exact (Option.or_none).symm

def faults : Store E V C K → List (Act E V C K) → List Error
  | _, [] => []
  | s, a :: acts => (s.raised? a).toList ++ (s.act a).faults acts

theorem run_fault (h : s.Reachable) (acts : List (Act E V C K)) :
    (s.run acts).fault = s.fault.or (s.faults acts).head? := by
  induction acts generalizing s with
  | nil => simp [run, faults]
  | cons a acts ih =>
    calc (s.run (a :: acts)).fault
        = (s.act a).fault.or ((s.act a).faults acts).head? := ih (h.act a)
      _ = (s.fault.or (s.raised? a)).or ((s.act a).faults acts).head? := by
        rw [act_fault h.healthy]
      _ = s.fault.or (s.faults (a :: acts)).head? := by
        rw [faults, Option.or_assoc]
        cases s.raised? a <;> simp

/-! A result that is handled raises a fault or breaks down, and not both. -/

theorem faults_append (s : Store E V C K) (as bs : List (Act E V C K)) :
    s.faults (as ++ bs) = s.faults as ++ (s.run as).faults bs := by
  induction as generalizing s with
  | nil => rfl
  | cons a as ih =>
    simp only [List.cons_append, faults, ih, List.append_assoc, run, List.foldl_cons]

theorem faults_calls (script : Script E V C α) (s : Store E V C K) :
    s.faults (script.calls s) = [] := by
  induction script generalizing s with
  | pure a => rfl
  | call c next ih => exact ih _ _

theorem performed_faults_or (as : List (Action E V C K)) (s : Store E V C K) :
    s.faults (s.performed as) = [] ∨ s.breakdowns (s.performed as) = [] := by
  induction as generalizing s with
  | nil => exact .inl rfl
  | cons a as ih =>
    cases hr : perform a s with
    | error e r => exact .inr (by simp [hr, performed, breakdowns, breakdown?])
    | ok lost r =>
      cases lost with
      | none =>
        simpa [hr, performed, faults, raised?, answer, failureOf, breakdowns, breakdown?,
          act] using ih r
      | some crash =>
        exact .inl (by simp [hr, performed, faults, raised?, answer, failureOf])

theorem concluding_faults_or (outcome : Except Crash (Result E V C K)) (s : Store E V C K) :
    s.faults (s.concluding outcome) = [] ∨ s.breakdowns (s.concluding outcome) = [] := by
  cases outcome with
  | error crash => exact .inr rfl
  | ok result =>
    exact performed_faults_or result.actions (s.notify (.handlingResult result.name))

/-! Calls to a halted store, and to one that is closed. -/

theorem serve_halted (hs : s.Sound) (hhalted : s.queue.halted = true) (c : Call E V C) :
    (s.serve c).2.queue.halted = true := by
  rcases serve_cases hs c with ⟨-, hr⟩ | hr
  · rw [hr]
    rfl
  · exact hr.flags.2.trans hhalted

theorem Healthy.verdict_drop (h : s.Healthy) (hhalted : s.queue.halted = true) :
    (s.act .drop).verdict = .error (s.fault.getD .shutdown) := by
  have hflags := h.flags
  rw [hhalted] at hflags
  cases hf : s.fault with
  | some e => simp [verdict, Store.act, hhalted, hf]
  | none =>
    have hclosed : s.queue.closed = true := by simpa [hf] using hflags
    simp [verdict, Store.act, hhalted, hf, Store.isShutdown, Queue.drop, hclosed]

theorem serve_closed (h : s.isShutdown = true) (c : Call E V C) :
    (s.serve c).2.isShutdown = true ∧ (s.serve c).2.table = s.table ∧
      (s.serve c).2.stats = s.stats ∧
      (c.isGuarded = true → c.failure? (s.serve c).1 = some .shutdown) := by
  have hfails {β : Type} {op : Op E V C K β} {r : Store E V C K} (hop : op s = .error .shutdown r)
      (hr : r.isShutdown = true ∧ r.table = s.table ∧ r.stats = s.stats) :
      (s.answer op).2.isShutdown = true ∧ (s.answer op).2.table = s.table ∧
        (s.answer op).2.stats = s.stats ∧
        (true = true → failureOf (s.answer op).1 = some .shutdown) := by
    rw [answer, hop]
    exact ⟨hr.1, hr.2.1, hr.2.2, fun _ => rfl⟩
  have hfree {c : Call E V C} (hc : c.isGuarded = false) (hg : c.isGuarded = true) :
      c.failure? (s.serve c).1 = some .shutdown := by
    rw [hc] at hg
    cases hg
  cases c with
  | registerKind info => exact hfails (refused h _) ⟨h, rfl, rfl⟩
  | setupPhase computed delayed => exact hfails (refused h _) ⟨h, rfl, rfl⟩
  | registerLazy kind c => exact hfails (refused h _) ⟨h, rfl, rfl⟩
  | registerTriggered kind c => exact hfails (refused h _) ⟨h, rfl, rfl⟩
  | scheduleEager entities c => exact hfails (refused h _) ⟨h, rfl, rfl⟩
  | setFinal ep => exact hfails (refused h _) ⟨h, rfl, rfl⟩
  | query key => exact hfails (refused h _) ⟨h, rfl, rfl⟩
  | force key =>
    -- the attempt is traced
    have hclosed : (s.trace (.force key)).isShutdown = true := by simpa [Store.isShutdown] using h
    have hquery : query key (s.trace (.force key)) = .error .shutdown (s.trace (.force key)) :=
      refused hclosed _
    have hforce : force key s = .error .shutdown (s.trace (.force key)) := by
      change EStateM.map _ (query key) (s.trace (.force key)) = _
      rw [EStateM.map, hquery]
    refine hfails hforce ⟨hclosed, by simp, ?_⟩
    cases ht : s.tracer <;> simp [trace, ht, notify]
  | shutdown => exact ⟨rfl, rfl, rfl, hfree rfl⟩
  | drainEvents =>
    change s.drainRecords.2.isShutdown = true ∧ s.drainRecords.2.table = s.table ∧
      s.drainRecords.2.stats = s.stats ∧ _
    unfold drainRecords
    split <;> exact ⟨h, rfl, rfl, hfree rfl⟩
  | stamp | hasProperty | isKnown | ofKind | finalsOfKind | entitiesWith | properties | isShutdown
    | statistics | config | isTraced | events => exact ⟨h, rfl, rfl, hfree rfl⟩

end Store

/-- No task was taken up and no round was made. -/
structure Course.Rests {E V C K σ : Type} (w u : Course E V C K σ) : Prop where
  memory : u.world.memory = w.world.memory
  lost : u.world.lost = w.world.lost
  clock : u.world.store.clock = w.world.store.clock
  fault : u.world.store.fault = w.world.store.fault
  halted : w.world.store.queue.halted = true → u.world.store.queue.halted = true

theorem Course.Rests.refl {E V C K σ : Type} (w : Course E V C K σ) : w.Rests w :=
  ⟨rfl, rfl, rfl, rfl, id⟩

theorem Course.Rests.trans {E V C K σ : Type} {w u v : Course E V C K σ} (h : w.Rests u)
    (h' : u.Rests v) : w.Rests v :=
  ⟨h'.memory.trans h.memory, h'.lost.trans h.lost, h'.clock.trans h.clock, h'.fault.trans h.fault,
    h'.halted ∘ h.halted⟩

variable {E V C K σ : Type} [DecidableEq E] [DecidableEq V] [Property V] [ToString E] [ToString V]

theorem Client.taskActs_faults_or (client : Client E V C K σ) (task : Task E C K)
    (s : Store E V C K) (memory : σ) :
    s.faults (client.taskActs task s memory) = [] ∨ client.lostBy task s memory = none := by
  rw [← breakdowns_taskActs, taskActs, Store.faults_append, Store.breakdowns_append,
    Store.faults_calls, Store.breakdowns_calls, Store.run_calls]
  exact (Store.concluding_faults_or _ _).imp_right fun h => by rw [h]; rfl

namespace World
variable (client : Client E V C K σ) (fuel : Nat) (cycles fallbacks : Bool) {w : World E V C K σ}

theorem wait_closed (h : w.store.isShutdown = true) :
    w.wait client fuel cycles fallbacks = some (.error .shutdown, w) := by
  simp [wait, Store.answer_checkRunning, h]

theorem wait_faulty {e : Error} (hlost : w.lost = none) (hopen : w.store.isShutdown = false)
    (hhalted : w.store.queue.halted = true) (hfault : w.store.fault = some e) :
    ∃ w', w.wait client (fuel + 1) cycles fallbacks = some (.error e, w') := by
  have hturn := client.turn_halted cycles fallbacks
    (w := { w with store := w.store.beginWait cycles fallbacks }) hlost hhalted
  have hverdict : ((w.store.beginWait cycles fallbacks).act .drop).verdict = .error e := by
    simp [Store.verdict, Store.act, Store.beginWait, Store.notify, hhalted, hfault]
  simp only [wait, Store.answer_checkRunning, hopen, Bool.false_eq_true, if_false,
    Worker.run, hturn, Option.map_some, Store.answer_endWait, hverdict]
  exact ⟨_, rfl⟩

theorem wait_lost (hlost : w.lost ≠ none) (hopen : w.store.isShutdown = false) :
    w.wait client fuel cycles fallbacks = none := by
  have hrun : ∀ v : World E V C K σ, v.lost ≠ none →
      (client.worker cycles fallbacks).run fuel v = none := by
    intro v hv
    induction fuel with
    | zero => rfl
    | succ fuel ih => rw [Worker.run, client.turn_lost cycles fallbacks hv]; exact ih
  simp only [wait, Store.answer_checkRunning, hopen, Bool.false_eq_true, if_false,
    Option.map_eq_none_iff]
  exact hrun _ hlost

end World

namespace Course
variable {w u v : Course E V C K σ} (client : Client E V C K σ)

/-- A worker that was lost takes no turn. With a halted queue it drops what was scheduled, and the
wait ends. -/
theorem move_turn_stopped
    (hstopped : w.world.lost ≠ none ∨ w.world.store.queue.halted = true) :
    w.move client .turn =
      if w.awaited.isSome ∧ w.world.lost = none then
        (some (w.world.store.act .drop).verdict,
          ⟨{ w.world with
            store := (w.world.store.act .drop).run (w.world.store.act .drop).endActs }, none⟩)
      else (none, w) := by
  cases ha : w.awaited with
  | none => simp [move, ha]
  | some flags =>
    obtain ⟨cycles, fallbacks⟩ := flags
    by_cases hlost : w.world.lost = none
    · have hhalted := hstopped.resolve_left (· hlost)
      rw [move_turn ha (client.turn_halted cycles fallbacks hlost hhalted), if_neg (by simp),
        if_pos ⟨rfl, hlost⟩]
    · rw [move_turn ha (client.turn_lost cycles fallbacks hlost), if_pos rfl,
        if_neg fun h => hlost h.2]

/-- Move by move, without a worker or with a halted queue: the worker at most drops what was
scheduled, whatever its client is. -/
theorem move_stopped (hw : w.world.store.Reachable)
    (hstopped : w.world.lost ≠ none ∨ w.world.store.queue.halted = true) (m : Move E V C)
    (other : Client E V C K σ) : w.move other m = w.move client m ∧
      w.Rests (w.move client m).2 := by
  cases m with
  | call c =>
    have hclock := w.world.store.act_clock (a := .call c) trivial
    exact ⟨rfl, rfl, rfl, hclock, Store.serve_fault hw.healthy.sound c,
      fun hhalted => Store.serve_halted hw.healthy.sound hhalted c⟩
  | wait cycles fallbacks =>
    rw [move_wait, move_wait]
    refine ⟨rfl, ?_⟩
    split
    · exact .refl w
    · split
      · exact .refl w
      · exact ⟨rfl, rfl, rfl, rfl, id⟩
  | turn =>
    rw [move_turn_stopped client hstopped, move_turn_stopped other hstopped]
    refine ⟨rfl, ?_⟩
    split
    · next hends =>
      have hhalted := hstopped.resolve_left (· hends.2)
      rw [Store.run_endActs]
      simp only [Store.act, hhalted, if_true]
      exact ⟨rfl, rfl, rfl, rfl, fun _ => hhalted⟩
    · exact .refl w

theorem after_stopped (hw : w.world.store.Reachable)
    (hstopped : w.world.lost ≠ none ∨ w.world.store.queue.halted = true) (moves : List (Move E V C))
    (other : Client E V C K σ) :
    w.after other moves = w.after client moves ∧ w.Rests (w.after client moves) := by
  induction moves generalizing w with
  | nil => exact ⟨rfl, .refl w⟩
  | cons m moves ih =>
    obtain ⟨hmove, hrests⟩ := move_stopped client hw hstopped m other
    obtain ⟨hafter, hrests'⟩ :=
      ih (move_reachable client hw m) (hstopped.imp (hrests.lost ▸ ·) hrests.halted)
    refine ⟨?_, hrests.trans hrests'⟩
    rw [after, after, hmove]
    exact hafter

/-- A worker that was lost left a wait that goes on, and no fault. -/
def Unnoticed (w : Course E V C K σ) : Prop :=
  w.world.lost ≠ none → w.awaited.isSome = true ∧ w.world.store.fault = none

theorem Unnoticed.move (h : w.Unnoticed) (hw : w.world.store.Reachable) (m : Move E V C) :
    (w.move client m).2.Unnoticed := by
  cases m with
  | call c => exact fun hlost =>
      ⟨(h hlost).1, (Store.serve_fault hw.healthy.sound c).trans (h hlost).2⟩
  | wait cycles fallbacks =>
    rw [move_wait]
    split
    · exact h
    · split
      · exact h
      · exact fun hlost => ⟨rfl, (h hlost).2⟩
  | turn =>
    cases ha : w.awaited with
    | none => simpa [Course.move, ha] using h
    | some flags =>
      obtain ⟨cycles, fallbacks⟩ := flags
      cases ht : (client.worker cycles fallbacks).turn w.world with
      | mk more world =>
        have hturns := client.turns cycles fallbacks w.world
        rw [ht] at hturns
        rw [move_turn ha ht]
        cases hturns with
        | lost => exact h
        | drop hlost => exact fun hne => absurd hlost hne
        | @task task rest hlost hgo hq =>
          intro hne
          have hstart : (w.world.store.act .start).fault = none := by
            have hflags := hw.healthy.flags
            rw [hgo] at hflags
            rw [Store.act_fault hw.healthy]
            cases hfault : w.world.store.fault with
            | none => rfl
            | some e => simp [hfault] at hflags
          have hnone := (client.taskActs_faults_or task (w.world.store.act .start)
            w.world.memory).resolve_right hne
          refine ⟨by simp [ha], ?_⟩
          calc (w.world.store.run (.start :: client.taskActs task (w.world.store.act .start)
                w.world.memory)).fault
              = (w.world.store.act .start).fault.or _ := Store.run_fault (hw.act .start) _
            _ = none := by rw [hstart, hnone]; rfl
        | round hlost =>
          split <;> exact fun hne => absurd hlost hne

theorem Unnoticed.after (h : w.Unnoticed) (hw : w.world.store.Reachable)
    (moves : List (Move E V C)) : (w.after client moves).Unnoticed := by
  induction moves generalizing w with
  | nil => exact h
  | cons m moves ih => exact ih (h.move client hw m) (move_reachable client hw m)

/-- The store is closed, and neither its cells nor its counters have changed. -/
structure Frozen (w u : Course E V C K σ) : Prop where
  closed : u.world.store.isShutdown = true
  table : u.world.store.table = w.world.store.table
  stats : u.world.store.stats = w.world.store.stats

theorem move_closed (hw : w.world.store.Reachable) (hclosed : w.world.store.isShutdown = true)
    (m : Move E V C) : w.Frozen (w.move client m).2 := by
  cases m with
  | call c =>
    obtain ⟨hc, ht, hs, -⟩ := w.world.store.serve_closed hclosed c
    exact ⟨hc, ht, hs⟩
  | wait cycles fallbacks =>
    rw [move_wait, hclosed]
    split <;> exact ⟨hclosed, rfl, rfl⟩
  | turn =>
    have hhalted : w.world.store.queue.halted = true := by
      rw [hw.healthy.flags]
      exact Bool.or_eq_true_iff.2 (.inr hclosed)
    rw [move_turn_stopped client (.inr hhalted)]
    split
    · rw [Store.run_endActs]
      simp only [Store.act, hhalted, if_true]
      exact ⟨hclosed, rfl, rfl⟩
    · exact ⟨hclosed, rfl, rfl⟩

theorem after_closed (hw : w.world.store.Reachable) (hclosed : w.world.store.isShutdown = true)
    (moves : List (Move E V C)) : w.Frozen (w.after client moves) := by
  induction moves generalizing w with
  | nil => exact ⟨hclosed, rfl, rfl⟩
  | cons m moves ih =>
    have hmove := move_closed client hw hclosed m
    have hrest := ih (move_reachable client hw m) hmove.closed
    exact ⟨hrest.closed, hrest.table.trans hmove.table, hrest.stats.trans hmove.stats⟩

section
variable (config : Config) (tracer : Tracer E V) (cores : Nat) (memory : σ)
  (moves : List (Move E V C))

theorem fresh_fault :
    let start : Course E V C K σ := fresh config tracer cores memory
    (start.after client moves).world.store.fault =
      (start.world.store.faults (start.history client moves)).head? := by
  intro start
  calc (start.after client moves).world.store.fault
      = (start.world.store.run (start.history client moves)).fault := by
        rw [start.after_store client moves]
    _ = start.world.store.fault.or (start.world.store.faults _).head? :=
        Store.run_fault (.create config tracer cores) _
    _ = (start.world.store.faults _).head? := Option.none_or

theorem fresh_lost :
    let start : Course E V C K σ := fresh config tracer cores memory
    (start.after client moves).world.lost =
      (start.world.store.breakdowns (start.history client moves)).head? :=
  (after_lost client _ moves).trans Option.none_or

theorem fresh_unnoticed :
    ((fresh config tracer cores memory : Course E V C K σ).after client moves).Unnoticed :=
  Unnoticed.after client (fun hne => absurd rfl hne) (.create config tracer cores) moves

end

/-- From a fault or a breakdown on, or once the store is closed, no task is taken up and no round is
made, whatever is called and scheduled: the client might as well be another one. The store keeps the
first fault, and nothing of a breakdown. Unless something broke down, waits answer the first fault
as long as the store is open. After a breakdown there is no fault, the wait that was going on never
ends, and no later one does in an open store. A closed store refuses all that could change it, and
its cells and counters stay as they are. -/
theorem stopped_for_good (client : Client E V C K σ) (config : Config) (tracer : Tracer E V)
    (cores : Nat) (memory : σ) (before later : List (Move E V C)) :
    let start : Course E V C K σ := fresh config tracer cores memory
    let faults := start.world.store.faults (start.history client before)
    let broken := start.world.store.breakdowns (start.history client before)
    let w := start.after client before
    let u := w.after client later
    faults ≠ [] ∨ broken ≠ [] ∨ w.world.store.isShutdown = true →
      u.world.store.stats.executedTasks = w.world.store.stats.executedTasks ∧
      u.world.store.stats.quiescenceRounds = w.world.store.stats.quiescenceRounds ∧
      u.world.memory = w.world.memory ∧ (∀ other : Client E V C K σ, w.after other later = u) ∧
      u.world.store.fault = faults.head? ∧
      (broken = [] →
        (u.awaited.isSome = true →
          (u.move client .turn).1 = some (.error (faults.head?.getD .shutdown))) ∧
        ∀ e ∈ faults.head?, u.world.store.isShutdown = false → ∀ fuel cycles fallbacks,
          ∃ world, u.world.wait client (fuel + 1) cycles fallbacks = some (.error e, world)) ∧
      (broken ≠ [] →
        faults = [] ∧ u.awaited.isSome = true ∧ u.move client .turn = (none, u) ∧
        (u.world.store.isShutdown = false → ∀ fuel cycles fallbacks,
          u.world.wait client fuel cycles fallbacks = none)) ∧
      (w.world.store.isShutdown = true →
        u.world.store.table = w.world.store.table ∧ u.world.store.stats = w.world.store.stats ∧
        (∀ fuel cycles fallbacks,
          u.world.wait client fuel cycles fallbacks = some (.error .shutdown, u.world)) ∧
        ∀ c : Call E V C,
          c.isGuarded = true → c.failure? (u.world.store.serve c).1 = some .shutdown) := by
  intro start faults broken w u hstop
  have hw : w.world.store.Reachable := fresh_reachable client config tracer cores memory before
  have hu : u.world.store.Reachable := after_reachable client hw later
  have hfault : w.world.store.fault = faults.head? :=
    fresh_fault client config tracer cores memory before
  have hlost : w.world.lost = broken.head? := fresh_lost client config tracer cores memory before
  have hstopped : w.world.lost ≠ none ∨ w.world.store.queue.halted = true := by
    rw [hlost, hw.healthy.flags, hfault]
    rcases hstop with hne | hne | hclosed
    · obtain ⟨e, rest, he⟩ := List.exists_cons_of_ne_nil hne
      simp [he]
    · exact .inl fun hnone => hne (List.head?_eq_none_iff.1 hnone)
    · exact .inr (Bool.or_eq_true_iff.2 (.inr hclosed))
  obtain ⟨-, hrests⟩ := after_stopped client hw hstopped later client
  have hkept : u.world.store.fault = faults.head? := hrests.fault.trans hfault
  have hgone : u.world.lost = broken.head? := hrests.lost.trans hlost
  refine ⟨congrArg Prod.fst hrests.clock, congrArg Prod.snd hrests.clock, hrests.memory,
    fun other => (after_stopped client hw hstopped later other).1, hkept, ?_, ?_, ?_⟩
  · intro hwhole
    have hthere : u.world.lost = none := by rw [hgone, hwhole]; rfl
    have hhalted : u.world.store.queue.halted = true :=
      hrests.halted (hstopped.resolve_left (· (by rw [hlost, hwhole]; rfl)))
    refine ⟨fun ha => ?_, fun e he hopen fuel cycles fallbacks => ?_⟩
    · rw [move_turn_stopped client (.inr hhalted), if_pos ⟨ha, hthere⟩,
        hu.healthy.verdict_drop hhalted, hkept]
    · exact World.wait_faulty client fuel cycles fallbacks hthere hopen hhalted (hkept.trans he)
  · intro hbroken
    have haway : u.world.lost ≠ none := fun hnone =>
      hbroken (List.head?_eq_none_iff.1 (hgone.symm.trans hnone))
    have hunnoticed : w.Unnoticed := fresh_unnoticed client config tracer cores memory before
    obtain ⟨ha, hnone⟩ := hunnoticed.after client hw later haway
    refine ⟨List.head?_eq_none_iff.1 (hkept.symm.trans hnone), ha, ?_,
      fun hopen fuel cycles fallbacks => World.wait_lost client fuel cycles fallbacks haway hopen⟩
    rw [move_turn_stopped client (.inl haway), if_neg fun h => haway h.2]
  · intro hclosed
    have hfrozen := after_closed client hw hclosed later
    exact ⟨hfrozen.table, hfrozen.stats,
      fun fuel cycles fallbacks => World.wait_closed client fuel cycles fallbacks hfrozen.closed,
      fun c => (Store.serve_closed hfrozen.closed c).2.2.2⟩

end Course

inductive Mischief where
  /-- The computation breaks down. -/
  | crashes
  /-- It closes the store, and gives a value then. -/
  | closes
  /-- Its contribution breaks down when it is made. -/
  | contributes

def unruly : Client Element Fact Mischief Unit Unit where
  start mischief e _ :=
    match mischief with
    | .crashes => return (.error (.text "lost"), ())
    | .closes => do
      Script.ask .shutdown
      return (.ok (.final ⟨⟨e, FactSort.purity.kind⟩, ⟨0, .purity .pure⟩⟩), ())
    | .contributes =>
      return (.ok (.contribution ⟨⟨e, FactSort.purity.kind⟩, fun _ => .error (.text "boom")⟩), ())
  resume _ _ _ := return (.ok .nothing, ())

def unrulyMoves (mischief : Mischief) : List (Move Element Fact Mischief) :=
  [.call (.registerKind ((FallbackRule.fixed (.purity .impure)).info .lower)),
    .call (.scheduleEager [.method 0, .method 1] mischief), .wait true true, .turn]

def unrulyLater : List (Move Element Fact Mischief) :=
  [.turn, .call (.scheduleEager [.method 2] .crashes), .wait true true, .turn]

def unrulyStart : Course Element Fact Mischief Unit Unit := Course.fresh {} .none 1 ()

def unrulyAt (mischief : Mischief) : Course Element Fact Mischief Unit Unit :=
  unrulyStart.after unruly (unrulyMoves mischief)

def unrulyEnd (mischief : Mischief) : Course Element Fact Mischief Unit Unit :=
  (unrulyAt mischief).after unruly unrulyLater

theorem unruly_stopped_for_good :
    unrulyStart.world.store.faults (unrulyStart.history unruly (unrulyMoves .crashes)) =
      [.computationFailed "lost"] ∧
    (unrulyAt .closes).world.store.isShutdown = true ∧
    (unrulyAt .closes).world.store.finals = 1 ∧
    unrulyStart.world.store.breakdowns (unrulyStart.history unruly (unrulyMoves .contributes)) =
      [.text "boom"] ∧
    (unrulyEnd .crashes).world.store.stats.executedTasks =
      (unrulyAt .crashes).world.store.stats.executedTasks ∧
    (∃ world, (unrulyEnd .crashes).world.wait unruly 1 true true =
      some (.error (.computationFailed "lost"), world)) ∧
    (unrulyEnd .closes).world.store.table = (unrulyAt .closes).world.store.table ∧
    (unrulyEnd .closes).world.wait unruly 1 true true =
      some (.error .shutdown, (unrulyEnd .closes).world) ∧
    (unrulyEnd .contributes).world.store.stats.executedTasks =
      (unrulyAt .contributes).world.store.stats.executedTasks ∧
    (unrulyEnd .contributes).move unruly .turn = (none, unrulyEnd .contributes) := by
  have hfaults : unrulyStart.world.store.faults
      (unrulyStart.history unruly (unrulyMoves .crashes)) = [.computationFailed "lost"] := by
    decide +kernel
  have hbroken : unrulyStart.world.store.breakdowns
      (unrulyStart.history unruly (unrulyMoves .contributes)) = [.text "boom"] := by decide +kernel
  have hwhole : unrulyStart.world.store.breakdowns
      (unrulyStart.history unruly (unrulyMoves .crashes)) = [] := by decide +kernel
  have hclosed : (unrulyAt .closes).world.store.isShutdown = true := by decide +kernel
  have hfinal : (unrulyAt .closes).world.store.finals = 1 := by decide +kernel
  have hopen : (unrulyEnd .crashes).world.store.isShutdown = false := by decide +kernel
  unfold unrulyEnd unrulyAt unrulyStart at *
  obtain ⟨htasks, -, -, -, -, hwaits, -, -⟩ := Course.stopped_for_good unruly {} .none 1 ()
    (unrulyMoves .crashes) unrulyLater (.inl (by rw [hfaults]; simp))
  obtain ⟨-, -, -, -, -, -, -, hrefused⟩ := Course.stopped_for_good unruly {} .none 1 ()
    (unrulyMoves .closes) unrulyLater (.inr (.inr hclosed))
  obtain ⟨htable, -, hwait', -⟩ := hrefused hclosed
  obtain ⟨htasks', -, -, -, -, -, hlost, -⟩ := Course.stopped_for_good unruly {} .none 1 ()
    (unrulyMoves .contributes) unrulyLater (.inr (.inl (by rw [hbroken]; simp)))
  obtain ⟨-, -, hturn, -⟩ := hlost (by rw [hbroken]; simp)
  exact ⟨hfaults, hclosed, hfinal, hbroken, htasks,
    (hwaits hwhole).2 _ (by rw [hfaults]; rfl) hopen 0 true true, htable,
    hwait' 1 true true, htasks', hturn⟩

/-- A contribution that breaks down is not reported to anyone: the store is open and has no fault,
and whoever waits, waits forever. -/
theorem unruly_breakdown_unreported :
    (unrulyAt .contributes).world.store.stats.executedTasks = 1 ∧
    (unrulyAt .contributes).world.store.fault = none ∧
    (unrulyAt .contributes).world.store.isShutdown = false ∧
    (unrulyAt .contributes).awaited = some (true, true) ∧
    (∀ turns, (unrulyAt .contributes).after unruly (List.replicate turns .turn) =
      unrulyAt .contributes) ∧
    ∀ fuel cycles fallbacks,
      (unrulyAt .contributes).world.wait unruly fuel cycles fallbacks = none := by
  have hlost : (unrulyAt .contributes).world.lost ≠ none :=
    Option.isSome_iff_ne_none.1 (by decide +kernel)
  have hopen : (unrulyAt .contributes).world.store.isShutdown = false := by decide +kernel
  have hawaited : (unrulyAt .contributes).awaited = some (true, true) := by decide +kernel
  refine ⟨by decide +kernel, Option.isNone_iff_eq_none.1 (by decide +kernel), hopen, hawaited, ?_,
    fun fuel cycles fallbacks => World.wait_lost unruly fuel cycles fallbacks hlost hopen⟩
  intro turns
  induction turns with
  | zero => rfl
  | succ turns ih =>
    rw [List.replicate_succ, Course.after, Course.move_turn_stopped unruly (.inl hlost),
      if_neg fun h => hlost h.2]
    exact ih

end Blackboard
