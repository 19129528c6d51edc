import Blackboard.Proofs.Calls
import Blackboard.Proofs.Rounds
import Blackboard.Store.Run

/-! Histories. Whatever the clients of a store compute, all that ever happens to it is a sequence of
acts: calls, tasks taken up, results performed or crashes, rounds. What every act keeps holds of
every reachable store. -/
namespace Blackboard

inductive Act (E V C K : Type) where
  /-- A call, from outside or from a running computation. -/
  | call (c : Call E V C)
  /-- The worker takes up the first task. -/
  | start
  /-- A computation that was taken up returns; one of the acts of its result is performed. -/
  | perform (a : Action E V C K)
  | crash (c : Crash)
  /-- The queue ran dry. -/
  | round (cycles fallbacks : Bool)
  /-- The worker of a halted queue drops what is left in it. -/
  | drop
  | tell (n : Notice E V)

section
variable {E V C K σ : Type} [DecidableEq E] [DecidableEq V] [Property V] [ToString E] [ToString V]

namespace Store

def act (s : Store E V C K) : Act E V C K → Store E V C K
  | .call c => (s.serve c).2
  | .start =>
    if s.queue.halted then s
    else match s.queue.waiting with
      | [] => s
      | _ :: rest => { s with queue := { s.queue with waiting := rest } }.count
          fun n => { n with executedTasks := n.executedTasks + 1 }
  | .perform a =>
    match perform a s with
    | .ok _ r => r
    | .error e r => r.fail e
  | .crash c => s.fail (.computationFailed c.message)
  | .round cycles fallbacks =>
    if s.queue.halted || s.inFlight then s else (s.onQuiescence cycles fallbacks).2
  | .drop => if s.queue.halted then { s with queue := s.queue.drop } else s
  | .tell n => s.notify n

def run (s : Store E V C K) (acts : List (Act E V C K)) : Store E V C K := acts.foldl act s

theorem run_append (s : Store E V C K) (a b : List (Act E V C K)) :
    s.run (a ++ b) = (s.run a).run b :=
  List.foldl_append

/-- A store that some sequence of acts leads to. -/
inductive Reachable : Store E V C K → Prop
  | create (config : Config) (tracer : Tracer E V) (cores : Nat) :
      Reachable (create config tracer cores)
  | act {s : Store E V C K} (h : Reachable s) (a : Act E V C K) : Reachable (s.act a)

theorem Reachable.run {s : Store E V C K} (h : s.Reachable) (acts : List (Act E V C K)) :
    (s.run acts).Reachable := by
  induction acts generalizing s with
  | nil => exact h
  | cons a acts ih => exact ih (h.act a)

/-! Every run of every client is such a sequence. A running computation calls the store, and its
result is performed; it takes up no task itself. -/

/-- What is performed of a result: its actions up to the first that fails or breaks down. -/
def performed (s : Store E V C K) : List (Action E V C K) → List (Act E V C K)
  | [] => []
  | a :: as => .perform a :: match perform a s with
    | .ok none r => r.performed as
    | .ok (some _) _ | .error _ _ => []

def concluding (s : Store E V C K) : Except Crash (Result E V C K) → List (Act E V C K)
  | .error crash => [.crash crash]
  | .ok result => .tell (.handlingResult result.name) ::
      (s.notify (.handlingResult result.name)).performed result.actions

end Store

def Script.calls {α : Type} : Script E V C α → Store E V C K → List (Act E V C K)
  | .pure _, _ => []
  | .call c next, s => .call c :: (next (s.serve c).1).calls (s.serve c).2

/-- The act belongs to a task that was taken up. -/
def Act.IsWithin : Act E V C K → Prop
  | .start | .round _ _ | .drop => False
  | .call _ | .perform _ | .crash _ | .tell _ => True

namespace Store

theorem performed_within (as : List (Action E V C K)) (s : Store E V C K) :
    ∀ a ∈ s.performed as, a.IsWithin := by
  induction as generalizing s with
  | nil => simp [performed]
  | cons a as ih =>
    refine List.forall_mem_cons.2 ⟨trivial, ?_⟩
    split
    · exact ih _
    · simp
    · simp

theorem performAll_cons (a : Action E V C K) (as : List (Action E V C K)) (s : Store E V C K) :
    performAll (a :: as) s = match perform a s with
      | .ok none r => performAll as r
      | .ok (some crash) r => .ok (some crash) r
      | .error e r => .error e r := by
  change EStateM.bind (perform a) _ s = _
  rw [EStateM.bind]
  cases perform a s with
  | error e r => rfl
  | ok lost r => cases lost <;> rfl

theorem performAll_single {a : Action E V C K} {op : Op E V C K Unit} {s : Store E V C K}
    {ok bad : Store E V C K → Prop} (ha : perform a = unbroken op)
    (h : Ends op s (fun _ => ok) bad) :
    Ends (performAll [a]) s (fun lost r => lost = none ∧ ok r) bad := by
  have hop : Ends (unbroken op) s (fun lost r => lost = none ∧ ok r) bad :=
    .bind h fun _ _ hr => .answer ⟨rfl, hr⟩
  rw [← ha] at hop
  refine .bind hop ?_
  rintro _ r ⟨rfl, hr⟩
  exact .answer ⟨rfl, hr⟩

theorem run_performed (as : List (Action E V C K)) (s : Store E V C K) :
    s.run (s.performed as) = match performAll as s with
      | .ok _ r => r
      | .error e r => r.fail e := by
  induction as generalizing s with
  | nil => rfl
  | cons a as ih =>
    rw [performAll_cons]
    cases hr : perform a s with
    | error e r => simp [hr, performed, run, act]
    | ok lost r =>
      cases lost with
      | none => simpa [hr, performed, run, act] using ih r
      | some crash => simp [hr, performed, run, act]

theorem concluding_within (outcome : Except Crash (Result E V C K)) (s : Store E V C K) :
    ∀ a ∈ s.concluding outcome, a.IsWithin := by
  cases outcome with
  | error crash => simp [concluding, Act.IsWithin]
  | ok result => exact List.forall_mem_cons.2 ⟨trivial, performed_within _ _⟩

theorem run_concluding (outcome : Except Crash (Result E V C K)) (s : Store E V C K) :
    s.run (s.concluding outcome) = (s.conclude outcome).2 := by
  cases outcome with
  | error crash => rfl
  | ok result =>
    refine (run_performed result.actions (s.notify (.handlingResult result.name))).trans ?_
    simp only [conclude, handle]
    cases performAll result.actions (s.notify (.handlingResult result.name)) <;> rfl

/-- What an act breaks down with, unnoticed: the update of a contribution that is performed. -/
def breakdown? (s : Store E V C K) : Act E V C K → Option Crash
  | .perform a => match perform a s with
    | .ok lost _ => lost
    | .error _ _ => none
  | _ => none

def breakdowns : Store E V C K → List (Act E V C K) → List Crash
  | _, [] => []
  | s, a :: acts => (s.breakdown? a).toList ++ (s.act a).breakdowns acts

theorem breakdowns_append (s : Store E V C K) (as bs : List (Act E V C K)) :
    s.breakdowns (as ++ bs) = s.breakdowns as ++ (s.run as).breakdowns bs := by
  induction as generalizing s with
  | nil => rfl
  | cons a as ih =>
    simp only [List.cons_append, breakdowns, ih, List.append_assoc, run, List.foldl_cons]

theorem breakdowns_performed (as : List (Action E V C K)) (s : Store E V C K) :
    (s.breakdowns (s.performed as)).head? = match performAll as s with
      | .ok lost _ => lost
      | .error _ _ => none := by
  induction as generalizing s with
  | nil => rfl
  | cons a as ih =>
    rw [performAll_cons]
    cases hr : perform a s with
    | error e r => simp [hr, performed, breakdowns, breakdown?]
    | ok lost r =>
      cases lost with
      | none => simpa [hr, performed, breakdowns, breakdown?, act] using ih r
      | some crash => simp [hr, performed, breakdowns, breakdown?]

theorem breakdowns_concluding (outcome : Except Crash (Result E V C K)) (s : Store E V C K) :
    (s.breakdowns (s.concluding outcome)).head? = (s.conclude outcome).1 := by
  cases outcome with
  | error crash => rfl
  | ok result =>
    refine (breakdowns_performed result.actions (s.notify (.handlingResult result.name))).trans ?_
    simp only [conclude, handle]
    cases performAll result.actions (s.notify (.handlingResult result.name)) <;> rfl

theorem calls_within {α : Type} (script : Script E V C α) (s : Store E V C K) :
    ∀ a ∈ script.calls s, a.IsWithin := by
  induction script generalizing s with
  | pure a => simp [Script.calls]
  | call c next ih => exact List.forall_mem_cons.2 ⟨trivial, ih _ _⟩

theorem run_calls {α : Type} (script : Script E V C α) (s : Store E V C K) :
    s.run (script.calls s) = (script.run s).2 := by
  induction script generalizing s with
  | pure a => rfl
  | call c next ih => exact ih _ _

theorem breakdowns_calls {α : Type} (script : Script E V C α) (s : Store E V C K) :
    s.breakdowns (script.calls s) = [] := by
  induction script generalizing s with
  | pure a => rfl
  | call c next ih => exact ih _ _

def nextAct (s : Store E V C K) (cycles fallbacks : Bool) : Act E V C K :=
  if s.queue.halted then .drop
  else if s.queue.waiting.isEmpty then .round cycles fallbacks
  else .start

end Store

namespace Client

def taskActs (client : Client E V C K σ) (task : Task E C K) (s : Store E V C K) (memory : σ) :
    List (Act E V C K) :=
  let script := client.scriptOf task s memory
  script.calls s ++ (script.run s).2.concluding (script.run s).1.1

def laterActs (client : Client E V C K σ) (w : World E V C K σ) : List (Act E V C K) :=
  if w.store.queue.halted then []
  else match w.store.queue.waiting with
    | [] => []
    | task :: _ => client.taskActs task (w.store.act .start) w.memory

/-- A worker that was lost does nothing. -/
def turnActs (client : Client E V C K σ) (cycles fallbacks : Bool) (w : World E V C K σ) :
    List (Act E V C K) :=
  if w.lost.isSome then [] else w.store.nextAct cycles fallbacks :: client.laterActs w

theorem laterActs_within (client : Client E V C K σ) (w : World E V C K σ) :
    ∀ a ∈ client.laterActs w, a.IsWithin := by
  unfold laterActs
  split
  · simp
  · split
    · simp
    · exact List.forall_mem_append.2 ⟨Store.calls_within _ _, Store.concluding_within _ _⟩

/-! The turns of a worker: it was lost, drops the tasks of a halted queue, takes up a task, or makes
a round. -/

section
variable (client : Client E V C K σ) (cycles fallbacks : Bool) {w : World E V C K σ}

theorem turn_lost (h : w.lost ≠ none) : (client.worker cycles fallbacks).turn w = (true, w) := by
  simp [Worker.turn, worker, Option.isSome_iff_ne_none.2 h]

theorem turn_halted (hlost : w.lost = none) (h : w.store.queue.halted = true) :
    (client.worker cycles fallbacks).turn w = (false, { w with store := w.store.act .drop }) := by
  simp [Worker.turn, worker, hlost, h, Store.act]

theorem turn_round (hlost : w.lost = none) (hgo : w.store.queue.halted = false)
    (hq : w.store.queue.waiting = []) :
    (client.worker cycles fallbacks).turn w =
      ((w.store.onQuiescence cycles fallbacks).1 ||
        (w.store.onQuiescence cycles fallbacks).2.queue.halted,
        { w with store := (w.store.onQuiescence cycles fallbacks).2 }) := by
  simp [Worker.turn, worker, hlost, hgo, hq]

theorem turn_execute (hlost : w.lost = none) (hgo : w.store.queue.halted = false)
    {task : Task E C K} {rest : List (Task E C K)} (hq : w.store.queue.waiting = task :: rest) :
    (client.worker cycles fallbacks).turn w =
      (true, client.execute task { w with store.queue.waiting := rest }) := by
  simp [Worker.turn, worker, hlost, hgo, hq]

end

/-- A turn of the worker is a sequence of acts, whatever its client does. -/
theorem turn_eq_run (client : Client E V C K σ) (cycles fallbacks : Bool) (w : World E V C K σ) :
    ((client.worker cycles fallbacks).turn w).2.store =
      w.store.run (client.turnActs cycles fallbacks w) := by
  unfold turnActs laterActs Store.nextAct
  by_cases hlost : w.lost = none
  · rw [if_neg (by simp [hlost])]
    cases hhalted : w.store.queue.halted with
    | true =>
      rw [client.turn_halted cycles fallbacks hlost hhalted]
      simp [Store.run]
    | false =>
      cases hq : w.store.queue.waiting with
      | cons task rest =>
        have hstart : w.store.act .start =
            { w.store with queue := { w.store.queue with waiting := rest } }.count
              fun n => { n with executedTasks := n.executedTasks + 1 } := by
          simp [Store.act, hhalted, hq]
        change _ = (w.store.act .start).run (client.taskActs task (w.store.act .start) w.memory)
        rw [client.turn_execute cycles fallbacks hlost hhalted hq, taskActs, Store.run_append,
          Store.run_calls, Store.run_concluding, hstart]
        rfl
      | nil =>
        have hidle : w.store.inFlight = false := by simp [Store.inFlight, Queue.pending, hq]
        rw [client.turn_round cycles fallbacks hlost hhalted hq]
        simp [Store.run, Store.act, hhalted, hidle]
  · rw [if_pos (Option.isSome_iff_ne_none.2 hlost), client.turn_lost cycles fallbacks hlost]
    rfl

theorem turn_run (client : Client E V C K σ) (cycles fallbacks : Bool) {w : World E V C K σ}
    (h : w.lost = none) : ∃ acts, Act.start ∉ acts ∧
      ((client.worker cycles fallbacks).turn w).2.store =
        w.store.run (w.store.nextAct cycles fallbacks :: acts) := by
  refine ⟨client.laterActs w, fun hstart => client.laterActs_within w _ hstart, ?_⟩
  rw [turn_eq_run, turnActs, h]
  rfl

def acts (client : Client E V C K σ) (cycles fallbacks : Bool) :
    Nat → World E V C K σ → List (Act E V C K)
  | 0, _ => []
  | fuel + 1, w => client.turnActs cycles fallbacks w ++
      match (client.worker cycles fallbacks).turn w with
      | (true, w) => client.acts cycles fallbacks fuel w
      | (false, _) => []

theorem run_eq_run (client : Client E V C K σ) (cycles fallbacks : Bool) (fuel : Nat)
    {w w' : World E V C K σ} (h : (client.worker cycles fallbacks).run fuel w = some w') :
    w'.store = w.store.run (client.acts cycles fallbacks fuel w) := by
  induction fuel generalizing w with
  | zero => simp [Worker.run] at h
  | succ fuel ih =>
    have hturn := client.turn_eq_run cycles fallbacks w
    unfold Worker.run at h
    unfold acts
    generalize (client.worker cycles fallbacks).turn w = t at h hturn
    rw [Store.run_append, ← hturn]
    obtain ⟨more, w₁⟩ := t
    cases more with
    | true => exact ih h
    | false => exact congrArg _ (Option.some.inj h).symm

end Client

theorem Store.beginWait_run (cycles fallbacks : Bool) (s : Store E V C K) :
    ∃ acts, s.beginWait cycles fallbacks = s.run acts :=
  ⟨[.tell _, .tell _], rfl⟩

theorem Store.endWait_run (s : Store E V C K) :
    ∃ acts, (s.answer Store.endWait).2 = s.run acts := by
  have hends : Store.Ends Store.endWait s (fun _ r => ∃ acts, r = s.run acts)
      (fun r => ∃ acts, r = s.run acts) := by
    refine .write_then (.read ?_)
    split
    · next e he =>
        exact .write_then (.failure ⟨[.tell .workersStopped, .tell (.phaseFailed e)], rfl⟩)
    · refine .bind ((Store.checkRunning_ends _).mono (fun _ _ h => h) ?_) ?_
      · rintro r rfl
        exact ⟨[.tell .workersStopped], rfl⟩
      · rintro _ r rfl
        exact .write ⟨[.tell .workersStopped, .tell _], rfl⟩
  exact hends.answer_snd

/-- What happens in a wait until its worker stops, unless the store is closed. -/
def World.waitActs (client : Client E V C K σ) (fuel : Nat) (cycles fallbacks : Bool)
    (w : World E V C K σ) : List (Act E V C K) :=
  .tell (.waiting w.store.table.size w.store.queue.pending cycles fallbacks) ::
    .tell (.startingWorkers (max w.store.workers 1) w.store.queue.pending) ::
    client.acts cycles fallbacks fuel { w with store := w.store.beginWait cycles fallbacks }

theorem World.wait_eq_run {client : Client E V C K σ} {fuel : Nat} {cycles fallbacks : Bool}
    {w w' : World E V C K σ} {answer : Except Error Unit}
    (h : w.wait client fuel cycles fallbacks = some (answer, w')) :
    w'.store = w.store ∨ ∃ last, w'.store =
      w.store.run (w.waitActs client fuel cycles fallbacks ++ last) := by
  unfold World.wait at h
  have hcheck := Store.checkRunning_ends w.store
  unfold Store.answer at h
  cases hr : Store.checkRunning w.store with
  | error e s =>
    have hs : s = w.store := hcheck.of_error hr
    simp only [hr, Option.some.injEq, Prod.mk.injEq] at h
    exact .inl (by rw [← h.2, hs])
  | ok u s =>
    obtain rfl : s = w.store := hcheck.of_ok hr
    simp only [hr, Option.map_eq_some_iff] at h
    obtain ⟨w₁, hrun, hend⟩ := h
    obtain ⟨last, hlast⟩ := w₁.store.endWait_run
    refine .inr ⟨last, ?_⟩
    rw [Store.run_append, ← (Prod.mk.inj hend).2]
    exact hlast.trans (congrArg (·.run last) (client.run_eq_run cycles fallbacks fuel hrun))

theorem World.wait_run {client : Client E V C K σ} {fuel : Nat} {cycles fallbacks : Bool}
    {w w' : World E V C K σ} {answer : Except Error Unit}
    (h : w.wait client fuel cycles fallbacks = some (answer, w')) :
    ∃ acts, w'.store = w.store.run acts := by
  obtain hsame | ⟨last, hrun⟩ := World.wait_eq_run h
  · exact ⟨[], hsame⟩
  · exact ⟨_, hrun⟩

namespace Store.Reachable

theorem turn {w : World E V C K σ} (h : w.store.Reachable) (client : Client E V C K σ)
    (cycles fallbacks : Bool) : ((client.worker cycles fallbacks).turn w).2.store.Reachable := by
  rw [client.turn_eq_run]
  exact h.run _

theorem wait {client : Client E V C K σ} {fuel : Nat} {cycles fallbacks : Bool}
    {w w' : World E V C K σ} {answer : Except Error Unit} (h : w.store.Reachable)
    (hw : w.wait client fuel cycles fallbacks = some (answer, w')) : w'.store.Reachable := by
  obtain ⟨acts, hacts⟩ := World.wait_run hw
  rw [hacts]
  exact h.run acts

end Store.Reachable
end

/-! What an act keeps, said of tables once and for all: how cells fall asleep is left to the
property at hand. -/

namespace Store
variable {E V C K : Type} [DecidableEq E] {s q r : Store E V C K} {P : CellTable E V K → Prop}

/-- A property of tables that outlives new cells, new values and resolved groups. -/
structure Lasting (P : CellTable E V K → Prop) : Prop where
  grown : ∀ {t u}, P t → t.Grown u → P u
  install : ∀ {t c new}, P t → t.cell? c.id = some c → c.Fits new → P (t.install c new)
  resolve : ∀ {t group batch}, P t → (t.releaseAll group).Batch batch → P (t.resolve group batch)

namespace Lasting
variable [DecidableEq V]

theorem takes (h : Lasting P) {c : Cell E V K} {new : Status E V} (hr : s.Takes c new r)
    (hP : P s.table) (hc : s.table.cell? c.id = some c) (hfit : c.Fits new) : P r.table := by
  unfold Takes at hr
  split at hr
  · exact hr.table ▸ h.install hP hc hfit
  · exact hr.table ▸ hP

theorem kept (h : Lasting P) (hP : P s.table) : s.Kept (P ·.table) (P ·.table) where
  start := hP
  weaken hq := hq
  quiet_before hq hr := hr.table ▸ hq
  quiet hq hr := hr.table ▸ hq
  step hq _ _ hst := by
    cases hst with
    | cell _ _ hc _ hfit _ hr => exact h.takes hr hq hc hfit
    | group _ _ _ hr => exact hr.becomes.table ▸ h.resolve hq hr.fit

variable [Property V] [ToString E]

theorem served (h : Lasting P) {given : Option (Final E V)} {asked : Option (Key E)}
    (hr : s.Served given asked r) (hP : P s.table) : P r.table := by
  cases hr with
  | steady hr => exact h.grown hP hr.grown
  | settled q c ep hq hc hkey hfit hcheck hr why => exact h.takes hr (h.grown hP hq.grown) hc hfit

variable [ToString V]

theorem perform (h : Lasting P) (hs : s.Sound) (hP : P s.table) (a : Action E V C K)
    (hsuspend : ∀ {ep dependees k q c n obs q' r}, a = .suspend ep dependees k →
      s.FallsAsleep ep dependees k q c n obs q' → q'.Registered (.cell c.id) n obs r → P r.table)
    (hcollaborate : ∀ {dependees k q n obs q' r}, a = .collaborate dependees k → s.Grows q →
      q.Becomes (q.table.enlist ⟨n, k, obs⟩) [] q' →
      q'.Registered (.collaborator q.table.nextCollaborator) n obs r → P r.table) :
    Ends (Store.perform a) s (fun _ r => P r.table) (fun _ => True) := by
  cases a with
  | install ep =>
    refine .unbroken ((installFinal_ends hs ep).mono ?_ fun _ _ => trivial)
    rintro _ r ⟨q, c, hgrows, hc, -, hfit, -, htakes⟩
    exact h.takes htakes (h.grown hP hgrows.grown) hc hfit
  | contribute p =>
    refine (contribute_ends hs p).mono ?_ fun _ _ => trivial
    rintro _ r ⟨q, c, hgrows, hc, -, hquiet | ⟨ep, hfit, -, htakes⟩⟩
    · exact hquiet.table ▸ h.grown hP hgrows.grown
    · exact h.takes htakes (h.grown hP hgrows.grown) hc hfit
  | suspend ep dependees k =>
    refine .unbroken ((suspend_ends hs ep dependees k).mono ?_ fun _ _ => trivial)
    rintro _ r ⟨q, c, n, obs, q', hsleep, hreg⟩
    exact hsuspend rfl hsleep hreg
  | collaborate dependees k =>
    refine .unbroken ((collaborate_ends hs dependees k).mono ?_ fun _ _ => trivial)
    rintro _ r ⟨q, n, obs, q', hgrows, -, hadd, -, hreg⟩
    exact hcollaborate rfl hgrows hadd hreg
  | schedule c e => exact .unbroken (.write ((schedule_becomes "incremental" s c e).table ▸ hP))

theorem act (h : Lasting P) (hs : s.Sound) (hP : P s.table) {a : Act E V C K}
    (hfault : (s.act a).fault = none)
    (hsuspend : ∀ {ep dependees k q c n obs q' r}, a = .perform (.suspend ep dependees k) →
      s.FallsAsleep ep dependees k q c n obs q' → q'.Registered (.cell c.id) n obs r → P r.table)
    (hcollaborate : ∀ {dependees k q n obs q' r},
      a = .perform (.collaborate dependees k) → s.Grows q →
      q.Becomes (q.table.enlist ⟨n, k, obs⟩) [] q' →
      q'.Registered (.collaborator q.table.nextCollaborator) n obs r → P r.table) :
      P (s.act a).table := by
  have hfail : ∀ (r : Store E V C K) e, (r.fail e).fault ≠ none := by
    intro r e
    cases hr : r.fault <;> simp [Store.fail, notify, hr]
  cases a with
  | call c =>
    rcases serve_cases hs c with ⟨rfl, hr⟩ | hr
    · change P (s.serve _).2.table
      rw [hr]
      exact hP
    · exact h.served hr hP
  | start =>
    simp only [Store.act]
    split
    · exact hP
    · split <;> exact hP
  | perform a =>
    have hends := h.perform hs hP a (fun heq => hsuspend (congrArg _ heq)) fun heq =>
      hcollaborate (congrArg _ heq)
    simp only [Store.act] at hfault ⊢
    cases hr : Store.perform a s with
    | ok u r => exact hends.of_ok hr
    | error e r =>
      rw [hr] at hfault
      exact absurd hfault (hfail r e)
  | crash c => exact absurd hfault (hfail s _)
  | round cycles fallbacks =>
    simp only [Store.act]
    split
    · exact hP
    · next hguard =>
      simp only [Bool.or_eq_true, not_or, Bool.not_eq_true] at hguard
      have hround := (h.kept hP).onQuiescence hs hguard.2 cycles fallbacks
      split at hround
      · exact hround.2
      · exact hround.1.table ▸ hP
  | drop =>
    simp only [Store.act]
    split <;> exact hP
  | tell n => exact hP

end Lasting
end Store
end Blackboard
