import Blackboard.Proofs.Lockstep

/-! Courses. The clients of a store call it, and one of them waits for the phase to complete;
meanwhile the worker takes its turns, and others may go on calling. A course is one store with its
worker, move after move. It need not come to an end: nothing is said about how many turns a wait
takes. -/
namespace Blackboard

inductive Move (E V C : Type) where
  /-- A call from outside. -/
  | call (c : Call E V C)
  /-- A wait begins. -/
  | wait (cycles fallbacks : Bool)
  /-- The worker of the wait takes a turn; the wait ends with the last one. -/
  | turn

namespace Move
variable {E V C : Type}

@[reducible] def Answer : Move E V C → Type
  | call c => c.Answer
  | wait _ _ | turn => Option (Except Error Unit)

def ended? : (m : Move E V C) → m.Answer → Option (Except Error Unit)
  | call _, _ => none
  | wait _ _, a | turn, a => a

def isWait : Move E V C → Bool
  | wait _ _ => true
  | call _ | turn => false

end Move

variable {E V C K σ : Type}

namespace Store

def beginActs (cycles fallbacks : Bool) (s : Store E V C K) : List (Act E V C K) :=
  [.tell (.waiting s.table.size s.queue.pending cycles fallbacks),
    .tell (.startingWorkers (max s.workers 1) s.queue.pending)]

def endActs (s : Store E V C K) : List (Act E V C K) :=
  .tell .workersStopped :: match s.fault with
    | some e => [.tell (.phaseFailed e)]
    | none =>
      if s.isShutdown then []
      else [.tell (.phaseComplete s.table.size s.stats.executedTasks s.stats.updates
        s.stats.quiescenceRounds)]

theorem answer_checkRunning (s : Store E V C K) :
    s.answer checkRunning = (if s.isShutdown then .error .shutdown else .ok (), s) := by
  obtain ⟨config, workers, schema, phase, table, ⟨waiting, halted, closed⟩⟩ := s
  cases closed <;> rfl

theorem beginActs_within (cycles fallbacks : Bool) (s : Store E V C K) :
    ∀ a ∈ s.beginActs cycles fallbacks, a.IsWithin := by
  simp [beginActs, Act.IsWithin]

theorem endActs_within (s : Store E V C K) : ∀ a ∈ s.endActs, a.IsWithin := by
  unfold endActs
  refine List.forall_mem_cons.2 ⟨trivial, ?_⟩
  split
  · simp [Act.IsWithin]
  · split <;> simp [Act.IsWithin]

def verdict (s : Store E V C K) : Except Error Unit :=
  match s.fault with
  | some e => .error e
  | none => if s.isShutdown then .error .shutdown else .ok ()

end Store

variable [DecidableEq E] [DecidableEq V] [Property V] [ToString E] [ToString V]

namespace Store

theorem run_endActs (s : Store E V C K) :
    s.run s.endActs = { s with notices := (s.run s.endActs).notices } := by
  unfold endActs
  split
  · rfl
  · split <;> rfl

theorem breakdowns_endActs (s r : Store E V C K) : r.breakdowns s.endActs = [] := by
  unfold endActs
  split
  · rfl
  · split <;> rfl

theorem answer_endWait (s : Store E V C K) : s.answer endWait = (s.verdict, s.run s.endActs) := by
  obtain ⟨_, _, _, _, _, ⟨_, _, closed⟩, _, _, fault⟩ := s
  cases fault with
  | some e => rfl
  | none => cases closed <;> rfl

end Store

namespace Client

theorem taskActs_within (client : Client E V C K σ) (task : Task E C K) (s : Store E V C K)
    (memory : σ) : ∀ a ∈ client.taskActs task s memory, a.IsWithin :=
  List.forall_mem_append.2 ⟨Store.calls_within _ _, Store.concluding_within _ _⟩

/-- The breakdown that takes the worker away with a task that was taken up in `s`. -/
def lostBy (client : Client E V C K σ) (task : Task E C K) (s : Store E V C K) (memory : σ) :
    Option Crash :=
  let script := client.scriptOf task s memory
  ((script.run s).2.conclude (script.run s).1.1).1

theorem breakdowns_taskActs (client : Client E V C K σ) (task : Task E C K) (s : Store E V C K)
    (memory : σ) :
    (s.breakdowns (client.taskActs task s memory)).head? = client.lostBy task s memory := by
  rw [taskActs, Store.breakdowns_append, Store.breakdowns_calls, Store.run_calls, List.nil_append,
    Store.breakdowns_concluding, lostBy]

def afterTask (client : Client E V C K σ) (task : Task E C K) (w : World E V C K σ) :
    World E V C K σ where
  store := w.store.run (.start :: client.taskActs task (w.store.act .start) w.memory)
  memory := ((client.scriptOf task (w.store.act .start) w.memory).run (w.store.act .start)).1.2
  lost := client.lostBy task (w.store.act .start) w.memory

inductive Turns (client : Client E V C K σ) (cycles fallbacks : Bool) (w : World E V C K σ) :
    Bool × World E V C K σ → Prop
  | lost (hlost : w.lost ≠ none) : Turns client cycles fallbacks w (true, w)
  | drop (hlost : w.lost = none) (hhalted : w.store.queue.halted = true) :
      Turns client cycles fallbacks w (false, { w with store := w.store.act .drop })
  | task {task : Task E C K} {rest : List (Task E C K)} (hlost : w.lost = none)
      (hgo : w.store.queue.halted = false) (hq : w.store.queue.waiting = task :: rest) :
      Turns client cycles fallbacks w (true, client.afterTask task w)
  | round (hlost : w.lost = none) (hgo : w.store.queue.halted = false)
      (hidle : w.store.inFlight = false) :
      Turns client cycles fallbacks w
        ((w.store.onQuiescence cycles fallbacks).1 ||
          (w.store.onQuiescence cycles fallbacks).2.queue.halted,
          { w with store := (w.store.onQuiescence cycles fallbacks).2 })

section
variable (client : Client E V C K σ) (cycles fallbacks : Bool) {w : World E V C K σ}

theorem turnActs_task {task : Task E C K} {rest : List (Task E C K)} (hlost : w.lost = none)
    (hgo : w.store.queue.halted = false) (hq : w.store.queue.waiting = task :: rest) :
    client.turnActs cycles fallbacks w =
      .start :: client.taskActs task (w.store.act .start) w.memory := by
  simp [turnActs, laterActs, Store.nextAct, hlost, hgo, hq]

theorem turn_task {task : Task E C K} {rest : List (Task E C K)} (hlost : w.lost = none)
    (hgo : w.store.queue.halted = false) (hq : w.store.queue.waiting = task :: rest) :
    (client.worker cycles fallbacks).turn w = (true, client.afterTask task w) := by
  have hstart : w.store.act .start =
      { w.store with queue := { w.store.queue with waiting := rest } }.count fun n =>
        { n with executedTasks := n.executedTasks + 1 } := by simp [Store.act, hgo, hq]
  have hturn := client.turn_execute cycles fallbacks hlost hgo hq
  have hrun := client.turn_eq_run cycles fallbacks w
  rw [hturn, client.turnActs_task cycles fallbacks hlost hgo hq] at hrun
  rw [hturn, afterTask, ← hrun, lostBy, hstart]
  rfl

theorem turns (w : World E V C K σ) :
    client.Turns cycles fallbacks w ((client.worker cycles fallbacks).turn w) := by
  by_cases hlost : w.lost = none
  · cases hhalted : w.store.queue.halted with
    | true =>
      rw [client.turn_halted cycles fallbacks hlost hhalted]
      exact .drop hlost hhalted
    | false =>
      cases hq : w.store.queue.waiting with
      | nil =>
        rw [client.turn_round cycles fallbacks hlost hhalted hq]
        exact .round hlost hhalted (by simp [Store.inFlight, Queue.pending, hq])
      | cons task rest =>
        rw [client.turn_task cycles fallbacks hlost hhalted hq]
        exact .task hlost hhalted hq
  · rw [client.turn_lost cycles fallbacks hlost]
    exact .lost hlost

theorem lost_turn (w : World E V C K σ) :
    ((client.worker cycles fallbacks).turn w).2.lost =
      w.lost.or (w.store.breakdowns (client.turnActs cycles fallbacks w)).head? := by
  cases ht : (client.worker cycles fallbacks).turn w with
  | mk more w' =>
    have hturns := client.turns cycles fallbacks w
    rw [ht] at hturns
    cases hturns with
    | lost hlost => simp [turnActs, Option.isSome_iff_ne_none.2 hlost, Store.breakdowns]
    | drop hlost hhalted =>
      simp [turnActs, laterActs, Store.nextAct, hlost, hhalted, Store.breakdowns, Store.breakdown?]
    | task hlost hgo hq =>
      rw [client.turnActs_task cycles fallbacks hlost hgo hq, hlost, Option.none_or, afterTask,
        ← breakdowns_taskActs]
      rfl
    | round hlost hgo hidle =>
      have hq : w.store.queue.waiting = [] := by simpa [Store.inFlight, Queue.pending] using hidle
      simp [turnActs, laterActs, Store.nextAct, hlost, hgo, hq, Store.breakdowns, Store.breakdown?]

end

end Client

/-- A store with its worker. `awaited` holds the flags of the wait that is going on. -/
structure Course (E V C K σ : Type) where
  world : World E V C K σ
  awaited : Option (Bool × Bool)

namespace Course

def fresh (config : Config) (tracer : Tracer E V) (cores : Nat) (memory : σ) : Course E V C K σ :=
  ⟨{ store := .create config tracer cores, memory }, none⟩

/-- One move. While a wait goes on no second one begins. -/
def move (client : Client E V C K σ) (w : Course E V C K σ) :
    (m : Move E V C) → m.Answer × Course E V C K σ
  | .call c =>
    let (a, s) := w.world.store.serve c
    (a, { w with world.store := s })
  | .wait cycles fallbacks =>
    match w.awaited, w.world.store.answer Store.checkRunning with
    | some _, _ => (none, w)
    | none, (.error e, s) => (some (.error e), { w with world.store := s })
    | none, (.ok (), s) =>
      (none, ⟨{ w.world with store := s.beginWait cycles fallbacks }, some (cycles, fallbacks)⟩)
  | .turn =>
    match w.awaited with
    | none => (none, w)
    | some (cycles, fallbacks) =>
      match (client.worker cycles fallbacks).turn w.world with
      | (true, world) => (none, { w with world })
      | (false, world) =>
        let (a, s) := world.store.answer Store.endWait
        (some a, ⟨{ world with store := s }, none⟩)

def after (client : Client E V C K σ) (w : Course E V C K σ) : List (Move E V C) → Course E V C K σ
  | [] => w
  | m :: moves => (w.move client m).2.after client moves

def acts (client : Client E V C K σ) (w : Course E V C K σ) : Move E V C → List (Act E V C K)
  | .call c => [.call c]
  | .wait cycles fallbacks =>
    if w.awaited.isSome || w.world.store.isShutdown then []
    else w.world.store.beginActs cycles fallbacks
  | .turn =>
    match w.awaited with
    | none => []
    | some (cycles, fallbacks) =>
      client.turnActs cycles fallbacks w.world ++
        match (client.worker cycles fallbacks).turn w.world with
        | (true, _) => []
        | (false, world) => world.store.endActs

def history (client : Client E V C K σ) (w : Course E V C K σ) :
    List (Move E V C) → List (Act E V C K)
  | [] => []
  | m :: moves => w.acts client m ++ (w.move client m).2.history client moves

variable (client : Client E V C K σ) (w : Course E V C K σ)

theorem after_append (ms ms' : List (Move E V C)) :
    w.after client (ms ++ ms') = (w.after client ms).after client ms' := by
  induction ms generalizing w with
  | nil => rfl
  | cons m ms ih => exact ih _

theorem history_append (ms ms' : List (Move E V C)) :
    w.history client (ms ++ ms') =
      w.history client ms ++ (w.after client ms).history client ms' := by
  induction ms generalizing w with
  | nil => rfl
  | cons m ms ih => simp only [List.cons_append, history, after, ih, List.append_assoc]

theorem move_wait (cycles fallbacks : Bool) :
    w.move client (.wait cycles fallbacks) =
      if w.awaited.isSome then (none, w)
      else if w.world.store.isShutdown then (some (.error .shutdown), w)
      else (none, ⟨{ w.world with store := w.world.store.beginWait cycles fallbacks },
        some (cycles, fallbacks)⟩) := by
  obtain ⟨world, awaited⟩ := w
  cases awaited with
  | some flags => rfl
  | none =>
    simp only [move, Store.answer_checkRunning]
    cases world.store.isShutdown with
    | true => rfl
    | false => rfl

variable {client w} in
theorem move_turn {cycles fallbacks more : Bool} {world : World E V C K σ}
    (ha : w.awaited = some (cycles, fallbacks))
    (ht : (client.worker cycles fallbacks).turn w.world = (more, world)) :
    w.move client .turn = if more then (none, { w with world })
      else (some world.store.verdict,
        ⟨{ world with store := world.store.run world.store.endActs }, none⟩) := by
  simp only [move, ha, ht]
  cases more with
  | true => rfl
  | false => simp [Store.answer_endWait]

theorem move_store (m : Move E V C) :
    (w.move client m).2.world.store = w.world.store.run (w.acts client m) := by
  cases m with
  | call c => rfl
  | wait cycles fallbacks =>
    rw [move_wait, acts]
    cases w.awaited.isSome with
    | true => rfl
    | false => cases w.world.store.isShutdown <;> rfl
  | turn =>
    cases ha : w.awaited with
    | none => simp only [move, acts, ha]; rfl
    | some flags =>
      obtain ⟨cycles, fallbacks⟩ := flags
      have hturn := client.turn_eq_run cycles fallbacks w.world
      cases ht : (client.worker cycles fallbacks).turn w.world with
      | mk more world =>
        rw [ht] at hturn
        rw [move_turn ha ht, acts, ha]
        simp only [ht, Store.run_append, ← hturn]
        cases more <;> rfl

theorem move_lost (m : Move E V C) :
    (w.move client m).2.world.lost =
      w.world.lost.or (w.world.store.breakdowns (w.acts client m)).head? := by
  cases m with
  | call c => exact (Option.or_none).symm
  | wait cycles fallbacks =>
    rw [move_wait, acts]
    cases w.awaited.isSome with
    | true => exact (Option.or_none).symm
    | false => cases w.world.store.isShutdown <;> exact (Option.or_none).symm
  | turn =>
    cases ha : w.awaited with
    | none =>
      simp only [move, acts, ha]
      exact (Option.or_none).symm
    | some flags =>
      obtain ⟨cycles, fallbacks⟩ := flags
      have hturn := client.lost_turn cycles fallbacks w.world
      cases ht : (client.worker cycles fallbacks).turn w.world with
      | mk more world =>
        rw [ht] at hturn
        rw [move_turn ha ht, acts, ha]
        simp only [ht]
        cases more with
        | true => simpa using hturn
        | false =>
          rw [Store.breakdowns_append, Store.breakdowns_endActs, List.append_nil]
          exact hturn

theorem after_lost (moves : List (Move E V C)) :
    (w.after client moves).world.lost =
      w.world.lost.or (w.world.store.breakdowns (w.history client moves)).head? := by
  induction moves generalizing w with
  | nil => exact (Option.or_none).symm
  | cons m moves ih =>
    rw [after, ih, move_lost, move_store, history, Store.breakdowns_append, List.head?_append,
      Option.or_assoc]

/-- All that happens to the store in a course is a sequence of acts. -/
theorem after_store (moves : List (Move E V C)) :
    (w.after client moves).world.store = w.world.store.run (w.history client moves) := by
  induction moves generalizing w with
  | nil => rfl
  | cons m moves ih => rw [after, ih, move_store, history, Store.run_append]

section
variable {w} (hw : w.world.store.Reachable)
include hw

theorem move_reachable (m : Move E V C) : (w.move client m).2.world.store.Reachable := by
  rw [move_store]
  exact hw.run _

theorem after_reachable (moves : List (Move E V C)) :
    (w.after client moves).world.store.Reachable := by
  rw [after_store]
  exact hw.run _

end

theorem fresh_reachable (config : Config) (tracer : Tracer E V) (cores : Nat) (memory : σ)
    (moves : List (Move E V C)) :
    ((fresh config tracer cores memory : Course E V C K σ).after client
      moves).world.store.Reachable :=
  after_reachable client (.create config tracer cores) moves

theorem turns_of_run {client : Client E V C K σ} {w w' : World E V C K σ} {fuel : Nat}
    {cycles fallbacks : Bool} (h : (client.worker cycles fallbacks).run fuel w = some w') :
    ∃ n last, (⟨w, some (cycles, fallbacks)⟩ : Course E V C K σ).after client
      (List.replicate n .turn) = ⟨last, some (cycles, fallbacks)⟩ ∧
        (client.worker cycles fallbacks).turn last = (false, w') := by
  induction fuel generalizing w with
  | zero => cases h
  | succ fuel ih =>
    unfold Worker.run at h
    cases hturn : (client.worker cycles fallbacks).turn w with
    | mk more next =>
      rw [hturn] at h
      cases more with
      | true =>
        obtain ⟨n, last, hlast, hstop⟩ := ih h
        refine ⟨n + 1, last, ?_, hstop⟩
        rw [List.replicate_succ, after]
        simpa only [move, hturn] using hlast
      | false =>
        obtain rfl := Option.some.inj h
        exact ⟨0, w, rfl, hturn⟩

/-- A wait that ends is a move that begins it, followed by the worker's turns. -/
theorem wait_eq_moves {client : Client E V C K σ} {w w' : World E V C K σ} {fuel : Nat}
    {cycles fallbacks : Bool} {a : Except Error Unit}
    (h : w.wait client fuel cycles fallbacks = some (a, w')) :
    ∃ moves m turns, moves ++ [m] = .wait cycles fallbacks :: List.replicate turns .turn ∧
      let u := (⟨w, none⟩ : Course E V C K σ).after client moves
      m.ended? (u.move client m).1 = some a ∧ (u.move client m).2 = ⟨w', none⟩ := by
  unfold World.wait at h
  rw [Store.answer_checkRunning] at h
  cases hclosed : w.store.isShutdown with
  | true =>
    simp only [hclosed, if_true, Option.some.injEq, Prod.mk.injEq] at h
    obtain ⟨rfl, rfl⟩ := h
    refine ⟨[], .wait cycles fallbacks, 0, rfl, ?_⟩
    simp [after, move, Store.answer_checkRunning, hclosed, Move.ended?]
  | false =>
    simp only [hclosed, Bool.false_eq_true, if_false, Option.map_eq_some_iff] at h
    obtain ⟨world, hrun, hend⟩ := h
    have hbegin : (⟨w, none⟩ : Course E V C K σ).after client [.wait cycles fallbacks] =
        ⟨{ w with store := w.store.beginWait cycles fallbacks }, some (cycles, fallbacks)⟩ := by
      simp [after, move, Store.answer_checkRunning, hclosed]
    obtain ⟨n, last, hturns, hstop⟩ := turns_of_run hrun
    refine ⟨.wait cycles fallbacks :: List.replicate n .turn, .turn, n + 1, ?_, ?_⟩
    · rw [List.replicate_succ', List.cons_append]
    · rw [← List.singleton_append, after_append, hbegin, hturns]
      simp only [move, hstop, Move.ended?]
      exact ⟨congrArg some (congrArg Prod.fst hend),
        congrArg (Course.mk · none) (congrArg Prod.snd hend)⟩

end Course
end Blackboard
