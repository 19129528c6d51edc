import Blackboard.Proofs.Contributions
import Blackboard.Proofs.Course

/-! Two courses side by side. Stores that cannot be told apart stay so in whatever course they take
with the same client: the same calls are made, they get the same answers, and the worker does the
same in every turn. Calls by which the two could be told apart are barred, and errors by which they
may be are excused. -/
namespace Blackboard
variable {E V C K σ α : Type}

/-- No call of the script is barred, whatever the answers are. -/
def Script.Avoids (barred : Call E V C → Prop) : Script E V C α → Prop
  | .pure _ => True
  | .call c next => ¬ barred c ∧ ∀ a, (next a).Avoids barred

structure Client.Avoids (client : Client E V C K σ) (barred : Call E V C → Prop) : Prop where
  start : ∀ c e memory, (client.start c e memory).Avoids barred
  resume : ∀ k status memory, (client.resume k status memory).Avoids barred

def Act.Avoids (barred : Call E V C → Prop) : Act E V C K → Prop
  | .call c => ¬ barred c
  | _ => True

def Move.Avoids (barred : Call E V C → Prop) : Move E V C → Prop
  | .call c => ¬ barred c
  | _ => True

variable {barred : Call E V C → Prop}

theorem Client.Avoids.scriptOf {client : Client E V C K σ} (h : client.Avoids barred)
    (task : Task E C K) (s : Store E V C K) (memory : σ) :
    (client.scriptOf task s memory).Avoids barred := by
  cases task with
  | compute c e => exact h.start c e memory
  | resume d dependee k =>
    simp only [Client.scriptOf]
    cases s.status? dependee with
    | some status => exact h.resume k status memory
    | none => trivial

theorem Store.endActs_avoid (s : Store E V C K) : ∀ a ∈ s.endActs, a.Avoids barred := by
  refine List.forall_mem_cons.2 ⟨trivial, ?_⟩
  split
  · simp [Act.Avoids]
  · split <;> simp [Act.Avoids]

variable [DecidableEq E] [DecidableEq V] [Property V] [ToString E] [ToString V]

section
variable {client : Client E V C K σ}

theorem Script.calls_avoid {script : Script E V C α} (h : script.Avoids barred)
    (s : Store E V C K) : ∀ a ∈ script.calls s, a.Avoids barred := by
  induction script generalizing s with
  | pure a => simp [Script.calls]
  | call c next ih => exact List.forall_mem_cons.2 ⟨h.1, ih _ (h.2 _) _⟩

theorem Store.performed_avoid (as : List (Action E V C K)) (s : Store E V C K) :
    ∀ a ∈ s.performed as, a.Avoids barred := by
  induction as generalizing s with
  | nil => simp [performed]
  | cons a as ih =>
    refine List.forall_mem_cons.2 ⟨trivial, ?_⟩
    split
    · exact ih _
    · simp
    · simp

theorem Store.concluding_avoid (outcome : Except Crash (Result E V C K)) (s : Store E V C K) :
    ∀ a ∈ s.concluding outcome, a.Avoids barred := by
  cases outcome with
  | error crash => simp [concluding, Act.Avoids]
  | ok result => exact List.forall_mem_cons.2 ⟨trivial, performed_avoid _ _⟩

theorem Client.Avoids.turnActs (h : client.Avoids barred) (cycles fallbacks : Bool)
    (w : World E V C K σ) : ∀ a ∈ client.turnActs cycles fallbacks w, a.Avoids barred := by
  unfold Client.turnActs
  split
  · simp
  refine List.forall_mem_cons.2 ⟨?_, ?_⟩
  · unfold Store.nextAct
    split
    · trivial
    · split <;> trivial
  · unfold laterActs
    split
    · simp
    · split
      · simp
      · exact List.forall_mem_append.2
          ⟨Script.calls_avoid (h.scriptOf _ _ _) _, Store.concluding_avoid _ _⟩

theorem Course.acts_avoid (h : client.Avoids barred) (w : Course E V C K σ) {m : Move E V C}
    (hm : m.Avoids barred) : ∀ a ∈ w.acts client m, a.Avoids barred := by
  cases m with
  | call c => simpa [acts, Act.Avoids, Move.Avoids] using hm
  | wait cycles fallbacks =>
    simp only [acts]
    split
    · simp
    · simp [Store.beginActs, Act.Avoids]
  | turn =>
    simp only [acts]
    cases w.awaited with
    | none => simp
    | some flags =>
      refine List.forall_mem_append.2 ⟨h.turnActs _ _ _, ?_⟩
      split
      · simp
      · exact Store.endActs_avoid _

end

namespace Store
variable {excused : Error → Prop} {R : Store E V C K → Store E V C K → Prop} {s r : Store E V C K}

/-- The act reports no error that is excused. -/
def Unexcused (excused : Error → Prop) (s : Store E V C K) (a : Act E V C K) : Prop :=
  ∀ e ∈ s.report? a, ¬ excused e

instance (s : Store E V C K) (a : Act E V C K) [DecidablePred excused] :
    Decidable (s.Unexcused excused a) :=
  inferInstanceAs (Decidable (∀ e ∈ s.report? a, ¬ excused e))

/-- A relation between stores that nothing can break but barred calls and excused errors. -/
structure Twins (barred : Call E V C → Prop) (excused : Error → Prop)
    (R : Store E V C K → Store E V C K → Prop) : Prop extends Alike R where
  lenient : Lenient excused R
  setPhase : ∀ {s r} p, R s r → R { s with phase := p } { r with phase := p }
  counts : ∀ {s r} f, R s r → R (s.count f) (r.count f)
  workers : ∀ {s r}, R s r → r.workers = s.workers
  answers : ∀ {s r} c, ¬ barred c → c.isInspection = true → R s r → (r.serve c).1 = (s.serve c).1

namespace Twins
variable (h : Twins barred excused R)
include h

section
variable (hR : R s r)
include hR

theorem serve {c : Call E V C} (hc : ¬ barred c) (hun : s.Unexcused excused (.call c)) :
    (r.serve c).1 = (s.serve c).1 ∧ R (s.serve c).2 (r.serve c).2 := by
  have hserve :=
    h.toAlike.serve hR h.lenient c (fun _ => h.setPhase) (fun hlook => h.answers c hc hlook hR)
  rcases hserve with ⟨e, he, hex⟩ | hsame
  · exact absurd hex (hun e he)
  · exact hsame

theorem act {a : Act E V C K} (ha : a.Avoids barred) (hun : s.Unexcused excused a) :
    R (s.act a) (r.act a) := by
  have hact := h.toAlike.act hR h.lenient a (fun c _ _ => h.setPhase)
    (fun c hc hlook => h.answers c (by rw [hc] at ha; exact ha) hlook hR) (.inr h.counts)
  rcases hact with ⟨e, he, hex⟩ | hsame
  · exact absurd hex (hun e he)
  · exact hsame

theorem run {acts : List (Act E V C K)} (ha : ∀ a ∈ acts, a.Avoids barred)
    (hun : Along (Unexcused excused) s acts) : R (s.run acts) (r.run acts) := by
  induction acts generalizing s r with
  | nil => exact hR
  | cons a acts ih =>
    obtain ⟨hfirst, hrest⟩ := List.forall_mem_cons.1 ha
    exact ih (h.act hR hfirst hun.1) hrest hun.2

theorem script {script : Script E V C α} (hs : script.Avoids barred)
    (hun : Along (Unexcused excused) s (script.calls s)) :
    script.calls r = script.calls s ∧ (script.run r).1 = (script.run s).1 := by
  induction script generalizing s r with
  | pure a => exact ⟨rfl, rfl⟩
  | call c next ih =>
    obtain ⟨hanswer, hafter⟩ := h.serve hR hs.1 hun.1
    simp only [Script.calls, Script.run, hanswer]
    obtain ⟨hcalls, hend⟩ := ih (s.serve c).1 hafter (hs.2 _) hun.2
    exact ⟨by rw [hcalls], hend⟩

theorem performed {as : List (Action E V C K)}
    (hun : Along (Unexcused excused) s (s.performed as)) : r.performed as = s.performed as := by
  induction as generalizing s r with
  | nil => rfl
  | cons a as ih =>
    have hperform := h.toAlike.perform hR h.lenient a
    have hreport := hun.1
    have hrest := hun.2
    simp only [Unexcused, report?, raised?, answer] at hreport
    simp only [Store.act] at hrest
    simp only [Store.performed]
    generalize Store.perform a s = x at hperform hreport hrest
    generalize Store.perform a r = y at hperform
    cases hperform with
    | ok lost hafter =>
      cases lost with
      | none => exact congrArg (Act.perform a :: ·) (ih hafter hrest)
      | some crash => rfl
    | error e hafter => rfl
    | excuse he => exact absurd he (hreport _ rfl)

theorem breakdown? {a : Act E V C K} (hun : s.Unexcused excused a) :
    r.breakdown? a = s.breakdown? a := by
  cases a with
  | perform a =>
    have hperform := h.toAlike.perform hR h.lenient a
    simp only [Unexcused, report?, raised?, answer] at hun
    simp only [Store.breakdown?]
    generalize Store.perform a s = x at hperform hun
    generalize Store.perform a r = y at hperform
    cases hperform with
    | ok lost _ => rfl
    | error e _ => rfl
    | excuse he => exact absurd he (hun _ rfl)
  | call | start | crash | round | drop | tell => rfl

theorem breakdowns {acts : List (Act E V C K)} (ha : ∀ a ∈ acts, a.Avoids barred)
    (hun : Along (Unexcused excused) s acts) : r.breakdowns acts = s.breakdowns acts := by
  induction acts generalizing s r with
  | nil => rfl
  | cons a acts ih =>
    obtain ⟨hfirst, hrest⟩ := List.forall_mem_cons.1 ha
    rw [Store.breakdowns, Store.breakdowns, h.breakdown? hR hun.1,
      ih (h.act hR hfirst hun.1) hrest hun.2]

theorem concluding {outcome : Except Crash (Result E V C K)}
    (hun : Along (Unexcused excused) s (s.concluding outcome)) :
    r.concluding outcome = s.concluding outcome := by
  cases outcome with
  | error crash => rfl
  | ok result =>
    exact congrArg (Act.tell (.handlingResult result.name) :: ·)
      (h.performed (h.notify _ hR) hun.2)

theorem scriptOf (client : Client E V C K σ) (task : Task E C K) (memory : σ) :
    client.scriptOf task r memory = client.scriptOf task s memory := by
  cases task with
  | compute c e => rfl
  | resume d dependee k => simp only [Client.scriptOf, status?, h.cell? hR]

theorem taskActs {client : Client E V C K σ} (hclient : client.Avoids barred)
    {task : Task E C K} {memory : σ}
    (hun : Along (Unexcused excused) s (client.taskActs task s memory)) :
    client.taskActs task r memory = client.taskActs task s memory ∧
      ((client.scriptOf task r memory).run r).1 = ((client.scriptOf task s memory).run s).1 := by
  rw [h.scriptOf hR]
  unfold Client.taskActs at hun ⊢
  rw [h.scriptOf hR]
  obtain ⟨hcalls, hconclude⟩ := along_append.1 hun
  have havoids := hclient.scriptOf task s memory
  obtain ⟨hsame, hend⟩ := h.script hR havoids hcalls
  have hafter := h.run hR (Script.calls_avoid havoids s) hcalls
  rw [run_calls] at hconclude
  rw [← hsame, run_calls, hsame, run_calls] at hafter
  refine ⟨?_, hend⟩
  dsimp only
  rw [hsame, hend, h.concluding hafter hconclude]

theorem beginActs (cycles fallbacks : Bool) :
    r.beginActs cycles fallbacks = s.beginActs cycles fallbacks := by
  simp only [Store.beginActs, h.table hR, h.queue hR, h.workers hR]

theorem endActs : r.endActs = s.endActs := by
  simp only [Store.endActs, h.fault hR, h.isShutdown hR, h.table hR, h.stats hR]

theorem verdict : r.verdict = s.verdict := by
  simp only [Store.verdict, h.fault hR, h.isShutdown hR]

end

theorem turn {client : Client E V C K σ} (hclient : client.Avoids barred) {w u : World E V C K σ}
    (hstore : R w.store u.store) (hmemory : u.memory = w.memory) (hsame : u.lost = w.lost)
    {cycles fallbacks : Bool}
    (hun : Along (Unexcused excused) w.store (client.turnActs cycles fallbacks w)) :
    client.turnActs cycles fallbacks u = client.turnActs cycles fallbacks w ∧
      ((client.worker cycles fallbacks).turn u).1 = ((client.worker cycles fallbacks).turn w).1 ∧
      ((client.worker cycles fallbacks).turn u).2.memory =
        ((client.worker cycles fallbacks).turn w).2.memory := by
  have hqueue := h.queue hstore
  by_cases hlost : w.lost = none
  swap
  · have hlost' : u.lost ≠ none := hsame ▸ hlost
    rw [client.turn_lost cycles fallbacks hlost, client.turn_lost cycles fallbacks hlost']
    refine ⟨?_, rfl, hmemory⟩
    simp [Client.turnActs, Option.isSome_iff_ne_none.2 hlost, Option.isSome_iff_ne_none.2 hlost']
  have hlost' : u.lost = none := hsame.trans hlost
  cases hhalted : w.store.queue.halted with
  | true =>
    have hhalted' : u.store.queue.halted = true := hqueue ▸ hhalted
    rw [client.turn_halted cycles fallbacks hlost hhalted,
      client.turn_halted cycles fallbacks hlost' hhalted']
    refine ⟨?_, rfl, hmemory⟩
    simp [Client.turnActs, Client.laterActs, Store.nextAct, hlost, hlost', hhalted, hhalted']
  | false =>
    have hgo : u.store.queue.halted = false := hqueue ▸ hhalted
    cases hq : w.store.queue.waiting with
    | nil =>
      have hq' : u.store.queue.waiting = [] := hqueue ▸ hq
      obtain ⟨hchanged, hafter⟩ := h.onQuiescence hstore h.counts cycles fallbacks
      rw [client.turn_round cycles fallbacks hlost hhalted hq,
        client.turn_round cycles fallbacks hlost' hgo hq', hchanged, h.queue hafter]
      refine ⟨?_, rfl, hmemory⟩
      simp [Client.turnActs, Client.laterActs, Store.nextAct, hlost, hlost', hhalted, hgo, hq, hq']
    | cons task rest =>
      have hq' : u.store.queue.waiting = task :: rest := hqueue ▸ hq
      rw [client.turnActs_task cycles fallbacks hlost hhalted hq] at hun ⊢
      rw [client.turnActs_task cycles fallbacks hlost' hgo hq',
        client.turn_task cycles fallbacks hlost hhalted hq,
        client.turn_task cycles fallbacks hlost' hgo hq', Client.afterTask,
          Client.afterTask, hmemory]
      obtain ⟨hacts, hend⟩ := h.taskActs (h.act hstore (a := .start) trivial hun.1) hclient hun.2
      exact ⟨by rw [hacts], rfl, congrArg Prod.snd hend⟩

end Twins
end Store

namespace Course
open Store
variable {excused : Error → Prop} {R : Store E V C K → Store E V C K → Prop}
  {client : Client E V C K σ}

/-- Two courses that differ in their stores at most. -/
structure Beside (R : Store E V C K → Store E V C K → Prop) (w u : Course E V C K σ) : Prop where
  store : R w.world.store u.world.store
  memory : u.world.memory = w.world.memory
  lost : u.world.lost = w.world.lost
  awaited : u.awaited = w.awaited

variable {w u : Course E V C K σ}

theorem Beside.store_move (hwu : w.Beside R u) (h : Twins barred excused R)
    (hclient : client.Avoids barred) {m : Move E V C} (hm : m.Avoids barred)
    (hun : Along (Unexcused excused) w.world.store (w.acts client m))
    (hsame : u.acts client m = w.acts client m) :
    R (w.move client m).2.world.store (u.move client m).2.world.store := by
  rw [move_store, move_store, hsame]
  exact h.run hwu.store (acts_avoid hclient w hm) hun

theorem Beside.lost_move (hwu : w.Beside R u) (h : Twins barred excused R)
    (hclient : client.Avoids barred) {m : Move E V C} (hm : m.Avoids barred)
    (hun : Along (Unexcused excused) w.world.store (w.acts client m))
    (hsame : u.acts client m = w.acts client m) :
    (u.move client m).2.world.lost = (w.move client m).2.world.lost := by
  rw [move_lost, move_lost, hsame, hwu.lost, h.breakdowns hwu.store (acts_avoid hclient w hm) hun]

theorem Beside.turn (hwu : w.Beside R u) (h : Twins barred excused R)
    (hclient : client.Avoids barred) {cycles fallbacks : Bool}
    (ha : w.awaited = some (cycles, fallbacks))
    (hun : Along (Unexcused excused) w.world.store (w.acts client .turn)) :
    u.acts client .turn = w.acts client .turn ∧ (u.move client .turn).1 = (w.move client .turn).1 ∧
      (w.move client .turn).2.Beside R (u.move client .turn).2 := by
  have ha' : u.awaited = some (cycles, fallbacks) := hwu.awaited.trans ha
  have hturnUn : Along (Unexcused excused) w.world.store
      (client.turnActs cycles fallbacks w.world) := by
    simp only [acts, ha] at hun
    exact (along_append.1 hun).1
  obtain ⟨hturnActs, hflag, hmemory⟩ := h.turn hclient hwu.store hwu.memory hwu.lost hturnUn
  have hstore := h.run hwu.store (hclient.turnActs cycles fallbacks w.world) hturnUn
  rw [← client.turn_eq_run, ← hturnActs, ← client.turn_eq_run] at hstore
  cases ht : (client.worker cycles fallbacks).turn w.world with
  | mk more world =>
    cases ht' : (client.worker cycles fallbacks).turn u.world with
    | mk more' world' =>
      rw [ht, ht'] at hflag hmemory hstore
      obtain rfl : more' = more := hflag
      have hsame : u.acts client .turn = w.acts client .turn := by
        simp only [acts, ha, ha', ht, ht', hturnActs]
        cases more' with
        | true => rfl
        | false => simp only [h.endActs hstore]
      refine ⟨hsame, ?_, hwu.store_move h hclient trivial hun hsame, ?_,
        hwu.lost_move h hclient trivial hun hsame, ?_⟩
      all_goals rw [move_turn ha ht, move_turn ha' ht']
      · cases more' with
        | true => rfl
        | false => exact congrArg some (h.verdict hstore)
      · cases more' <;> exact hmemory
      · cases more' with
        | true => exact hwu.awaited
        | false => rfl

theorem Beside.move (hwu : w.Beside R u) (h : Twins barred excused R)
    (hclient : client.Avoids barred) {m : Move E V C} (hm : m.Avoids barred)
    (hun : Along (Unexcused excused) w.world.store (w.acts client m)) :
    u.acts client m = w.acts client m ∧ (u.move client m).1 = (w.move client m).1 ∧
      (w.move client m).2.Beside R (u.move client m).2 := by
  have hacts := hwu.store_move h hclient hm hun
  cases m with
  | call c =>
    exact ⟨rfl, (h.serve hwu.store hm hun.1).1, hacts rfl, hwu.memory, hwu.lost, hwu.awaited⟩
  | wait cycles fallbacks =>
    have hsame : u.acts client (.wait cycles fallbacks) =
        w.acts client (.wait cycles fallbacks) := by
      simp only [acts, hwu.awaited, h.isShutdown hwu.store, h.beginActs hwu.store]
    have hstore := hacts hsame
    rw [move_wait, move_wait, hwu.awaited, h.isShutdown hwu.store] at hstore
    rw [move_wait, move_wait, hwu.awaited, h.isShutdown hwu.store]
    split_ifs at hstore ⊢
    · exact ⟨hsame, rfl, hwu⟩
    · exact ⟨hsame, rfl, hwu⟩
    · exact ⟨hsame, rfl, hstore, hwu.memory, hwu.lost, rfl⟩
  | turn =>
    cases ha : w.awaited with
    | none =>
      have hstay {v : Course E V C K σ} (hv : v.awaited = none) :
          v.move client .turn = (none, v) := by
        simp [Course.move, hv]
      have hnone : u.awaited = none := hwu.awaited.trans ha
      rw [hstay ha, hstay hnone]
      exact ⟨by simp only [acts, ha, hnone], rfl, hwu⟩
    | some flags => exact hwu.turn h hclient ha hun

theorem Beside.after (hwu : w.Beside R u) (h : Twins barred excused R)
    (hclient : client.Avoids barred) {moves : List (Move E V C)}
    (hmoves : ∀ m ∈ moves, m.Avoids barred)
    (hun : Along (Unexcused excused) w.world.store (w.history client moves)) :
    u.history client moves = w.history client moves ∧
      (w.after client moves).Beside R (u.after client moves) := by
  induction moves generalizing w u with
  | nil => exact ⟨rfl, hwu⟩
  | cons m moves ih =>
    obtain ⟨hm, hrest⟩ := List.forall_mem_cons.1 hmoves
    obtain ⟨hfirst, hlater⟩ := along_append.1 hun
    obtain ⟨hacts, -, hnext⟩ := hwu.move h hclient hm hfirst
    rw [← move_store] at hlater
    obtain ⟨hhistory, hend⟩ := ih hnext hrest hlater
    exact ⟨by rw [history, history, hacts, hhistory], hend⟩

theorem history_avoids (hclient : client.Avoids barred) {moves : List (Move E V C)}
    (hmoves : ∀ m ∈ moves, m.Avoids barred) : ∀ a ∈ w.history client moves, a.Avoids barred := by
  induction moves generalizing w with
  | nil => simp [history]
  | cons m moves ih =>
    obtain ⟨hm, hrest⟩ := List.forall_mem_cons.1 hmoves
    exact List.forall_mem_append.2 ⟨acts_avoid hclient w hm, ih hrest⟩

/-- At every point of the two courses the stores are twins, and every call and every move has the
same answer. -/
theorem Beside.throughout (hwu : w.Beside R u) (h : Twins barred excused R)
    (hclient : client.Avoids barred) {moves : List (Move E V C)}
    (hmoves : ∀ m ∈ moves, m.Avoids barred)
    (hun : Along (Unexcused excused) w.world.store (w.history client moves)) :
    u.history client moves = w.history client moves ∧
    (∀ acts, acts <+: w.history client moves →
      R (w.world.store.run acts) (u.world.store.run acts)) ∧
    (∀ acts c, acts ++ [.call c] <+: w.history client moves →
      ((u.world.store.run acts).serve c).1 = ((w.world.store.run acts).serve c).1) ∧
    (∀ ms, ms <+: moves → (w.after client ms).Beside R (u.after client ms)) ∧
    ∀ ms m, ms ++ [m] <+: moves →
      ((u.after client ms).move client m).1 = ((w.after client ms).move client m).1 := by
  have hacts : ∀ acts, acts <+: w.history client moves →
      R (w.world.store.run acts) (u.world.store.run acts) := by
    rintro acts ⟨rest, hrest⟩
    rw [← hrest] at hun
    exact h.run hwu.store (fun a ha =>
      history_avoids hclient hmoves a (hrest ▸ List.mem_append_left _ ha)) (along_append.1 hun).1
  have hafter : ∀ ms, ms <+: moves → (w.after client ms).Beside R (u.after client ms) := by
    rintro ms ⟨rest, rfl⟩
    rw [history_append] at hun
    exact (hwu.after h hclient (fun m hm => hmoves m (List.mem_append_left _ hm))
      (along_append.1 hun).1).2
  refine ⟨(hwu.after h hclient hmoves hun).1, hacts, ?_, hafter, ?_⟩
  · rintro acts c ⟨rest, hrest⟩
    have hmem : .call c ∈ w.history client moves := by simp [← hrest]
    have hc : Act.Avoids barred (.call c : Act E V C K) := history_avoids hclient hmoves _ hmem
    rw [← hrest, List.append_assoc] at hun
    have hstores := hacts acts ⟨[.call c] ++ rest, by rw [← List.append_assoc, hrest]⟩
    exact (h.serve hstores hc (along_append.1 hun).2.1).1
  · rintro ms m ⟨rest, rfl⟩
    have hm : m.Avoids barred := hmoves m (by simp)
    rw [List.append_assoc, history_append] at hun
    have hlater := (along_append.1 hun).2
    rw [← after_store, List.singleton_append, history] at hlater
    have hbeside := hafter ms ⟨[m] ++ rest, by simp⟩
    exact (hbeside.move h hclient hm (along_append.1 hlater).1).2.1

end Course
end Blackboard
