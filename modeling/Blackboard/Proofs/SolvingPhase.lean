import Blackboard.Proofs.SolvingRound

/-! Phases of a store on its way to a solution. If what the computations return fits the bounds,
every turn of the worker keeps the store on its way and brings it nearer, so the phase completes
with everything final. -/
namespace Blackboard
variable {E V C K σ α β : Type}

theorem Store.endWait_succeeds {s : Store E V C K} (hfault : s.fault = none)
    (hopen : s.queue.closed = false) :
    ∃ r, s.answer Store.endWait = (.ok (), r) ∧ s.Becomes s.table [] r := by
  have hends : Store.Ends Store.endWait s (fun _ r => s.Becomes s.table [] r) (fun _ => False) := by
    have htold := Store.notify_becomes s .workersStopped
    refine .write_then (.read ?_)
    have hfault' : (s.notify .workersStopped).fault = none := hfault
    rw [hfault']
    refine .bind (Store.checkRunning_succeeds hopen) ?_
    intro _ r hr
    subst hr
    exact .write (htold.then_quiet (Store.notify_becomes _ _))
  obtain ⟨_, r, hr, hquiet⟩ := hends.exists_ok
  exact ⟨r, by simp [Store.answer, hr], hquiet⟩

variable [DecidableEq E] [DecidableEq V]

namespace Equations.Solving
variable {eqs : Equations E V C K} {s : Store E V C K}

theorem of_empty (hsetting : eqs.Setting s) (htable : s.table = .empty)
    (hqueue : s.queue = .empty) : eqs.Solving 0 s := by
  have hfind : ∀ e, s.table.find? (eqs.keyOf e) = none := by
    rw [htable]
    exact fun _ => rfl
  have hasleep : ∀ d, s.table.suspension? d = none := by
    rw [htable]
    intro d
    cases d <;> rfl
  have hkey : ∀ i, s.table.key? i = none := by
    rw [htable]
    exact fun _ => rfl
  have hview : eqs.view s = fun e => .unknown ⟨e, eqs.kind⟩ := by
    funext e
    rw [view, Store.statusOf, hfind]
    rfl
  have hdue : eqs.due s = 0 := by
    rw [due, Store.held, htable, hqueue]
    rfl
  refine ⟨hsetting, ⟨htable ▸ .empty, ?_⟩, htable ▸ .empty, ?_, hview ▸ eqs.bounds_unknown,
    ?_, ?_, ?_, ?_⟩
  · intro i c hc
    simp [htable, CellTable.empty, CellTable.cell?] at hc
  · intro i key hi
    rw [hkey] at hi
    cases hi
  · simp [hdue]
  · intro e
    simp [hdue, Store.isKnown, hfind]
  · intro d susp hd
    rw [hasleep] at hd
    cases hd
  · intro task htask
    simp [hqueue, Queue.empty] at htask

theorem start (h : eqs.Solving 0 s) {task : Task E C K} {rest : List (Task E C K)}
    (hq : s.queue.waiting = task :: rest) :
    ∃ e, eqs.Solving {e} { s with queue := { s.queue with waiting := rest } } ∧
      (task = .compute eqs.computation e ∨
        ∃ d i k, task = .resume d i k ∧ eqs.entity k = e ∧ i < s.table.size) := by
  have hsetting : eqs.Setting { s with queue := { s.queue with waiting := rest } } := by
    obtain ⟨hkind, hcomputed, hlazy, htriggered, hdelayed, hhalted, hclosed, hfault⟩ := h.setting
    exact ⟨hkind, hcomputed, hlazy, htriggered, hdelayed, hhalted, hclosed, hfault⟩
  have hsub : rest ⊆ s.queue.waiting := by
    rw [hq]
    exact List.subset_cons_self _ _
  have htask : eqs.Expects s.table.size task := h.queued task (by rw [hq]; exact List.mem_cons_self)
  have hone : task :: rest = [task] ++ rest := rfl
  rw [hone] at hq
  cases htask with
  | compute e =>
    refine ⟨e, h.requeue hsetting rfl rfl ?_ hsub, .inl rfl⟩
    have hcarried : carried [(.compute eqs.computation e : Task E C K)] = 0 := rfl
    have hasked : asked [(.compute eqs.computation e : Task E C K)] = {e} := rfl
    rw [due, due, Store.held, Store.held, hq, carried_append, asked_append, hcarried, hasked]
    simp only [Multiset.map_add, Multiset.map_zero]
    abel
  | @resume d i hlt k =>
    refine ⟨eqs.entity k, h.requeue hsetting rfl rfl ?_ hsub, .inr ⟨d, i, k, rfl, rfl, hlt⟩⟩
    have hcarried : carried [(.resume d i k : Task E C K)] = {(d, k)} := rfl
    have hasked : asked [(.resume d i k : Task E C K)] = 0 := rfl
    rw [due, due, Store.held, Store.held, hq, carried_append, asked_append, hcarried, hasked]
    simp only [Multiset.map_add, Multiset.map_singleton]
    abel

theorem all_final (h : eqs.Solving 0 s) (hidle : s.Idle true true) {c : Cell E V K}
    (hc : c ∈ s.cells) :
    ∃ e ∈ eqs.nodes, c.key = eqs.keyOf e ∧ c.status = eqs.view s e ∧ c.status.isFinal = true := by
  obtain ⟨hcell, -⟩ := Store.Seen.current h.sound hc
  obtain ⟨e, he, hkey, hfind⟩ := h.find?_of_cell? hcell
  exact ⟨e, he, hkey, (Store.statusOf_found hfind).symm,
    ((hidle.all_final h.sound h.linked h.setting.delayed).1 c hc).1⟩

end Equations.Solving

variable [Property V] [ToString E]

/-- What the computation of an entity may return: a final value, or bounds and what they depend
on. -/
inductive Equations.Returns (eqs : Equations E V C K) (s : Store E V C K) (e : E) :
    Result E V C K → Prop
  | final {ep : Final E V} (h : eqs.Offers (eqs.view s) e (.final ep)) : eqs.Returns s e (.final ep)
  | interim {ep : Interim E V} {dependees : List (Status E V)} {k : K}
      (h : eqs.Solves (eqs.view s) e ep) (hd : eqs.Awaits s e dependees)
      (hk : eqs.entity k = e) : eqs.Returns s e (.interim ep dependees k)

theorem Equations.Returns.congr {eqs : Equations E V C K} {s : Store E V C K} {e : E}
    {r : Store E V C K} {result : Result E V C K} (h : eqs.Returns s e result)
    (htable : r.table = s.table) : eqs.Returns r e result := by
  have hview : eqs.view r = eqs.view s := eqs.view_congr htable
  cases h with
  | final hnew => exact .final (hview ▸ hnew)
  | interim hnew hd hk => exact .interim (hview ▸ hnew) (hd.congr htable) hk

variable [ToString V]

theorem Script.run_bind (x : Script E V C α) (f : α → Script E V C β) (s : Store E V C K) :
    (x >>= f).run s = (f (x.run s).1).run (x.run s).2 := by
  induction x generalizing s with
  | pure a => rfl
  | call c next ih => exact ih _ _

theorem Script.run_ask_bind {c : Call E V C} {a : c.Answer} {s q : Store E V C K}
    (h : s.serve c = (a, q)) (f : c.Answer → Script E V C β) :
    (Script.ask c >>= f).run s = (f a).run q := by
  change (f (s.serve c).1).run (s.serve c).2 = _
  rw [h]

namespace Equations
variable {eqs : Equations E V C K} {s : Store E V C K} {running : Multiset E} {e : E}

/-- A script ends with a result for the entity that fits what the store knows by then. -/
def Yields (eqs : Equations E V C K) (e : E) (s : Store E V C K)
    (script : Script E V C (Result E V C K)) : Prop :=
  ∃ result r, script.run s = (result, r) ∧ eqs.Solving {e} r ∧ eqs.Advances s r ∧
    eqs.Returns r e result

theorem Yields.bind {q : Store E V C K} {x : Script E V C α}
    {f : α → Script E V C (Result E V C K)} {a : α} (hx : x.run s = (a, q))
    (hadvances : eqs.Advances s q) (h : eqs.Yields e q (f a)) :
    eqs.Yields e s (x >>= f) := by
  obtain ⟨result, r, hrun, hr, hadvances', hreturns⟩ := h
  refine ⟨result, r, ?_, hr, hadvances.trans hadvances', hreturns⟩
  rw [Script.run_bind, hx, hrun]

def Computes (eqs : Equations E V C K) (e : E)
    (script : Script E V C (Except Crash (Result E V C K) × σ)) : Prop :=
  ∀ s, eqs.Solving {e} s → ∃ result m r, script.run s = ((.ok result, m), r) ∧ eqs.Solving {e} r ∧
    eqs.Advances s r ∧ eqs.Returns r e result

/-- All computations of a client, whether they start or go on, compute what they are to compute. -/
structure Serves (eqs : Equations E V C K) (client : Client E V C K σ) : Prop where
  start : ∀ e ∈ eqs.nodes, ∀ m, eqs.Computes e (client.start eqs.computation e m)
  resume : ∀ k, eqs.entity k ∈ eqs.nodes → ∀ status m,
    eqs.Computes (eqs.entity k) (client.resume k status m)

namespace Solving

theorem query (h : eqs.Solving running s)
    (hroom : eqs.nodes.toFinset.card ≤ collaboratorBit) {x : E} (hx : x ∈ eqs.nodes) :
    ∃ r, s.serve (.query (eqs.keyOf x)) = (.ok (eqs.view s x), r) ∧ eqs.Solving running r ∧
      eqs.Advances s r ∧ eqs.view r = eqs.view s ∧ r.isKnown (eqs.keyOf x) = true := by
  obtain ⟨status, r, hquery, rfl, hr⟩ := (h.ask hroom hx).exists_ok
  exact ⟨r, by simp [Store.serve, Store.answer, hquery], hr⟩

theorem stamp (h : eqs.Solving running s) :
    ∃ r, s.serve .stamp = (s.nextStamp, r) ∧ eqs.Solving running r ∧ eqs.Advances s r ∧
      r.table = s.table := by
  have hquiet : s.Becomes s.table [] { s with nextStamp := s.nextStamp + 1 } := by
    constructor <;> simp
  exact ⟨_, rfl, h.quiet hquiet, .of_quiet hquiet, rfl⟩

theorem handle (h : eqs.Solving {e} s) {result : Result E V C K}
    (hresult : eqs.Returns s e result) :
    Store.Ends (Store.handle result) s
      (fun lost r => lost = none ∧ eqs.Solving 0 r ∧ eqs.Advances s r) (fun _ => False) := by
  cases hresult with
  | final hnew => exact Store.performAll_single rfl (h.finish hnew)
  | interim hnew hd hk => exact Store.performAll_single rfl (h.rest hnew hd hk)

theorem conclude (h : eqs.Solving {e} s) {result : Result E V C K}
    (hresult : eqs.Returns s e result) :
    ∃ r, s.conclude (.ok result) = (none, r) ∧ eqs.Solving 0 r ∧ eqs.Advances s r := by
  have htold := Store.notify_becomes s (.handlingResult result.name)
  obtain ⟨_, r, hhandle, rfl, hr, hadvances⟩ :=
    ((h.quiet htold).handle (hresult.congr htold.table)).exists_ok
  refine ⟨r, ?_, hr, (Advances.of_quiet htold).trans hadvances⟩
  simp only [Store.conclude, hhandle]

variable {client : Client E V C K σ} {w : World E V C K σ}

theorem execute (hclient : eqs.Serves client) (h : eqs.Solving {e} w.store) {task : Task E C K}
    (htask : task = .compute eqs.computation e ∨
      ∃ d i k, task = .resume d i k ∧ eqs.entity k = e ∧ i < w.store.table.size) :
    (client.execute task w).lost = none ∧ eqs.Solving 0 (client.execute task w).store ∧
      eqs.Advances w.store (client.execute task w).store := by
  have hcount := Store.count_becomes w.store fun n =>
    { n with executedTasks := n.executedTasks + 1 }
  obtain ⟨c, hc, -⟩ := h.cell_of_due (e := e) (by simp)
  have he : e ∈ eqs.nodes := (h.key_of_find? hc).2
  have hscript : eqs.Computes e (client.scriptOf task
      (w.store.count fun n => { n with executedTasks := n.executedTasks + 1 }) w.memory) := by
    cases htask with
    | inl htask =>
      subst htask
      exact hclient.start e he w.memory
    | inr htask =>
      obtain ⟨d, i, k, rfl, rfl, hlt⟩ := htask
      obtain ⟨b, hb⟩ := CellTable.cell?_of_lt hlt
      have hstatus : (w.store.count fun n =>
          { n with executedTasks := n.executedTasks + 1 }).status? i = some b.status := by
        change (w.store.table.cell? i).map (·.status) = _
        rw [hb]
        rfl
      simp only [Client.scriptOf, hstatus]
      exact hclient.resume k he b.status w.memory
  obtain ⟨result, m, r, hrun, hr, hadvances, hresult⟩ := hscript _ (h.quiet hcount)
  obtain ⟨q, hq, hsolving, hconclude⟩ := hr.conclude hresult
  have hexecute : client.execute task w = ⟨q, m, none⟩ := by
    simp only [Client.execute, hrun, hq]
  rw [hexecute]
  exact ⟨rfl, hsolving, ((Advances.of_quiet hcount).trans hadvances).trans hconclude⟩

/-- One turn of the worker: it comes nearer to the solution, or stops with nothing left to
settle. -/
theorem turn (hclient : eqs.Serves client) (hlost : w.lost = none) (h : eqs.Solving 0 w.store)
    {more : Bool} {w' : World E V C K σ} (hw : (client.worker true true).turn w = (more, w')) :
    w'.lost = none ∧ eqs.Solving 0 w'.store ∧ eqs.Advances w.store w'.store ∧
      if more then eqs.remaining w'.store < eqs.remaining w.store else w'.store.Idle true true := by
  cases hq : w.store.queue.waiting with
  | cons task rest =>
    rw [client.turn_execute true true hlost h.setting.halted hq] at hw
    obtain ⟨rfl, rfl⟩ := Prod.mk.inj hw
    obtain ⟨e, hstart, htask⟩ := h.start hq
    obtain ⟨hlost', hsolving, hadvances⟩ :=
      execute (w := ⟨_, w.memory, w.lost⟩) hclient hstart htask
    have hlt : eqs.remaining { w.store with queue := { w.store.queue with waiting := rest } } <
        eqs.remaining w.store := by
      refine Prod.Lex.toLex_lt_toLex.2 (.inr ⟨eqs.distance_congr rfl, ?_⟩)
      simp [Queue.pending, hq]
    exact ⟨hlost', hsolving, ⟨hadvances.known, hadvances.remaining.trans hlt.le⟩,
      lt_of_le_of_lt hadvances.remaining hlt⟩
  | nil =>
    have hidle : w.store.inFlight = false := by simp [Store.inFlight, Queue.pending, hq]
    obtain ⟨hsolving, hadvances, hround⟩ := h.round hidle
    rw [client.turn_round true true hlost h.setting.halted hq, hsolving.setting.halted,
      Bool.or_false] at hw
    obtain ⟨rfl, rfl⟩ := Prod.mk.inj hw
    exact ⟨hlost, hsolving, hadvances, hround⟩

theorem run (hclient : eqs.Serves client) (hlost : w.lost = none) (h : eqs.Solving 0 w.store) :
    ∃ bound w', (∀ fuel ≥ bound, (client.worker true true).run fuel w = some w') ∧
      eqs.Solving 0 w'.store ∧
      (∀ e, w.store.isKnown (eqs.keyOf e) = true → w'.store.isKnown (eqs.keyOf e) = true) ∧
      w'.store.Idle true true := by
  induction hn : eqs.remaining w.store using WellFoundedLT.induction generalizing w with
  | ind n ih =>
    cases hw : (client.worker true true).turn w with
    | mk more w₁ =>
      obtain ⟨hlost', hsolving, hadvances, hmore⟩ := turn hclient hlost h hw
      cases more with
      | true =>
        obtain ⟨bound, w', hrun, hw', hknown, hidle⟩ := ih _ (hn ▸ hmore) hlost' hsolving rfl
        refine ⟨bound + 1, w', ?_, hw', fun e he => hknown e (hadvances.known e he), hidle⟩
        intro fuel hfuel
        cases fuel with
        | zero => cases hfuel
        | succ fuel =>
          simp only [Worker.run, hw]
          exact hrun fuel (Nat.le_of_succ_le_succ hfuel)
      | false =>
        refine ⟨1, w₁, ?_, hsolving, hadvances.known, hmore⟩
        intro fuel hfuel
        cases fuel with
        | zero => cases hfuel
        | succ fuel => simp only [Worker.run, hw]

theorem wait (hclient : eqs.Serves client) (hlost : w.lost = none) (h : eqs.Solving 0 w.store) :
    ∃ bound w', (∀ fuel ≥ bound, w.wait client fuel true true = some (.ok (), w')) ∧
      eqs.Solving 0 w'.store ∧
      (∀ e, w.store.isKnown (eqs.keyOf e) = true → w'.store.isKnown (eqs.keyOf e) = true) ∧
      w'.store.Idle true true := by
  have hbegin : w.store.Becomes w.store.table [] (w.store.beginWait true true) :=
    (Store.notify_becomes _ _).then_quiet (Store.notify_becomes _ _)
  obtain ⟨bound, w', hrun, hw', hstays, hidle⟩ :=
    run (w := { w with store := w.store.beginWait true true }) hclient hlost (h.quiet hbegin)
  obtain ⟨r, hend, hquiet⟩ := Store.endWait_succeeds hw'.setting.fault hw'.setting.closed
  have hcheck : w.store.answer Store.checkRunning = (.ok (), w.store) := by
    obtain ⟨_, q, hq, rfl⟩ := (Store.checkRunning_succeeds h.setting.closed).exists_ok
    simp [Store.answer, hq]
  refine ⟨bound, { w' with store := r }, ?_, hw'.quiet hquiet, ?_,
    hidle.congr hquiet.table.symm hquiet.phase.symm⟩
  · intro fuel hfuel
    simp only [World.wait, hcheck, hrun fuel hfuel, Option.map_some, hend]
  · intro e he
    have hleft := hstays e (by rwa [Store.isKnown, hbegin.table])
    rwa [Store.isKnown, hquiet.table]

theorem force (h : eqs.Solving 0 s) (hroom : eqs.nodes.toFinset.card ≤ collaboratorBit)
    (he : e ∈ eqs.nodes) :
    eqs.Solving 0 (s.act (.call (.force (eqs.keyOf e)))) ∧
      eqs.Advances s (s.act (.call (.force (eqs.keyOf e)))) ∧
      (s.act (.call (.force (eqs.keyOf e)))).isKnown (eqs.keyOf e) = true := by
  have htrace := Store.trace_becomes s (.force (eqs.keyOf e))
  have hends : Store.Ends (Store.force (eqs.keyOf e)) s
      (fun _ r => eqs.Solving 0 r ∧ eqs.Advances s r ∧ r.isKnown (eqs.keyOf e) = true)
      (fun _ => False) := by
    refine .write_then (.bind ((h.quiet htrace).ask hroom he) ?_)
    intro status r hr
    obtain ⟨-, hsolving, hadvances, -, hknown⟩ := hr
    exact .answer ⟨hsolving, (Advances.of_quiet htrace).trans hadvances, hknown⟩
  exact (hends.mono (fun _ _ hr => hr) fun _ hr => hr.elim).answer_snd

theorem forces (h : eqs.Solving 0 s) (hroom : eqs.nodes.toFinset.card ≤ collaboratorBit)
    {forced : List E} (hforced : ∀ e ∈ forced, e ∈ eqs.nodes) :
    eqs.Solving 0 (s.run (forced.map fun e => .call (.force (eqs.keyOf e)))) ∧
      eqs.Advances s (s.run (forced.map fun e => .call (.force (eqs.keyOf e)))) ∧
      ∀ e ∈ forced, (s.run (forced.map fun e => .call (.force (eqs.keyOf e)))).isKnown
        (eqs.keyOf e) = true := by
  induction forced generalizing s with
  | nil => exact ⟨h, .refl eqs s, by simp⟩
  | cons e rest ih =>
    obtain ⟨hsolving, hadvances, hknown⟩ := h.force hroom (hforced e List.mem_cons_self)
    obtain ⟨hall, hadvances', hknown'⟩ := ih hsolving fun x hx =>
      hforced x (List.mem_cons_of_mem _ hx)
    refine ⟨hall, hadvances.trans hadvances', ?_⟩
    intro x hx
    cases List.mem_cons.1 hx with
    | inl heq => exact heq ▸ hadvances'.known e hknown
    | inr hx => exact hknown' x hx

end Solving
end Equations
end Blackboard
