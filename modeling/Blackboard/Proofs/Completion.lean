import Blackboard.Proofs.Completeness
import Blackboard.Proofs.Course
import Blackboard.Proofs.Observers

/-! A completed phase is a fixpoint. Where nothing was left to settle, a round that tries no more
than the last one finds nothing either; so whoever waits again is answered at once, and of the store
only the number of rounds is another. -/
namespace Blackboard

namespace Store
variable {E V C K : Type} {s r : Store E V C K} {cycles fallbacks : Bool}

theorem Idle.mono (h : s.Idle cycles fallbacks) {cycles' fallbacks' : Bool}
    (hc : cycles' = true → cycles = true) (hf : fallbacks' = true → fallbacks = true) :
    s.Idle cycles' fallbacks' :=
  ⟨fun h' => h.known (hf h'), fun h' => h.blocked (hc h'), fun h' => h.refined (hc h')⟩

theorem Idle.exhausted (h : s.Idle cycles fallbacks) {pass : Pass}
    (hp : pass ∈ passes cycles fallbacks) : s.Exhausted pass := by
  cases pass with
  | fallbacks waitedOn =>
    have hf : fallbacks = true := by
      cases fallbacks with
      | true => rfl
      | false => cases cycles <;> simp [passes] at hp
    intro c hc
    obtain ⟨hcell, hd⟩ := candidate_mem hc
    simp [h.known hf c hcell (List.mem_filter.1 hc).2] at hd
  | groups =>
    have hc : cycles = true := by
      cases cycles with
      | true => rfl
      | false => cases fallbacks <;> simp [passes] at hp
    exact h.blocked hc
  | interims waitedOn =>
    have hcycles : cycles = true := by
      cases cycles with
      | true => rfl
      | false => cases fallbacks <;> simp [passes] at hp
    intro c hc ep hep
    obtain ⟨hcell, hd⟩ := candidate_mem hc
    have hnone := Option.isNone_iff_eq_none.1 (List.mem_filter.1 hc).2
    simp [h.refined hcycles c hcell hnone ⟨ep, hep⟩] at hd

theorem logEach_rests {α : Type} {target : α → Target E V K}
    {settle : α → Op E V C K Bool} {l : List α}
    (h : ∀ a ∈ l, Ends (settle a) s (fun b r => b = false ∧ r = s) (fun _ => False)) :
    Ends (logEach target settle l) s (fun log r => log = [] ∧ r = s) (fun _ => False) := by
  induction l with
  | nil => exact .answer ⟨rfl, rfl⟩
  | cons a rest ih =>
    refine .read (.bind (h a List.mem_cons_self) ?_)
    rintro _ _ ⟨rfl, rfl⟩
    exact .read (ih fun a' ha' => h a' (List.mem_cons_of_mem _ ha'))

variable [DecidableEq E] [DecidableEq V] [Property V] [ToString E] [ToString V]

theorem Pass.log_rests {pass : Pass} (h : s.Exhausted pass) :
    Ends pass.log s (fun log r => log = [] ∧ r = s) (fun _ => False) := by
  cases pass with
  | fallbacks waitedOn => exact .read (logEach_rests fun c hc => (h c hc).elim)
  | groups =>
    refine .read (logEach_rests fun group hgroup => ?_)
    unfold resolveGroup
    rw [if_pos (h group hgroup)]
    exact .answer ⟨rfl, rfl⟩
  | interims waitedOn => exact .read (logEach_rests fun c hc => finalize_idle (h c hc))

theorem logPasses_rests {ps : List Pass} (h : ∀ pass ∈ ps, s.Exhausted pass) :
    Ends (logPasses ps) s (fun log r => log = [] ∧ r = s) (fun _ => False) := by
  induction ps with
  | nil => exact .answer ⟨rfl, rfl⟩
  | cons pass rest ih =>
    obtain ⟨hpass, hrest⟩ := List.forall_mem_cons.1 h
    refine .bind (Pass.log_rests hpass) ?_
    rintro _ _ ⟨rfl, rfl⟩
    exact ih hrest

theorem Idle.settle (h : s.Idle cycles fallbacks) :
    Store.settle cycles fallbacks s = .ok false s := by
  have hends : Ends (Store.settle cycles fallbacks) s (fun b r => b = false ∧ r = s)
      (fun _ => False) := by
    rw [settle_eq_settlements]
    refine .map ((logPasses_rests fun pass hp => h.exhausted hp).mono ?_ fun _ h => h)
    rintro _ _ ⟨rfl, rfl⟩
    exact ⟨rfl, rfl⟩
  obtain ⟨_, _, hr, rfl, rfl⟩ := hends.exists_ok
  exact hr

theorem Idle.onQuiescence (h : s.Idle cycles fallbacks) :
    (s.onQuiescence cycles fallbacks).1 = false ∧
      (s.count fun n => { n with quiescenceRounds := n.quiescenceRounds + 1 }).AgreesWith
        (s.onQuiescence cycles fallbacks).2 := by
  have htold : (s.count fun n => { n with quiescenceRounds := n.quiescenceRounds + 1 }).AgreesWith
      s.beginRound := .trace _ _
  have hidle : s.beginRound.Idle cycles fallbacks := h.congr htold.table.symm htold.phase.symm
  rw [onQuiescence_of_ok hidle.settle]
  exact ⟨rfl, htold.trans (.notify _ _)⟩

end Store

variable {E V C K σ : Type} [DecidableEq E] [DecidableEq V] [Property V] [ToString E] [ToString V]

theorem Client.lost_of_run {client : Client E V C K σ} {cycles fallbacks : Bool} {fuel : Nat}
    {w w' : World E V C K σ} (h : (client.worker cycles fallbacks).run fuel w = some w') :
    w'.lost = none := by
  obtain ⟨-, last, -, hstop⟩ := Course.turns_of_run h
  have hturns := client.turns cycles fallbacks last
  rw [hstop] at hturns
  generalize hend : (false, w') = turned at hturns
  cases hturns with
  | lost | task => cases hend
  | drop hlost => exact congrArg (·.2.lost) hend ▸ hlost
  | round hlost => exact congrArg (·.2.lost) hend ▸ hlost

theorem Client.turn_rests (client : Client E V C K σ) {cycles fallbacks : Bool}
    {w : World E V C K σ} (hlost : w.lost = none) (h : w.store.AtRest cycles fallbacks) :
    (client.worker cycles fallbacks).turn w =
      (false, { w with store := (w.store.onQuiescence cycles fallbacks).2 }) ∧
      client.turnActs cycles fallbacks w = [.round cycles fallbacks] := by
  obtain ⟨hchanged, hsame⟩ := h.idle.onQuiescence
  have hhalted : (w.store.onQuiescence cycles fallbacks).2.queue.halted = false := by
    rw [hsame.queue]
    exact h.running
  refine ⟨?_, ?_⟩
  · rw [client.turn_round cycles fallbacks hlost h.running h.empty, hchanged, hhalted]
    rfl
  · simp [turnActs, laterActs, Store.nextAct, hlost, h.running, h.empty]

theorem World.wait_of_atRest (client : Client E V C K σ) (fuel : Nat) {cycles fallbacks : Bool}
    {w : World E V C K σ} (hlost : w.lost = none) (h : w.store.AtRest cycles fallbacks) :
    w.waitActs client (fuel + 1) cycles fallbacks = w.store.beginActs cycles fallbacks ++
      [.round cycles fallbacks] ∧
    ∃ r, w.wait client (fuel + 1) cycles fallbacks = some (.ok (), { w with store := r }) ∧
      (w.store.count fun n =>
        { n with quiescenceRounds := n.quiescenceRounds + 1 }).AgreesWith r := by
  have hrest : (w.store.beginWait cycles fallbacks).AtRest cycles fallbacks :=
    h.of_quiet ((Store.notify_becomes _ _).then_quiet (Store.notify_becomes _ _))
  have hopen : w.store.isShutdown = false := h.taking
  obtain ⟨hturn, hacts⟩ :=
    client.turn_rests (w := { w with store := w.store.beginWait cycles fallbacks }) hlost hrest
  obtain ⟨-, hround⟩ := hrest.idle.onQuiescence
  dsimp only at hturn
  generalize ((w.store.beginWait cycles fallbacks).onQuiescence cycles fallbacks).2 = r
    at hturn hround
  have hcounted : (w.store.count fun n =>
      { n with quiescenceRounds := n.quiescenceRounds + 1 }).AgreesWith r := by
    refine Store.AgreesWith.trans ?_ hround
    constructor <;> rfl
  have hverdict : r.verdict = .ok () := by
    have hclosed : r.isShutdown = false := (congrArg Queue.closed hcounted.queue).trans h.taking
    have hfault : r.fault = none := hcounted.fault.trans h.fault
    simp [Store.verdict, hfault, hclosed]
  have htold : r.AgreesWith (r.run r.endActs) := by
    rw [r.run_endActs]
    constructor <;> rfl
  refine ⟨?_, r.run r.endActs, ?_, hcounted.trans htold⟩
  · simp only [waitActs, Client.acts, hturn, hacts]
    rfl
  · simp only [wait, Store.answer_checkRunning, hopen, Bool.false_eq_true, if_false, Worker.run,
      hturn, Option.map_some, Store.answer_endWait, hverdict]

theorem World.run_of_wait {client : Client E V C K σ} {fuel : Nat} {cycles fallbacks : Bool}
    {w w' : World E V C K σ} (h : w.wait client fuel cycles fallbacks = some (.ok (), w')) :
    ∃ last, (client.worker cycles fallbacks).run fuel
      { w with store := w.store.beginWait cycles fallbacks } = some last ∧
      w'.lost = last.lost := by
  simp only [wait, Store.answer_checkRunning] at h
  cases hclosed : w.store.isShutdown with
  | true => simp [hclosed] at h
  | false =>
    simp only [hclosed, Bool.false_eq_true, if_false, Option.map_eq_some_iff] at h
    obtain ⟨last, hrun, hend⟩ := h
    exact ⟨last, hrun, congrArg (·.2.lost) hend.symm⟩

/-- If a wait completed the phase, then waiting again at once, with no more flags than before,
completes it too: no task is taken up, and of the store nothing is changed but the number of rounds,
by one, and what was told. -/
theorem World.wait_again {client : Client E V C K σ} {fuel : Nat} {cycles fallbacks : Bool}
    {w w' : World E V C K σ} (hr : w.store.Reachable)
    (h : w.wait client fuel cycles fallbacks = some (.ok (), w')) (client' : Client E V C K σ)
    (fuel' : Nat) (cycles' fallbacks' : Bool) (hc : cycles' = true → cycles = true)
    (hf : fallbacks' = true → fallbacks = true) :
    Act.start ∉ w'.waitActs client' (fuel' + 1) cycles' fallbacks' ∧
    ∃ r, w'.wait client' (fuel' + 1) cycles' fallbacks' = some (.ok (), { w' with store := r }) ∧
      (w'.store.count fun n =>
        { n with quiescenceRounds := n.quiescenceRounds + 1 }).AgreesWith r := by
  have hlost : w'.lost = none := by
    obtain ⟨last, hrun, hend⟩ := run_of_wait h
    exact hend.trans (Client.lost_of_run hrun)
  have hrest := World.wait_atRest hr h
  have hrest' : w'.store.AtRest cycles' fallbacks' := { hrest with idle := hrest.idle.mono hc hf }
  obtain ⟨hacts, hwait⟩ := wait_of_atRest client' fuel' hlost hrest'
  refine ⟨?_, hwait⟩
  rw [hacts]
  simp [Store.beginActs]

/-- A computation sleeps on a cell of a later phase; without fallbacks there is even less to do. -/
theorem callersLater_wait_again : ∃ w',
    callersLater.store.Reachable ∧ callersLater.wait callersFirst 3 true true = some (.ok (), w') ∧
    (w'.store.cells.map fun c => (c.status.isFinal, c.suspension.isSome)) =
      [(false, false), (false, true)] ∧
    Act.start ∉ w'.waitActs callersFirst 1 true false ∧
    ∃ r, w'.wait callersFirst 1 true false = some (.ok (), { w' with store := r }) ∧
      (w'.store.count fun n =>
        { n with quiescenceRounds := n.quiescenceRounds + 1 }).AgreesWith r := by
  have hr : callersLater.store.Reachable := (Store.Reachable.create {} .none 1).run _
  have hw : callersLater.wait callersFirst 3 true true = some (.ok (), _) := rfl
  exact ⟨_, hr, hw, rfl, World.wait_again hr hw callersFirst 0 true false (fun h => h)
    (fun _ => rfl)⟩

end Blackboard
