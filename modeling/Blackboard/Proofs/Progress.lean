import Blackboard.Proofs.Completeness
import Blackboard.Proofs.Course
import Blackboard.Proofs.Lifecycle

/-! Rounds make progress. A round that reports a change has made a cell final, so there are no more
rounds than final cells and waits. -/
namespace Blackboard

namespace Store
variable {E V C K : Type} {s q r : Store E V C K}

/-- A cell that was not final has become so. -/
def Advances (s r : Store E V C K) : Prop :=
  ∃ i c c', s.cell? i = some c ∧ c.status.isFinal = false ∧ r.cell? i = some c' ∧
    c'.status.isFinal = true

theorem Advances.of_isFinalAt {i : Nat} {c : Cell E V K} (hc : s.cell? i = some c)
    (hopen : c.status.isFinal = false) (hr : r.isFinalAt i = true) : s.Advances r := by
  obtain ⟨c', hc', hfinal⟩ := (Option.any_eq_true _ _).1 hr
  exact ⟨i, c, c', hc, hopen, hc', hfinal⟩

theorem Advances.ages (h : s.Advances q) (hr : q.Ages r) : s.Advances r := by
  obtain ⟨i, c, c', hc, hopen, hc', hfinal⟩ := h
  obtain ⟨c'', hc'', -, -, hsame⟩ := hr.cell? hc'
  exact ⟨i, c, c'', hc, hopen, hc'', (hsame hfinal).symm ▸ hfinal⟩

theorem not_advances_self : ¬ s.Advances s := by
  rintro ⟨i, c, c', hc, hopen, hc', hfinal⟩
  obtain rfl : c = c' := Option.some.inj (hc.symm.trans hc')
  simp [hopen] at hfinal

variable [DecidableEq E]

theorem interim_in_closedComponent (hs : s.Sound) {group : List Depender}
    (h : group ∈ closedComponents s.waiting) :
    ∃ i c ep, .cell i ∈ group ∧ s.cell? i = some c ∧ c.status = .interim ep := by
  obtain ⟨x, -, hiff, -⟩ := Waiting.mem_closedComponents h
  have hmem : Depender.decode x ∈ group := (hiff _).2 ⟨x, rfl, .refl⟩
  obtain ⟨i, susp, hi, hsusp, -⟩ := asleep_in_closedComponent hs h hmem
  obtain ⟨c, hc, hcs⟩ := Option.bind_eq_some_iff.1 hsusp
  obtain ⟨ep, hep⟩ := hs.table.interim hc (by simp [hcs])
  exact ⟨i, c, ep, hi ▸ hmem, hc, hep⟩

variable [DecidableEq V]

theorem Makes.advances {pass : Pass} {st : Settlement E V C K} (h : s.Makes pass st) (hs : s.Sound)
    (ht : st.before.table = s.table) : s.Advances st.after := by
  cases h with
  | @cell before after _ c ep _ _ hc _ _ hep hr =>
    have hopen : c.status.isFinal = false := by
      obtain ⟨info, n, -, hto⟩ := hep
      cases hst : c.status with
      | unknown key => rfl
      | interim old => rfl
      | final old => simp [hst] at hto
    exact .of_isFinalAt (ht ▸ hc) hopen (by simp [hr.isFinalAt hc])
  | @group before after members batch _ hmem _ hr =>
    obtain ⟨i, c, ep, hi, hc, hep⟩ := interim_in_closedComponent hs hmem
    have hface : before.table.face? i = some (c.id, c.key, .interim ep) := by
      rw [ht, CellTable.face?_of_cell? hc, Cell.face, hep]
    obtain ⟨p, hp, hpi⟩ := hr.mem_batch hi hface
    have hbatch : batch.any (·.1.id == i) = true := List.any_eq_true.2 ⟨p, hp, by simp [hpi]⟩
    exact .of_isFinalAt hc (by simp [hep, Status.isFinal]) (by simp [hr.isFinalAt, hbatch])

theorem kept_advances (hs : s.Sound) :
    s.Kept (fun q => s.Ages q ∧ (q.table = s.table ∨ s.Advances q)) fun q =>
      s.Ages q ∧ s.Advances q where
  start := ⟨.of_quiet (.refl s), .inl rfl⟩
  weaken h := ⟨h.1, .inr h.2⟩
  quiet_before h hr :=
    ⟨h.1.trans (.of_quiet hr), h.2.imp hr.table.trans fun ha => ha.ages (.of_quiet hr)⟩
  quiet h hr := ⟨h.1.trans (.of_quiet hr), h.2.ages (.of_quiet hr)⟩
  step h _ _ hst := by
    obtain ⟨hages, htable | hadv⟩ := h
    · exact ⟨hages.trans hst.ages, hst.advances hs htable⟩
    · exact ⟨hages.trans hst.ages, hadv.ages hst.ages⟩

variable [Property V] [ToString E] [ToString V]

/-- A round does not fail; it reports a change if and only if a cell became final, and otherwise
nothing changed. -/
theorem settle_progress (hs : s.Sound) (hidle : s.inFlight = false) (cycles fallbacks : Bool) :
    ∃ changed r, settle cycles fallbacks s = .ok changed r ∧ (changed = true ↔ s.Advances r) ∧
      (changed = false → r = s) := by
  have hends := (kept_advances hs).settle hs hidle cycles fallbacks
  cases hr : settle cycles fallbacks s with
  | error e r => exact (hends.of_error hr).elim
  | ok changed r =>
    have hok := hends.of_ok hr
    refine ⟨changed, r, rfl, ?_⟩
    cases changed with
    | true => exact ⟨⟨fun _ => hok.2.2, fun _ => rfl⟩, by simp⟩
    | false =>
      obtain ⟨rfl, -⟩ := hok
      exact ⟨⟨by simp, fun h => (not_advances_self h).elim⟩, fun _ => rfl⟩

end Store

/-! How many rounds there are. -/

theorem countP_of_found {α : Type} {p : α → Bool} {l l' : List α}
    (hfound : ∀ (i : Nat) a, l[i]? = some a → p a = true → ∃ b, l'[i]? = some b ∧ p b = true) :
    l.countP p ≤ l'.countP p ∧
      ((∃ (i : Nat) (b : α), l'[i]? = some b ∧ p b = true ∧ ∀ a, l[i]? = some a → p a = false) →
        l.countP p < l'.countP p) := by
  induction l generalizing l' with
  | nil =>
    refine ⟨Nat.zero_le _, ?_⟩
    rintro ⟨i, b, hb, hp, -⟩
    exact List.countP_pos_iff.2 ⟨b, List.mem_of_getElem? hb, hp⟩
  | cons a l ih =>
    cases l' with
    | nil =>
      have hnone : (a :: l).countP p = 0 := List.countP_eq_zero.2 fun x hx hp => by
        obtain ⟨i, hi⟩ := List.mem_iff_getElem?.1 hx
        simpa using hfound i x hi hp
      simp [hnone]
    | cons b l' =>
      have hhead : (if p a = true then 1 else 0) ≤ if p b = true then 1 else 0 := by
        split
        · next ha => rw [if_pos (by simpa using hfound 0 a rfl ha)]
        · exact Nat.zero_le _
      obtain ⟨hle, hlt⟩ :=
        ih fun i x hx hp => by simpa using hfound (i + 1) x (by simpa using hx) hp
      simp only [List.countP_cons]
      refine ⟨by omega, ?_⟩
      rintro ⟨i, x, hx, hp, hnew⟩
      cases i with
      | zero =>
        obtain rfl : b = x := by simpa using hx
        rw [if_pos hp, if_neg (by simp [hnew a rfl])]
        omega
      | succ i =>
        have hmore := hlt ⟨i, x, by simpa using hx, hp, fun y hy => hnew y (by simpa using hy)⟩
        omega

namespace Store
variable {E V C K : Type} {s r : Store E V C K}

def finals (s : Store E V C K) : Nat := s.cells.countP (·.status.isFinal)

theorem Ages.found (h : s.Ages r) (i : Nat) (c : Cell E V K) (hc : s.cells[i]? = some c)
    (hfinal : c.status.isFinal = true) :
    ∃ c', r.cells[i]? = some c' ∧ c'.status.isFinal = true := by
  obtain ⟨c', hc', -, -, hsame⟩ := h.cell? (s.getElem?_cells i ▸ hc)
  exact ⟨c', (r.getElem?_cells i).trans hc', (hsame hfinal).symm ▸ hfinal⟩

theorem Ages.finals_le (h : s.Ages r) : s.finals ≤ r.finals := (countP_of_found h.found).1

theorem Advances.finals_lt (h : s.Advances r) (hr : s.Ages r) : s.finals < r.finals := by
  obtain ⟨i, c, c', hc, hopen, hc', hfinal⟩ := h
  refine (countP_of_found hr.found).2 ⟨i, c', (r.getElem?_cells i).trans hc', hfinal, ?_⟩
  intro e he
  obtain rfl : c = e := Option.some.inj (hc.symm.trans (s.getElem?_cells i ▸ he))
  exact hopen

variable [DecidableEq E] [DecidableEq V] [Property V] [ToString E] [ToString V]

theorem run_clock {acts : List (Act E V C K)} (h : ∀ a ∈ acts, a.IsWithin) :
    (s.run acts).clock = s.clock := by
  induction acts generalizing s with
  | nil => rfl
  | cons a acts ih =>
    obtain ⟨ha, hacts⟩ := List.forall_mem_cons.1 h
    exact (ih hacts).trans (s.act_clock ha)

theorem onQuiescence_clock (s : Store E V C K) (cycles fallbacks : Bool) :
    (s.onQuiescence cycles fallbacks).2.clock = (s.clock.1, s.clock.2 + 1) := by
  unfold Store.onQuiescence
  dsimp only
  generalize hq : (s.count _).trace _ = q
  have hcount : q.clock = (s.clock.1, s.clock.2 + 1) := hq ▸ clock_trace _ _
  have hP : ∀ {p r : Store E V C K}, p.clock = q.clock → r.clock = p.clock → r.phase = p.phase →
      r.clock = q.clock :=
    fun hp hr _ => hr.trans hp
  have hsettle : Matches (fun _ => False) _ (settle cycles fallbacks q)
      (settle cycles fallbacks q) :=
    (alike_self hP).settle ⟨rfl, rfl⟩ cycles fallbacks
  rw [← hcount]
  generalize settle cycles fallbacks q = x at hsettle
  cases hsettle with
  | ok changed h => exact h.2
  | error e h => exact (clock_fail _ e).trans h.2
  | excuse h => exact h.elim

end Store

namespace Course
variable {E V C K σ : Type}

/-- A round to go is granted to a wait that is going on, for the one that finds nothing to do. -/
def Bounded (w : Course E V C K σ) (waits : Nat) : Prop :=
  w.world.store.stats.quiescenceRounds + (if w.awaited.isSome then 1 else 0) ≤
    w.world.store.finals + waits

variable {w : Course E V C K σ} {waits : Nat}

theorem Bounded.mono {w' : Course E V C K σ} {more : Nat} (h : w.Bounded waits)
    (hrounds : w'.world.store.stats.quiescenceRounds = w.world.store.stats.quiescenceRounds)
    (hfinals : w.world.store.finals ≤ w'.world.store.finals)
    (hawaited : (if w'.awaited.isSome then 1 else 0) ≤ (if w.awaited.isSome then 1 else 0) + more) :
    w'.Bounded (waits + more) := by
  unfold Bounded at *
  omega

variable [DecidableEq E] [DecidableEq V] [Property V] [ToString E] [ToString V]
  {client : Client E V C K σ}

/-- A turn of the worker makes a round only if a cell becomes final, or the worker stops. -/
theorem turn_rounds {w w' : World E V C K σ} {cycles fallbacks more : Bool} (hw : w.store.Reachable)
    (ht : client.Turns cycles fallbacks w (more, w')) :
    w'.store.stats.quiescenceRounds + (if more then 1 else 0) + w.store.finals ≤
      w.store.stats.quiescenceRounds + 1 + w'.store.finals := by
  cases ht with
  | lost hlost => simp
  | drop hlost hhalted => simp [Store.act, hhalted, Store.finals, Store.cells]
  | @task task rest hlost hgo hq =>
    have hfinals := (Store.run_ages hw
      (.start :: client.taskActs task (w.store.act .start) w.memory)).finals_le
    have hrounds :
        (w.store.run (.start :: client.taskActs task (w.store.act .start)
          w.memory)).stats.quiescenceRounds = w.store.stats.quiescenceRounds := by
      have hclock := Store.run_clock (s := w.store.act .start)
        (client.taskActs_within task (w.store.act .start) w.memory)
      refine (congrArg Prod.snd hclock).trans ?_
      simp [Store.act, hgo, hq, Store.clock, Store.count]
    simp only [Client.afterTask, hrounds, if_true]
    omega
  | round hlost hgo hidle =>
    have hround : (w.store.onQuiescence cycles fallbacks).2.stats.quiescenceRounds =
        w.store.stats.quiescenceRounds + 1 :=
          congrArg Prod.snd (w.store.onQuiescence_clock cycles fallbacks)
    have hkept :=
      (Store.kept_advances hw.healthy.sound).onQuiescence hw.healthy.sound hidle cycles fallbacks
    rw [hround]
    cases hchanged : (w.store.onQuiescence cycles fallbacks).1 with
    | true =>
      rw [hchanged, if_pos rfl] at hkept
      have hfinals := hkept.2.2.finals_lt hkept.2.1
      simp only [Bool.true_or, if_true]
      omega
    | false =>
      rw [hchanged, if_neg (by simp)] at hkept
      have hstop : (w.store.onQuiescence cycles fallbacks).2.queue.halted = false := by
        simpa [hkept.1.queue] using hgo
      have hfinals := (Store.Ages.of_quiet hkept.1).finals_le
      simp only [hstop, Bool.or_false, Bool.false_eq_true, if_false]
      omega

theorem Bounded.move (h : w.Bounded waits) (hw : w.world.store.Reachable) (m : Move E V C) :
    (w.move client m).2.Bounded (waits + if m.isWait then 1 else 0) := by
  have hstore := w.move_store client m
  have hquiet : (∀ a ∈ w.acts client m, a.IsWithin) →
      (w.move client m).2.world.store.stats.quiescenceRounds =
        w.world.store.stats.quiescenceRounds := by
    intro hwithin
    rw [hstore]
    exact congrArg Prod.snd (Store.run_clock hwithin)
  have hfinals : w.world.store.finals ≤ (w.move client m).2.world.store.finals := by
    rw [hstore]
    exact (Store.run_ages hw _).finals_le
  cases m with
  | call c => exact h.mono (hquiet (by simp [acts, Act.IsWithin])) hfinals (Nat.le_add_right _ _)
  | wait cycles fallbacks =>
    refine h.mono (hquiet ?_) hfinals ?_
    · simp only [acts]
      split
      · simp
      · exact w.world.store.beginActs_within cycles fallbacks
    · simp only [Move.isWait, if_true]
      split <;> omega
  | turn =>
    cases ha : w.awaited with
    | none => simpa [Course.move, ha, Move.isWait] using h
    | some flags =>
      obtain ⟨cycles, fallbacks⟩ := flags
      cases ht : (client.worker cycles fallbacks).turn w.world with
      | mk more world =>
        have hrounds := turn_rounds hw (ht ▸ client.turns cycles fallbacks w.world)
        have hreach : world.store.Reachable := by
          have hturn := hw.turn client cycles fallbacks
          rwa [ht] at hturn
        unfold Bounded at h
        rw [ha] at h
        rw [move_turn ha ht]
        cases more with
        | true =>
          simp only [Bounded, ha, Move.isWait, Option.isSome_some, if_true] at h hrounds ⊢
          simp only [Bool.false_eq_true, if_false]
          omega
        | false =>
          have hclock : (world.store.run world.store.endActs).stats.quiescenceRounds =
              world.store.stats.quiescenceRounds :=
                congrArg Prod.snd (Store.run_clock world.store.endActs_within)
          have hlast := (Store.run_ages hreach world.store.endActs).finals_le
          simp only [Bounded, Move.isWait, Option.isSome_some, Option.isSome_none, if_true,
            Bool.false_eq_true, if_false, hclock] at h hrounds ⊢
          omega

theorem Bounded.after (h : w.Bounded waits) (hw : w.world.store.Reachable)
    (moves : List (Move E V C)) :
    (w.after client moves).Bounded (waits + moves.countP Move.isWait) := by
  induction moves generalizing w waits with
  | nil => exact h
  | cons m moves ih =>
    have hrest := ih (h.move hw m) (move_reachable client hw m)
    rwa [Nat.add_assoc, Nat.add_comm (if m.isWait = true then 1 else 0),
      ← List.countP_cons] at hrest

/-- A round of a store without waiting tasks does not fail; it reports a change if and only if a
cell became final, and otherwise the store is as it was. So there are, in every course, at most as
many rounds as final cells and waits. -/
theorem rounds_progress :
    (∀ s : Store E V C K, s.Reachable → s.inFlight = false → ∀ cycles fallbacks, ∃ changed r,
      Store.settle cycles fallbacks s = .ok changed r ∧ (changed = true ↔ s.Advances r) ∧
        (changed = false → r = s)) ∧
    ∀ (client : Client E V C K σ) (config : Config) (tracer : Tracer E V) (cores : Nat) (memory : σ)
      (moves : List (Move E V C)),
      let s := ((fresh config tracer cores memory).after client moves).world.store
      s.stats.quiescenceRounds ≤ s.finals + moves.countP Move.isWait := by
  refine ⟨fun s hs hidle => Store.settle_progress hs.healthy.sound hidle, ?_⟩
  intro client config tracer cores memory moves
  have hstart : (fresh config tracer cores memory : Course E V C K σ).Bounded 0 := Nat.zero_le _
  have hend : ((fresh config tracer cores memory).after client moves).Bounded
      (0 + moves.countP Move.isWait) :=
    hstart.after (.create config tracer cores) moves
  unfold Bounded at hend
  dsimp only
  omega

end Course

/-- The purity of each of two methods waits on that of the other one. -/
def eachOther : Client Element Fact Unit Element Unit where
  start _ e _ := do
    let other : Element := if e = .method 0 then .method 1 else .method 0
    match ← Script.ask (.query ⟨other, FactSort.purity.kind⟩) with
    | .ok status => return (.ok (.interim
        ⟨⟨e, FactSort.purity.kind⟩, ⟨0, .purity .impure⟩, ⟨1, .purity .pure⟩⟩ [status] e), ())
    | .error _ => return (.ok .nothing, ())
  resume e status _ := return (.ok (.interim
    ⟨⟨e, FactSort.purity.kind⟩, ⟨0, .purity .impure⟩, ⟨1, .purity .pure⟩⟩ [status] e), ())

def eachOtherMoves : List (Move Element Fact Unit) :=
  [.call (.registerKind ((FallbackRule.fixed (.purity .impure)).info .lower)),
    .call (.scheduleEager [.method 0, .method 1] ()), .wait true true, .turn, .turn, .turn]

def eachOtherAsleep : Course Element Fact Unit Element Unit :=
  (Course.fresh {} .none 1 ()).after eachOther eachOtherMoves

def eachOtherDone : Course Element Fact Unit Element Unit :=
  (Course.fresh {} .none 1 ()).after eachOther (eachOtherMoves ++ [Move.turn, Move.turn])

theorem eachOther_rounds_progress :
    eachOtherAsleep.world.store.Reachable ∧ eachOtherAsleep.world.store.inFlight = false ∧
    eachOtherAsleep.world.store.finals = 0 ∧
    (∃ changed r, Store.settle true true eachOtherAsleep.world.store = .ok changed r ∧
      (changed = true ↔ eachOtherAsleep.world.store.Advances r) ∧
      (changed = false → r = eachOtherAsleep.world.store)) ∧
    eachOtherDone.world.store.stats.quiescenceRounds = 2 ∧ eachOtherDone.world.store.finals = 2 ∧
    eachOtherDone.world.store.stats.quiescenceRounds ≤ eachOtherDone.world.store.finals +
      (eachOtherMoves ++ [Move.turn, Move.turn]).countP Move.isWait := by
  have hr : eachOtherAsleep.world.store.Reachable := by
    unfold eachOtherAsleep
    exact Course.fresh_reachable eachOther {} .none 1 () eachOtherMoves
  have hidle : eachOtherAsleep.world.store.inFlight = false := by decide +kernel
  have hnone : eachOtherAsleep.world.store.finals = 0 := by decide +kernel
  have htwo : eachOtherDone.world.store.stats.quiescenceRounds = 2 := by decide +kernel
  have hboth : eachOtherDone.world.store.finals = 2 := by decide +kernel
  have hmain :=
    Course.rounds_progress (E := Element) (V := Fact) (C := Unit) (K := Element) (σ := Unit)
  have hround := hmain.1 eachOtherAsleep.world.store hr hidle true true
  have hbound : eachOtherDone.world.store.stats.quiescenceRounds ≤
      eachOtherDone.world.store.finals +
        (eachOtherMoves ++ [Move.turn, Move.turn]).countP Move.isWait := by
    unfold eachOtherDone
    exact hmain.2 eachOther {} .none 1 () (eachOtherMoves ++ [Move.turn, Move.turn])
  exact ⟨hr, hidle, hnone, hround, htwo, hboth, hbound⟩

end Blackboard
