import Blackboard.Proofs.Delayed

/-! What is settled first. A round goes on only as long as it wakes nobody, and it turns to cells
that nobody waits on only when all that still sleeps waits, over others, for a later phase. -/
namespace Blackboard
variable {E V C K : Type}

namespace CellTable
variable {t : CellTable E V K} {id : Nat}

theorem wakeAll_eq_self {ds : List Depender} (h : ds.filterMap (t.wakeTask? (C := C) id) = []) :
    t.wakeAll id ds = t := by
  induction ds with
  | nil => rfl
  | cons d ds ih =>
    obtain ⟨hd, hds⟩ := List.forall_mem_cons.1 (List.filterMap_eq_nil_iff.1 h)
    have hwake : t.wake id d = t := by
      unfold wake
      rw [Option.map_eq_none_iff.1 hd]
    change (t.wake id d).wakeAll id ds = t
    rw [hwake]
    exact ih (List.filterMap_eq_nil_iff.2 hds)

theorem release_eq_self {d : Depender} (h : t.suspension? d = none) : t.release d = t := by
  unfold release
  rw [h]

theorem cell?_install_of_quiet {phase : Phase C} {c : Cell E V K} {new : Status E V}
    (hc : t.cell? c.id = some c) (hawake : c.suspension = none)
    (h : t.installTasks phase c new = []) {i : Nat} (hi : i ≠ c.id) :
    (t.install c new).cell? i = t.cell? i := by
  have hnone : t.suspension? (.cell c.id) = none := by simp [suspension?, hc, hawake]
  have hin : t.settleIn c.id new = t.put c.id new := by
    rw [settleIn, release_eq_self hnone, ite_self]
  have hwake := wakeAll_eq_self (List.append_eq_nil_iff.1 h).1
  have hput : (t.put c.id new).cell? i = t.cell? i := by
    rw [cell?_put]
    simp [Ne.symm hi]
  unfold install
  rw [hwake, hin]
  split
  · rw [mark, cell?_modify, if_neg (Ne.symm hi), hput]
  · exact hput

theorem suspension?_install_of_quiet {phase : Phase C} {c : Cell E V K} {new : Status E V}
    (hc : t.cell? c.id = some c) (hawake : c.suspension = none)
    (h : t.installTasks phase c new = []) (d : Depender) :
    (t.install c new).suspension? d = t.suspension? d := by
  have hslumber := slumber_install t phase hc hawake new d
  rw [h] at hslumber
  exact hslumber.eq_of_not_woken

end CellTable

namespace Store
variable {s q r : Store E V C K} {pass : Pass} {log : List (Settlement E V C K)}

theorem awaits_iff {i j : Nat} :
    s.Awaits i j ↔ ∃ susp, s.table.suspension? (.cell i) = some susp ∧ j ∈ susp.ids := by
  constructor
  · rintro ⟨c, susp, hc, hsusp, hj⟩
    have hcell : s.table.cell? i = some c := hc
    exact ⟨susp, by simp [CellTable.suspension?, hcell, hsusp], hj⟩
  · rintro ⟨susp, hd, hj⟩
    obtain ⟨c, hc, hsusp⟩ := Option.bind_eq_some_iff.1 hd
    exact ⟨c, susp, hc, hsusp, hj⟩

/-- A pass over the cells of `s` in which nobody was woken so far: all that changed is that some
candidates are final. -/
structure Undisturbed (s : Store E V C K) (pass : Pass) (q : Store E V C K) : Prop where
  phase : q.phase = s.phase
  closed : q.queue.closed = false
  asleep : ∀ d, q.table.suspension? d = s.table.suspension? d
  cell : ∀ i, q.table.cell? i = s.table.cell? i ∨
    q.isFinalAt i = true ∧ ∃ cell ∈ s.candidates pass, cell.id = i

theorem Undisturbed.quiet (h : s.Undisturbed pass q) (hr : q.Becomes q.table [] r) :
    s.Undisturbed pass r where
  phase := hr.phase.trans h.phase
  closed := hr.closed.trans h.closed
  asleep d := hr.table ▸ h.asleep d
  cell i := by
    rw [isFinalAt_congr (congrArg (CellTable.face? · i) hr.table), hr.table]
    exact h.cell i

theorem Undisturbed.take [DecidableEq V] (h : s.Undisturbed pass q) {cell c : Cell E V K}
    {ep : Final E V} (hcell : cell ∈ s.candidates pass) (hid : c.id = cell.id)
    (hc : q.table.cell? c.id = some c) (hawake : c.suspension = none) (hr : q.Takes c (.final ep) r)
    (hidle : r.inFlight = false) : s.Undisturbed pass r := by
  have hbecomes := takes_final.1 hr
  have htasks : q.table.installTasks q.phase c (.final ep) = [] := by
    have hwaiting := inFlight_eq_false_iff.1 hidle
    rw [hbecomes.queue, Queue.waiting_enqueue h.closed] at hwaiting
    exact (List.append_eq_nil_iff.1 hwaiting).2
  refine ⟨hbecomes.phase.trans h.phase, hbecomes.closed.trans h.closed, ?_, ?_⟩
  · intro d
    rw [hbecomes.table, CellTable.suspension?_install_of_quiet hc hawake htasks]
    exact h.asleep d
  · intro i
    by_cases hi : i = c.id
    · exact .inr ⟨by simp [hr.isFinalAt hc, hi], cell, hcell, by rw [hi, hid]⟩
    · rw [hbecomes.table, CellTable.cell?_install_of_quiet hc hawake htasks hi, hr.isFinalAt hc]
      simpa [hi] using h.cell i

theorem passes_before {pre post : List Pass} (h : passes true true = pre ++ pass :: post)
    (hpass : pass = .fallbacks false ∨ pass = .interims false) :
    .fallbacks true ∈ pre ∧ .groups ∈ pre ∧ .interims true ∈ pre := by
  rcases pre with _ | ⟨a, _ | ⟨b, _ | ⟨c, pre⟩⟩⟩ <;> rcases hpass with
    rfl | rfl <;> simp_all [passes]

variable [DecidableEq E]

theorem Undisturbed.awaitsDelayed (h : s.Undisturbed pass q) (hs : s.Sound) {d : Depender}
    (hd : s.AwaitsDelayed d) : q.AwaitsDelayed d := by
  obtain ⟨susp, hsusp, j, hj, e, he, hpath, hopen, hdelayed⟩ := hd
  obtain ⟨hcell, -⟩ := Seen.current hs he
  have hsame : q.table.cell? e.id = some e := by
    rcases h.cell e.id with heq | ⟨-, cell, hcand, hid⟩
    · exact heq.trans hcell
    · obtain ⟨hmem, hkind⟩ := candidate_mem hcand
      obtain ⟨hcell', -⟩ := Seen.current hs hmem
      obtain rfl : cell = e := Option.some.inj (hcell'.symm.trans (hid ▸ hcell))
      simp [hkind] at hdelayed
  have hawaits : q.Awaits = s.Awaits := by
    funext i j
    simp only [awaits_iff, h.asleep]
  exact ⟨susp, (h.asleep d).trans hsusp, j, hj, e, CellTable.mem_all_iff.2 ⟨e.id, hsame⟩,
    hawaits ▸ hpath, hopen, h.phase ▸ hdelayed⟩

variable [DecidableEq V]

theorem Proceeds.undisturbed (h : s.Proceeds pass s log r) (hs : s.Sound)
    (hopen : s.queue.closed = false) (hidle : s.inFlight = false) (hpass : pass ≠ .groups) :
    ∀ st ∈ log, s.Undisturbed pass st.before := by
  have hbefore := h.idle hidle
  have hquiet : ∀ {q r}, (q.inFlight = false → s.Undisturbed pass q) → q.Becomes q.table [] r →
      r.inFlight = false → s.Undisturbed pass r :=
    fun hq hr hidle => (hq ((inFlight_of_quiet hr).symm.trans hidle)).quiet hr
  have hstep : ∀ st ∈ log, s.Makes pass st → s.Settles st.before →
      (st.before.inFlight = false → s.Undisturbed pass st.before) →
      st.after.inFlight = false → s.Undisturbed pass st.after := by
    intro st hst hmakes hset hq hidle'
    have hund := hq (hbefore st hst)
    cases hmakes with
    | cell hcell hid hc hawake _ _ hr => exact hund.take hcell hid hc hawake hr hidle'
    | group hgroups => exact absurd hgroups hpass
  obtain ⟨-, -, hall⟩ :=
    h.keeps (P := fun q => q.inFlight = false → s.Undisturbed pass q) (.refl hs)
      (fun _ => ⟨rfl, hopen, fun _ => rfl, fun _ => .inl rfl⟩) hquiet hstep
  exact fun st hst => (hall st hst).2 (hbefore st hst)

theorem Proceeds.recorded (h : s.Proceeds pass q log r) {i : Nat} (hq : q.isFinalAt i = false)
    (hr : r.isFinalAt i = true) : ∃ st ∈ log, st.before.isFinalAt i = false ∧
      st.after.isFinalAt i = true := by
  have hsame : ∀ {a b : Store E V C K}, a.Becomes a.table [] b → b.isFinalAt i = a.isFinalAt i :=
    fun hb => isFinalAt_congr (congrArg (CellTable.face? · i) hb.table)
  induction h with
  | done hquiet => simp [hsame hquiet, hq] at hr
  | last hquiet => exact ⟨_, List.mem_cons_self, (hsame hquiet).trans hq, hr⟩
  | @next q r st log hquiet hst hidle hrest ih =>
    by_cases hst' : st.after.isFinalAt i = true
    · exact ⟨st, List.mem_cons_self, (hsame hquiet).trans hq, hst'⟩
    · obtain ⟨st', hmem, hst'⟩ := ih (by simpa using hst') hr
      exact ⟨st', List.mem_cons_of_mem _ hmem, hst'⟩

/-- Once nothing that is waited on is left to settle, whoever sleeps waits, over others, for a
delayed cell. -/
theorem awaitsDelayed_of_exhausted (hs : s.Sound) (hl : s.table.Linked)
    (hfallbacks : s.Exhausted (.fallbacks true)) (hgroups : s.Exhausted .groups)
    (hinterims : s.Exhausted (.interims true)) {d : Depender} {susp : Suspension E V K}
    (hd : s.table.suspension? d = some susp) : s.AwaitsDelayed d := by
  have hawake : ∀ c ∈ s.cells, c.status.isFinal = false → c.suspension = none →
      c.hasDependers = true →
      s.phase.isDelayed c.key.kind = true := by
    intro c hc hopen hnone htold
    by_contra hkind
    have hmem : c ∈ s.settleable true := htold ▸ mem_settleable hc (by simpa using hkind)
    cases hst : c.status with
    | unknown k => exact hfallbacks c (List.mem_filter.2 ⟨hmem, by simp [hst, Status.isUnknown]⟩)
    | interim ep => exact hinterims c (List.mem_filter.2 ⟨hmem, by simp [hnone]⟩) ep hst
    | final ep => simp [hst, Status.isFinal] at hopen
  obtain ⟨p, hp⟩ := List.exists_mem_of_ne_nil _ (hs.table.awaits hd).1
  have hj : p.1 ∈ susp.ids := List.mem_map_of_mem hp
  exact ⟨susp, hd, p.1, hj, dependee_awaits_delayed hs hl hgroups hawake hd hj⟩

/-- When a pass settles a cell that nobody waits on, all that sleeps at that moment waits, over
others, for a delayed cell. -/
theorem Proceeds.unwaited {pre post : List Pass} (h : s.Proceeds pass s log r) (hs : s.Sound)
    (hl : s.table.Linked) (hopen : s.queue.closed = false) (hidle : s.inFlight = false)
    (hpasses : passes true true = pre ++ pass :: post) (hpre : ∀ p ∈ pre, s.Exhausted p)
    {st : Settlement E V C K} (hst : st ∈ log) {cell : Cell E V K}
    (htarget : st.target = .cell cell) {i : Nat} {c : Cell E V K} (hc : st.before.cell? i = some c)
    (hfinal : c.status.isFinal = false) (hset : st.after.isFinalAt i = true)
    (hnone : c.hasDependers = false) {d : Depender} {susp : Suspension E V K}
    (hd : st.before.table.suspension? d = some susp) : st.before.AwaitsDelayed d := by
  have hmakes := h.makes st hst
  cases hmakes with
  | group => simp at htarget
  | @cell before after cell' c' ep hcand hid hc' hawake hfit hep hr =>
    obtain ⟨waitedOn, hpass, hmem⟩ := mem_settleable_of_candidate hcand
    have hund := h.undisturbed hs hopen hidle (by rcases hpass with rfl | rfl <;> simp) _ hst
    -- the cell that became final is the candidate, still as it was when the pass began
    have hbefore : before.isFinalAt i = false := by
      simp [isFinalAt, show before.cell? i = some c from hc, hfinal]
    have hi : i = c'.id := by simpa [hr.isFinalAt hc', hbefore] using hset
    obtain rfl : cell' = c := by
      obtain ⟨hcur, -⟩ := Seen.current hs (candidate_mem hcand).1
      rcases hund.cell i with heq | ⟨hnot, -⟩
      · exact Option.some.inj (hcur.symm.trans (hid ▸ hi ▸ heq.symm.trans hc))
      · exact absurd hnot (by simp [hbefore])
    have hw : waitedOn = false := by
      have hfilter := (List.mem_filter.1 hmem).2
      simp only [hnone, Bool.and_eq_true, beq_iff_eq] at hfilter
      exact hfilter.2.symm
    obtain ⟨hfallbacks, hgroups, hinterims⟩ := passes_before hpasses (hw ▸ hpass)
    exact hund.awaitsDelayed hs (awaitsDelayed_of_exhausted hs hl (hpre _ hfallbacks)
      (hpre _ hgroups) (hpre _ hinterims) ((hund.asleep d).symm.trans hd))

variable [Property V] [ToString E] [ToString V]

theorem settle_of_settlements {cycles fallbacks : Bool}
    (h : settlements cycles fallbacks s = .ok log r) :
    settle cycles fallbacks s = .ok (!log.isEmpty) r := by
  rw [settle_eq_settlements]
  exact map_ok h _

/-- A round ends with the first settlement that queues a task. If it has all passes, it settles a
cell that nobody waits on only when no task is queued and all that still sleeps waits, over others,
for an open cell of a delayed kind. Here `q` is `s` once the round is counted. -/
theorem unwaited_settled_last (h : s.Reachable) (hfault : s.fault = none)
    (hopen : s.isShutdown = false) (hidle : s.inFlight = false) (hq : s.Becomes s.table [] q)
    (cycles fallbacks : Bool) :
    ∃ log r, settlements cycles fallbacks q = .ok log r ∧
      settle cycles fallbacks q = .ok (!log.isEmpty) r ∧
      (∀ i, q.isFinalAt i = false → r.isFinalAt i = true →
        ∃ st ∈ log, st.before.isFinalAt i = false ∧ st.after.isFinalAt i = true) ∧
      (∀ pre st post, log = pre ++ st :: post → st.after.queue.waiting ≠ st.before.queue.waiting →
        post = [] ∧ r = st.after) ∧
      (cycles = true → fallbacks = true → ∀ st ∈ log, ∀ cell, st.target = .cell cell → ∀ i c,
        st.before.cell? i = some c → c.status.isFinal = false → st.after.isFinalAt i = true →
        c.hasDependers = false →
        st.before.queue.waiting = [] ∧
          ∀ d susp, st.before.table.suspension? d = some susp → st.before.AwaitsDelayed d) := by
  have hs : q.Sound := (Settles.of_quiet h.healthy.sound hq).sound
  have hl : q.table.Linked := hq.table ▸ h.healthy.linked hfault
  have hopen' : q.queue.closed = false := hq.closed.trans hopen
  have hidle' : q.inFlight = false := (inFlight_of_quiet hq).trans hidle
  obtain ⟨log, r, hr, hround⟩ := (logPasses_ends hs (passes cycles fallbacks)).exists_ok
  refine ⟨log, r, hr, settle_of_settlements hr, ?_⟩
  rcases hround with ⟨rfl, rfl, -⟩ | ⟨-, pre, pass, post, hpasses, hpre, hproceeds⟩
  · exact ⟨fun i hnot hfinal => by simp [hnot] at hfinal, by simp, by simp⟩
  · have hbefore := hproceeds.idle hidle'
    refine ⟨fun i => hproceeds.recorded, ?_, ?_⟩
    · intro pre st post hlog hqueued
      refine hproceeds.stops hlog ?_
      by_contra hbusy
      have hnone := inFlight_eq_false_iff.1 (hbefore st (by simp [hlog]))
      exact hqueued ((inFlight_eq_false_iff.1 (by simpa using hbusy)).trans hnone.symm)
    · rintro rfl rfl st hst cell htarget i c hc hfinal hset hnone
      exact ⟨inFlight_eq_false_iff.1 (hbefore st hst), fun d susp hd =>
        hproceeds.unwaited hs hl hopen' hidle' hpasses hpre hst htarget hc hfinal hset hnone hd⟩

def spareMethod : Store Element Fact Unit Nat :=
  (create {} .none 1).run
    [.call (.registerKind ((FallbackRule.fixed (.purity .impure)).info .lower)),
      .call (.registerKind ((FallbackRule.fixed (.callers ∅)).info .lower)),
      .call (.setupPhase [FactSort.purity.kind] [FactSort.callers.kind]),
      .perform (.suspend ⟨⟨.method 0, FactSort.purity.kind⟩, ⟨0, .purity .impure⟩,
        ⟨1, .purity .pure⟩⟩ [.unknown ⟨.method 1, FactSort.callers.kind⟩] 7),
      .call (.query ⟨.method 2, FactSort.purity.kind⟩)]

theorem spareMethod_unwaited_settled_last :
    spareMethod.Reachable ∧ spareMethod.fault = none ∧ spareMethod.isShutdown = false ∧
    spareMethod.inFlight = false ∧ (spareMethod.table.suspension? (.cell 1)).isSome = true ∧
    ∃ log r, settlements true true spareMethod = .ok log r ∧
      settle true true spareMethod = .ok (!log.isEmpty) r ∧
      (∀ i, spareMethod.isFinalAt i = false → r.isFinalAt i = true →
        ∃ st ∈ log, st.before.isFinalAt i = false ∧ st.after.isFinalAt i = true) ∧
      (∀ pre st post, log = pre ++ st :: post → st.after.queue.waiting ≠ st.before.queue.waiting →
        post = [] ∧ r = st.after) ∧
      (true = true → true = true → ∀ st ∈ log, ∀ cell, st.target = .cell cell → ∀ i c,
        st.before.cell? i = some c → c.status.isFinal = false → st.after.isFinalAt i = true →
        c.hasDependers = false →
        st.before.queue.waiting = [] ∧
          ∀ d susp, st.before.table.suspension? d = some susp → st.before.AwaitsDelayed d) :=
  have hr : spareMethod.Reachable := (Reachable.create {} .none 1).run _
  have hfault : spareMethod.fault = none := Option.isNone_iff_eq_none.1 (by decide +kernel)
  have hopen : spareMethod.isShutdown = false := by decide +kernel
  have hidle : spareMethod.inFlight = false := by decide +kernel
  ⟨hr, hfault, hopen, hidle, by decide +kernel,
    unwaited_settled_last hr hfault hopen hidle (.refl _) true true⟩

end Store
end Blackboard
