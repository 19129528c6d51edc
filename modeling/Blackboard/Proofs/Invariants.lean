import Blackboard.Proofs.History
import Blackboard.Analysis.Fact

/-! What holds of every reachable store, and that no update is lost: whoever sleeps does so only
while all it was computed from is still current. -/
namespace Blackboard.Store
variable {E V C K : Type} [DecidableEq E] [DecidableEq V] {s r : Store E V C K}

/-- A halted queue is one that was closed or saw a fault, and without a fault all links are in
place. -/
structure Healthy (s : Store E V C K) : Prop where
  sound : s.Sound
  flags : s.queue.halted = (s.fault.isSome || s.queue.closed)
  linked : s.fault = none → s.table.Linked

theorem Healthy.create (config : Config) (tracer : Tracer E V) (cores : Nat) :
    (create config tracer cores : Store E V C K).Healthy := by
  refine ⟨⟨CellTable.Sound.empty, ?_⟩, rfl, fun _ => CellTable.Linked.empty⟩
  intro i c hc
  have hnone : (CellTable.empty : CellTable E V K).cell? i = some c := hc
  simp [CellTable.empty, CellTable.cell?] at hnone

namespace Healthy

theorem congr (h : s.Healthy) (ht : r.table = s.table) (hk : r.schema = s.schema)
    (hf : r.fault = s.fault) (hh : r.queue.halted = s.queue.halted)
    (hc : r.queue.closed = s.queue.closed) : r.Healthy :=
  ⟨h.sound.congr ht hk, by rw [hh, hf, hc, h.flags], fun hnone => ht ▸ h.linked (hf ▸ hnone)⟩

theorem next (h : s.Healthy) (hsound : r.Sound) (hf : r.fault = s.fault)
    (hh : r.queue.halted = s.queue.halted) (hc : r.queue.closed = s.queue.closed)
    (hl : s.table.Linked → r.table.Linked) : r.Healthy :=
  ⟨hsound, by rw [hh, hf, hc, h.flags], fun hnone => hl (h.linked (hf ▸ hnone))⟩

theorem of_leaves (h : s.Healthy) (hr : s.Leaves r) (hl : s.table.Linked → r.table.Linked) :
    r.Healthy := by
  obtain ⟨⟨t, ts, hb⟩, hsound⟩ := hr
  exact h.next hsound hb.fault hb.halted hb.closed hl

theorem of_steady (h : s.Healthy) (hr : s.Steady r) : r.Healthy := by
  obtain ⟨tasks, hq⟩ := hr.queue
  refine h.next hr.sound hr.fault (by rw [hq, Queue.halted_enqueue])
    (by rw [hq, Queue.closed_enqueue]) ?_
  exact fun hl => hl.grown hr.grown

theorem fail (hs : s.Sound) (e : Error) : (s.fail e).Healthy := by
  have htable : (s.fail e).table = s.table := by simp [Store.fail, notify]
  have hschema : (s.fail e).schema = s.schema := by simp [Store.fail, notify]
  have hfault : (s.fail e).fault.isSome = true := by
    simp only [Store.fail]
    cases h : (((s.notify (.fault e)).trace (.fault e)).fault) <;> rfl
  refine ⟨hs.congr htable hschema, ?_, ?_⟩
  · rw [hfault]
    rfl
  · intro hnone
    simp [hnone] at hfault

end Healthy

theorem Makes.linked {pass : Pass} {st : Settlement E V C K} (h : s.Makes pass st)
    (hs : st.before.Sound) (hl : st.before.table.Linked) : st.after.table.Linked := by
  cases h with
  | cell _ _ hc _ hfit _ hr => exact hr.linked hs hl hc hfit
  | group _ _ _ hr => exact hr.becomes.table ▸ hl.resolve hs.table hr.fit

theorem kept_linked (hl : s.table.Linked) : s.Kept (·.table.Linked) (·.table.Linked) where
  start := hl
  weaken h := h
  quiet_before h hr := hr.table ▸ h
  quiet h hr := hr.table ▸ h
  step h hset _ hst := hst.linked hset.sound h

variable [Property V] [ToString E]

theorem Healthy.of_served {given : Option (Final E V)} {asked : Option (Key E)} (h : s.Healthy)
    (hr : s.Served given asked r) : r.Healthy := by
  cases hr with
  | steady hr => exact h.of_steady hr
  | settled q c ep hq hc hkey hfit hcheck hr why =>
    exact (h.of_steady hq).of_leaves (hr.leaves hq.sound hc hfit)
      fun hl => hr.linked hq.sound hl hc hfit

variable [ToString V]

theorem perform_ends (hs : s.Sound) (a : Action E V C K) :
    Ends (perform a) s (fun _ r => s.Leaves r ∧ (s.table.Linked → r.table.Linked))
      (s.Leaves ·) := by
  cases a with
  | install ep =>
    refine .unbroken ((installFinal_ends hs ep).mono ?_ fun _ h => h.leaves)
    rintro _ r ⟨q, c, hgrows, hc, -, hfit, -, htakes⟩
    exact ⟨hgrows.leaves.trans (htakes.leaves hgrows.sound hc hfit),
      fun hl => htakes.linked hgrows.sound (hl.grown hgrows.grown) hc hfit⟩
  | contribute p =>
    refine (contribute_ends hs p).mono ?_ fun _ h => h.leaves
    rintro _ r ⟨q, c, hgrows, hc, -, hquiet | ⟨ep, hfit, -, htakes⟩⟩
    · exact ⟨hgrows.leaves.trans ⟨⟨_, _, hquiet⟩,
        hgrows.sound.of_becomes hquiet hgrows.sound.table fun _ => rfl⟩,
        fun hl => hquiet.table ▸ hl.grown hgrows.grown⟩
    · exact ⟨hgrows.leaves.trans (htakes.leaves hgrows.sound hc hfit),
        fun hl => htakes.linked hgrows.sound (hl.grown hgrows.grown) hc hfit⟩
  | suspend ep dependees k =>
    refine .unbroken ((suspend_ends hs ep dependees k).mono ?_ ?_)
    · rintro _ r ⟨q, c, n, obs, q', h, hreg⟩
      refine ⟨h.leaves.trans (hreg.retains h.sound).toLeaves, fun hl => ?_⟩
      exact hreg.linked_of_fallAsleep h.grows.sound (hl.grown h.grows.grown) h.cell h.fits
        h.observed h.becomes h.sound
    · rintro r (hgrows | ⟨q, c, n, obs, q', pre, h, -, hr⟩)
      · exact hgrows.leaves
      · exact h.leaves.trans (watch_retains h.sound hr).toLeaves
  | collaborate dependees k =>
    refine .unbroken ((collaborate_ends hs dependees k).mono ?_ fun _ h => h.toLeaves)
    rintro _ r ⟨q, n, obs, q', hgrows, hobs, hadd, hsound, hreg⟩
    refine ⟨(hgrows.leaves.trans ⟨⟨_, _, hadd⟩, hsound⟩).trans (hreg.retains hsound).toLeaves, ?_⟩
    intro hl
    refine hreg.linked hsound.table
      (hadd.table ▸ (hl.grown hgrows.grown).enlist hgrows.sound.table _) ?_
    intro susp hsusp
    rw [hadd.table, hgrows.sound.table.suspension?_enlist, if_pos rfl] at hsusp
    rw [← Option.some.inj hsusp]
    exact ⟨rfl, rfl⟩
  | schedule c e =>
    have hr := schedule_becomes "incremental" s c e
    exact .unbroken (.write ⟨⟨⟨_, _, hr⟩, hs.of_becomes hr hs.table fun _ => rfl⟩,
      fun hl => hr.table ▸ hl⟩)

theorem Healthy.act (h : s.Healthy) (a : Act E V C K) : (s.act a).Healthy := by
  cases a with
  | call c =>
    rcases serve_cases h.sound c with ⟨rfl, hr⟩ | hr
    · change (s.serve _).2.Healthy
      rw [hr]
      exact ⟨h.sound.congr rfl rfl, by simp [shutdown, notify, Queue.close], h.linked⟩
    · exact h.of_served hr
  | start =>
    simp only [Store.act]
    split
    · exact h
    · split
      · exact h
      · exact h.congr rfl rfl rfl rfl rfl
  | perform a =>
    have hends := perform_ends h.sound a
    simp only [Store.act]
    cases hr : perform a s with
    | ok u r => exact h.of_leaves (hends.of_ok hr).1 (hends.of_ok hr).2
    | error e r => exact .fail (hends.of_error hr).sound e
  | crash c => exact .fail h.sound _
  | round cycles fallbacks =>
    simp only [Store.act]
    split
    · exact h
    · next hguard =>
      simp only [Bool.or_eq_true, not_or, Bool.not_eq_true] at hguard
      have hflags := h.flags
      rw [hguard.1] at hflags
      have hnone : s.fault = none := by
        cases hf : s.fault <;> simp [hf] at hflags ⊢
      have hround := (kept_linked (h.linked hnone)).onQuiescence h.sound hguard.2 cycles fallbacks
      split at hround
      · obtain ⟨⟨⟨t, ts, hb⟩, hsound, -, -⟩, hl⟩ := hround
        exact h.next hsound hb.fault hb.halted hb.closed fun _ => hl
      · obtain ⟨hb, -⟩ := hround
        exact h.next (h.sound.of_becomes hb h.sound.table fun _ => rfl) hb.fault hb.halted hb.closed
          fun hl => hb.table ▸ hl
  | drop =>
    simp only [Store.act]
    split
    · exact h.congr rfl rfl rfl rfl rfl
    · exact h
  | tell n => exact h.congr rfl rfl rfl rfl rfl

theorem Reachable.healthy (h : s.Reachable) : s.Healthy := by
  induction h with
  | create config tracer cores => exact .create config tracer cores
  | act _ a ih => exact ih.act a

/-- In every reachable store without a fault, whoever sleeps is told by each cell it observed, none
of them is final, and each is still in the state that was observed. -/
theorem asleep_only_while_current (h : s.Reachable) (hfault : s.fault = none) {d : Depender}
    {susp : Suspension E V K} (hd : s.table.suspension? d = some susp) {id : Nat}
    {observed : Status E V} (hobs : (id, observed) ∈ susp.dependees) :
    ∃ c, s.cell? id = some c ∧ d ∈ c.dependers.members ∧ c.status.isFinal = false ∧
      c.status.sameState observed = true := by
  obtain ⟨⟨c, hc, hmem⟩, e, he, hsame, hfinal⟩ :=
    h.healthy.linked hfault d susp hd (id, observed) hobs
  obtain rfl : c = e := Option.some.inj (hc.symm.trans he)
  exact ⟨c, hc, DependerSet.mem_members hmem (h.healthy.sound.table.depender_lt hd), hfinal, hsame⟩

def twoMethods : Store Element Fact Unit Nat :=
  let purity := FactSort.purity.kind
  (create {} .none 1).run
    [.call (.registerKind ((FallbackRule.fixed (.purity .impure)).info .lower)),
      .perform (.suspend ⟨⟨.method 0, purity⟩, ⟨0, .purity .impure⟩, ⟨1, .purity .pure⟩⟩
        [.unknown ⟨.method 1, purity⟩] 7)]

theorem twoMethods_asleep_only_while_current :
    twoMethods.Reachable ∧ twoMethods.fault = none ∧
    twoMethods.table.suspension? (.cell 1) =
      some ⟨0, 7, [(0, .unknown ⟨.method 1, FactSort.purity.kind⟩)]⟩ ∧
    ∃ c, twoMethods.cell? 0 = some c ∧ .cell 1 ∈ c.dependers.members ∧ c.status.isFinal = false ∧
      c.status.sameState (.unknown ⟨.method 1, FactSort.purity.kind⟩) = true :=
  have hr : twoMethods.Reachable := (Reachable.create {} .none 1).run _
  have hd : twoMethods.table.suspension? (.cell 1) =
      some ⟨0, 7, [(0, .unknown ⟨.method 1, FactSort.purity.kind⟩)]⟩ := rfl
  ⟨hr, rfl, hd, asleep_only_while_current hr rfl hd List.mem_cons_self⟩

end Blackboard.Store
