import Blackboard.Proofs.Calls
import Blackboard.Proofs.Settling
import Mathlib.Algebra.Order.Group.Multiset

/-! Where a continuation can be: asleep in the table, or carried by a task. Every change of a table
lets go of exactly what it queues and what it discards. -/
namespace Blackboard
variable {E V C K : Type}

def Task.continuation? : Task E C K → Option (Depender × K)
  | .compute _ _ => none
  | .resume d _ k => some (d, k)

def carried (tasks : List (Task E C K)) : Multiset (Depender × K) :=
  ↑(tasks.filterMap Task.continuation?)

@[simp] theorem carried_nil : carried ([] : List (Task E C K)) = 0 := rfl

@[simp] theorem carried_append (a b : List (Task E C K)) :
    carried (a ++ b) = carried a + carried b := by
  simp [carried, List.filterMap_append]

@[simp] theorem carried_resume (d : Depender) (i : Nat) (k : K) :
    carried [(.resume d i k : Task E C K)] = {(d, k)} := rfl

@[simp] theorem carried_compute {α : Type} (c : α → C) (e : α → E) (l : List α) :
    carried (l.map fun a => (.compute (c a) (e a) : Task E C K)) = 0 := by
  induction l with
  | nil => rfl
  | cons a l ih => exact ih

theorem carried_firstTasks (phase : Phase C) (t : CellTable E V K) (cell : Cell E V K) :
    carried (Store.firstTasks phase t cell) = 0 := by
  unfold Store.firstTasks
  split
  · exact carried_compute (fun c => c) (fun _ => cell.key.entity) _
  · rfl

namespace CellTable

def sleepers (t : CellTable E V K) : List (Depender × Suspension E V K) :=
  t.all.filterMap (fun c => c.suspension.map (.cell c.id, ·)) ++
    t.collaborators.filterMap fun c => c.suspension.map (.collaborator c.id, ·)

def pending (t : CellTable E V K) : Multiset (Depender × K) :=
  ↑(t.sleepers.map fun p => (p.1, p.2.continuation))

def pendingOf (t : CellTable E V K) (d : Depender) : Multiset (Depender × K) :=
  t.pending.filter (·.1 = d)

section
variable [DecidableEq E] {t u : CellTable E V K}

theorem Sound.mem_sleepers (h : t.Sound) {d : Depender} {susp : Suspension E V K} :
    (d, susp) ∈ t.sleepers ↔ t.suspension? d = some susp := by
  cases d with
  | cell i =>
    simp only [sleepers, List.mem_append, List.mem_filterMap, Option.map_eq_some_iff, Prod.mk.injEq,
      Depender.cell.injEq, reduceCtorEq, false_and, and_false, exists_false, or_false, suspension?,
      Option.bind_eq_some_iff]
    constructor
    · intro hm
      obtain ⟨c, hc, s, hs, rfl, rfl⟩ := hm
      obtain ⟨j, hj⟩ := mem_all_iff.1 hc
      exact ⟨c, h.id_eq hj ▸ hj, hs⟩
    · intro hm
      obtain ⟨c, hc, hs⟩ := hm
      exact ⟨c, mem_all_iff.2 ⟨i, hc⟩, susp, hs, h.id_eq hc, rfl⟩
  | collaborator i =>
    simp only [sleepers, List.mem_append, List.mem_filterMap, Option.map_eq_some_iff, Prod.mk.injEq,
      Depender.collaborator.injEq, reduceCtorEq, false_and, and_false, exists_false,
      false_or, suspension?, Option.bind_eq_some_iff]
    constructor
    · intro hm
      obtain ⟨c, hc, s, hs, rfl, rfl⟩ := hm
      exact ⟨c, h.apart.collaborator? hc, hs⟩
    · intro hm
      obtain ⟨c, hc, hs⟩ := hm
      have hid : c.id = i := by simpa using List.find?_some hc
      exact ⟨c, List.mem_of_find?_eq_some hc, susp, hs, hid, rfl⟩

theorem Sound.mem_pending (h : t.Sound) {x : Depender × K} :
    x ∈ t.pending ↔ ∃ susp, t.suspension? x.1 = some susp ∧ susp.continuation = x.2 := by
  obtain ⟨d, k⟩ := x
  simp only [pending, Multiset.mem_coe, List.mem_map, Prod.exists, Prod.mk.injEq]
  constructor
  · intro hm
    obtain ⟨e, susp, hs, rfl, rfl⟩ := hm
    exact ⟨susp, h.mem_sleepers.1 hs, rfl⟩
  · intro hm
    obtain ⟨susp, hs, rfl⟩ := hm
    exact ⟨d, susp, h.mem_sleepers.2 hs, rfl, rfl⟩

theorem Sound.ids_apart (h : t.Sound) : t.all.Pairwise fun a b => a.id ≠ b.id := by
  rw [List.pairwise_iff_getElem]
  intro i j hi hj hlt
  have hid : ∀ n (hn : n < t.all.length), (t.all[n]).id = n := fun n hn =>
    h.id_eq (by simp [all, cell?])
  rw [hid, hid]
  omega

theorem Sound.nodup_pending (h : t.Sound) : t.pending.Nodup := by
  have hapart : t.sleepers.Pairwise fun a b => a.1 ≠ b.1 := by
    refine List.pairwise_append.2 ⟨?_, ?_, ?_⟩
    · refine h.ids_apart.filterMap _ ?_
      intro a b hne x hx y hy
      obtain ⟨sx, -, rfl⟩ := Option.map_eq_some_iff.1 hx
      obtain ⟨sy, -, rfl⟩ := Option.map_eq_some_iff.1 hy
      simpa using hne
    · refine List.Pairwise.filterMap _ ?_ h.apart
      intro a b hne x hx y hy
      obtain ⟨sx, -, rfl⟩ := Option.map_eq_some_iff.1 hx
      obtain ⟨sy, -, rfl⟩ := Option.map_eq_some_iff.1 hy
      simpa using hne
    · intro x hx y hy
      obtain ⟨a, -, ha⟩ := List.mem_filterMap.1 hx
      obtain ⟨b, -, hb⟩ := List.mem_filterMap.1 hy
      obtain ⟨sx, -, rfl⟩ := Option.map_eq_some_iff.1 ha
      obtain ⟨sy, -, rfl⟩ := Option.map_eq_some_iff.1 hb
      simp
  rw [pending, Multiset.coe_nodup]
  refine List.Pairwise.map _ ?_ hapart
  intro a b hne heq
  exact hne (Prod.mk.inj heq).1

/-! A table in which some suspensions ended, one began, or none changed. -/

theorem Sound.pending_filter (ht : t.Sound) (hu : u.Sound) (stays : Depender → Prop)
    [DecidablePred stays] (h : ∀ d, u.suspension? d = if stays d then t.suspension? d else none) :
    u.pending = t.pending.filter fun x => stays x.1 := by
  refine (Multiset.Nodup.ext hu.nodup_pending (ht.nodup_pending.filter _)).2 fun x => ?_
  rw [Multiset.mem_filter, hu.mem_pending, ht.mem_pending, h]
  by_cases hx : stays x.1 <;> simp [hx]

theorem Sound.pending_congr (ht : t.Sound) (hu : u.Sound)
    (h : ∀ d, u.suspension? d = t.suspension? d) : u.pending = t.pending := by
  refine (Multiset.Nodup.ext hu.nodup_pending ht.nodup_pending).2 fun x => ?_
  rw [hu.mem_pending, ht.mem_pending, h]

theorem Sound.pendingOf_eq_zero (h : t.Sound) {d : Depender} (hd : t.suspension? d = none) :
    t.pendingOf d = 0 := by
  refine Multiset.filter_eq_nil.2 ?_
  intro x hx heq
  obtain ⟨susp, hs, -⟩ := h.mem_pending.1 hx
  rw [heq, hd] at hs
  cases hs

theorem Sound.pendingOf_eq (h : t.Sound) {d : Depender} {susp : Suspension E V K}
    (hd : t.suspension? d = some susp) : t.pendingOf d = {(d, susp.continuation)} := by
  refine (Multiset.Nodup.ext (h.nodup_pending.filter _) (Multiset.nodup_singleton _)).2 fun x => ?_
  rw [Multiset.mem_filter, h.mem_pending, Multiset.mem_singleton]
  constructor
  · intro hx
    obtain ⟨⟨s, hs, hk⟩, rfl⟩ := hx
    obtain rfl : s = susp := Option.some.inj (hs.symm.trans hd)
    rw [hk]
  · intro hx
    subst hx
    exact ⟨⟨susp, hd, rfl⟩, rfl⟩

theorem Sound.pending_without (ht : t.Sound) (hu : u.Sound) {d : Depender}
    (h : ∀ e, u.suspension? e = if e = d then none else t.suspension? e) :
    u.pending + t.pendingOf d = t.pending := by
  have hstays : u.pending = t.pending.filter (¬ ·.1 = d) :=
    ht.pending_filter hu (¬ · = d) fun e => by
      rw [h]
      by_cases he : e = d <;> simp [he]
  rw [hstays, add_comm]
  exact Multiset.filter_add_not _ _

theorem Sound.pending_with (ht : t.Sound) (hu : u.Sound) {d : Depender} {susp : Suspension E V K}
    (h : ∀ e, u.suspension? e = if e = d then some susp else t.suspension? e) :
    u.pending + t.pendingOf d = t.pending + {(d, susp.continuation)} := by
  have hcons : u.pending = (d, susp.continuation) ::ₘ t.pending.filter (¬ ·.1 = d) := by
    refine (Multiset.Nodup.ext hu.nodup_pending ?_).2 fun x => ?_
    · exact Multiset.nodup_cons.2 ⟨by simp, ht.nodup_pending.filter _⟩
    · obtain ⟨e, k⟩ := x
      rw [hu.mem_pending, Multiset.mem_cons, Multiset.mem_filter, ht.mem_pending, h]
      by_cases he : e = d
      · simp [he, eq_comm]
      · simp [he]
  have hsplit : t.pendingOf d + t.pending.filter (¬ ·.1 = d) = t.pending :=
    Multiset.filter_add_not _ _
  rw [hcons, Multiset.cons_add, add_comm _ (t.pendingOf d), hsplit, ← Multiset.singleton_add,
    add_comm]

/-! What wakes a depender carries its continuation. -/

theorem Sound.pending_wakeAll (h : t.Sound) (id : Nat) {ds : List Depender} (hds : ds.Nodup) :
    (t.wakeAll id ds).pending + carried (ds.filterMap (t.wakeTask? (C := C) id)) = t.pending := by
  let woken : Depender → Bool := fun d => decide (d ∈ ds) && (t.suspension? d).any (·.waitsOn id)
  have hstays : (t.wakeAll id ds).pending = t.pending.filter (¬ woken ·.1 = true) := by
    refine h.pending_filter (h.wakeAll id ds) (¬ woken · = true) fun d => ?_
    rw [suspension?_wakeAll]
    by_cases hd : d ∈ ds
    · cases hs : t.suspension? d with
      | none => simp
      | some susp => by_cases hw : susp.waitsOn id <;> simp [woken, hd, hs, hw, Option.filter_some]
    · simp [woken, hd]
  have hwakes : carried (ds.filterMap (t.wakeTask? (C := C) id)) =
      t.pending.filter (woken ·.1 = true) := by
    rw [carried, List.filterMap_filterMap]
    refine (Multiset.Nodup.ext ?_ (h.nodup_pending.filter _)).2 fun x => ?_
    · rw [Multiset.coe_nodup]
      refine hds.filterMap ?_
      intro d e x hd he
      simp only [wakeTask?, Option.mem_def, Option.bind_map, Option.bind_eq_some_iff,
        Function.comp_apply, Task.continuation?, Option.some.injEq] at hd he
      obtain ⟨_, -, hx⟩ := hd
      obtain ⟨_, -, hx'⟩ := he
      exact (Prod.mk.inj (hx.trans hx'.symm)).1
    · obtain ⟨d, k⟩ := x
      simp only [Multiset.mem_coe, List.mem_filterMap, wakeTask?, Option.bind_map,
        Option.bind_eq_some_iff, Option.filter_eq_some_iff, Function.comp_apply,
        Task.continuation?, Option.some.injEq, Prod.mk.injEq, Multiset.mem_filter, h.mem_pending,
        woken, Bool.and_eq_true, decide_eq_true_eq]
      constructor
      · intro hx
        obtain ⟨e, he, susp, ⟨hs, hw⟩, rfl, rfl⟩ := hx
        exact ⟨⟨susp, hs, rfl⟩, he, by simp [hs, hw]⟩
      · intro hx
        obtain ⟨⟨susp, hs, rfl⟩, hd, hw⟩ := hx
        exact ⟨d, hd, susp, ⟨hs, by simpa [hs] using hw⟩, rfl, rfl⟩
  rw [hstays, hwakes, add_comm]
  exact Multiset.filter_add_not _ _

theorem Sound.pending_mark (h : t.Sound) (id : Nat) : (t.mark id).pending = t.pending :=
  h.pending_congr (h.mark id) fun _ => suspension?_mark _ _ _

/-- A status that is not final ends no suspension but by waking it; a final one also discards that
of its own cell. -/
theorem Sound.pending_settleIn (h : t.Sound) {c : Cell E V K} {new : Status E V}
    (hc : t.cell? c.id = some c) (hfit : c.Fits new) :
    (t.settleIn c.id new).pending + (if new.isFinal then t.pendingOf (.cell c.id) else 0) =
      t.pending := by
  have hsound := h.settleIn hc hfit
  by_cases hf : new.isFinal
  · rw [if_pos hf]
    refine h.pending_without hsound fun e => ?_
    rw [CellTable.settleIn, if_pos hf, suspension?_put, suspension?_release]
  · rw [if_neg hf, add_zero]
    refine h.pending_congr hsound fun e => ?_
    rw [CellTable.settleIn, if_neg hf, suspension?_put]

theorem Sound.pending_install (h : t.Sound) (phase : Phase C) {c : Cell E V K} {new : Status E V}
    (hc : t.cell? c.id = some c) (hfit : c.Fits new) :
    (t.install c new).pending + carried (t.installTasks phase c new) +
      (if new.isFinal then t.pendingOf (.cell c.id) else 0) = t.pending := by
  have hin := h.settleIn hc hfit
  have hwake := hin.pending_wakeAll (C := C) c.id (DependerSet.nodup_members c.dependers)
  have hmark : (t.install c new).pending =
      ((t.settleIn c.id new).wakeAll c.id c.dependers.members).pending := by
    unfold CellTable.install
    split
    · exact (hin.wakeAll _ _).pending_mark _
    · rfl
  have htasks : carried (t.installTasks phase c new) =
      carried (c.dependers.members.filterMap ((t.settleIn c.id new).wakeTask? (C := C) c.id)) := by
    unfold installTasks
    split <;> simp [carried_firstTasks]
  rw [hmark, htasks, hwake]
  exact h.pending_settleIn hc hfit

theorem Sound.pending_fallAsleep [DecidableEq V] (h : t.Sound) (phase : Phase C) {c : Cell E V K}
    {ep : Interim E V} {susp : Suspension E V K} (hc : t.cell? c.id = some c)
    (hfit : c.Fits (.interim ep)) (hne : susp.dependees ≠ []) (hlt : ∀ j ∈ susp.ids, j < t.size) :
    (t.fallAsleep c ep susp).pending + carried (t.fallAsleepTasks phase c ep susp) +
      t.pendingOf (.cell c.id) = t.pending + {(.cell c.id, susp.continuation)} := by
  unfold CellTable.fallAsleep fallAsleepTasks
  by_cases hch : (c.replace (.interim ep)).1.changed
  · have hin := h.put_suspend hc hfit hne hlt
    have hwake := hin.pending_wakeAll (C := C) c.id (DependerSet.nodup_members c.dependers)
    simp only [if_pos hch]
    have hslept : ((t.put c.id (.interim ep)).modify c.id (·.suspend susp)).pending +
        t.pendingOf (.cell c.id) = t.pending + {(.cell c.id, susp.continuation)} := by
      have hcell := cell?_put t c.id c.id (.interim ep)
      rw [hc, Option.map_some] at hcell
      refine h.pending_with hin fun e => ?_
      rw [suspension?_modify_suspend hcell, suspension?_put]
    rw [← hslept, ← hwake]
    split
    · rw [(hin.wakeAll _ _).pending_mark, carried_append, carried_firstTasks, add_zero]
    · rw [carried_append, carried_nil, add_zero]
  · rw [if_neg hch, if_neg hch, carried_nil, add_zero]
    obtain ⟨old, hold⟩ := interim_of_unchanged (by simpa using hch)
    exact h.pending_with (h.suspend hc hold hne hlt) fun e => suspension?_modify_suspend hc susp e

theorem Sound.pending_enlist (h : t.Sound) {susp : Suspension E V K} (hu : (t.enlist susp).Sound) :
    (t.enlist susp).pending = t.pending +
      {(.collaborator t.nextCollaborator, susp.continuation)} := by
  have hfresh : t.suspension? (.collaborator t.nextCollaborator) = none := by
    cases hs : t.suspension? (.collaborator t.nextCollaborator) with
    | none => rfl
    | some s =>
      obtain ⟨c, hc, -⟩ := Option.bind_eq_some_iff.1 hs
      have hid : c.id = t.nextCollaborator := by simpa using List.find?_some hc
      have hlt := (h.numbered c (List.mem_of_find?_eq_some hc)).1
      omega
  have hwith := h.pending_with hu (h.suspension?_enlist susp)
  rwa [h.pendingOf_eq_zero hfresh, add_zero] at hwith

theorem Sound.pending_announce (h : t.Sound) (batch : List (Cell E V K × Final E V)) :
    (t.announce batch).pending + carried (t.announceTasks (C := C) batch) = t.pending := by
  induction batch generalizing t with
  | nil => exact add_zero _
  | cons p rest ih =>
    have hwake := h.pending_wakeAll (C := C) p.1.id (DependerSet.nodup_members p.1.dependers)
    have hrest := ih (h.wakeAll p.1.id p.1.dependers.members)
    rw [announceTasks, carried_append, add_comm (carried _), ← add_assoc]
    exact (congrArg (· + _) hrest).trans hwake

theorem Sound.pending_resolve (h : t.Sound) {group : List Depender}
    {batch : List (Cell E V K × Final E V)} (hb : (t.releaseAll group).Batch batch) :
    (t.resolve group batch).pending +
        carried (((t.releaseAll group).putAll batch).announceTasks (C := C) batch) +
      t.pending.filter (·.1 ∈ group) = t.pending := by
  have hput := (h.releaseAll group).putAll hb
  have hstays : ((t.releaseAll group).putAll batch).pending = t.pending.filter (¬ ·.1 ∈ group) := by
    refine h.pending_filter hput (¬ · ∈ group) fun d => ?_
    rw [suspension?_putAll, suspension?_releaseAll]
    by_cases hd : d ∈ group <;> simp [hd]
  have hannounce := hput.pending_announce (C := C) batch
  change (((t.releaseAll group).putAll batch).announce batch).pending + _ + _ = _
  rw [hannounce, hstays, add_comm]
  exact Multiset.filter_add_not _ _

end
end CellTable

namespace Store

/-- The continuations a store holds: those that sleep and those that are queued. -/
def held (s : Store E V C K) : Multiset (Depender × K) := s.table.pending + carried s.queue.waiting

theorem Becomes.held {s r : Store E V C K} {t : CellTable E V K} {ts : List (Task E C K)}
    (h : s.Becomes t ts r) (hopen : s.queue.closed = false) :
    r.held = t.pending + carried ts + carried s.queue.waiting := by
  rw [Store.held, h.table, h.queue, Queue.waiting_enqueue hopen, carried_append, add_assoc,
    add_comm (carried ts)]

variable [DecidableEq E] {s q r : Store E V C K}

theorem Steady.pending (h : s.Steady r) (hs : s.Sound) : r.table.pending = s.table.pending :=
  hs.table.pending_congr h.sound.table h.grown.suspension?

theorem Steady.held (h : s.Steady r) (hs : s.Sound) (hopen : s.queue.closed = false) :
    r.held = s.held := by
  obtain ⟨tasks, hq⟩ := h.queue
  simp [Store.held, h.pending hs, hq, Queue.waiting_enqueue hopen]

theorem Resolves.held {group : List Depender} {batch : List (Cell E V K × Final E V)}
    (h : s.Resolves group batch r) (hs : s.Sound) (hopen : s.queue.closed = false) :
    r.held + s.table.pending.filter (·.1 ∈ group) = s.held := by
  have hpaid := hs.table.pending_resolve (C := C) h.fit
  rw [h.becomes.held hopen, Store.held, add_right_comm, hpaid]

variable [DecidableEq V]

theorem Takes.held {c : Cell E V K} {new : Status E V} (h : s.Takes c new r) (hs : s.Sound)
    (hopen : s.queue.closed = false) (hc : s.table.cell? c.id = some c) (hfit : c.Fits new) :
    r.held + (if new.isFinal then s.table.pendingOf (.cell c.id) else 0) = s.held := by
  unfold Takes at h
  split at h
  · have hpaid := hs.table.pending_install s.phase hc hfit
    rw [h.held hopen, Store.held, add_right_comm, hpaid]
  · next hch =>
    obtain ⟨-, hf, -⟩ := Cell.replace_of_unchanged (by simpa using hch)
    rw [hf, h.held hopen, Store.held]
    simp

theorem Registered.held {d : Depender} {epoch : Nat} {obs : List (Nat × Status E V)}
    (h : s.Registered d epoch obs r) (hs : s.Sound) (hopen : s.queue.closed = false) :
    r.held = s.held := by
  have hwatch : ∀ ps, (s.table.watch d ps).pending = s.table.pending := fun ps =>
    hs.table.pending_congr (hs.table.watch d ps) fun _ => CellTable.suspension?_watch _ _ _ _
  cases h with
  | asleep h hr => rw [hr.held hopen, hwatch, carried_nil, add_zero, Store.held]
  | stopped pre post p c hobs hpre hc hp hr =>
    split at hr
    · next susp hsusp =>
      obtain ⟨hd, -⟩ := Option.filter_eq_some_iff.1 hsusp
      have hsound := hs.table.watch d pre
      have hgone := hsound.pending_without (hsound.detach d susp) fun e =>
        CellTable.suspension?_detach _ d e susp
      have hown : (s.table.watch d pre).suspension? d = some susp := by
        rw [CellTable.suspension?_watch, hd]
      rw [hsound.pendingOf_eq hown, hwatch] at hgone
      rw [hr.held hopen, carried_resume, hgone, Store.held]
    · rw [hr.held hopen, hwatch, carried_nil, add_zero, Store.held]

end Store
end Blackboard
