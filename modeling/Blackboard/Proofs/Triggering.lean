import Blackboard.Proofs.Effects

/-! Triggered computations fire exactly once. A computation that is registered for a kind and a cell
of that kind come together as soon as the computation is registered and the cell has a value,
whichever of the two happens later. That is when the computation is scheduled for the cell, and it
is never scheduled otherwise. -/
namespace Blackboard

namespace Phase
variable {C : Type}

def numberedFor (p : Phase C) (kind : Kind) : List ((Kind × C) × Nat) :=
  p.triggered.zipIdx.filter fun x => x.1.1.same kind

theorem mem_numberedFor {p : Phase C} {kind : Kind} {x : (Kind × C) × Nat} :
    x ∈ p.numberedFor kind ↔ p.triggered[x.2]? = some x.1 ∧ x.1.1.same kind = true := by
  rw [numberedFor, List.mem_filter, List.mem_zipIdx_iff_getElem?]

theorem nodup_numberedFor (p : Phase C) (kind : Kind) :
    ((p.numberedFor kind).map Prod.snd).Nodup := by
  refine List.Nodup.sublist (List.filter_sublist.map _) ?_
  rw [List.zipIdx_map_snd]
  exact List.nodup_range'

theorem map_numberedFor (p : Phase C) (kind : Kind) :
    (p.numberedFor kind).map (fun x => x.1.2) = p.triggeredBy kind := by
  have hfst : (p.numberedFor kind).map Prod.fst = p.triggered.filter (·.1.same kind) := by
    conv_rhs => rw [← List.zipIdx_map_fst 0 p.triggered, List.filter_map]
    rfl
  rw [triggeredBy, ← hfst, List.map_map]
  rfl

theorem triggered_of_registerLazy {p q : Phase C} {kind : Kind} {c : C}
    (h : p.registerLazy kind c = .ok q) : q.triggered = p.triggered := by
  unfold registerLazy at h
  split at h
  · cases h
  · cases h
    rfl

end Phase

namespace CellTable
variable {E V K : Type} {t u : CellTable E V K} {j : Nat}

def valued? (t : CellTable E V K) (j : Nat) : Option (Key E) :=
  (t.cell? j).bind fun c => if c.status.hasValue then some c.key else none

theorem valued?_eq (t : CellTable E V K) (j : Nat) :
    t.valued? j = (t.face? j).bind fun f => if f.2.2.hasValue then some f.2.1 else none := by
  rw [valued?, face?]
  cases t.cell? j <;> rfl

theorem valued?_of_face? (h : u.face? j = t.face? j) : u.valued? j = t.valued? j := by
  rw [valued?_eq, valued?_eq, h]

theorem valued?_of_cell? {c : Cell E V K} (h : t.cell? j = some c) :
    t.valued? j = if c.status.hasValue then some c.key else none := by
  simp [valued?, h]

theorem valued?_of_cells (h : u.cells = t.cells) : u.valued? j = t.valued? j := by
  simp only [valued?, cell?, h]

theorem Grown.valued? (h : t.Grown u) (j : Nat) : u.valued? j = t.valued? j := by
  by_cases hj : j < t.size
  · rw [CellTable.valued?, h.old hj, CellTable.valued?]
  · have hnone : t.cell? j = none := Array.getElem?_eq_none (Nat.not_lt.1 hj)
    cases hu : u.cell? j with
    | none => rw [CellTable.valued?, hu, CellTable.valued?, hnone]
    | some c =>
      obtain ⟨key, rfl⟩ := h.new (Nat.not_lt.1 hj) hu
      rw [CellTable.valued?, hu, CellTable.valued?, hnone]
      rfl

theorem valued?_of_taken {c : Cell E V K} {new : Status E V} (hnew : new.isUnknown = false)
    (h : u.face? j = if j = c.id then some (c.id, c.key, new) else t.face? j) :
    u.valued? j = if j = c.id then some c.key else t.valued? j := by
  rw [valued?_eq, h, valued?_eq]
  split
  · simp [Status.hasValue, hnew]
  · rfl

/-! Waking resumes computations and starts none. -/

theorem computations_wakeTasks {C : Type} (t : CellTable E V K) (id : Nat) (ds : List Depender) :
    (ds.filterMap (t.wakeTask? (C := C) id)).filterMap Task.computation? = [] := by
  refine List.filterMap_eq_nil_iff.2 fun task htask => ?_
  obtain ⟨d, -, hd⟩ := List.mem_filterMap.1 htask
  obtain ⟨susp, -, rfl⟩ := Option.map_eq_some_iff.1 hd
  rfl

theorem computations_announceTasks {C : Type} (t : CellTable E V K)
    (batch : List (Cell E V K × Final E V)) :
    (t.announceTasks (C := C) batch).filterMap Task.computation? = [] := by
  induction batch generalizing t with
  | nil => rfl
  | cons p rest ih =>
    rw [announceTasks, List.filterMap_append, computations_wakeTasks, ih, List.append_nil]

end CellTable

namespace Store
variable {E V C K : Type} {s q r : Store E V C K}

/-- A triggered computation and a cell, both by their numbers, have come together: the cell is of
the kind that the computation is registered for, and has a value. -/
def joined (s : Store E V C K) (p : Nat × Nat) : Bool :=
  s.phase.triggered[p.1]?.any fun reg => (s.table.valued? p.2).any fun key => reg.1.same key.kind

def label? (s : Store E V C K) (p : Nat × Nat) : Option (C × E) :=
  s.phase.triggered[p.1]?.bind fun reg => (s.table.valued? p.2).map fun key => (reg.2, key.entity)

theorem joined_iff {p : Nat × Nat} : s.joined p = true ↔
    ∃ reg key, s.phase.triggered[p.1]? = some reg ∧ s.table.valued? p.2 = some key ∧
      reg.1.same key.kind = true := by
  simp only [joined, Option.any_eq_true]
  constructor
  · rintro ⟨reg, hreg, key, hkey, hkind⟩
    exact ⟨reg, key, hreg, hkey, hkind⟩
  · rintro ⟨reg, key, hreg, hkey, hkind⟩
    exact ⟨reg, hreg, key, hkey, hkind⟩

/-- Between two stores these tasks were queued, and the computations among them are those that came
together with a cell, one for each time. -/
structure Fires (s : Store E V C K) (tasks : List (Task E C K)) (pairs : List (Nat × Nat))
    (r : Store E V C K) : Prop where
  closed : r.queue.closed = s.queue.closed
  waiting : r.queue.waiting = (s.queue.enqueue tasks).waiting
  labels : ∀ {p x}, s.label? p = some x → r.label? p = some x
  scheduled : pairs.map r.label? = (tasks.filterMap Task.computation?).map some
  joined : ∀ p, pairs.count p + (s.joined p).toNat = (r.joined p).toNat

theorem Fires.trans {first second : List (Task E C K)} {before after : List (Nat × Nat)}
    (h : s.Fires first before q) (h' : q.Fires second after r) :
    s.Fires (first ++ second) (before ++ after) r where
  closed := h'.closed.trans h.closed
  waiting := by
    rw [h'.waiting, ← Queue.enqueue_enqueue]
    exact Queue.waiting_enqueue_congr h.waiting (h.closed.trans (Queue.closed_enqueue _ _).symm) _
  labels hx := h'.labels (h.labels hx)
  scheduled := by
    have hbefore : before.map r.label? = before.map q.label? := by
      refine List.map_congr_left fun p hp => ?_
      have hlabel := List.mem_map_of_mem (f := q.label?) hp
      rw [h.scheduled] at hlabel
      obtain ⟨x, -, hx⟩ := List.mem_map.1 hlabel
      rw [← hx]
      exact h'.labels hx.symm
    rw [List.map_append, List.filterMap_append, List.map_append, hbefore, h.scheduled, h'.scheduled]
  joined p := by
    have hq := h.joined p
    have hr := h'.joined p
    rw [List.count_append]
    omega

theorem count_of_new {pairs : List (Nat × Nat)} (hnodup : pairs.Nodup)
    (hnew : ∀ p ∈ pairs, s.joined p = false)
    (hmet : ∀ p, r.joined p = true ↔ s.joined p = true ∨ p ∈ pairs) (p : Nat × Nat) :
    pairs.count p + (s.joined p).toNat = (r.joined p).toNat := by
  rw [hnodup.count]
  split
  · next hp => simp [hnew p hp, (hmet p).2 (.inr hp)]
  · next hp =>
    have hsame : r.joined p = s.joined p := by
      rw [Bool.eq_iff_iff, hmet]
      exact or_iff_left hp
    rw [hsame, Nat.zero_add]

theorem firstTasks_of_yields {phase : Phase C} {t u : CellTable E V K} {c : Cell E V K}
    {new : Status E V} {ds : List Depender} (hc : t.cell? c.id = some c) (hu : t.Yields c new u)
    (hk : ∀ i, u.key? i = t.key? i) (hfirst : c.triggered = false) :
    firstTasks phase (u.wakeAll c.id ds) c =
      (phase.triggeredBy c.key.kind).map (.compute · c.key.entity) := by
  have hcell : ∃ e, (u.wakeAll c.id ds).cell? c.id = some e := by
    refine CellTable.cell?_of_lt ?_
    rw [CellTable.size_eq_of_key? fun i =>
      (CellTable.key?_of_face? (CellTable.face?_wakeAll u c.id ds i)).trans (hk i)]
    exact CellTable.lt_size_of_cell? hc
  obtain ⟨e, he⟩ := hcell
  obtain ⟨b, hb, hbe⟩ := CellTable.Eases.wakeAll u c.id ds c.id e he
  have hyield := hu c.id b hb
  rw [if_pos rfl] at hyield
  rw [firstTasks, he, if_pos (by simp [hbe.triggered, hyield.2.1, hfirst])]

def Triggers (s r : Store E V C K) : Prop := ∃ tasks pairs, s.Fires tasks pairs r

namespace Triggers

theorem trans (h : s.Triggers q) (h' : q.Triggers r) : s.Triggers r := by
  obtain ⟨first, before, hq⟩ := h
  obtain ⟨second, after, hr⟩ := h'
  exact ⟨first ++ second, before ++ after, hq.trans hr⟩

theorem of_valued {t : CellTable E V K} {tasks : List (Task E C K)} (h : s.Becomes t tasks r)
    (htasks : tasks.filterMap Task.computation? = []) (ht : ∀ j, t.valued? j = s.table.valued? j) :
    s.Triggers r := by
  refine ⟨tasks, [], h.closed, by rw [h.queue], fun {p x} hx => ?_, by rw [htasks]; rfl,
    fun p => ?_⟩
  · rwa [label?, h.phase, h.table, ht]
  · rw [joined, joined, h.phase, h.table, ht, List.count_nil, Nat.zero_add]

theorem of_quiet (h : s.Becomes s.table [] r) : s.Triggers r := of_valued h rfl fun _ => rfl

theorem refl (s : Store E V C K) : s.Triggers s := of_quiet (.refl s)

theorem fail (s : Store E V C K) (e : Error) : s.Triggers (s.fail e) := by
  have htold : s.Becomes s.table [] ((s.notify (.fault e)).trace (.fault e)) :=
    (notify_becomes s (.fault e)).then_quiet (trace_becomes _ _)
  refine (of_quiet htold).trans ?_
  unfold Store.fail
  dsimp only
  generalize (s.notify (.fault e)).trace (.fault e) = q
  exact ⟨[], [], rfl, by simp [Queue.halt], fun h => h, rfl, fun p => by simp [Store.joined]⟩

/-- A cell gets its first value: it comes together with every computation registered for its
kind. -/
theorem of_first {t : CellTable E V K} {tasks : List (Task E C K)} {c : Cell E V K}
    (h : s.Becomes t tasks r) (htasks : tasks.filterMap Task.computation? =
      (s.phase.triggeredBy c.key.kind).map fun comp => (comp, c.key.entity))
    (hold : s.table.valued? c.id = none)
    (ht : ∀ j, t.valued? j = if j = c.id then some c.key else s.table.valued? j) :
    s.Triggers r := by
  have hvalued (j : Nat) : r.table.valued? j =
      if j = c.id then some c.key else s.table.valued? j := by
    rw [h.table, ht]
  have hnodup : ((s.phase.numberedFor c.key.kind).map fun x => (x.2, c.id)).Nodup := by
    have hpairs := (s.phase.nodup_numberedFor c.key.kind).map (f := fun i => (i, c.id)) fun i j h =>
      congrArg Prod.fst h
    rwa [List.map_map] at hpairs
  refine ⟨tasks, (s.phase.numberedFor c.key.kind).map fun x => (x.2, c.id),
    h.closed, by rw [h.queue],
    fun {p x} hx => ?_, ?_, count_of_new hnodup (fun p hp => ?_) fun p => ?_⟩
  · rw [label?, h.phase, hvalued]
    split
    · next hp => simp [label?, hp, hold] at hx
    · exact hx
  · rw [htasks, ← Phase.map_numberedFor, List.map_map, List.map_map, List.map_map]
    refine List.map_congr_left fun x hx => ?_
    simp [label?, h.phase, (Phase.mem_numberedFor.1 hx).1, hvalued]
  · obtain ⟨x, -, rfl⟩ := List.mem_map.1 hp
    simp [joined, hold]
  · rw [joined_iff, joined_iff, h.phase, hvalued]
    constructor
    · rintro ⟨reg, key, hreg, hkey, hkind⟩
      split at hkey
      · next hp =>
        obtain rfl := Option.some.inj hkey
        exact .inr (List.mem_map.2 ⟨(reg, p.1),
          Phase.mem_numberedFor.2 ⟨hreg, hkind⟩, by rw [← hp]⟩)
      · exact .inl ⟨reg, key, hreg, hkey, hkind⟩
    · rintro (⟨reg, key, hreg, hkey, hkind⟩ | hp)
      · have hother : p.2 ≠ c.id := fun hp => by simp [hp, hold] at hkey
        exact ⟨reg, key, hreg, by rw [if_neg hother, hkey], hkind⟩
      · obtain ⟨x, hx, rfl⟩ := List.mem_map.1 hp
        obtain ⟨hreg, hkind⟩ := Phase.mem_numberedFor.1 hx
        exact ⟨x.1, c.key, hreg, if_pos rfl, hkind⟩

/-- A computation is registered: it comes together with every cell of its kind that has a value. -/
theorem of_registered [DecidableEq E] (hs : s.Sound) (htidy : s.table.Tidy) {kind : Kind} {c : C}
    (h : (s.inPhase (s.phase.registerTriggered kind c)).Becomes s.table
      ((s.dueFor kind (·.triggered) c).map fun p => .compute p.1 p.2) r) : s.Triggers r := by
  have htriggered : r.phase.triggered = s.phase.triggered ++ [(kind, c)] :=
    congrArg Phase.triggered h.phase
  have hreg {i : Nat} {reg : Kind × C} : r.phase.triggered[i]? = some reg ↔
      s.phase.triggered[i]? = some reg ∨ i = s.phase.triggered.length ∧ reg = (kind, c) := by
    rw [htriggered]
    rcases Nat.lt_trichotomy i s.phase.triggered.length with hi | hi | hi
    · rw [List.getElem?_append_left hi]
      simp [Nat.ne_of_lt hi]
    · simp [hi, eq_comm]
    · rw [List.getElem?_eq_none (by rw [List.length_append]; exact hi),
        List.getElem?_eq_none (Nat.le_of_lt hi)]
      simp [Nat.ne_of_gt hi]
  have hcell {cell : Cell E V K}
      (hmem : cell ∈ s.cells.filter fun cell => cell.key.kind.same kind && cell.triggered) :
      s.table.valued? cell.id = some cell.key ∧ kind.same cell.key.kind = true := by
    obtain ⟨hcell, hdue⟩ := List.mem_filter.1 hmem
    obtain ⟨hkind, hmarked⟩ := Bool.and_eq_true_iff.1 hdue
    obtain ⟨i, hi⟩ := CellTable.mem_all_iff.1 hcell
    obtain rfl := hs.table.id_eq hi
    rw [CellTable.valued?_of_cell? hi, if_pos ((htidy _ cell hi).marked ▸ hmarked)]
    exact ⟨rfl, Kind.same_iff.2 (Kind.same_iff.1 hkind).symm⟩
  have hnodup : ((s.cells.filter fun cell => cell.key.kind.same kind && cell.triggered).map
      fun cell => (s.phase.triggered.length, cell.id)).Nodup := by
    have hids : ((s.cells.filter fun cell => cell.key.kind.same kind && cell.triggered).map
        (·.id)).Nodup := by
      refine List.Nodup.sublist (List.filter_sublist.map _) ?_
      rw [hs.numbered_cells]
      exact List.nodup_range
    have hpairs := hids.map (f := fun j => (s.phase.triggered.length, j)) fun i j h =>
      congrArg Prod.snd h
    rwa [List.map_map] at hpairs
  refine ⟨_, _, h.closed, by rw [h.queue]; rfl, fun {p x} hx => ?_, ?_,
    count_of_new hnodup (fun p hp => ?_) fun p => ?_⟩
  · obtain ⟨reg, hold, hlabel⟩ := Option.bind_eq_some_iff.1 hx
    exact Option.bind_eq_some_iff.2 ⟨reg, hreg.2 (.inl hold), by rwa [h.table]⟩
  · rw [Task.computations_compute, dueFor, List.map_map, List.map_map]
    refine List.map_congr_left fun cell hmem => ?_
    simp [label?, htriggered, h.table, (hcell hmem).1]
  · obtain ⟨cell, -, rfl⟩ := List.mem_map.1 hp
    simp [joined]
  · rw [joined_iff, joined_iff, h.table]
    constructor
    · rintro ⟨reg, key, hr, hkey, hkind⟩
      rcases hreg.1 hr with hold | ⟨hp, rfl⟩
      · exact .inl ⟨reg, key, hold, hkey, hkind⟩
      · obtain ⟨cell, hi, hvalue⟩ := Option.bind_eq_some_iff.1 hkey
        split at hvalue
        · next hv =>
          obtain rfl := Option.some.inj hvalue
          have hdue : (cell.key.kind.same kind && cell.triggered) = true := by
            rw [(htidy _ cell hi).marked, hv, Bool.and_true]
            exact Kind.same_iff.2 (Kind.same_iff.1 hkind).symm
          refine .inr (List.mem_map.2 ⟨cell,
            List.mem_filter.2 ⟨CellTable.mem_all_iff.2 ⟨_, hi⟩, hdue⟩, ?_⟩)
          rw [← hp, hs.table.id_eq hi]
        · cases hvalue
    · rintro (⟨reg, key, hold, hkey, hkind⟩ | hp)
      · exact ⟨reg, key, hreg.2 (.inl hold), hkey, hkind⟩
      · obtain ⟨cell, hmem, rfl⟩ := List.mem_map.1 hp
        exact ⟨(kind, c), cell.key, hreg.2 (.inr ⟨rfl, rfl⟩), (hcell hmem).1, (hcell hmem).2⟩

theorem of_yields {t u : CellTable E V K} {c : Cell E V K} {new : Status E V}
    {waking : List (Task E C K)} {ds : List Depender} (htidy : s.table.Tidy)
    (hc : s.table.cell? c.id = some c) (hnew : new.isUnknown = false) (hu : s.table.Yields c new u)
    (hk : ∀ i, u.key? i = s.table.key? i)
    (hface : ∀ j, t.face? j = if j = c.id then some (c.id, c.key, new) else s.table.face? j)
    (hwaking : waking.filterMap Task.computation? = [])
    (h : s.Becomes t
      (waking ++ if c.status.isUnknown then firstTasks s.phase (u.wakeAll c.id ds) c else []) r) :
    s.Triggers r := by
  have hvalued (j : Nat) := CellTable.valued?_of_taken hnew (hface j)
  have hmarked := (htidy _ c hc).marked
  cases hunknown : c.status.isUnknown with
  | true =>
    rw [hunknown, if_pos rfl] at h
    refine of_first h ?_ ?_ hvalued
    · rw [List.filterMap_append, hwaking, firstTasks_of_yields hc hu hk]
      · rw [List.nil_append]
        simpa using Task.computations_compute
          ((s.phase.triggeredBy c.key.kind).map fun comp => (comp, c.key.entity))
      · simp [hmarked, Status.hasValue, hunknown]
    · simp [CellTable.valued?_of_cell? hc, Status.hasValue, hunknown]
  | false =>
    rw [hunknown, if_neg Bool.false_ne_true, List.append_nil] at h
    refine of_valued h hwaking fun j => ?_
    rw [hvalued]
    split
    · next hj => simp [hj, CellTable.valued?_of_cell? hc, Status.hasValue, hunknown]
    · rfl

end Triggers

theorem Registered.triggers {d : Depender} {epoch : Nat} {obs : List (Nat × Status E V)}
    [DecidableEq V] (h : s.Registered d epoch obs r) : s.Triggers r := by
  have hvalued (j : Nat) : r.table.valued? j = s.table.valued? j :=
    CellTable.valued?_of_face? (h.face? j)
  cases h with
  | asleep _ hr => exact .of_valued hr rfl (hr.table ▸ hvalued)
  | stopped pre post p c _ _ _ _ hr =>
    split at hr
    · exact .of_valued hr rfl (hr.table ▸ hvalued)
    · exact .of_valued hr rfl (hr.table ▸ hvalued)

theorem joined_congr (hphase : r.phase.triggered = s.phase.triggered)
    (htable : ∀ j, r.table.valued? j = s.table.valued? j) : r.joined = s.joined := by
  funext p
  rw [joined, joined, hphase, htable]

variable [DecidableEq E]

theorem Resolves.triggers {group : List Depender} {batch : List (Cell E V K × Final E V)}
    (h : s.Resolves group batch r) : s.Triggers r := by
  refine .of_valued h.becomes (CellTable.computations_announceTasks _ batch) fun j => ?_
  by_cases hj : ∃ p ∈ batch, p.1.id = j
  · obtain ⟨p, hp, rfl⟩ := hj
    obtain ⟨-, iep, -, -, hst, -⟩ := h.members p hp
    rw [CellTable.valued?_eq, CellTable.face?_resolve_self h.fit hp, CellTable.valued?_eq,
      h.shown hp]
    simp [Cell.face, hst, Status.hasValue, Status.isUnknown]
  · push Not at hj
    exact CellTable.valued?_of_face? (CellTable.face?_resolve_of_ne hj)

theorem Grows.triggers (h : s.Grows r) : s.Triggers r := .of_valued h.becomes rfl h.grown.valued?

variable [DecidableEq V]

theorem Takes.triggers {c : Cell E V K} {new : Status E V} (h : s.Takes c new r)
    (htidy : s.table.Tidy) (hc : s.table.cell? c.id = some c) (hfit : c.Fits new) :
    s.Triggers r := by
  unfold Takes at h
  split at h
  · refine .of_yields htidy hc hfit.value (u := s.table.settleIn c.id new) ?_
      (fun i => CellTable.key?_settleIn s.table c.id i new) (CellTable.face?_install hc new)
      (CellTable.computations_wakeTasks _ _ _) h
    rw [CellTable.settleIn]
    split
    · exact CellTable.yields_put hc (.release _ _)
    · exact CellTable.yields_put hc (.refl _)
  · exact .of_quiet h

theorem Makes.triggers {pass : Pass} {st : Settlement E V C K} (h : s.Makes pass st)
    (htidy : st.before.table.Tidy) : st.before.Triggers st.after := by
  cases h with
  | cell _ _ hc _ hfit _ hr => exact hr.triggers htidy hc hfit
  | group _ _ _ hr => exact hr.triggers

theorem kept_triggers (htidy : s.table.Tidy) :
    s.Kept (fun q => s.Ages q ∧ s.Triggers q) (fun q => s.Ages q ∧ s.Triggers q) where
  start := ⟨.of_quiet (.refl s), .refl s⟩
  weaken h := h
  quiet_before h hr := ⟨h.1.trans (.of_quiet hr), h.2.trans (.of_quiet hr)⟩
  quiet h hr := ⟨h.1.trans (.of_quiet hr), h.2.trans (.of_quiet hr)⟩
  step h _ _ hst := ⟨h.1.trans hst.ages, h.2.trans (hst.triggers (h.1.tidy htidy))⟩

variable [Property V] [ToString E]

theorem FallsAsleep.triggers {ep : Interim E V} {dependees : List (Status E V)} {k : K}
    {c : Cell E V K} {n : Nat} {obs : List (Nat × Status E V)}
    (h : s.FallsAsleep ep dependees k q c n obs r) (htidy : s.table.Tidy) :
    s.Triggers r := by
  refine h.grows.triggers.trans ?_
  have htidy' := htidy.grown h.grows.grown
  have hr := h.becomes
  have hface := CellTable.face?_fallAsleep h.cell ep ⟨n, k, obs⟩
  simp only [CellTable.fallAsleep, CellTable.fallAsleepTasks] at hr hface
  cases hch : (c.replace (.interim ep)).1.changed with
  | true =>
    simp only [Cell.replace_of_changed hch, if_true] at hr hface
    refine .of_yields htidy' h.cell rfl ((CellTable.yields_put h.cell (.refl _)).suspend _) ?_ hface
      (CellTable.computations_wakeTasks _ _ _) hr
    exact fun i => (CellTable.key?_suspend _ _ _ _).trans (CellTable.key?_put _ _ _ _)
  | false =>
    simp only [Cell.replace_of_unchanged hch] at hr hface
    refine .of_valued hr rfl fun j => CellTable.valued?_of_face? ((hface j).trans ?_)
    split
    · next hj => rw [hj, CellTable.face?_of_cell? h.cell, Cell.face]
    · rfl

variable [ToString V]

theorem perform_triggers (hs : s.Sound) (htidy : s.table.Tidy) {a : Action E V C K}
    (ha : ∀ c e, a ≠ .schedule c e) :
    Ends (perform a) s (fun _ r => s.Triggers r) (s.Triggers ·) := by
  have hgrow {q : Store E V C K} (h : s.Grows q) : s.Triggers q ∧ q.table.Tidy :=
    ⟨h.triggers, htidy.grown h.grown⟩
  cases a with
  | install ep =>
    refine .unbroken ((installFinal_ends hs ep).mono ?_ fun _ h => (hgrow h).1)
    rintro _ r ⟨q, c, hq, hc, -, hfit, -, hr⟩
    exact (hgrow hq).1.trans (hr.triggers (hgrow hq).2 hc hfit)
  | contribute p =>
    refine (contribute_ends hs p).mono ?_ fun _ h => (hgrow h).1
    rintro _ r ⟨q, c, hq, hc, -, hquiet | ⟨ep, hfit, -, hr⟩⟩
    · exact (hgrow hq).1.trans (.of_quiet hquiet)
    · exact (hgrow hq).1.trans (hr.triggers (hgrow hq).2 hc hfit)
  | suspend ep dependees k =>
    refine .unbroken ((suspend_ends hs ep dependees k).mono ?_ ?_)
    · rintro _ r ⟨q, c, n, obs, q', h, hr⟩
      exact (h.triggers htidy).trans hr.triggers
    · rintro r (h | ⟨q, c, n, obs, q', pre, h, -, hr⟩)
      · exact (hgrow h).1
      · exact (h.triggers htidy).trans (.of_valued hr rfl fun j =>
          CellTable.valued?_of_face? (CellTable.face?_watch _ _ _ _))
  | collaborate dependees k =>
    refine .unbroken ((collaborate_ends hs dependees k).mono ?_ ?_)
    · rintro _ r ⟨q, n, obs, q', hq, -, henlist, -, hr⟩
      exact ((hgrow hq).1.trans (.of_valued henlist rfl fun _ => rfl)).trans hr.triggers
    · intro r h
      obtain ⟨q, id, pre, hq, -, hcells⟩ := h.watched
      refine .of_valued h.silent rfl fun j => ?_
      calc r.table.valued? j
        _ = (q.table.watch (.collaborator id) pre).valued? j := CellTable.valued?_of_cells hcells
        _ = q.table.valued? j := CellTable.valued?_of_face? (CellTable.face?_watch _ _ _ _)
        _ = s.table.valued? j := hq.grown.valued? j
  | schedule c e => exact absurd rfl (ha c e)

/-! Acts. -/

/-- Why an act schedules what it schedules as triggered: for each computation there is a
registration and a cell that come together by the act. -/
structure Explains (s : Store E V C K) (a : Act E V C K) (pairs : List (Nat × Nat)) : Prop where
  scheduled : pairs.map (s.act a).label? = (s.scheduledAs "triggered" a).map some
  new : ∀ p ∈ pairs, s.joined p = false ∧ (s.act a).joined p = true

def Explained (s : Store E V C K) (a : Act E V C K) : Prop :=
  ∃ pairs, s.Explains a pairs ∧ ∀ p, pairs.count p + (s.joined p).toNat = ((s.act a).joined p).toNat

theorem Triggers.explained {a : Act E V C K} (h : s.Triggers (s.act a))
    (hopen : s.queue.closed = false) (horigin : s.originOf a = "triggered") : s.Explained a := by
  obtain ⟨tasks, pairs, h⟩ := h
  refine ⟨pairs, ⟨?_, fun p hp => ?_⟩, h.joined⟩
  · rw [h.scheduled, scheduledAs_eq, if_pos horigin, scheduled, h.waiting,
      Queue.waiting_enqueue hopen, List.drop_left]
  · have hcount := h.joined p
    have hpos := List.count_pos_iff.2 hp
    cases hold : s.joined p <;> cases hnew : (s.act a).joined p <;> simp_all

theorem explained_of_joined {a : Act E V C K} (hscheduled : s.scheduledAs "triggered" a = [])
    (hjoined : (s.act a).joined = s.joined) : s.Explained a :=
  ⟨[], ⟨by rw [hscheduled]; rfl, by simp⟩, fun p => by rw [hjoined, List.count_nil, Nat.zero_add]⟩

theorem scheduledAs_of_origin {origin : String} {a : Act E V C K} (h : s.originOf a ≠ origin) :
    s.scheduledAs origin a = [] := by
  rw [scheduledAs_eq, if_neg h]

theorem scheduledAs_of_shrunk {origin : String} {a : Act E V C K}
    (h : (s.act a).queue.waiting.length ≤ s.queue.waiting.length) :
    s.scheduledAs origin a = [] := by
  rw [scheduledAs_eq, scheduled, List.drop_eq_nil_of_le h, List.filterMap_nil, ite_self]

theorem explained_of_shrunk {a : Act E V C K}
    (hqueue : (s.act a).queue.waiting.length ≤ s.queue.waiting.length)
    (hphase : (s.act a).phase = s.phase) (htable : (s.act a).table = s.table) : s.Explained a := by
  refine explained_of_joined (scheduledAs_of_shrunk hqueue) (joined_congr ?_ fun j => ?_)
  · rw [hphase]
  · rw [htable]

theorem explained_of_same {a : Act E V C K} (hqueue : (s.act a).queue = s.queue)
    (hphase : (s.act a).phase = s.phase) (htable : (s.act a).table = s.table) : s.Explained a :=
  explained_of_shrunk (by rw [hqueue]) hphase htable

theorem Asked.explained {key : Key E} {a : Act E V C K} (htidy : s.table.Tidy)
    (hq : s.Becomes s.table [] q) (h : q.Asked key (s.act a)) (hopen : s.queue.closed = false)
    (horigin : s.originOf a = if s.phase.provides key.kind then "lazy" else "triggered") :
    s.Explained a := by
  cases h with
  | found _ hr =>
    exact explained_of_same (by rw [hr, hq.queue, Queue.enqueue_nil]) (hr ▸ hq.phase)
      (hr ▸ hq.table)
  | provided _ _ hprovides hr =>
    rw [hq.phase] at hprovides
    refine explained_of_joined (scheduledAs_of_origin ?_) (joined_congr ?_ fun j => ?_)
    · rw [horigin, if_pos hprovides]
      decide
    · rw [hr.phase, hq.phase]
    · rw [hr.table, (CellTable.Grown.grow q.table key).valued?, hq.table]
  | fellBack hprovides _ _ hmade =>
    rw [hq.phase] at hprovides
    obtain ⟨q', c, ep, hgrows, hc, -, hfit, hr⟩ := hmade
    have htidy' : q'.table.Tidy := (hq.table.symm ▸ htidy : q.table.Tidy).grown hgrows.grown
    refine (((Triggers.of_quiet hq).trans hgrows.triggers).trans
      (hr.triggers htidy' hc hfit)).explained hopen ?_
    rw [horigin, if_neg (by simp [hprovides])]

theorem serve_explained (h : s.Reachable) (hopen : s.queue.closed = false) {c : Call E V C}
    (hshut : c ≠ .shutdown) (hbegins : s.beginsPhase (.call c : Act E V C K) = false) :
    s.Explained (.call c) := by
  have hs := h.healthy.sound
  have hsame {a : Act E V C K} (hr : s.AgreesWith (s.act a)) : s.Explained a :=
    explained_of_same hr.queue hr.phase hr.table
  cases c with
  | registerKind info =>
    have hends : Ends (registerKind info) s
        (fun _ r => r.queue = s.queue ∧ r.phase = s.phase ∧ r.table = s.table)
        (fun r => r.queue = s.queue ∧ r.phase = s.phase ∧ r.table = s.table) := by
      refine .bind ((checkRunning_ends s).mono (fun _ _ h => h) fun _ hr => hr ▸ ⟨rfl, rfl, rfl⟩) ?_
      intro _ r hr
      subst hr
      refine .write_then (.read ?_)
      split
      · exact .write ⟨rfl, rfl, rfl⟩
      · exact .failure ⟨rfl, rfl, rfl⟩
    obtain ⟨hqueue, hphase, htable⟩ := hends.answer_snd
    exact explained_of_same hqueue hphase htable
  | setupPhase computed delayed =>
    rcases (setupPhase_effect computed delayed s).answer_cases with ⟨_, hanswer, hr⟩ | ⟨e, -, hr⟩
    · simp [beginsPhase, serve, hanswer, failureOf] at hbegins
    · exact hsame (.of_eq hr)
  | registerLazy kind c =>
    refine explained_of_joined (scheduledAs_of_origin (by simp [originOf])) ?_
    rcases (registerLazy_effect kind c s).answer_cases with
      ⟨_, -, -, phase, hphase, hr⟩ | ⟨e, -, hr⟩
    · exact joined_congr ((congrArg Phase.triggered hr.phase).trans
        (Phase.triggered_of_registerLazy hphase)) fun j => congrArg (CellTable.valued? · j) hr.table
    · exact congrArg joined hr
  | registerTriggered kind c =>
    rcases (registerTriggered_effect kind c s).answer_cases with ⟨_, -, hr⟩ | ⟨e, -, hr⟩
    · exact Triggers.explained (.of_registered hs h.tidy hr) hopen rfl
    · exact hsame (.of_eq hr)
  | scheduleEager entities c =>
    refine explained_of_joined (scheduledAs_of_origin (by simp [originOf])) ?_
    rcases (scheduleEager_effect entities c s).answer_cases with ⟨_, -, hr⟩ | ⟨e, -, hr⟩
    · exact joined_congr (congrArg Phase.triggered hr.phase) fun j =>
        congrArg (CellTable.valued? · j) hr.table
    · exact congrArg joined hr
  | setFinal ep =>
    have hends : Ends (setFinal ep) s (fun _ r => s.Triggers r) (s.Triggers ·) := by
      refine .bind ((checkRunning_ends s).mono (fun _ _ h => h) fun _ hr => hr ▸ .refl s) ?_
      intro _ r hr
      subst hr
      exact (perform_triggers (a := .install ep) hs h.tidy (by simp)).of_unbroken
    exact Triggers.explained hends.answer_snd hopen rfl
  | query key =>
    rcases (query_effect hs key).answer_cases with ⟨status, -, -, hr⟩ | ⟨e, -, hr⟩
    · exact Asked.explained h.tidy (.refl s) hr hopen rfl
    · exact hsame (.of_eq hr)
  | force key =>
    have htold := trace_becomes s (.force key)
    have hends : Ends (force key) s (fun _ r => (s.trace (.force key)).Asked key r)
        (· = s.trace (.force key)) :=
      .write_then (.bind ((query_effect (Steady.of_quiet hs htold).sound key).mono
        (fun _ _ h => h.2) fun _ h => h) fun _ _ h => .answer h)
    rcases hends.answer_cases with ⟨_, -, hr⟩ | ⟨e, -, hr⟩
    · exact Asked.explained h.tidy htold hr hopen rfl
    · have htraced : s.act (.call (.force key)) = s.trace (.force key) := hr
      exact hsame (htraced ▸ .trace s _)
  | shutdown => exact absurd rfl hshut
  | drainEvents => exact hsame (.drain s)
  | stamp => exact explained_of_same rfl rfl rfl
  | hasProperty | isKnown | ofKind | finalsOfKind | entitiesWith | properties | isShutdown
    | statistics | config
    | isTraced | events => exact hsame (.refl s)

theorem act_explained (h : s.Reachable) (hopen : s.queue.closed = false) {a : Act E V C K}
    (hshut : a ≠ .call .shutdown) (hbegins : s.beginsPhase a = false) : s.Explained a := by
  have hs := h.healthy.sound
  cases a with
  | call c => exact serve_explained h hopen (fun hc => hshut (hc ▸ rfl)) hbegins
  | start =>
    have hact : (s.act .start).queue.waiting.length ≤ s.queue.waiting.length ∧
        (s.act .start).phase = s.phase ∧ (s.act .start).table = s.table := by
      simp only [act]
      split
      · exact ⟨Nat.le_refl _, rfl, rfl⟩
      · split
        · exact ⟨Nat.le_refl _, rfl, rfl⟩
        · next hwaiting => exact ⟨by simp [count, hwaiting], rfl, rfl⟩
    exact explained_of_shrunk hact.1 hact.2.1 hact.2.2
  | perform x =>
    by_cases hx : ∃ c e, x = .schedule c e
    · obtain ⟨c, e, rfl⟩ := hx
      have hr := schedule_becomes "incremental" s c e
      exact explained_of_joined (scheduledAs_of_origin (by simp [originOf]))
        (joined_congr (congrArg Phase.triggered hr.phase) fun j =>
          congrArg (CellTable.valued? · j) hr.table)
    · have hends := perform_triggers hs h.tidy (fun c e hc => hx ⟨c, e, hc⟩)
      have htriggers : s.Triggers (s.act (.perform x)) := by
        simp only [act]
        cases hr : perform x s with
        | ok u r => exact hends.of_ok hr
        | error e r => exact (hends.of_error hr).trans (.fail r e)
      refine htriggers.explained hopen ?_
      cases x with
      | schedule c e => exact absurd ⟨c, e, rfl⟩ hx
      | _ => rfl
  | crash c => exact (Triggers.fail s _).explained hopen rfl
  | round cycles fallbacks =>
    refine Triggers.explained ?_ hopen rfl
    simp only [act]
    split
    · exact .refl s
    · next hguard =>
      simp only [Bool.or_eq_true, not_or, Bool.not_eq_true] at hguard
      have hround := (kept_triggers h.tidy).onQuiescence hs hguard.2 cycles fallbacks
      split at hround
      · exact hround.2.2
      · exact .of_quiet hround.1
  | drop =>
    have hact : (s.act .drop).queue.waiting.length ≤ s.queue.waiting.length ∧
        (s.act .drop).phase = s.phase ∧ (s.act .drop).table = s.table := by
      simp only [act]
      split
      · exact ⟨Nat.zero_le _, rfl, rfl⟩
      · exact ⟨Nat.le_refl _, rfl, rfl⟩
    exact explained_of_shrunk hact.1 hact.2.1 hact.2.2
  | tell n => exact explained_of_same rfl rfl rfl

theorem act_closed (s : Store E V C K) {a : Act E V C K} (hshut : a ≠ .call .shutdown) :
    (s.act a).queue.closed = s.queue.closed := by
  have hworks {origin : String} {r : Store E V C K} (h : s.Works origin r) :
      r.queue.closed = s.queue.closed := by
    obtain ⟨effects, -, h⟩ := h
    exact h.closed
  cases a with
  | call c =>
    by_cases hdrain : c = .drainEvents
    · rw [hdrain]
      exact congrArg Queue.closed (AgreesWith.drain s).queue
    · exact hworks (serve_works s (fun hc => hshut (hc ▸ rfl)) hdrain)
  | start =>
    simp only [act]
    split
    · rfl
    · split <;> rfl
  | perform x => exact hworks (perform_works s x)
  | crash c => exact hworks (show s.Works "triggered" _ from .fail s _)
  | round cycles fallbacks =>
    simp only [act]
    split
    · rfl
    · exact hworks (onQuiescence_works s cycles fallbacks)
  | drop =>
    simp only [act]
    split <;> rfl
  | tell n => rfl

/-! Runs. -/

/-- The pairs of registrations and cells because of which something was scheduled as triggered in
the phase that a run has come to. -/
inductive Causes (start : Store E V C K) : List (Act E V C K) → List (Nat × Nat) → Prop
  | start : Causes start [] []
  | begins {acts : List (Act E V C K)} {a : Act E V C K} {causes : List (Nat × Nat)}
      (h : Causes start acts causes) (ha : (start.run acts).beginsPhase a = true) :
      Causes start (acts ++ [a]) []
  | continues {acts : List (Act E V C K)} {a : Act E V C K} {causes pairs : List (Nat × Nat)}
      (h : Causes start acts causes) (ha : (start.run acts).beginsPhase a = false)
      (hpairs : (start.run acts).Explains a pairs) : Causes start (acts ++ [a]) (causes ++ pairs)

theorem triggered_of_begins {a : Act E V C K} (h : s.beginsPhase a = true) :
    (s.act a).phase.triggered = [] := by
  cases a with
  | call c =>
    cases c with
    | setupPhase computed delayed =>
      rcases (setupPhase_effect computed delayed s).answer_cases with ⟨_, -, hr⟩ | ⟨e, hanswer, -⟩
      · exact congrArg Phase.triggered hr.phase
      · simp [beginsPhase, serve, hanswer, failureOf] at h
    | _ => cases h
  | _ => cases h

/-- All that have come together in the phase are among the causes, once each. -/
theorem exists_causes (config : Config) (tracer : Tracer E V) (cores : Nat)
    (acts : List (Act E V C K))
    (hopen : ((create config tracer cores).run acts).queue.closed = false) :
    ∃ causes, Causes (create config tracer cores) acts causes ∧
      ∀ p, causes.count p = (((create config tracer cores).run acts).joined p).toNat := by
  induction acts using List.reverseRecOn with
  | nil => exact ⟨[], .start, fun p => rfl⟩
  | append_singleton acts a ih =>
    rw [run_append] at hopen ⊢
    have hshut : a ≠ .call .shutdown := by
      rintro rfl
      cases hopen
    have hbefore : ((create config tracer cores).run acts).queue.closed = false :=
      (act_closed _ hshut).symm.trans hopen
    obtain ⟨causes, hcauses, hcount⟩ := ih hbefore
    cases hbegins : ((create config tracer cores).run acts).beginsPhase a with
    | true =>
      refine ⟨[], hcauses.begins hbegins, fun p => ?_⟩
      change _ = ((((create config tracer cores).run acts).act a).joined p).toNat
      rw [joined, triggered_of_begins hbegins]
      rfl
    | false =>
      obtain ⟨pairs, hpairs, hjoined⟩ :=
        act_explained ((Reachable.create config tracer cores).run acts) hbefore hshut hbegins
      refine ⟨causes ++ pairs, hcauses.continues hbegins hpairs, fun p => ?_⟩
      rw [List.count_append, hcount, Nat.add_comm]
      exact hjoined p

/-- Triggered computations fire exactly once. In a store that is not shut down, a computation that
was registered in the phase has been scheduled once because of each cell of its kind that has a
value, and never because of one that has none, in whatever order registrations, first values and
updates came. -/
theorem triggered_exactly_once (config : Config) (tracer : Tracer E V) (cores : Nat)
    (acts : List (Act E V C K)) :
    let s : Store E V C K := (create config tracer cores).run acts
    s.isShutdown = false →
      ∃ causes, Causes (create config tracer cores) acts causes ∧
        ∀ i kind c, s.phase.triggered[i]? = some (kind, c) → ∀ j cell, s.cells[j]? = some cell →
          kind.same cell.key.kind = true →
            causes.count (i, j) = if cell.status.hasValue then 1 else 0 := by
  intro s hopen
  obtain ⟨causes, hcauses, hcount⟩ := exists_causes config tracer cores acts hopen
  refine ⟨causes, hcauses, fun i kind c hreg j cell hcell hkind => ?_⟩
  rw [getElem?_cells] at hcell
  rw [hcount, joined, hreg, CellTable.valued?_of_cell? hcell]
  cases cell.status.hasValue <;> simp [hkind]

/-- A computation is registered before one method is known to be pure, and again after that; another
method is only asked for. -/
def registeredTwice : List (Act Element Fact Unit Nat) :=
  [registerPurity, .call (.registerTriggered FactSort.purity.kind ()),
    .call (.setFinal ⟨purityOf 1, ⟨0, .purity .pure⟩⟩), .call (.query (purityOf 2)),
    .call (.registerTriggered FactSort.purity.kind ())]

theorem registeredTwice_triggered_exactly_once :
    ∃ causes, Causes (create {} .none 1) registeredTwice causes ∧
      causes.count (0, 0) = 1 ∧ causes.count (1, 0) = 1 ∧ causes.count (0, 1) = 0 ∧
        causes.count (1, 1) = 0 := by
  obtain ⟨causes, hcauses, hcount⟩ :=
    triggered_exactly_once {} .none 1 registeredTwice (by decide +kernel)
  have hpair (i j : Nat) (value : Bool)
      (h : (((create {} .none 1).run registeredTwice).phase.triggered[i]?.bind fun reg =>
        ((create {} .none 1).run registeredTwice).cells[j]?.map fun cell =>
        (reg.1.same cell.key.kind, cell.status.hasValue)) = some (true, value)) :
      causes.count (i, j) = if value then 1 else 0 := by
    obtain ⟨reg, hreg, hmap⟩ := Option.bind_eq_some_iff.1 h
    obtain ⟨cell, hcell, hcase⟩ := Option.map_eq_some_iff.1 hmap
    obtain ⟨hkind, rfl⟩ := Prod.mk.inj hcase
    exact hcount i reg.1 reg.2 hreg j cell hcell hkind
  exact ⟨causes, hcauses, hpair 0 0 true (by decide +kernel), hpair 1 0 true (by decide +kernel),
    hpair 0 1 false (by decide +kernel), hpair 1 1 false (by decide +kernel)⟩

end Store
end Blackboard
