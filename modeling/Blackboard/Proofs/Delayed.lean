import Blackboard.Proofs.Completeness

/-! What is left to a later phase. A round does not settle a cell of a delayed kind, nor one that
waits, over others, for such a cell. All it may do to them is to wake a computation for a cell that
it waits on itself. -/
namespace Blackboard
variable {E V C K : Type}

def Task.resumes? (d : Depender) : Task E C K → Option (Nat × K)
  | .compute _ _ => none
  | .resume e j k => if e = d then some (j, k) else none

def resumptions (d : Depender) (tasks : List (Task E C K)) : List (Nat × K) :=
  tasks.filterMap (·.resumes? d)

theorem resumptions_append (d : Depender) (a b : List (Task E C K)) :
    resumptions d (a ++ b) = resumptions d a ++ resumptions d b := List.filterMap_append

/-- What becomes of a sleeper: it sleeps on, or it is woken once, for a settled cell that it waits
on. -/
inductive Slumber (settled : Nat → Prop) (old : Option (Suspension E V K)) :
    Option (Suspension E V K) → List (Nat × K) → Prop
  | kept : Slumber settled old old []
  | woken {susp : Suspension E V K} {j : Nat} (hold : old = some susp) (hj : j ∈ susp.ids)
      (hs : settled j) :
      Slumber settled old none [(j, susp.continuation)]

namespace Slumber
variable {P Q : Nat → Prop} {o o' o'' : Option (Suspension E V K)} {w w' : List (Nat × K)}

theorem mono (h : Slumber P o o' w) (hPQ : ∀ j, P j → Q j) : Slumber Q o o' w := by
  cases h with
  | kept => exact .kept
  | woken hold hj hs => exact .woken hold hj (hPQ _ hs)

theorem eq_of_not_woken (h : Slumber P o o' []) : o' = o := by
  cases h
  rfl

theorem eq_of_awake (h : Slumber P none o w) : o = none ∧ w = [] := by
  cases h with
  | kept => exact ⟨rfl, rfl⟩
  | woken hold => simp at hold

theorem eq_of_asleep {susp : Suspension E V K} (h : Slumber P o (some susp) w) :
    o = some susp ∧ w = [] := by
  cases h
  exact ⟨rfl, rfl⟩

theorem trans (h : Slumber P o o' w) (h' : Slumber P o' o'' w') : Slumber P o o'' (w ++ w') := by
  cases h with
  | kept => exact h'
  | woken hold hj hs =>
    obtain ⟨rfl, rfl⟩ := h'.eq_of_awake
    exact .woken hold hj hs

end Slumber

namespace CellTable
variable {t : CellTable E V K} {d : Depender}

theorem resumptions_wakeTasks (t : CellTable E V K) (id : Nat) (d : Depender) {ds : List Depender}
    (hds : ds.Nodup) :
    resumptions d (ds.filterMap (t.wakeTask? (C := C) id)) =
      if d ∈ ds then (((t.suspension? d).filter (·.waitsOn id)).map fun susp =>
        (id, susp.continuation)).toList
      else [] := by
  induction ds with
  | nil => rfl
  | cons e ds ih =>
    obtain ⟨hnotin, hds⟩ := List.nodup_cons.1 hds
    have hsplit : (e :: ds).filterMap (t.wakeTask? (C := C) id) =
        (t.wakeTask? id e).toList ++ ds.filterMap (t.wakeTask? id) := by
      rw [List.filterMap_cons]
      cases t.wakeTask? id e <;> rfl
    rw [hsplit, resumptions_append, ih hds]
    by_cases he : e = d
    · subst he
      cases hf : (t.suspension? e).filter (·.waitsOn id) <;>
        simp [wakeTask?, hf, resumptions, Task.resumes?, hnotin]
    · cases hf : (t.suspension? e).filter (·.waitsOn id) <;>
        simp [wakeTask?, hf, resumptions, Task.resumes?, he, Ne.symm he]

theorem slumber_wakeAll (t : CellTable E V K) (id : Nat) (d : Depender) {ds : List Depender}
    (hds : ds.Nodup) :
    Slumber (· = id) (t.suspension? d) ((t.wakeAll id ds).suspension? d)
      (resumptions d (ds.filterMap (t.wakeTask? (C := C) id))) := by
  rw [resumptions_wakeTasks t id d hds, suspension?_wakeAll]
  by_cases hd : d ∈ ds
  · rw [if_pos hd, if_pos hd]
    cases hsusp : t.suspension? d with
    | none => exact .kept
    | some susp =>
      by_cases hw : susp.waitsOn id = true
      · have hmem : id ∈ susp.ids := by simpa [Suspension.ids, Suspension.waitsOn] using hw
        have hwoken : Slumber (· = id) (some susp) none [(id, susp.continuation)] :=
          .woken rfl hmem rfl
        simpa [Option.filter_some, hw] using hwoken
      · simpa [Option.filter_some, hw] using Slumber.kept
  · rw [if_neg hd, if_neg hd]
    exact .kept

theorem slumber_install (t : CellTable E V K) (phase : Phase C) {c : Cell E V K}
    (hc : t.cell? c.id = some c) (hawake : c.suspension = none) (new : Status E V) (d : Depender) :
    Slumber (· = c.id) (t.suspension? d) ((t.install c new).suspension? d)
      (resumptions d (t.installTasks phase c new)) := by
  have hin : (t.settleIn c.id new).suspension? d = t.suspension? d := by
    rw [settleIn, suspension?_put]
    split
    · rw [suspension?_release]
      split
      · next hd => simp [hd, suspension?, hc, hawake]
      · rfl
    · rfl
  have hfirst : ∀ t' : CellTable E V K, resumptions d (Store.firstTasks phase t' c) = [] := by
    intro t'
    unfold Store.firstTasks
    split
    · simp [resumptions, Task.resumes?]
    · rfl
  have hwake := slumber_wakeAll (C := C) (t.settleIn c.id new) c.id d c.dependers.nodup_members
  rw [hin] at hwake
  unfold install installTasks
  rw [resumptions_append]
  split
  · rw [suspension?_mark, hfirst, List.append_nil]
    exact hwake
  · exact hwake.trans .kept

theorem slumber_announce (t : CellTable E V K) (batch : List (Cell E V K × Final E V))
    (d : Depender) :
    Slumber (fun j => ∃ p ∈ batch, p.1.id = j) (t.suspension? d) ((t.announce batch).suspension? d)
      (resumptions d (t.announceTasks (C := C) batch)) := by
  induction batch generalizing t with
  | nil => exact .kept
  | cons p rest ih =>
    have first := (slumber_wakeAll (C := C) t p.1.id d p.1.dependers.nodup_members).mono
      (Q := fun j => ∃ q ∈ p :: rest, q.1.id = j) fun j hj => ⟨p, List.mem_cons_self, hj.symm⟩
    have others := (ih (t.wakeAll p.1.id p.1.dependers.members)).mono
      (Q := fun j => ∃ q ∈ p :: rest, q.1.id = j) fun j ⟨q, hq, hj⟩ =>
        ⟨q, List.mem_cons_of_mem _ hq, hj⟩
    unfold announceTasks
    rw [resumptions_append]
    exact first.trans others

theorem slumber_resolve (t : CellTable E V K) {group : List Depender}
    (batch : List (Cell E V K × Final E V)) (hd : d ∉ group) :
    Slumber (fun j => ∃ p ∈ batch, p.1.id = j) (t.suspension? d)
      ((t.resolve group batch).suspension? d)
      (resumptions d (((t.releaseAll group).putAll batch).announceTasks (C := C) batch)) := by
  have h := slumber_announce (C := C) ((t.releaseAll group).putAll batch) batch d
  rwa [suspension?_putAll, suspension?_releaseAll, if_neg hd] at h

end CellTable

namespace Store
variable {s q r : Store E V C K} {safe : Depender → Prop} {tasks tasks' : List (Task E C K)}

/-- Those that are safe keep their values, and sleep on unless they are woken. -/
structure Spares (s : Store E V C K) (safe : Depender → Prop) (tasks : List (Task E C K))
    (r : Store E V C K) : Prop where
  queue : r.queue = s.queue.enqueue tasks
  face : ∀ {i}, safe (.cell i) → r.table.face? i = s.table.face? i
  final : ∀ {j}, s.isFinalAt j = true → r.isFinalAt j = true
  slumber : ∀ {d}, safe d → Slumber (fun j => s.isFinalAt j = false ∧ r.isFinalAt j = true)
    (s.table.suspension? d) (r.table.suspension? d) (resumptions d tasks)

namespace Spares

theorem of_quiet (h : s.Becomes s.table [] r) : s.Spares safe [] r where
  queue := h.queue
  face _ := by rw [h.table]
  final hj := (isFinalAt_congr (by rw [h.table])).trans hj
  slumber _ := h.table ▸ .kept

theorem trans (h : s.Spares safe tasks q) (h' : q.Spares safe tasks' r) :
    s.Spares safe (tasks ++ tasks') r where
  queue := by rw [h'.queue, h.queue, Queue.enqueue_enqueue]
  face hi := (h'.face hi).trans (h.face hi)
  final hj := h'.final (h.final hj)
  slumber {d} hd := by
    rw [resumptions_append]
    refine ((h.slumber hd).mono ?_).trans ((h'.slumber hd).mono ?_)
    · exact fun j hj => ⟨hj.1, h'.final hj.2⟩
    · intro j hj
      refine ⟨?_, hj.2⟩
      by_contra hnot
      simp [h.final (by simpa using hnot)] at hj

theorem mono {safe' : Depender → Prop} (h : s.Spares safe tasks r) (hsafe : ∀ d, safe' d → safe d) :
    s.Spares safe' tasks r where
  queue := h.queue
  face hi := h.face (hsafe _ hi)
  final := h.final
  slumber hd := h.slumber (hsafe _ hd)

variable [DecidableEq E]

theorem of_resolves {group : List Depender} {batch : List (Cell E V K × Final E V)}
    (hnotsafe : ∀ d ∈ group, ¬ safe d) (h : s.Resolves group batch r) :
    s.Spares safe (((s.table.releaseAll group).putAll batch).announceTasks batch) r where
  queue := h.becomes.queue
  face {i} hi := by
    rw [h.becomes.table]
    refine CellTable.face?_resolve_of_ne ?_
    rintro p hp rfl
    exact hnotsafe _ (h.members p hp).1 hi
  final hj := by simp [h.isFinalAt, hj]
  slumber {d} hd := by
    rw [h.becomes.table]
    refine (CellTable.slumber_resolve s.table batch fun hmem => hnotsafe d hmem hd).mono ?_
    rintro j ⟨p, hp, rfl⟩
    refine ⟨?_, by rw [h.isFinalAt, List.any_eq_true.2 ⟨p, hp, by simp⟩, Bool.true_or]⟩
    rw [isFinalAt_eq_face?, h.shown hp]
    simp [Cell.face, (h.fit.fits p hp).refinable]

variable [DecidableEq V]

theorem of_takes {c : Cell E V K} {ep : Final E V} (hc : s.table.cell? c.id = some c)
    (hawake : c.suspension = none) (hfit : c.Fits (.final ep)) (hnotsafe : ¬ safe (.cell c.id))
    (h : s.Takes c (.final ep) r) :
    s.Spares safe (s.table.installTasks s.phase c (.final ep)) r where
  queue := (takes_final.1 h).queue
  face {i} hi := by
    have hne : i ≠ c.id := by
      rintro rfl
      exact hnotsafe hi
    rw [(takes_final.1 h).table, CellTable.face?_install hc, if_neg hne]
  final hj := by simp [h.isFinalAt hc, hj]
  slumber {d} _ := by
    rw [(takes_final.1 h).table]
    refine (CellTable.slumber_install s.table s.phase hc hawake (.final ep) d).mono ?_
    rintro j rfl
    have hcell : s.cell? c.id = some c := hc
    exact ⟨by simp [isFinalAt, hcell, hfit.refinable], by simp [h.isFinalAt hc]⟩

end Spares

/-- The depender sleeps and waits, over others, for a cell of a delayed kind that is not final. -/
def AwaitsDelayed (s : Store E V C K) (d : Depender) : Prop :=
  ∃ susp, s.table.suspension? d = some susp ∧ ∃ j ∈ susp.ids, ∃ e ∈ s.cells,
    Relation.ReflTransGen s.Awaits j e.id ∧ e.status.isFinal = false ∧
      s.phase.isDelayed e.key.kind = true

/-- What the current phase leaves to a later one. -/
def IsDeferred (s : Store E V C K) (d : Depender) : Prop :=
  s.isDelayedDepender d = true ∨ s.AwaitsDelayed d

variable [DecidableEq E]

theorem candidate_not_deferred (hs : s.Sound) {pass : Pass} {cell : Cell E V K}
    (h : cell ∈ s.candidates pass) : ¬ s.IsDeferred (.cell cell.id) := by
  obtain ⟨hmem, hkind⟩ := candidate_mem h
  obtain ⟨hc, -⟩ := Seen.current hs hmem
  rintro (hd | ⟨susp, hsusp, -⟩)
  · have hcell : s.cell? cell.id = some cell := hc
    simp [isDelayedDepender, hcell, hkind] at hd
  · simp [CellTable.suspension?, hc, candidate_awake hs h] at hsusp

theorem awaits_closedComponent (hs : s.Sound) {group : List Depender}
    (h : group ∈ closedComponents s.waiting) {i j : Nat} (hi : .cell i ∈ group)
    (hij : Relation.ReflTransGen s.Awaits i j) : .cell j ∈ group := by
  induction hij with
  | refl => exact hi
  | tail _ hnext ih =>
    obtain ⟨c, susp, hc, hsusp, hmem⟩ := hnext
    obtain ⟨k, susp', hk, hsleeps, hall⟩ := asleep_in_closedComponent hs h ih
    obtain rfl := Depender.cell.inj hk
    have hcell : s.table.cell? _ = some c := hc
    obtain rfl : susp = susp' := by simpa [CellTable.suspension?, hcell, hsusp] using hsleeps
    exact hall _ hmem

theorem contains_delayedDependers (hs : s.Sound) {group : List Depender}
    (h : group ∈ closedComponents s.waiting) {d : Depender} (hd : d ∈ group) :
    s.delayedDependers.contains d = s.isDelayedDepender d := by
  obtain ⟨i, susp, rfl, hsusp, -⟩ := asleep_in_closedComponent hs h hd
  have hwait : Depender.cell i ∈ s.waiting.map (·.depender) :=
    List.mem_map.2 ⟨⟨.cell i, susp.ids⟩, (mem_waiting hs).2 ⟨susp, hsusp, rfl⟩, rfl⟩
  rw [Bool.eq_iff_iff, List.contains_iff_mem, delayedDependers, List.mem_filter]
  exact and_iff_right hwait

theorem member_not_deferred (hs : s.Sound) {group : List Depender}
    (h : group ∈ closedComponents s.waiting)
    (hfree : group.any (s.delayedDependers.contains ·) = false) {d : Depender} (hd : d ∈ group) :
    ¬ s.IsDeferred d := by
  have hkind : ∀ e ∈ group, s.isDelayedDepender e = false := by
    intro e he
    rw [← contains_delayedDependers hs h he]
    simpa using List.any_eq_false.1 hfree e he
  rintro (hdelayed | ⟨susp, hsusp, j, hj, e, he, hpath, -, hdelayed⟩)
  · simp [hkind d hd] at hdelayed
  · obtain ⟨i, susp', rfl, hsusp', hall⟩ := asleep_in_closedComponent hs h hd
    obtain rfl : susp = susp' := Option.some.inj (hsusp.symm.trans hsusp')
    have hmem := awaits_closedComponent hs h (hall j hj) hpath
    obtain ⟨hcell, -⟩ := Seen.current hs he
    have hcell' : s.cell? e.id = some e := hcell
    simpa [isDelayedDepender, hcell', hdelayed] using hkind _ hmem

variable [DecidableEq V]

theorem Makes.spares (hs : s.Sound) {pass : Pass} {st : Settlement E V C K} (h : s.Makes pass st) :
    ∃ tasks, st.before.Spares s.IsDeferred tasks st.after := by
  cases h with
  | cell hcell hid hc hawake hfit _ hr =>
    exact ⟨_, .of_takes hc hawake hfit (hid ▸ candidate_not_deferred hs hcell) hr⟩
  | group _ hmem hfree hr =>
    exact ⟨_, .of_resolves (fun d hd => member_not_deferred hs hmem hfree hd) hr⟩

/-- A pass neither settles nor releases what is left to a later phase, and it keeps the links. -/
theorem Proceeds.spares (hs : s.Sound) (hl : s.table.Linked) {pass : Pass}
    {log : List (Settlement E V C K)} (h : s.Proceeds pass s log r) :
    (∃ tasks, s.Spares s.IsDeferred tasks r) ∧ r.Sound ∧ r.table.Linked := by
  have hquiet : ∀ {q r}, (∃ tasks, s.Spares s.IsDeferred tasks q) ∧ q.table.Linked →
      q.Becomes q.table [] r →
      (∃ tasks, s.Spares s.IsDeferred tasks r) ∧ r.table.Linked := by
    rintro q r ⟨⟨tasks, hq⟩, hl⟩ hr
    exact ⟨⟨_, hq.trans (.of_quiet hr)⟩, hr.table ▸ hl⟩
  obtain ⟨hset, ⟨hspares, hlinked⟩, -⟩ :=
    h.keeps (.refl hs) ⟨⟨[], .of_quiet (.refl s)⟩, hl⟩ hquiet (by
    rintro st - hst hset ⟨⟨tasks, hq⟩, hl⟩
    obtain ⟨tasks', hst'⟩ := hst.spares hs
    exact ⟨⟨_, hq.trans hst'⟩, hst.linked hset.sound hl⟩)
  exact ⟨hspares, hset.sound, hlinked⟩

variable [Property V] [ToString E] [ToString V]

theorem settle_spares (hs : s.Sound) (hl : s.table.Linked) (cycles fallbacks : Bool) :
    Ends (settle cycles fallbacks) s
      (fun _ r => (∃ tasks, s.Spares s.IsDeferred tasks r) ∧ r.Sound ∧ r.table.Linked)
      (fun _ => False) := by
  rw [settle_eq_settlements]
  refine .map ((logPasses_ends hs (passes cycles fallbacks)).mono ?_ fun _ h => h)
  rintro log r (⟨-, rfl, -⟩ | ⟨-, -, pass, -, -, -, hr⟩)
  · exact ⟨⟨[], .of_quiet (.refl r)⟩, hs, hl⟩
  · exact hr.spares hs hl

/-- A round leaves the value of every cell of a delayed kind, and of every cell that sleeps and
waits, over others, for an open cell of a delayed kind. Such a cell also sleeps on, unless the round
settles something that it waits on itself; then it is resumed, once. Here `q` is `s` once the round
is counted. -/
theorem delayed_left_to_later_phase (h : s.Reachable) (hfault : s.fault = none)
    (hq : s.Becomes s.table [] q) (cycles fallbacks : Bool) :
    ∃ changed r tasks, settle cycles fallbacks q = .ok changed r ∧ r.queue = q.queue.enqueue tasks ∧
      ∀ i c, q.cell? i = some c → q.phase.isDelayed c.key.kind = true ∨ q.AwaitsDelayed (.cell i) →
        ∃ c', r.cell? i = some c' ∧ c'.key = c.key ∧ c'.status = c.status ∧
          ((c'.suspension = c.suspension ∧ resumptions (.cell i) tasks = [] ∧
              ∀ susp, c.suspension = some susp → ∀ j ∈ susp.ids, r.isFinalAt j = false) ∨
            ∃ susp j, c.suspension = some susp ∧ j ∈ susp.ids ∧ q.isFinalAt j = false ∧
              r.isFinalAt j = true ∧
              c'.suspension = none ∧ resumptions (.cell i) tasks = [(j, susp.continuation)]) := by
  have hs : q.Sound := (Settles.of_quiet h.healthy.sound hq).sound
  have hl : q.table.Linked := hq.table ▸ h.healthy.linked hfault
  obtain ⟨changed, r, hr, ⟨tasks, hspares⟩, hsound, hlinked⟩ :=
    (settle_spares hs hl cycles fallbacks).exists_ok
  refine ⟨changed, r, tasks, hr, hspares.queue, ?_⟩
  intro i c hc hdeferred
  have hcell : q.table.cell? i = some c := hc
  have hsafe : q.IsDeferred (.cell i) := by
    refine hdeferred.imp_left fun hd => ?_
    simpa [isDelayedDepender, hc] using hd
  obtain ⟨c', hc', hface⟩ :=
    CellTable.cell?_of_face? ((hspares.face hsafe).trans (CellTable.face?_of_cell? hcell))
  simp only [Cell.face, Prod.mk.injEq] at hface
  refine ⟨c', hc', hface.2.1, hface.2.2, ?_⟩
  have hslumber := hspares.slumber hsafe
  have hold : q.table.suspension? (.cell i) = c.suspension := by simp [CellTable.suspension?, hcell]
  have hnew : r.table.suspension? (.cell i) = c'.suspension := by simp [CellTable.suspension?, hc']
  rw [hold, hnew] at hslumber
  generalize hw : resumptions (.cell i) tasks = woken at hslumber
  generalize hs' : c'.suspension = now at hslumber
  cases hslumber with
  | kept =>
    refine .inl ⟨rfl, rfl, ?_⟩
    -- nobody sleeps over a final value
    intro susp hsusp j hj
    obtain ⟨e, he, -, hopen⟩ := dependee_open hlinked (hnew.trans (hs'.trans hsusp)) hj
    have he' : r.cell? j = some e := he
    simp [isFinalAt, he', hopen]
  | @woken susp j hsusp hj hsettled =>
    exact .inr ⟨susp, j, hsusp, hj, hsettled.1, hsettled.2, rfl, rfl⟩

def callersAndPurity : Store Element Fact Unit Nat :=
  (create {} .none 1).run
    [.call (.registerKind ((FallbackRule.fixed (.purity .impure)).info .lower)),
      .call (.registerKind ((FallbackRule.fixed (.callers ∅)).info .lower)),
      .call (.setupPhase [FactSort.purity.kind] [FactSort.callers.kind]),
      .perform (.suspend ⟨⟨.method 0, FactSort.purity.kind⟩, ⟨0, .purity .impure⟩,
        ⟨1, .purity .pure⟩⟩ [.unknown ⟨.method 1, FactSort.callers.kind⟩,
          .unknown ⟨.method 2, FactSort.purity.kind⟩] 7)]

theorem callersAndPurity_awaitsDelayed : callersAndPurity.AwaitsDelayed (.cell 2) := by
  have hids : (callersAndPurity.table.suspension? (.cell 2)).map (·.ids) = some [0, 1] := by
    decide +kernel
  have hcallers : callersAndPurity.cells.any (fun e => e.id == 0 && !e.status.isFinal &&
      callersAndPurity.phase.isDelayed e.key.kind) = true := by decide +kernel
  obtain ⟨susp, hsusp, hmem⟩ := Option.map_eq_some_iff.1 hids
  obtain ⟨e, he, hopen⟩ := List.any_eq_true.1 hcallers
  simp only [Bool.and_eq_true, beq_iff_eq, Bool.not_eq_true'] at hopen
  exact ⟨susp, hsusp, 0, by simp [hmem], e, he, hopen.1.1 ▸ .refl, hopen.1.2, hopen.2⟩

theorem callersAndPurity_left_to_later_phase :
    callersAndPurity.Reachable ∧ callersAndPurity.fault = none ∧
      callersAndPurity.AwaitsDelayed (.cell 2) ∧
    ∃ changed r tasks, settle true true callersAndPurity = .ok changed r ∧
      r.queue = callersAndPurity.queue.enqueue tasks ∧
      ∀ i c, callersAndPurity.cell? i = some c →
        callersAndPurity.phase.isDelayed c.key.kind = true ∨
          callersAndPurity.AwaitsDelayed (.cell i) →
        ∃ c', r.cell? i = some c' ∧ c'.key = c.key ∧ c'.status = c.status ∧
          ((c'.suspension = c.suspension ∧ resumptions (.cell i) tasks = [] ∧
              ∀ susp, c.suspension = some susp → ∀ j ∈ susp.ids, r.isFinalAt j = false) ∨
            ∃ susp j, c.suspension = some susp ∧ j ∈ susp.ids ∧
              callersAndPurity.isFinalAt j = false ∧ r.isFinalAt j = true ∧ c'.suspension = none ∧
              resumptions (.cell i) tasks = [(j, susp.continuation)]) :=
  have hr : callersAndPurity.Reachable := (Reachable.create {} .none 1).run _
  have hfault : callersAndPurity.fault = none := Option.isNone_iff_eq_none.1 (by decide +kernel)
  ⟨hr, hfault, callersAndPurity_awaitsDelayed,
    delayed_left_to_later_phase hr hfault (.refl _) true true⟩

end Store
end Blackboard
