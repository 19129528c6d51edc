import Blackboard.Proofs.Sound
import Blackboard.Store.Update
import Mathlib.Data.List.Nodup

/-! What follows from a change, as a whole: the table with the woken dependers detached, and the
tasks that are queued for them. -/
namespace Blackboard

namespace Queue
variable {T : Type}

def enqueue (q : Queue T) (tasks : List T) : Queue T :=
  if q.closed then q else { q with waiting := q.waiting ++ tasks }

@[simp] theorem enqueue_nil (q : Queue T) : q.enqueue [] = q := by
  simp [enqueue]

@[simp] theorem closed_enqueue (q : Queue T) (tasks : List T) :
    (q.enqueue tasks).closed = q.closed := by
  unfold enqueue
  split <;> rfl

@[simp] theorem halted_enqueue (q : Queue T) (tasks : List T) :
    (q.enqueue tasks).halted = q.halted := by
  unfold enqueue
  split <;> rfl

theorem enqueue_enqueue (q : Queue T) (a b : List T) :
    (q.enqueue a).enqueue b = q.enqueue (a ++ b) := by
  by_cases h : q.closed <;> simp [enqueue, h]

theorem waiting_enqueue {q : Queue T} (h : q.closed = false) (tasks : List T) :
    (q.enqueue tasks).waiting = q.waiting ++ tasks := by
  simp [enqueue, h]

end Queue

theorem Depender.decode_injective : Function.Injective Depender.decode := by
  intro a b h
  unfold Depender.decode at h
  split at h <;> split at h <;> simp at h <;> omega

theorem DependerSet.nodup_members (ds : DependerSet) : ds.members.Nodup := by
  have hne : ds.toList.Nodup := ds.sorted.imp fun {a b} h heq => by simp [heq] at h
  exact hne.map Depender.decode_injective

namespace CellTable
variable {E V C K : Type}

@[ext] theorem ext_cell? {t u : CellTable E V K} (hc : ∀ i, t.cell? i = u.cell? i)
    (hl : t.collaborators = u.collaborators)
    (hn : t.nextCollaborator = u.nextCollaborator) : t = u := by
  cases t
  cases u
  have hcells := Array.ext_getElem? hc
  simp_all

def wakeTask? (t : CellTable E V K) (id : Nat) (d : Depender) : Option (Task E C K) :=
  ((t.suspension? d).filter (·.waitsOn id)).map fun susp => .resume d id susp.continuation

def wakeAll (t : CellTable E V K) (id : Nat) (ds : List Depender) : CellTable E V K :=
  ds.foldl (wake id) t

theorem suspension?_wakeAll (t : CellTable E V K) (id : Nat) (ds : List Depender) (e : Depender) :
    (t.wakeAll id ds).suspension? e =
      if e ∈ ds then (t.suspension? e).filter (!·.waitsOn id) else t.suspension? e := by
  induction ds generalizing t with
  | nil => simp [wakeAll]
  | cons d ds ih =>
    change ((t.wake id d).wakeAll id ds).suspension? e = _
    rw [ih, suspension?_wake]
    by_cases hd : e = d
    · subst hd
      by_cases he : e ∈ ds <;> simp [he, Option.filter_filter]
    · simp [hd]

theorem suspension?_wakeAll_le {t : CellTable E V K} {id : Nat} {ds : List Depender} {d : Depender}
    {susp : Suspension E V K} (h : (t.wakeAll id ds).suspension? d = some susp) :
    t.suspension? d = some susp := by
  rw [suspension?_wakeAll] at h
  split at h
  · exact (Option.filter_eq_some_iff.1 h).1
  · exact h

theorem face?_wakeAll (t : CellTable E V K) (id : Nat) (ds : List Depender) (i : Nat) :
    (t.wakeAll id ds).face? i = t.face? i := by
  induction ds generalizing t with
  | nil => rfl
  | cons d ds ih => exact (ih (t.wake id d)).trans (face?_wake t id d i)

theorem Sound.wakeAll [DecidableEq E] {t : CellTable E V K} (h : t.Sound) (id : Nat)
    (ds : List Depender) : (t.wakeAll id ds).Sound := by
  induction ds generalizing t with
  | nil => exact h
  | cons d ds ih => exact ih (h.wake id d)

theorem Apart.wake {t : CellTable E V K} (h : t.Apart) (id : Nat) (d : Depender) :
    (t.wake id d).Apart :=
  List.Pairwise.sublist (collaborators_wake_sublist t id d) h

theorem wakeTask?_wake {t : CellTable E V K} {id : Nat} {d e : Depender} (h : e ≠ d) :
    ((t.wake id d).wakeTask? id e : Option (Task E C K)) = t.wakeTask? id e := by
  simp [wakeTask?, suspension?_wake, h]

def mark (t : CellTable E V K) (id : Nat) : CellTable E V K :=
  t.modify id fun c => { c with triggered := true }

theorem face?_mark (t : CellTable E V K) (id i : Nat) : (t.mark id).face? i = t.face? i := by
  rw [face?, mark, cell?_modify, face?]
  by_cases h : id = i
  · cases t.cell? i <;> simp [h, Cell.face]
  · simp [h]

end CellTable

namespace Store
variable {E V C K : Type}

/-- `r` is `s` with the table `t` and some more tasks; counters and what is told about the work may
differ. -/
structure Becomes (s : Store E V C K) (t : CellTable E V K) (tasks : List (Task E C K))
    (r : Store E V C K) : Prop where
  config : r.config = s.config
  schema : r.schema = s.schema
  phase : r.phase = s.phase
  fault : r.fault = s.fault
  table : r.table = t
  queue : r.queue = s.queue.enqueue tasks

namespace Becomes
variable {s r q : Store E V C K} {t u : CellTable E V K} {ts us : List (Task E C K)}

theorem refl (s : Store E V C K) : s.Becomes s.table [] s :=
  ⟨rfl, rfl, rfl, rfl, rfl, s.queue.enqueue_nil.symm⟩

theorem trans (h : s.Becomes t ts r) (h' : r.Becomes u us q) : s.Becomes u (ts ++ us) q :=
  ⟨h'.config.trans h.config, h'.schema.trans h.schema, h'.phase.trans h.phase,
    h'.fault.trans h.fault, h'.table, by rw [h'.queue, h.queue, Queue.enqueue_enqueue]⟩

theorem after_quiet (h : s.Becomes s.table [] r) (h' : r.Becomes u us q) :
    s.Becomes u us q := h.trans h'

theorem then_quiet (h : s.Becomes t ts r) (h' : r.Becomes r.table [] q) : s.Becomes t ts q := by
  have h2 := h.trans h'
  rwa [h.table, List.append_nil] at h2

theorem halted (h : s.Becomes t ts r) : r.queue.halted = s.queue.halted := by
  rw [h.queue, Queue.halted_enqueue]

theorem closed (h : s.Becomes t ts r) : r.queue.closed = s.queue.closed := by
  rw [h.queue, Queue.closed_enqueue]

end Becomes

@[simp] theorem trace_config (s : Store E V C K) (e : Event E V) :
    (s.trace e).config = s.config := by
  unfold trace; split <;> rfl

@[simp] theorem trace_schema (s : Store E V C K) (e : Event E V) :
    (s.trace e).schema = s.schema := by
  unfold trace; split <;> rfl

@[simp] theorem trace_phase (s : Store E V C K) (e : Event E V) : (s.trace e).phase = s.phase := by
  unfold trace; split <;> rfl

@[simp] theorem trace_fault (s : Store E V C K) (e : Event E V) : (s.trace e).fault = s.fault := by
  unfold trace; split <;> rfl

@[simp] theorem trace_table (s : Store E V C K) (e : Event E V) : (s.trace e).table = s.table := by
  unfold trace; split <;> rfl

@[simp] theorem trace_queue (s : Store E V C K) (e : Event E V) : (s.trace e).queue = s.queue := by
  unfold trace; split <;> rfl

theorem notify_becomes (s : Store E V C K) (n : Notice E V) :
    s.Becomes s.table [] (s.notify n) := by
  constructor <;> simp [notify]

theorem count_becomes (s : Store E V C K) (f : Statistics → Statistics) :
    s.Becomes s.table [] (s.count f) := by
  constructor <;> simp [count]

theorem trace_becomes (s : Store E V C K) (e : Event E V) : s.Becomes s.table [] (s.trace e) := by
  constructor <;> simp

theorem schedule_becomes (origin : String) (s : Store E V C K) (c : C) (e : E) :
    s.Becomes s.table [.compute c e] (s.schedule origin c e) := by
  constructor <;> simp [schedule, count, push, Queue.push, Queue.enqueue]

theorem scheduleAll_becomes (origin : String) (s : Store E V C K) (tasks : List (C × E)) :
    s.Becomes s.table (tasks.map fun p => .compute p.1 p.2)
      (tasks.foldl (fun s p => s.schedule origin p.1 p.2) s) := by
  induction tasks generalizing s with
  | nil => exact .refl s
  | cons p tasks ih =>
    have first := schedule_becomes origin s p.1 p.2
    have rest := ih (s.schedule origin p.1 p.2)
    rw [first.table] at rest
    exact first.trans rest

theorem resume_becomes (d : Depender) (dependee : Cell E V K) (susp : Suspension E V K)
    (s : Store E V C K) :
    s.Becomes (s.table.unlink d susp) [.resume d dependee.id susp.continuation]
      (s.resume d dependee susp) := by
  unfold resume
  -- a closed queue drops the task whether it is pushed or not
  by_cases h : s.queue.closed
  · constructor <;> simp [count, unlink, isShutdown, notify, h, Queue.enqueue]
  · constructor <;> simp [count, unlink, isShutdown, push, h, Queue.push, Queue.enqueue]

theorem resumeIf_becomes {s : Store E V C K} (hs : s.table.Apart) (d : Depender)
    (dependee : Cell E V K) (p : Suspension E V K → Bool) :
    match (s.table.suspension? d).filter p with
    | some susp => s.Becomes (s.table.detach d susp) [.resume d dependee.id susp.continuation]
        (s.resumeIf d dependee p)
    | none => s.resumeIf d dependee p = s := by
  have hfst := s.table.takeSuspensionIf_fst d p
  unfold resumeIf takeSuspensionIf
  generalize htake : s.table.takeSuspensionIf d p = r at hfst ⊢
  obtain ⟨taken, t⟩ := r
  simp only at hfst
  subst hfst
  split
  · next susp h =>
    have ht : t = s.table.clear d := by
      rw [← CellTable.takeSuspensionIf_snd_of_some hs h, htake]
    have hr := resume_becomes d dependee susp { s with table := t }
    rw [h, ht] at *
    exact ⟨hr.config, hr.schema, hr.phase, hr.fault, hr.table, hr.queue⟩
  · next h =>
    have ht : t = s.table := by
      rw [← CellTable.takeSuspensionIf_snd_of_none hs h, htake]
    rw [h, ht]

theorem wake_becomes {s : Store E V C K} (hs : s.table.Apart) (cell : Cell E V K) (d : Depender) :
    s.Becomes (s.table.wake cell.id d) (s.table.wakeTask? cell.id d).toList (s.wake cell d) := by
  have h := resumeIf_becomes hs d cell (·.waitsOn cell.id)
  unfold wake CellTable.wake CellTable.wakeTask?
  cases hf : (s.table.suspension? d).filter (·.waitsOn cell.id) with
  | some susp =>
    simp only [hf] at h
    exact h
  | none =>
    simp only [hf] at h
    rw [h]
    exact .refl s

theorem wakeAll_becomes {s : Store E V C K} (hs : s.table.Apart) (cell : Cell E V K)
    {ds : List Depender} (hd : ds.Nodup) :
    s.Becomes (s.table.wakeAll cell.id ds) (ds.filterMap (s.table.wakeTask? cell.id))
      (ds.foldl (wake cell) s) := by
  induction ds generalizing s with
  | nil => exact .refl s
  | cons d ds ih =>
    obtain ⟨hnotin, hnodup⟩ := List.nodup_cons.1 hd
    have first := wake_becomes hs cell d
    have rest := ih (s := s.wake cell d) (first.table ▸ hs.wake cell.id d) hnodup
    rw [first.table] at rest
    have htasks : (d :: ds).filterMap (s.table.wakeTask? (C := C) cell.id) =
        (s.table.wakeTask? cell.id d).toList ++
          ds.filterMap ((s.table.wake cell.id d).wakeTask? cell.id) := by
      have hsame : ds.filterMap ((s.table.wake cell.id d).wakeTask? (C := C) cell.id) =
          ds.filterMap (s.table.wakeTask? cell.id) := by
        apply List.filterMap_congr
        intro e he
        exact CellTable.wakeTask?_wake (fun heq => hnotin (heq ▸ he))
      rw [hsame, List.filterMap_cons]
      cases s.table.wakeTask? cell.id d <;> rfl
    rw [htasks]
    exact first.trans rest

def firstTasks (phase : Phase C) (t : CellTable E V K) (cell : Cell E V K) : List (Task E C K) :=
  if (t.cell? cell.id).any (!·.triggered) then
    (phase.triggeredBy cell.key.kind).map (.compute · cell.key.entity)
  else []

theorem writeCell_becomes {s : Store E V C K} {i : Nat} {c : Cell E V K}
    {f : Cell E V K → Cell E V K} (hc : s.table.cell? i = some c) (hid : (f c).id = i) :
    s.Becomes (s.table.modify i f) [] (s.writeCell (f c)) := by
  have ht : s.table.modify i f = s.table.modify i fun _ => f c := by
    apply CellTable.modify_congr
    intro e he
    rw [Option.some.inj (hc.symm.trans he)]
  rw [ht]
  constructor <;> simp [writeCell, modifyCell, hid]

theorem trigger_becomes [DecidableEq E] {s : Store E V C K} (hs : s.table.Sound)
    (cell : Cell E V K) :
    s.Becomes (s.table.mark cell.id) (firstTasks s.phase s.table cell) (s.trigger cell) := by
  unfold trigger firstTasks
  rw [cell?]
  cases hc : s.table.cell? cell.id with
  | none =>
    have hmark : s.table.mark cell.id = s.table :=
      CellTable.modify_eq_self fun c h => by simp [h] at hc
    rw [hmark]
    exact .refl s
  | some c =>
    by_cases ht : c.triggered
    · have hmark : s.table.mark cell.id = s.table := by
        apply CellTable.modify_eq_self
        intro e he
        obtain rfl : c = e := Option.some.inj (hc.symm.trans he)
        cases c
        simp_all
      simp only [Cell.markTriggered, ht, Option.any_some, hmark]
      exact .refl s
    · simp only [Cell.markTriggered, ht, Option.any_some]
      have hwrite := writeCell_becomes (f := fun c => { c with triggered := true }) hc
        (hs.id_eq (c := c) hc)
      have hall := scheduleAll_becomes "triggered" (s.writeCell { c with triggered := true })
        ((s.phase.triggeredBy cell.key.kind).map (·, cell.key.entity))
      rw [List.foldl_map, List.map_map, hwrite.table] at hall
      exact hwrite.trans hall

theorem afterUpdate_becomes [DecidableEq E] {s : Store E V C K} {t : CellTable E V K}
    (cell : Cell E V K) {u : Update E V K} (hu : u.changed = true)
    (ht : (match u.dropped with
      | some susp => s.table.unlink (.cell cell.id) susp
      | none => s.table) = t) (hs : t.Sound) :
    s.Becomes
      (if u.old.isUnknown then (t.wakeAll cell.id u.dependers.members).mark cell.id
        else t.wakeAll cell.id u.dependers.members)
      (u.dependers.members.filterMap (t.wakeTask? cell.id) ++
        if u.old.isUnknown then firstTasks s.phase (t.wakeAll cell.id u.dependers.members) cell
        else [])
      (s.afterUpdate cell u) := by
  unfold afterUpdate
  simp only [hu, Bool.not_true, Bool.false_eq_true, if_false]
  generalize hs₁ : ((s.count _).notify _).trace _ = s₁
  have quiet : s.Becomes s.table [] s₁ := by
    subst hs₁
    exact ((count_becomes s _).then_quiet (notify_becomes _ _)).then_quiet (trace_becomes _ _)
  have dropped : s.Becomes t [] (match u.dropped with
      | some susp => s₁.unlink (.cell cell.id) susp
      | none => s₁) := by
    subst ht
    split
    · next susp hsusp =>
      rw [← quiet.table]
      exact quiet.after_quiet (by constructor <;> simp [unlink])
    · exact quiet
  have woken :=
    wakeAll_becomes (dropped.table ▸ hs.apart) cell (DependerSet.nodup_members u.dependers)
  rw [dropped.table] at woken
  have both := dropped.trans woken
  split
  · next hold =>
    have fired := trigger_becomes (woken.table ▸ hs.wakeAll cell.id _) cell
    rw [both.table, both.phase] at fired
    exact both.trans fired
  · rw [List.append_nil]
    exact both

end Store
end Blackboard
