import Blackboard.Proofs.Effects

/-! Lazy computations are scheduled at most once per cell. There are two occasions: the computation
is registered, and all keys of the kind that have a cell without a value are scheduled; or a key
that has no cell is asked for. A cell is there on at most one of them, since the question makes
it. -/
namespace Blackboard

def Act.lazyKind? {E V C K : Type} : Act E V C K → Option Kind
  | .call (.registerLazy kind _) => some kind
  | .call c => c.asked?.map (·.kind)
  | _ => none

theorem Act.lazyKind?_of_asked? {E V C K : Type} {a : Act E V C K} {key : Key E}
    (h : a.asked? = some key) : a.lazyKind? = some key.kind := by
  cases a with
  | call c => cases c <;> cases h <;> rfl
  | _ => cases h

theorem Phase.lazyFor_of_registerLazy {C : Type} {p q : Phase C} {kind : Kind} {c : C}
    (h : p.registerLazy kind c = .ok q) : p.lazyFor kind = none ∧ q.lazyFor kind = some c := by
  have hnew := lazyFor_registerLazy (k := kind) h
  unfold registerLazy at h
  split at h
  · cases h
  · next hnone => exact ⟨hnone, by simpa [hnone] using hnew⟩

namespace CellTable
variable {E V K : Type} [DecidableEq E] {t : CellTable E V K} {key : Key E}

theorem find?_same {k : Key E} (h : k.same key = true) : t.find? k = t.find? key := by
  obtain ⟨hentity, hkind⟩ := Key.same_iff.1 h
  simp only [find?, Key.same, Kind.same, hentity, hkind]

theorem filter_all (h : t.all.Pairwise fun c e => c.key.same e.key = false) :
    t.all.filter (·.key.same key) = (t.find? key).toList := by
  have hlist (l : List (Cell E V K)) (hl : l.Pairwise fun c e => c.key.same e.key = false) :
      l.filter (·.key.same key) = (l.find? (·.key.same key)).toList := by
    induction l with
    | nil => rfl
    | cons c l ih =>
      obtain ⟨hc, hrest⟩ := List.pairwise_cons.1 hl
      by_cases hsame : c.key.same key = true
      · have hothers : l.filter (·.key.same key) = [] := by
          refine List.filter_eq_nil_iff.2 fun e he hkey => ?_
          have := hc e he
          rw [Key.same_trans hsame (Key.same_symm hkey)] at this
          cases this
        simp [hsame, hothers]
      · simpa [hsame] using ih hrest
  rw [find?, all, ← Array.find?_toList]
  exact hlist t.cells.toList h

end CellTable

namespace Store
variable {E V C K : Type} [DecidableEq E] {s r : Store E V C K} {key : Key E}

theorem dueFor_filter (hs : s.Sound) {kind : Kind} (hkind : key.kind.same kind = true)
    (due : Cell E V K → Bool) (c : C) :
    (s.dueFor kind due c).filter (fun p => p.2 = key.entity) =
      if (s.table.find? key).any due then [(c, key.entity)] else [] := by
  have hcells : (s.cells.filter fun cell => cell.key.kind.same kind && due cell).filter
      (fun cell => cell.key.entity = key.entity) =
        (s.cells.filter (·.key.same key)).filter due := by
    rw [List.filter_filter, List.filter_filter]
    refine List.filter_congr fun cell _ => ?_
    have hsame : cell.key.same key =
        (decide (cell.key.entity = key.entity) && cell.key.kind.same kind) := by
      simp only [Key.same, Kind.same, Kind.same_iff.1 hkind]
    rw [hsame, ← Bool.and_assoc, Bool.and_comm]
  rw [dueFor, List.filter_map]
  change ((s.cells.filter _).filter (fun cell => cell.key.entity = key.entity)).map _ = _
  rw [hcells, show s.cells.filter (·.key.same key) = (s.table.find? key).toList from
    CellTable.filter_all hs.distinct_cells]
  cases hf : s.table.find? key with
  | none => rfl
  | some cell =>
    obtain ⟨hentity, -⟩ := Key.same_iff.1 (CellTable.find?_eq_some hs.table hf).2
    cases hdue : due cell <;> simp [hdue, hentity]

variable [DecidableEq V] [Property V] [ToString E] [ToString V]

theorem scheduled_of_enqueue {a : Act E V C K} {l : List (C × E)} (hopen : s.queue.closed = false)
    (h : (s.act a).queue = s.queue.enqueue (l.map fun p => .compute p.1 p.2)) :
    s.scheduled a = l := by
  rw [scheduled, h, Queue.waiting_enqueue hopen, List.drop_left, Task.computations_compute]

theorem scheduled_of_queue {a : Act E V C K} (h : (s.act a).queue = s.queue) :
    s.scheduled a = [] := by
  simp [scheduled, h]

theorem question_cases (hs : s.Sound) {c : Call E V C} (hask : c.asked? = some key)
    (hprovides : s.phase.provides key.kind = true) :
    (s.serve c).2.queue = s.queue ∧ (s.serve c).2.table = s.table ∨
      s.table.find? key = none ∧ s.queue.closed = false ∧
        s.Becomes (s.table.grow key) (s.lazyTasks key) (s.serve c).2 := by
  have hquery {q r : Store E V C K} (hq : s.Becomes s.table [] q) (h : q.Asked key r) :
      r.queue = s.queue ∧ r.table = s.table ∨
        s.table.find? key = none ∧ s.queue.closed = false ∧
          s.Becomes (s.table.grow key) (s.lazyTasks key) r := by
    have hqueue : q.queue = s.queue := by simpa using hq.queue
    cases h with
    | found _ hr => exact .inl ⟨hr ▸ hqueue, hr ▸ hq.table⟩
    | provided hnone hopen _ hr =>
      rw [hq.table, lazyTasks, hq.phase] at hr
      exact .inr ⟨hq.table ▸ hnone, hqueue ▸ hopen, hq.after_quiet hr⟩
    | fellBack hnot _ _ _ =>
      rw [hq.phase, hprovides] at hnot
      cases hnot
  cases c with
  | query k =>
    cases hask
    refine ((query_effect hs key).mono (fun _ _ h => hquery (.refl s) h.2) ?_).answer_snd
    exact fun r hr => .inl ⟨hr ▸ rfl, hr ▸ rfl⟩
  | force k =>
    cases hask
    have htold := trace_becomes s (.force key)
    have hforce : Ends (force key) s
        (fun _ r => r.queue = s.queue ∧ r.table = s.table ∨
          s.table.find? key = none ∧ s.queue.closed = false ∧
            s.Becomes (s.table.grow key) (s.lazyTasks key) r)
        (fun r => r.queue = s.queue ∧ r.table = s.table ∨
          s.table.find? key = none ∧ s.queue.closed = false ∧
            s.Becomes (s.table.grow key) (s.lazyTasks key) r) := by
      refine .write_then (.bind ((query_effect (Steady.of_quiet hs htold).sound key).mono
        (fun _ _ h => hquery htold h.2) ?_) fun _ _ h => .answer h)
      exact fun r hr => .inl ⟨hr ▸ trace_queue s _, hr ▸ trace_table s _⟩
    exact hforce.answer_snd
  | _ => cases hask

/-- What an act schedules lazily: nothing, or a new computation for the keys without a value, or the
computation of the kind for a key that is asked for and has no cell. -/
inductive Lazily (s : Store E V C K) (a : Act E V C K) : Prop
  | nothing (h : s.scheduledAs "lazy" a = [])
  | swept (kind : Kind) (c : C) (phase : Phase C) (ha : a = .call (.registerLazy kind c))
      (hphase : s.phase.registerLazy kind c = .ok phase) (hr : (s.act a).phase = phase)
      (h : s.scheduledAs "lazy" a = s.dueFor kind (·.status.isUnknown) c)
  | asked (k : Key E) (hask : a.asked? = some k) (hnone : s.table.find? k = none)
      (hphase : (s.act a).phase = s.phase) (htable : (s.act a).table = s.table.grow k)
      (h : s.scheduledAs "lazy" a = (s.phase.lazyFor k.kind).toList.map fun c => (c, k.entity))

theorem act_question (hs : s.Sound) {c : Call E V C} (hask : c.asked? = some key)
    (hprovides : s.phase.provides key.kind = true) :
    (s.act (.call c)).table = s.table ∧ s.scheduledAs "lazy" (.call c) = [] ∨
      s.table.find? key = none ∧ (s.act (.call c)).phase = s.phase ∧
        (s.act (.call c)).table = s.table.grow key ∧
        s.scheduledAs "lazy" (.call c) =
          (s.phase.lazyFor key.kind).toList.map fun c => (c, key.entity) := by
  have horigin : s.originOf (.call c : Act E V C K) = "lazy" := by
    cases c <;> cases hask <;> exact if_pos hprovides
  rw [scheduledAs_eq, if_pos horigin]
  rcases question_cases hs hask hprovides with ⟨hqueue, htable⟩ | ⟨hnone, hopen, hr⟩
  · exact .inl ⟨htable, scheduled_of_queue hqueue⟩
  · refine .inr ⟨hnone, hr.phase, hr.table, scheduled_of_enqueue hopen ?_⟩
    rw [List.map_map]
    exact hr.queue

theorem act_lazily (hs : s.Sound) (a : Act E V C K) : s.Lazily a := by
  by_cases horigin : s.originOf a = "lazy"
  · have hasked {c : Call E V C} {k : Key E} (hask : c.asked? = some k)
        (h : (if s.phase.provides k.kind then "lazy" else "triggered") = "lazy") :
        s.Lazily (.call c : Act E V C K) := by
      have hprovides : s.phase.provides k.kind = true := by
        by_contra hnot
        simp [hnot] at h
      rcases act_question hs hask hprovides with ⟨-, hnothing⟩ | ⟨hnone, hphase, htable, hscheduled⟩
      · exact .nothing hnothing
      · exact .asked k hask hnone hphase htable hscheduled
    cases a with
    | call c =>
      cases c with
      | registerLazy kind c =>
        have hscheduled := scheduledAs_eq "lazy" s (.call (.registerLazy kind c) : Act E V C K)
        rw [if_pos horigin] at hscheduled
        rcases (registerLazy_effect kind c s).answer_cases with
          ⟨_, -, hopen, phase, hphase, hr⟩ | ⟨e, -, hr⟩
        · exact .swept kind c phase rfl hphase hr.phase
            (hscheduled.trans (scheduled_of_enqueue hopen hr.queue))
        · exact .nothing (hscheduled.trans (scheduled_of_queue (congrArg queue hr)))
      | query k => exact hasked rfl horigin
      | force k => exact hasked rfl horigin
      | _ => simp [originOf] at horigin
    | perform x => cases x <;> simp [originOf] at horigin
    | _ => simp [originOf] at horigin
  · exact .nothing (by rw [scheduledAs_eq, if_neg horigin])

/-! Runs. -/

/-- What a course of acts schedules lazily for a kind, be it by registering or by asking. -/
def lazilyScheduled (kind : Kind) : Store E V C K → List (Act E V C K) → List (C × E)
  | _, [] => []
  | s, a :: acts =>
    (if a.lazyKind?.any (·.same kind) then s.scheduledAs "lazy" a else []) ++
      (s.act a).lazilyScheduled kind acts

def lazilyFor (key : Key E) (s : Store E V C K) (acts : List (Act E V C K)) : List (C × E) :=
  (s.lazilyScheduled key.kind acts).filter fun p => p.2 = key.entity

theorem lazilyFor_append (key : Key E) (s : Store E V C K) (as bs : List (Act E V C K)) :
    s.lazilyFor key (as ++ bs) = s.lazilyFor key as ++ (s.run as).lazilyFor key bs := by
  induction as generalizing s with
  | nil => rfl
  | cons a as ih =>
    have hrest := ih (s.act a)
    simp only [lazilyFor, List.cons_append, lazilyScheduled, List.filter_append] at hrest ⊢
    rw [hrest, List.append_assoc]
    rfl

theorem lazilyFor_cons (key : Key E) (s : Store E V C K) (a : Act E V C K)
    (acts : List (Act E V C K)) :
    s.lazilyFor key (a :: acts) = s.lazilyFor key [a] ++ (s.act a).lazilyFor key acts :=
  lazilyFor_append key s [a] acts

theorem act_known (h : s.Reachable) (a : Act E V C K) (hknown : s.isKnown key = true) :
    (s.act a).isKnown key = true := by
  refine isKnown_of_keys h.healthy.sound (h.act a).healthy.sound ?_ hknown
  intro i own hi
  obtain ⟨cell, hcell, rfl⟩ := Option.map_eq_some_iff.1 hi
  obtain ⟨cell', hcell', hkey, -⟩ := (act_ages h.healthy.sound a).cell? hcell
  exact Option.map_eq_some_iff.2 ⟨cell', hcell', hkey⟩

theorem run_known (h : s.Reachable) (acts : List (Act E V C K)) (hknown : s.isKnown key = true) :
    (s.run acts).isKnown key = true := by
  induction acts generalizing s with
  | nil => exact hknown
  | cons a acts ih => exact ih (h.act a) (act_known h a hknown)

theorem act_in_force {a : Act E V C K} (h : s.beginsPhase a = false) {kind : Kind} {c : C}
    (hlazy : s.phase.lazyFor kind = some c) : (s.act a).phase.lazyFor kind = some c := by
  cases s.act_rephases a with
  | kept hr => rw [hr, hlazy]
  | begun _ _ ha _ => simp [h] at ha
  | lazily k c' phase _ hphase hr =>
    rw [hr.phase]
    exact (Phase.lazyFor_registerLazy hphase).trans (by rw [hlazy]; rfl)
  | triggered k c' hr =>
    rw [hr]
    exact hlazy

theorem run_in_force {acts : List (Act E V C K)}
    (h : Along (fun s a => s.beginsPhase a = false) s acts) {kind : Kind} {c : C}
    (hlazy : s.phase.lazyFor kind = some c) : (s.run acts).phase.lazyFor kind = some c := by
  induction acts generalizing s with
  | nil => exact hlazy
  | cons a acts ih => exact ih h.2 (act_in_force h.1 hlazy)

/-- While a lazy computation is in force, an act schedules it for a key only if it makes the cell of
the key. -/
theorem lazilyFor_act (h : s.Reachable) {c : C} (hlazy : s.phase.lazyFor key.kind = some c)
    (a : Act E V C K) :
    s.lazilyFor key [a] = [] ∨
      s.lazilyFor key [a] = [(c, key.entity)] ∧ s.isKnown key = false ∧
        (s.act a).isKnown key = true := by
  simp only [lazilyFor, lazilyScheduled, List.append_nil]
  split
  · next hkind =>
    cases act_lazily h.healthy.sound a with
    | nothing hnone => exact .inl (by rw [hnone]; rfl)
    | swept kind c' phase ha hphase _ _ =>
      subst ha
      have hsame : kind.id = key.kind.id := Kind.same_iff.1 hkind
      rw [← Phase.lazyFor_congr hsame, (Phase.lazyFor_of_registerLazy hphase).1] at hlazy
      cases hlazy
    | asked k hask hnone _ htable hscheduled =>
      rw [Act.lazyKind?_of_asked? hask] at hkind
      have hid : k.kind.id = key.kind.id := Kind.same_iff.1 hkind
      rw [hscheduled, Phase.lazyFor_congr hid, hlazy]
      by_cases hentity : k.entity = key.entity
      · right
        have hsame : k.same key = true := Key.same_iff.2 ⟨hentity, hid⟩
        refine ⟨by simp [hentity], ?_, ?_⟩
        · rw [isKnown, ← CellTable.find?_same hsame, hnone]
          rfl
        · rw [isKnown, htable, CellTable.find?_grow, if_pos hsame]
          simp
      · exact .inl (by simp [hentity])
  · exact .inl rfl

theorem lazilyFor_question (h : s.Reachable) {c : C} (hlazy : s.phase.lazyFor key.kind = some c)
    {a : Act E V C K} (hask : a.asked?.any (·.same key) = true)
    (hprovides : s.phase.provides key.kind = true) (hunknown : s.isKnown key = false)
    (hmade : (s.act a).isKnown key = true) : s.lazilyFor key [a] = [(c, key.entity)] := by
  obtain ⟨k, hk, hsame⟩ := (Option.any_eq_true _ _).1 hask
  obtain ⟨hentity, hid⟩ := Key.same_iff.1 hsame
  have hkind : a.lazyKind?.any (·.same key.kind) = true := by
    rw [Act.lazyKind?_of_asked? hk]
    exact Kind.same_iff.2 hid
  cases a with
  | call call =>
    rcases act_question h.healthy.sound (c := call) hk
        (Phase.provides_congr hid s.phase ▸ hprovides) with
      ⟨htable, -⟩ | ⟨-, -, -, hscheduled⟩
    · rw [isKnown, htable, ← isKnown, hunknown] at hmade
      cases hmade
    · rw [lazilyFor, lazilyScheduled, lazilyScheduled, if_pos hkind, List.append_nil, hscheduled,
        Phase.lazyFor_congr hid, hlazy]
      simp [hentity]
  | _ => cases hk

theorem scheduledAs_lazy_registered (hs : s.Sound) {a : Act E V C K} {p : C × E}
    (hp : p ∈ s.scheduledAs "lazy" a) :
    ∃ kind, a.lazyKind? = some kind ∧ (s.act a).phase.lazyFor kind = some p.1 := by
  cases act_lazily hs a with
  | nothing hnone => simp [hnone] at hp
  | swept kind c phase ha hphase hr hscheduled =>
    refine ⟨kind, by rw [ha]; rfl, ?_⟩
    rw [hscheduled] at hp
    obtain ⟨cell, -, rfl⟩ := List.mem_map.1 hp
    rw [hr]
    exact (Phase.lazyFor_of_registerLazy hphase).2
  | asked k hask _ hphase _ hscheduled =>
    refine ⟨k.kind, Act.lazyKind?_of_asked? hask, ?_⟩
    rw [hscheduled] at hp
    obtain ⟨c, hc, rfl⟩ := List.mem_map.1 hp
    rw [hphase]
    exact Option.mem_toList.1 hc

theorem lazilyFor_known (h : s.Reachable) {c : C} (hlazy : s.phase.lazyFor key.kind = some c)
    (hknown : s.isKnown key = true) {acts : List (Act E V C K)}
    (hforce : Along (fun s a => s.beginsPhase a = false) s acts) : s.lazilyFor key acts = [] := by
  induction acts generalizing s with
  | nil => rfl
  | cons a acts ih =>
    rw [lazilyFor_cons, ih (h.act a) (act_in_force hforce.1 hlazy) (act_known h a hknown) hforce.2,
      List.append_nil]
    refine (lazilyFor_act h hlazy a).resolve_right fun hmade => ?_
    rw [hknown] at hmade
    cases hmade.2.1

theorem lazilyFor_unknown (h : s.Reachable) {c : C} (hlazy : s.phase.lazyFor key.kind = some c)
    {acts : List (Act E V C K)} (hforce : Along (fun s a => s.beginsPhase a = false) s acts)
    (hunknown : (s.run acts).isKnown key = false) : s.lazilyFor key acts = [] := by
  induction acts generalizing s with
  | nil => rfl
  | cons a acts ih =>
    rw [lazilyFor_cons, ih (h.act a) (act_in_force hforce.1 hlazy) hforce.2 hunknown,
      List.append_nil]
    refine (lazilyFor_act h hlazy a).resolve_right fun hmade => ?_
    have hlater := run_known (h.act a) acts hmade.2.2
    rw [show (s.act a).run acts = s.run (a :: acts) from rfl, hunknown] at hlater
    cases hlater

theorem lazilyFor_cases (h : s.Reachable) {c : C} (hlazy : s.phase.lazyFor key.kind = some c)
    {acts : List (Act E V C K)} (hforce : Along (fun s a => s.beginsPhase a = false) s acts) :
    s.lazilyFor key acts = [] ∨ s.lazilyFor key acts = [(c, key.entity)] := by
  induction acts generalizing s with
  | nil => exact .inl rfl
  | cons a acts ih =>
    have hnext := act_in_force hforce.1 hlazy
    rw [lazilyFor_cons]
    cases lazilyFor_act h hlazy a with
    | inl hnothing =>
      rw [hnothing]
      exact ih (h.act a) hnext hforce.2
    | inr hmade =>
      rw [hmade.1, lazilyFor_known (h.act a) hnext hmade.2.2 hforce.2]
      exact .inr rfl

theorem lazilyFor_registration (h : s.Reachable) {kind : Kind} {c : C}
    (hkind : key.kind.same kind = true) (hreg : (s.serve (.registerLazy kind c)).1 = .ok ()) :
    (s.act (.call (.registerLazy kind c))).phase.lazyFor key.kind = some c ∧
    (s.act (.call (.registerLazy kind c))).isKnown key = s.isKnown key ∧
    s.lazilyFor key [.call (.registerLazy kind c)] =
      if s.isBlank key then [(c, key.entity)] else [] := by
  rcases (registerLazy_effect kind c s).answer_cases with
    ⟨_, -, hopen, phase, hphase, hr⟩ | ⟨e, he, -⟩
  · have hid := Kind.same_iff.1 hkind
    have hsame : Act.lazyKind? (.call (.registerLazy kind c) : Act E V C K) |>.any
        (·.same key.kind) := by
      simpa [Act.lazyKind?] using hid.symm
    have hscheduled : s.scheduledAs "lazy" (.call (.registerLazy kind c)) =
        s.dueFor kind (·.status.isUnknown) c := by
      rw [scheduledAs_eq]
      exact (if_pos rfl).trans (scheduled_of_enqueue hopen hr.queue)
    refine ⟨?_, congrArg (fun t => (CellTable.find? t key).isSome) hr.table, ?_⟩
    · rw [Phase.lazyFor_congr hid]
      exact (congrArg (Phase.lazyFor · kind) hr.phase).trans
        (Phase.lazyFor_of_registerLazy hphase).2
    · rw [lazilyFor, lazilyScheduled, lazilyScheduled, if_pos hsame, List.append_nil, hscheduled,
        dueFor_filter h.healthy.sound hkind, isBlank]
  · cases he.symm.trans hreg

/-- A lazy computation that is registered is scheduled at most once for each key of its kind, as
long as it is in force, whatever is asked, forced, updated or mentioned in which order. It is
scheduled exactly once if the key had a cell without a value when it was registered, or if later a
question makes the cell while the kind is going to be computed; and never if the key had a value.
All that is scheduled lazily is scheduled by an act about the kind it is registered for. -/
theorem lazy_at_most_once (config : Config) (tracer : Tracer E V) (cores : Nat)
    (before later : List (Act E V C K)) (kind : Kind) (c : C) (key : Key E)
    (hkind : key.kind.same kind = true) :
    let s : Store E V C K := (create config tracer cores).run before
    let registration : Act E V C K := .call (.registerLazy kind c)
    let scheduled := s.lazilyFor key (registration :: later)
    (s.serve (.registerLazy kind c)).1 = .ok () →
    Along (fun q a => q.beginsPhase a = false) (s.act registration) later →
      (scheduled = [] ∨ scheduled = [(c, key.entity)]) ∧
      (s.isBlank key = true → scheduled = [(c, key.entity)]) ∧
      (s.hasProperty key = true → scheduled = []) ∧
      (∀ first a rest, later = first ++ a :: rest →
        let q := (s.act registration).run first
        q.isKnown key = false → a.asked?.any (·.same key) = true → q.phase.provides kind = true →
          (q.act a).isKnown key = true → scheduled = [(c, key.entity)]) ∧
      ∀ first a rest, registration :: later = first ++ a :: rest →
        ∀ p ∈ (s.run first).scheduledAs "lazy" a, ∃ k, a.lazyKind? = some k ∧
          ((s.run first).act a).phase.lazyFor k = some p.1 := by
  intro s registration scheduled hreg hforce
  have hs : s.Reachable := (Reachable.create config tracer cores).run before
  obtain ⟨hlazy, hknown, hswept⟩ := lazilyFor_registration hs hkind hreg
  have hsplit : scheduled = (if s.isBlank key then [(c, key.entity)] else []) ++
      (s.act registration).lazilyFor key later := by
    rw [← hswept]
    exact lazilyFor_cons key s registration later
  have hreach : (s.act registration).Reachable := hs.act registration
  have hblank : s.isBlank key = true → scheduled = [(c, key.entity)] := by
    intro hb
    obtain ⟨cell, hcell, -⟩ := isBlank_iff.1 hb
    rw [hsplit, if_pos hb, lazilyFor_known hreach hlazy
      (hknown.trans (by simp [isKnown, hcell])) hforce]
    rfl
  refine ⟨?_, hblank, ?_, ?_, ?_⟩
  · by_cases hb : s.isBlank key = true
    · exact .inr (hblank hb)
    · rw [hsplit, if_neg hb]
      exact lazilyFor_cases hreach hlazy hforce
  · intro hvalue
    obtain ⟨cell, hcell, hcv⟩ := (Option.any_eq_true _ _).1 hvalue
    have hnot : ¬ s.isBlank key = true := by
      intro hb
      obtain ⟨cell', hcell', hunknown⟩ := isBlank_iff.1 hb
      obtain rfl : cell = cell' := Option.some.inj (hcell.symm.trans hcell')
      simp [Status.hasValue, hunknown] at hcv
    rw [hsplit, if_neg hnot, lazilyFor_known hreach hlazy
      (hknown.trans (by simp [isKnown, hcell])) hforce]
    rfl
  · intro first a rest hlater q hunknown hask hprovides hmade
    have hnot : ¬ s.isBlank key = true := by
      intro hb
      obtain ⟨cell, hcell, -⟩ := isBlank_iff.1 hb
      have hstays : q.isKnown key = true :=
        run_known hreach first (hknown.trans (by simp [isKnown, hcell]))
      rw [hunknown] at hstays
      cases hstays
    rw [hlater, along_append] at hforce
    have hlazyq : q.phase.lazyFor key.kind = some c := run_in_force hforce.1 hlazy
    have hprovided : q.phase.provides key.kind = true :=
      Phase.provides_congr (Kind.same_iff.1 hkind) q.phase ▸ hprovides
    rw [hsplit, if_neg hnot, hlater, lazilyFor_append,
      lazilyFor_unknown hreach hlazy hforce.1 hunknown,
      lazilyFor_cons, lazilyFor_question (hreach.run first) hlazyq hask hprovided hunknown hmade,
      lazilyFor_known ((hreach.run first).act a) (act_in_force hforce.2.1 hlazyq) hmade hforce.2.2]
    rfl
  · intro first a rest _ p hp
    exact scheduledAs_lazy_registered (hs.run first).healthy.sound hp

def beforeLazy : List (Act Element Fact Unit Nat) :=
  [registerPurity, .call (.query (purityOf 1)), .call (.setFinal ⟨purityOf 2, ⟨0, .purity .pure⟩⟩)]

def afterLazy : List (Act Element Fact Unit Nat) :=
  [.call (.force (purityOf 1)), .call (.query (purityOf 2)), .call (.query (purityOf 3)),
    .call (.force (purityOf 3))]

theorem purity_lazy_at_most_once :
    let s : Store Element Fact Unit Nat := (create {} .none 1).run beforeLazy
    let acts := .call (.registerLazy FactSort.purity.kind ()) :: afterLazy
    s.lazilyFor (purityOf 1) acts = [((), .method 1)] ∧ s.lazilyFor (purityOf 2) acts = [] ∧
      s.lazilyFor (purityOf 3) acts = [((), .method 3)] := by
  have hreg : (((create {} .none 1).run beforeLazy).serve
      (.registerLazy FactSort.purity.kind ())).1 = .ok () := rfl
  have hforce : Along (fun q a => q.beginsPhase a = false)
      (((create {} .none 1).run beforeLazy).act (.call (.registerLazy FactSort.purity.kind ())))
      afterLazy := by
    decide +kernel
  have honce (key : Key Element) (hkey : key.kind.same FactSort.purity.kind = true) :=
    lazy_at_most_once {} .none 1 beforeLazy afterLazy FactSort.purity.kind () key hkey hreg hforce
  refine ⟨(honce (purityOf 1) rfl).2.1 (by decide +kernel),
    (honce (purityOf 2) rfl).2.2.1 (by decide +kernel), ?_⟩
  refine (honce (purityOf 3) rfl).2.2.2.1 [.call (.force (purityOf 1)), .call (.query (purityOf 2))]
    (.call (.query (purityOf 3))) [.call (.force (purityOf 3))] rfl ?_ ?_ ?_ ?_
  all_goals decide +kernel

end Store
end Blackboard
