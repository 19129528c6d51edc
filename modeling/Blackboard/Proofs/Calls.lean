import Blackboard.Proofs.Handling
import Blackboard.Script

/-! What a call does to a store: cells are made and computations scheduled, or one cell becomes
final, or the store is closed. -/
namespace Blackboard

namespace Schema
variable {E V : Type}

theorem find?_place {info : KindInfo E V} {kind : Kind} {infos : List (KindInfo E V)}
    (h : info.kind.same kind = false) :
    (place info infos).find? (·.kind.same kind) = infos.find? (·.kind.same kind) := by
  induction infos with
  | nil => simp [place, h]
  | cons i rest ih =>
    unfold place
    split
    · rw [List.find?_cons_of_neg (by simp [h])]
    · rw [List.find?_cons, List.find?_cons, ih]

theorem find?_register {schema schema' : Schema E V} {info i : KindInfo E V} {kind : Kind}
    (h : schema.register info = .ok schema') (hk : schema.find? kind = some i) :
    schema'.find? kind = some i := by
  unfold register at h
  split at h
  · cases h
  · next hnone =>
    cases h
    refine (find?_place ?_).trans hk
    by_contra hsame
    have heq : schema.find? info.kind = schema.find? kind :=
      find?_congr (Kind.same_iff.1 (by simpa using hsame))
    simp [heq, hk] at hnone

end Schema

def Call.given? {E V C : Type} : Call E V C → Option (Final E V)
  | .setFinal ep => some ep
  | _ => none

def Call.asked? {E V C : Type} : Call E V C → Option (Key E)
  | .query key | .force key => some key
  | _ => none

namespace Store
variable {E V C K : Type}

def inPhase (s : Store E V C K) (phase : Phase C) : Store E V C K := { s with phase }

theorem checkRunning_open (s : Store E V C K) :
    Ends checkRunning s (fun _ r => r = s ∧ s.queue.closed = false) (· = s) := by
  refine .read ?_
  split
  · exact .failure rfl
  · next hrunning => exact .answer ⟨rfl, by simpa [isShutdown] using hrunning⟩

theorem checkRunning_ends (s : Store E V C K) : Ends checkRunning s (fun _ r => r = s) (· = s) :=
  (checkRunning_open s).mono (fun _ _ h => h.1) fun _ h => h

theorem infosOf_ends (kinds : List Kind) (s : Store E V C K) :
    Ends (kinds.forM fun kind => discard (infoOf kind)) s (fun _ r => r = s) (· = s) := by
  induction kinds with
  | nil => exact .answer rfl
  | cons kind kinds ih =>
    have first : Ends (discard (infoOf kind)) s (fun _ r => r = s) (· = s) := by
      refine .bind (infoOf_ends kind s) ?_
      rintro info r ⟨rfl, -⟩
      exact .answer rfl
    refine .bind first ?_
    rintro _ r rfl
    exact ih

theorem setupPhase_effect (computed delayed : List Kind) (s : Store E V C K) :
    Ends (setupPhase computed delayed) s
      (fun _ r => (s.inPhase (.of computed delayed)).Becomes s.table [] r) (· = s) := by
  refine .bind (checkRunning_ends s) ?_
  rintro _ r rfl
  refine .bind (infosOf_ends (computed ++ delayed) r) ?_
  rintro _ r rfl
  refine .write_then (.write ?_)
  constructor <;> simp [inPhase, notify]

/-- The entities that a computation is scheduled for when it is registered: those with a cell that
is due. -/
def dueFor (s : Store E V C K) (kind : Kind) (due : Cell E V K → Bool) (c : C) : List (C × E) :=
  (s.cells.filter fun cell => cell.key.kind.same kind && due cell).map fun cell =>
    (c, cell.key.entity)

theorem schedule_due (origin : String) (s : Store E V C K) (kind : Kind)
    (due : Cell E V K → Bool) (c : C) :
    s.Becomes s.table ((s.dueFor kind due c).map fun p => .compute p.1 p.2)
      ((s.cells.filter fun cell => cell.key.kind.same kind && due cell).foldl
        (fun s cell => s.schedule origin c cell.key.entity) s) := by
  have h := scheduleAll_becomes origin s (s.dueFor kind due c)
  unfold dueFor at h
  rwa [List.foldl_map] at h

theorem registerLazy_effect (kind : Kind) (c : C) (s : Store E V C K) :
    Ends (registerLazy kind c) s
      (fun _ r => s.queue.closed = false ∧ ∃ phase, s.phase.registerLazy kind c = .ok phase ∧
        (s.inPhase phase).Becomes s.table
          ((s.dueFor kind (·.status.isUnknown) c).map fun p => .compute p.1 p.2) r)
      (· = s) := by
  refine .bind (checkRunning_open s) ?_
  rintro _ r ⟨rfl, hopen⟩
  refine .bind (infoOf_ends kind r) ?_
  rintro info r ⟨rfl, -⟩
  refine .read ?_
  split
  · exact .failure rfl
  · next phase hphase =>
    have htold : (r.inPhase phase).Becomes r.table []
        ((r.inPhase phase).notify (.registeredLazy kind)) :=
      notify_becomes _ _
    exact .write_then (.write_then
      (.write ⟨hopen, phase, hphase, htold.trans (schedule_due "lazy" _ kind _ c)⟩))

theorem registerTriggered_effect (kind : Kind) (c : C) (s : Store E V C K) :
    Ends (registerTriggered kind c) s
      (fun _ r => (s.inPhase (s.phase.registerTriggered kind c)).Becomes s.table
        ((s.dueFor kind (·.triggered) c).map fun p => .compute p.1 p.2) r)
      (· = s) := by
  refine .bind (checkRunning_ends s) ?_
  rintro _ r rfl
  refine .bind (infoOf_ends kind r) ?_
  rintro info r ⟨rfl, -⟩
  have htold : (r.inPhase (r.phase.registerTriggered kind c)).Becomes r.table []
      ((r.inPhase (r.phase.registerTriggered kind c)).notify (.registeredTriggered kind)) :=
        notify_becomes _ _
  exact .write_then (.write_then (.write (htold.trans (schedule_due "triggered" _ kind _ c))))

theorem scheduleEager_effect (entities : List E) (c : C) (s : Store E V C K) :
    Ends (scheduleEager entities c) s
      (fun _ r =>
        s.Becomes s.table ((entities.map fun e => (c, e)).map fun p => .compute p.1 p.2) r)
      (· = s) := by
  refine .bind (checkRunning_ends s) ?_
  rintro _ r rfl
  have h := scheduleAll_becomes "eager" r (entities.map fun e => (c, e))
  rw [List.foldl_map] at h
  exact .write h

theorem Ends.answer_snd {α : Type} {op : Op E V C K α} {s : Store E V C K}
    {P : Store E V C K → Prop} (h : Ends op s (fun _ r => P r) P) : P (s.answer op).2 := by
  unfold Store.answer
  cases hr : op s with
  | ok a r => exact h.of_ok hr
  | error e r => exact h.of_error hr

variable [DecidableEq E]

/-- Cells were made, kinds registered and computations scheduled; nothing that sleeps or is settled
was touched. -/
structure Steady (s r : Store E V C K) : Prop where
  config : r.config = s.config
  kinds : ∀ {kind info}, s.schema.find? kind = some info → r.schema.find? kind = some info
  grown : s.table.Grown r.table
  queue : ∃ tasks : List (C × E), r.queue = s.queue.enqueue (tasks.map fun p => .compute p.1 p.2)
  fault : r.fault = s.fault
  sound : r.Sound

namespace Steady
variable {s q r : Store E V C K}

theorem refl (h : s.Sound) : s.Steady s := ⟨rfl, fun h => h, .refl _, ⟨[], by simp⟩, rfl, h⟩

theorem trans (h : s.Steady q) (h' : q.Steady r) : s.Steady r := by
  obtain ⟨a, ha⟩ := h.queue
  obtain ⟨b, hb⟩ := h'.queue
  refine ⟨h'.config.trans h.config, fun hk => h'.kinds (h.kinds hk), h.grown.trans h'.grown,
    ⟨a ++ b, ?_⟩, h'.fault.trans h.fault, h'.sound⟩
  rw [hb, ha, Queue.enqueue_enqueue, List.map_append]

theorem of_grows (h : s.Grows r) : s.Steady r :=
  ⟨h.becomes.config, fun hk => h.becomes.schema ▸ hk, h.grown, ⟨[], h.becomes.queue⟩,
    h.becomes.fault, h.sound⟩

theorem of_table (h : s.Sound) (ht : r.table = s.table) (hc : r.config = s.config)
    (hf : r.fault = s.fault)
    (hq : ∃ tasks : List (C × E), r.queue = s.queue.enqueue (tasks.map fun p => .compute p.1 p.2))
    (hk : ∀ {kind info}, s.schema.find? kind = some info → r.schema.find? kind = some info) :
    s.Steady r := by
  refine ⟨hc, hk, ht ▸ .refl _, hq, hf, ht ▸ h.table, ?_⟩
  intro i c hcell
  obtain ⟨info, hinfo⟩ := Option.isSome_iff_exists.1 (h.registered (ht ▸ hcell))
  simp [hk hinfo]

theorem of_rephased {phase : Phase C} {tasks : List (C × E)} (hs : s.Sound)
    (h : (s.inPhase phase).Becomes s.table (tasks.map fun p => .compute p.1 p.2) r) : s.Steady r :=
  of_table hs h.table h.config h.fault ⟨tasks, h.queue⟩ fun hk => h.schema ▸ hk

theorem of_becomes {tasks : List (C × E)} (hs : s.Sound)
    (h : s.Becomes s.table (tasks.map fun p => .compute p.1 p.2) r) : s.Steady r := of_rephased hs h

theorem of_quiet (hs : s.Sound) (h : s.Becomes s.table [] r) : s.Steady r :=
  of_table hs h.table h.config h.fault ⟨[], h.queue⟩ fun hk => h.schema ▸ hk

end Steady

/-! Registering. -/

theorem registerKind_ends {s : Store E V C K} (hs : s.Sound) (info : KindInfo E V) :
    Ends (registerKind info) s (fun _ r => s.Steady r) (s.Steady ·) := by
  refine .bind ((checkRunning_ends s).mono (fun _ _ h => h) ?_) ?_
  · rintro r rfl
    exact .refl hs
  rintro _ r rfl
  refine .write_then (.read ?_)
  have hnotify : r.Steady (r.notify (.registeringKind info.kind)) :=
    .of_quiet hs (notify_becomes _ _)
  cases h : (r.notify (.registeringKind info.kind)).schema.register info with
  | error e => exact .failure hnotify
  | ok schema =>
    exact .write (.of_table hs rfl rfl rfl ⟨[], by simp [notify]⟩ fun hk =>
      Schema.find?_register h hk)

theorem setupPhase_ends {s : Store E V C K} (hs : s.Sound) (computed delayed : List Kind) :
    Ends (setupPhase computed delayed) s (fun _ r => s.Steady r) (s.Steady ·) :=
  (setupPhase_effect computed delayed s).mono
    (fun _ _ h => .of_table hs h.table h.config h.fault ⟨[], h.queue⟩ fun hk => h.schema ▸ hk)
    (by rintro _ rfl; exact .refl hs)

theorem registerLazy_ends {s : Store E V C K} (hs : s.Sound) (kind : Kind) (c : C) :
    Ends (registerLazy kind c) s (fun _ r => s.Steady r) (s.Steady ·) :=
  (registerLazy_effect kind c s).mono (fun _ _ ⟨_, _, _, h⟩ => .of_rephased hs h)
    (by rintro _ rfl; exact .refl hs)

theorem registerTriggered_ends {s : Store E V C K} (hs : s.Sound) (kind : Kind) (c : C) :
    Ends (registerTriggered kind c) s (fun _ r => s.Steady r) (s.Steady ·) :=
  (registerTriggered_effect kind c s).mono (fun _ _ h => .of_rephased hs h)
    (by rintro _ rfl; exact .refl hs)

theorem scheduleEager_ends {s : Store E V C K} (hs : s.Sound) (entities : List E) (c : C) :
    Ends (scheduleEager entities c) s (fun _ r => s.Steady r) (s.Steady ·) :=
  (scheduleEager_effect entities c s).mono (fun _ _ h => .of_becomes hs h)
    (by rintro _ rfl; exact .refl hs)

/-! Asking. -/

theorem askFor_ends {s : Store E V C K} (hs : s.Sound) {key : Key E}
    (hk : (s.schema.find? key.kind).isSome) :
    Ends (askFor key) s (fun _ r => s.Steady r) (s.Steady ·) := by
  refine .bind ((getOrCreate_ends hs hk).mono (fun _ _ h => h) ?_) ?_
  · rintro r rfl
    exact .refl hs
  rintro ⟨c, created⟩ q ⟨hgrows, -⟩
  have hq := Steady.of_grows hgrows
  cases created with
  | false => exact .answer hq
  | true =>
    refine .read ?_
    split
    · next comp _ =>
      have hask : q.Becomes q.table ([(comp, key.entity)].map fun p => .compute p.1 p.2) _ :=
        schedule_becomes "lazy" q comp key.entity
      exact .write (hq.trans (.of_becomes hq.sound hask))
    · exact .answer hq

variable [DecidableEq V] [Property V] [ToString E]

/-- A call leaves what sleeps and what is settled alone, or makes one cell final: that of the value
it was given, or that of the key it asked for, which nobody computes. -/
inductive Served (s : Store E V C K) (given : Option (Final E V)) (asked : Option (Key E))
    (r : Store E V C K) : Prop
  | steady (h : s.Steady r)
  | settled (q : Store E V C K) (c : Cell E V K) (ep : Final E V) (hq : s.Steady q)
      (hc : q.table.cell? c.id = some c) (hkey : c.key.same ep.key = true)
      (hfit : c.Fits (.final ep)) (hcheck : q.Checks c (.final ep)) (hr : q.Takes c (.final ep) r)
      (why : given = some ep ∨ given = none ∧ c.suspension = none ∧
        ∃ key, asked = some key ∧ c.key.same key = true ∧ s.phase.isComputed key.kind = false)

theorem Served.after_quiet {s q r : Store E V C K} {given : Option (Final E V)}
    {asked : Option (Key E)} (hs : s.Sound) (hquiet : s.Becomes s.table [] q)
    (h' : q.Served given asked r) : s.Served given asked r := by
  have h := Steady.of_quiet hs hquiet
  cases h' with
  | steady hr => exact .steady (h.trans hr)
  | settled q' c ep hq hc hkey hfit hcheck hr why =>
    exact .settled q' c ep (h.trans hq) hc hkey hfit hcheck hr (hquiet.phase ▸ why)

variable [ToString V]

theorem setFinal_ends {s : Store E V C K} (hs : s.Sound) (ep : Final E V) :
    Ends (setFinal ep) s
      (fun _ r => ∃ q c, s.Steady q ∧ q.table.cell? c.id = some c ∧ c.key.same ep.key = true ∧
        c.Fits (.final ep) ∧ q.Checks c (.final ep) ∧ q.Takes c (.final ep) r)
      (s.Steady ·) := by
  refine .bind ((checkRunning_ends s).mono (fun _ _ h => h) ?_) ?_
  · rintro r rfl
    exact .refl hs
  rintro _ r rfl
  refine (installFinal_ends hs ep).mono ?_ fun _ h => .of_grows h
  rintro _ r ⟨q, c, hgrows, hrest⟩
  exact ⟨q, c, .of_grows hgrows, hrest⟩

theorem fallBackNow_ends {s : Store E V C K} (hs : s.Sound) {info : KindInfo E V} {key : Key E}
    (hinfo : s.schema.find? key.kind = some info) (hnot : s.phase.isComputed key.kind = false) :
    Ends (fallBackNow info key) s (fun _ r => s.Served none (some key) r)
      (s.Served none (some key) ·) := by
  refine .read (.bind ((getOrCreate_ends hs (by simp [hinfo])).mono (fun _ _ h => h) ?_) ?_)
  · rintro r rfl
    exact .steady (.refl hs)
  rintro ⟨c, created⟩ q ⟨hgrows, hc, hkey, hnew⟩
  cases created with
  | false => exact .answer (.steady (.of_grows hgrows))
  | true =>
    refine .bind ((freshStamp_ends q).mono (fun _ _ h => h) fun _ h => h.elim) ?_
    intro stamp q₁ hstamp
    -- counting and tracing leave the new cell where it is
    have hquiet := (hstamp.then_quiet
      (count_becomes q₁ fun n => { n with fallbacks := n.fallbacks + 1 })).then_quiet
      (trace_becomes _ (.fallback (info.fallbackFor (s.phase.reason key.kind) stamp key.entity)
        (s.phase.reason key.kind)))
    have hsteady := Steady.of_quiet hgrows.sound hquiet
    have hq : s.Steady _ := (Steady.of_grows hgrows).trans hsteady
    have hc' := hquiet.table ▸ hc
    refine .write_then (.write_then ?_)
    refine .bind ((carryOut_ends _ _).mono (fun _ _ h => h) ?_) ?_
    · rintro r rfl
      exact .steady hq
    rintro u _ ⟨c', hup, rfl⟩
    obtain ⟨hfit, -, hr⟩ := Cell.update_eq_ok hup
    obtain ⟨rfl, rfl⟩ := Prod.mk.inj hr
    have hnew := (hnew rfl).2
    refine .write (.settled _ c _ hq hc' (Key.same_symm hfit.key) hfit ?_
      (takes_afterUpdate hsteady.sound.table hc' hfit rfl rfl (.refl _))
      (.inr ⟨rfl, congrArg Cell.suspension hnew, key, rfl, hkey, hnot⟩))
    -- anything follows a cell without a value
    have hunknown : c.status = .unknown key := congrArg Cell.status hnew
    intro _
    rw [hunknown]
    rfl

theorem query_ends {s : Store E V C K} (hs : s.Sound) (key : Key E) :
    Ends (query key) s (fun _ r => s.Served none (some key) r) (s.Served none (some key) ·) := by
  refine .bind ((checkRunning_ends s).mono (fun _ _ h => h) ?_) ?_
  · rintro r rfl
    exact .steady (.refl hs)
  rintro _ r rfl
  refine .read ?_
  have hrest : ∀ q : Store E V C K, r.Served none (some key) q →
      Ends (do return (← get).statusOf key) q (fun _ q => r.Served none (some key) q)
        (r.Served none (some key) ·) :=
    fun q hq => .read (.answer hq)
  split
  · refine .bind ((infoOf_ends key.kind r).mono (fun _ _ h => h) ?_) ?_
    · rintro r rfl
      exact .steady (.refl hs)
    rintro info r ⟨rfl, hinfo⟩
    refine .read ?_
    dsimp only
    split
    · exact .bind ((askFor_ends hs (by simp [hinfo])).mono (fun _ _ h => .steady h)
        fun _ h => .steady h) fun _ q hq => hrest q hq
    · next hnot =>
      simp only [Bool.or_eq_true, not_or, Bool.not_eq_true] at hnot
      exact .bind (fallBackNow_ends hs hinfo hnot.1) fun _ q hq => hrest q hq
  · exact hrest r (.steady (.refl hs))

theorem force_ends {s : Store E V C K} (hs : s.Sound) (key : Key E) :
    Ends (force key) s (fun _ r => s.Served none (some key) r) (s.Served none (some key) ·) := by
  have htrace : s.Becomes s.table [] (s.trace (.force key)) := trace_becomes _ _
  refine .write_then (.bind ((query_ends (Steady.of_quiet hs htrace).sound key).mono ?_ ?_)
    fun _ _ h => .answer h)
  · exact fun _ _ h => h.after_quiet hs htrace
  · exact fun _ h => h.after_quiet hs htrace

/-! Any call. -/

theorem serve_cases {s : Store E V C K} (hs : s.Sound) (c : Call E V C) :
    (c = .shutdown ∧ (s.serve c).2 = s.shutdown) ∨ s.Served c.given? c.asked? (s.serve c).2 := by
  cases c with
  | shutdown => exact .inl ⟨rfl, rfl⟩
  | registerKind info => exact .inr (.steady (registerKind_ends hs info).answer_snd)
  | setupPhase computed delayed =>
    exact .inr (.steady (setupPhase_ends hs computed delayed).answer_snd)
  | registerLazy kind c => exact .inr (.steady (registerLazy_ends hs kind c).answer_snd)
  | registerTriggered kind c => exact .inr (.steady (registerTriggered_ends hs kind c).answer_snd)
  | scheduleEager entities c => exact .inr (.steady (scheduleEager_ends hs entities c).answer_snd)
  | setFinal ep =>
    refine .inr (((setFinal_ends hs ep).mono ?_ fun _ h => .steady h).answer_snd)
    rintro _ r ⟨q, c, hq, hc, hkey, hfit, hcheck, htakes⟩
    exact .settled q c ep hq hc hkey hfit hcheck htakes (.inl rfl)
  | query key => exact .inr (query_ends hs key).answer_snd
  | force key => exact .inr (force_ends hs key).answer_snd
  | stamp => exact .inr (.steady (.of_table hs rfl rfl rfl ⟨[], by simp [serve]⟩ fun hk => hk))
  | drainEvents =>
    have hr : s.Becomes s.table [] (s.serve (.drainEvents : Call E V C)).2 := by
      change s.Becomes s.table [] s.drainRecords.2
      unfold drainRecords
      split
      · constructor <;> simp
      · exact .refl s
    exact .inr (.steady (.of_quiet hs hr))
  | hasProperty | isKnown | ofKind | finalsOfKind | entitiesWith | properties | isShutdown
    | statistics
    | config | isTraced | events => exact .inr (.steady (.refl hs))

end Store
end Blackboard
