import Blackboard.Proofs.Contributions
import Blackboard.Proofs.Lifecycle
import Blackboard.Proofs.Lockstep
import Blackboard.Proofs.Success

/-! Asking gets things computed. Who asks for a key and is told that nothing is known may count on a
value, now or in a later phase, and on the lazy computation of the kind if there is one. A question
does nothing for a key that has a cell, though, and so passes over cells made in other ways: by a
result that mentions the key, or in an earlier phase. -/
namespace Blackboard

def Phase.provides {C : Type} (p : Phase C) (kind : Kind) : Bool :=
  p.isComputed kind || p.isDelayed kind

def Task.computation? {E C K : Type} : Task E C K → Option (C × E)
  | .compute c e => some (c, e)
  | .resume _ _ _ => none

def Act.performs {E V C K : Type} : Act E V C K → Bool
  | .perform _ => true
  | _ => false

theorem Call.setsPhase_of_asked? {E V C : Type} (c : Call E V C) {key : Key E}
    (h : c.asked? = some key) : c.setsPhase = false := by
  cases c <;> simp [asked?] at h <;> rfl

namespace Phase
variable {C : Type} {a b : Kind}

theorem provides_congr (h : a.id = b.id) (p : Phase C) : p.provides a = p.provides b := by
  simp only [provides, isComputed, isDelayed, Kind.same, h]

theorem lazyFor_congr (h : a.id = b.id) (p : Phase C) : p.lazyFor a = p.lazyFor b := by
  simp only [lazyFor, Kind.same, h]

theorem lazyFor_registerLazy {p q : Phase C} {kind k : Kind} {c : C}
    (h : p.registerLazy kind c = .ok q) :
    q.lazyFor k = (p.lazyFor k).or (if kind.same k then some c else none) := by
  unfold registerLazy at h
  split at h
  · cases h
  · cases h
    simp only [lazyFor, List.find?_append, List.find?_singleton]
    cases p.lazy.find? (·.1.same k) with
    | some entry => rfl
    | none => by_cases hk : kind.same k = true <;> simp [hk]

theorem provides_registerLazy {p q : Phase C} {kind k : Kind} {c : C}
    (h : p.registerLazy kind c = .ok q) : q.provides k = p.provides k := by
  unfold registerLazy at h
  split at h
  · cases h
  · cases h
    rfl

end Phase

namespace Store
variable {E V C K : Type} {s q r : Store E V C K}

theorem Ends.answer_cases {α : Type} {op : Op E V C K α} {ok : α → Store E V C K → Prop}
    {bad : Store E V C K → Prop} (h : Ends op s ok bad) :
    (∃ a, (s.answer op).1 = .ok a ∧ ok a (s.answer op).2) ∨ ∃ e, (s.answer op).1 = .error e ∧
      bad (s.answer op).2 := by
  unfold Store.answer
  cases hr : op s with
  | ok a r => exact .inl ⟨a, rfl, h.of_ok hr⟩
  | error e r => exact .inr ⟨e, rfl, h.of_error hr⟩

theorem registerKind_table (info : KindInfo E V) (s : Store E V C K) :
    Ends (registerKind info) s (fun _ r => r.table = s.table) (·.table = s.table) := by
  refine .bind ((checkRunning_ends s).mono (fun _ _ h => h) fun _ h => h ▸ rfl) ?_
  intro _ r hr
  subst hr
  refine .write_then (.read ?_)
  split
  · exact .write rfl
  · exact .failure rfl

variable [DecidableEq E] {key : Key E}

def isBlank (s : Store E V C K) (key : Key E) : Bool := (s.table.find? key).any (·.status.isUnknown)

theorem isBlank_iff : s.isBlank key = true ↔
    ∃ c, s.table.find? key = some c ∧ c.status.isUnknown = true := by
  simp [isBlank, Option.any_eq_true]

theorem isBlank_congr (h : r.table = s.table) : r.isBlank key = s.isBlank key := by
  rw [isBlank, h, isBlank]

theorem unknown_of_isBlank (h : s.isBlank key = true) : (s.statusOf key).isUnknown = true := by
  obtain ⟨c, hc, hu⟩ := isBlank_iff.1 h
  rw [statusOf_found hc]
  exact hu

theorem Ages.blank (h : s.Ages r) (hs : s.Sound) (hr : r.Sound) (hknown : s.isKnown key = true)
    (hb : r.isBlank key = true) : s.isBlank key = true := by
  obtain ⟨c, hc⟩ := Option.isSome_iff_exists.1 hknown
  obtain ⟨hcell, hkey⟩ := CellTable.find?_eq_some hs.table hc
  obtain ⟨new, hface, hvalue, -⟩ := h.cells (CellTable.face?_of_cell? hcell)
  have hnew : new.isUnknown = true := statusOf_of_face? hr hface hkey ▸ unknown_of_isBlank hb
  refine isBlank_iff.2 ⟨c, hc, ?_⟩
  by_contra hnot
  have := hvalue (by simp [Status.hasValue, hnot])
  simp [Status.hasValue, hnew] at this

def NoNewBlank (s r : Store E V C K) : Prop := ∀ key, r.isBlank key = true → s.isBlank key = true

theorem NoNewBlank.refl (s : Store E V C K) : s.NoNewBlank s := fun _ h => h

theorem NoNewBlank.of_keys (h : s.Ages r) (hs : s.Sound) (hr : r.Sound)
    (hk : ∀ i, r.table.key? i = s.table.key? i) : s.NoNewBlank r := by
  intro key hb
  obtain ⟨c, hc, -⟩ := isBlank_iff.1 hb
  have hknown : s.isKnown key = true :=
    isKnown_of_keys hr hs (fun i own hi => (hk i).symm.trans hi) (by simp [isKnown, hc])
  exact h.blank hs hr hknown hb

theorem blank_of_grow (h : r.table = s.table.grow key) {k : Key E} (hb : r.isBlank k = true) :
    s.isBlank k = true ∨ key.same k = true := by
  by_cases hk : key.same k = true
  · exact .inr hk
  · left
    simpa [isBlank, h, CellTable.find?_grow, hk] using hb

theorem blank_grow (h : r.table = s.table.grow key) (hnone : s.table.find? key = none) :
    r.isBlank key = true := by
  simp [isBlank, h, CellTable.find?_grow, hnone, Cell.create, Status.isUnknown]

theorem cellOf_effect (key : Key E) (s : Store E V C K) :
    Ends (cellOf key) s
      (fun c r => (s.schema.find? key.kind).isSome ∧
        (s.table.find? key = some c ∧ r = s ∨ s.table.find? key = none ∧
          s.table.size < collaboratorBit ∧
          c = .create s.table.size key ∧ r = { s with table := s.table.grow key }))
      (· = s) := by
  refine .bind (infoOf_ends key.kind s) ?_
  rintro info r ⟨rfl, hinfo⟩
  refine .bind (getOrCreate_effect key r) ?_
  rintro ⟨c, created⟩ q (⟨hf, -, rfl⟩ | ⟨hf, hroom, hp, rfl⟩)
  · exact .answer ⟨by simp [hinfo], .inl ⟨hf, rfl⟩⟩
  · exact .answer ⟨by simp [hinfo], .inr ⟨hf, hroom, congrArg Prod.fst hp, rfl⟩⟩

theorem create_fits (id : Nat) {ep : Final E V} (h : ep.key.same key = true) :
    (Cell.create id key : Cell E V K).Fits (.final ep) := ⟨rfl, h, rfl⟩

theorem Sound.made (hs : s.Sound) (hk : (s.schema.find? key.kind).isSome)
    (hnone : s.table.find? key = none) (hroom : s.table.size < collaboratorBit)
    (hq : q = { s with table := s.table.grow key }) :
    q.Sound ∧ q.table.cell? s.table.size = some (.create s.table.size key) := by
  subst hq
  refine ⟨hs.grow hk hnone hroom rfl rfl, ?_⟩
  rw [CellTable.cell?_grow, if_pos rfl]

def lazyTasks (s : Store E V C K) (key : Key E) : List (Task E C K) :=
  (s.phase.lazyFor key.kind).toList.map fun c => .compute c key.entity

theorem askFor_effect (hnone : s.table.find? key = none) :
    Ends (askFor key) s (fun _ r => s.Becomes (s.table.grow key) (s.lazyTasks key) r) (· = s) := by
  refine .bind (getOrCreate_effect key s) ?_
  rintro ⟨c, created⟩ q (⟨hf, -, -⟩ | ⟨-, -, hp, rfl⟩)
  · simp [hnone] at hf
  obtain ⟨rfl, rfl⟩ := Prod.mk.inj hp
  have hgrow : s.Becomes (s.table.grow key) [] { s with table := s.table.grow key } := by
    constructor <;> simp
  refine .read ?_
  dsimp only
  unfold lazyTasks
  cases s.phase.lazyFor key.kind with
  | some comp => exact .write (hgrow.trans (schedule_becomes "lazy" _ comp key.entity))
  | none => exact .answer hgrow

theorem NoNewBlank.of_table (h : r.table = s.table) : s.NoNewBlank r :=
  fun _ hb => isBlank_congr h ▸ hb

/-- No cell was made without a value, but for a key that was asked for and is going to be
computed. -/
def Accounts (s : Store E V C K) (asked : Option (Key E)) (r : Store E V C K) : Prop :=
  s.NoNewBlank r ∨ ∃ k, asked = some k ∧ s.queue.closed = false ∧ s.phase.provides k.kind = true ∧
    s.Becomes (s.table.grow k) (s.lazyTasks k) r

theorem Accounts.after_trace {asked : Option (Key E)} {e : Event E V}
    (h : (s.trace e).Accounts asked r) : s.Accounts asked r := by
  have htrace := trace_becomes s e
  rcases h with h | ⟨k, hk, hopen, hprovides, hr⟩
  · exact .inl fun key hb => isBlank_congr htrace.table ▸ h key hb
  · rw [htrace.table, lazyTasks, htrace.phase] at hr
    rw [trace_queue] at hopen
    rw [htrace.phase] at hprovides
    exact .inr ⟨k, hk, hopen, hprovides, htrace.after_quiet hr⟩

theorem mem_dueFor (hs : s.Sound) (h : s.isBlank key = true) {kind : Kind}
    (hkind : kind.same key.kind = true) (c : C) :
    (c, key.entity) ∈ s.dueFor kind (·.status.isUnknown) c := by
  obtain ⟨cell, hfind, hunknown⟩ := isBlank_iff.1 h
  obtain ⟨hcell, hsame⟩ := CellTable.find?_eq_some hs.table hfind
  obtain ⟨hentity, hid⟩ := Key.same_iff.1 hsame
  refine List.mem_map.2
    ⟨cell, List.mem_filter.2 ⟨CellTable.mem_all_iff.2 ⟨_, hcell⟩, ?_⟩, by rw [hentity]⟩
  simp [hunknown, hid, Kind.same_iff.1 hkind]

variable [DecidableEq V]

theorem Takes.statusOf {c : Cell E V K} {ep : Final E V}
    (h : s.Takes c (.final ep) r) (hs : s.Sound) (hc : s.table.cell? c.id = some c)
    (hfit : c.Fits (.final ep)) (hsame : c.key.same key = true) :
    r.statusOf key = .final ep := by
  have hface : r.table.face? c.id = some (c.id, c.key, .final ep) := by
    rw [(takes_final.1 h).table, CellTable.face?_install hc, if_pos rfl]
  exact statusOf_of_face? (h.leaves hs hc hfit).sound hface hsame

theorem Takes.blank {c : Cell E V K} {ep : Final E V} (h : s.Takes c (.final ep) r) (hs : s.Sound)
    (hc : s.table.cell? c.id = some c) (hfit : c.Fits (.final ep)) (hb : r.isBlank key = true) :
    s.isBlank key = true ∧ ¬ c.key.same key = true := by
  have hkeys : ∀ i, r.table.key? i = s.table.key? i := fun i =>
    (takes_final.1 h).table ▸ CellTable.key?_install s.table c (.final ep) i
  refine ⟨NoNewBlank.of_keys (h.ages hc hfit) hs (h.leaves hs hc hfit).sound hkeys key hb,
    fun hsame => ?_⟩
  have hunknown := unknown_of_isBlank hb
  rw [h.statusOf hs hc hfit hsame] at hunknown
  cases hunknown

/-- What came of a question: the key had a cell, or its cell was made and computations were
scheduled, or it was made with the fallback that nobody is going to improve. -/
inductive Asked (s : Store E V C K) (key : Key E) (r : Store E V C K) : Prop
  | found (hknown : s.isKnown key = true) (hr : r = s)
  | provided (hnone : s.table.find? key = none) (hopen : s.queue.closed = false)
      (hprovides : s.phase.provides key.kind = true)
      (hr : s.Becomes (s.table.grow key) (s.lazyTasks key) r)
  | fellBack (hprovides : s.phase.provides key.kind = false)
      (hfinal : (r.statusOf key).isFinal = true) (hr : s.NoNewBlank r)
      (hmade : ∃ q c ep, s.Grows q ∧ q.table.cell? c.id = some c ∧ c.key.same key = true ∧
        c.Fits (.final ep) ∧ q.Takes c (.final ep) r)

theorem Asked.accounts {k : Key E} (h : s.Asked k r) : s.Accounts (some k) r := by
  cases h with
  | found _ hr => exact .inl (.of_table (hr ▸ rfl))
  | provided _ hopen hprovides hr => exact .inr ⟨k, rfl, hopen, hprovides, hr⟩
  | fellBack _ _ hr _ => exact .inl hr

variable [Property V] [ToString E] [ToString V]

theorem installFinal_blank (hs : s.Sound) (ep : Final E V) :
    Ends (installFinal ep) s (fun _ r => s.NoNewBlank r) (s.NoNewBlank ·) := by
  refine .bind ((cellOf_effect ep.key s).mono (fun _ _ h => h) ?_) ?_
  · rintro r rfl
    exact .refl r
  rintro c q ⟨hreg, ⟨hf, rfl⟩ | ⟨hnone, hroom, rfl, hq⟩⟩
  · obtain ⟨hc, -⟩ := CellTable.find?_eq_some hs.table hf
    refine .read (.bind ((carryOut_ends _ q).mono (fun _ _ h => h) ?_) ?_)
    · rintro r rfl
      exact .refl r
    · rintro u r ⟨c', hup, rfl⟩
      obtain ⟨hfit, -, hr⟩ := Cell.update_eq_ok hup
      obtain ⟨rfl, rfl⟩ := Prod.mk.inj hr
      have htakes := takes_afterUpdate hs.table hc hfit rfl rfl (.refl _)
      exact .write fun key hb => (htakes.blank hs hc hfit hb).1
  · -- the new cell takes the value, whatever it is
    have hfit : (Cell.create s.table.size ep.key : Cell E V K).Fits (.final ep) :=
      create_fits _ (by simp)
    obtain ⟨hsound, hc⟩ := hs.made hreg hnone hroom hq
    refine .read ?_
    rw [Cell.update_of_fits hfit fun _ => rfl]
    refine .bind ((carryOut_succeeds _ _ q).mono (fun _ _ h => h) fun _ h => h.elim) ?_
    rintro u r ⟨rfl, rfl⟩
    have htakes := takes_afterUpdate hsound.table hc hfit rfl rfl (.refl _)
    refine .write fun key hb => ?_
    obtain ⟨hblank, hother⟩ := htakes.blank hsound hc hfit hb
    exact (blank_of_grow (hq ▸ rfl) hblank).resolve_right hother

theorem fallBackNow_effect (hs : s.Sound) {info : KindInfo E V}
    (hinfo : s.schema.find? key.kind = some info) (hnone : s.table.find? key = none) :
    Ends (fallBackNow info key) s
      (fun _ r => (r.statusOf key).isFinal = true ∧ s.NoNewBlank r ∧ ∃ q c ep, s.Grows q ∧
        q.table.cell? c.id = some c ∧ c.key.same key = true ∧ c.Fits (.final ep) ∧
          q.Takes c (.final ep) r)
      (· = s) := by
  refine .read (.bind (getOrCreate_effect key s) ?_)
  rintro ⟨c, created⟩ q (⟨hf, -, -⟩ | ⟨-, hroom, hp, hq⟩)
  · simp [hnone] at hf
  obtain ⟨rfl, rfl⟩ := Prod.mk.inj hp
  obtain ⟨hsound, hnew⟩ := hs.made (by simp [hinfo]) hnone hroom hq
  refine .bind ((freshStamp_ends q).mono (fun _ _ h => h) fun _ h => h.elim) ?_
  intro stamp q₁ hstamp
  generalize hep : info.fallbackFor (s.phase.reason key.kind) stamp key.entity = ep
  have hquiet := (hstamp.then_quiet
    (count_becomes q₁ fun n => { n with fallbacks := n.fallbacks + 1 })).then_quiet
    (trace_becomes _ (.fallback ep (s.phase.reason key.kind)))
  refine .write_then (.write_then ?_)
  -- the new cell takes the fallback, whatever it is
  have hfit : (Cell.create s.table.size key : Cell E V K).Fits (.final ep) := by
    refine create_fits _ ?_
    rw [← hep]
    exact Key.same_iff.2 ⟨rfl, Kind.same_iff.1 (Schema.same_of_find? hinfo)⟩
  have hsound' := (Steady.of_quiet hsound hquiet).sound
  have hc := hquiet.table ▸ hnew
  rw [Cell.update_of_fits hfit fun h => by cases h]
  refine .bind ((carryOut_succeeds _ _ _).mono (fun _ _ h => h) fun _ h => h.elim) ?_
  rintro u r ⟨rfl, rfl⟩
  have htakes := takes_afterUpdate hsound'.table hc hfit rfl rfl (.refl _)
  have hgrow : s.Becomes (s.table.grow key) [] q := by
    rw [hq]
    constructor <;> simp
  have hmade := hgrow.then_quiet hquiet
  have hgrows : s.Grows _ := ⟨hmade.table.symm ▸ hmade, hmade.table ▸ .grow s.table key, hsound'⟩
  have hown : (Cell.create s.table.size key : Cell E V K).key.same key = true :=
    Key.same_iff.2 ⟨rfl, rfl⟩
  refine .write ⟨?_, fun k hb => ?_, _, _, ep, hgrows, hc, hown, hfit, htakes⟩
  · exact congrArg Status.isFinal (htakes.statusOf hsound' hc hfit hown)
  · obtain ⟨hblank, hother⟩ := htakes.blank hsound' hc hfit hb
    exact (blank_of_grow (hquiet.table.trans (hq ▸ rfl)) hblank).resolve_right hother

theorem query_effect (hs : s.Sound) (key : Key E) :
    Ends (query key) s (fun status r => status = r.statusOf key ∧ s.Asked key r) (· = s) := by
  refine .bind (checkRunning_open s) ?_
  rintro _ r ⟨rfl, hopen⟩
  refine .read ?_
  cases hf : r.table.find? key with
  | some c => exact .read (.answer ⟨rfl, .found (by simp [isKnown, hf]) rfl⟩)
  | none =>
    refine .bind (infoOf_ends key.kind r) ?_
    rintro info r ⟨rfl, hinfo⟩
    refine .read ?_
    dsimp only
    split
    · next hprovides =>
      exact .bind (askFor_effect hf) fun _ q hq =>
        .read (.answer ⟨rfl, .provided hf hopen hprovides hq⟩)
    · next hprovides =>
      exact .bind (fallBackNow_effect hs hinfo hf) fun _ q hq =>
        .read (.answer ⟨rfl, .fellBack (Bool.eq_false_iff.2 hprovides) hq.1 hq.2.1 hq.2.2⟩)

theorem blank_of_unknown (hs : s.Sound) {known : Key E}
    (h : (s.serve (.query key)).1 = .ok (.unknown known)) :
    (s.act (.call (.query key))).isBlank key = true := by
  change (s.answer (query key)).2.isBlank key = true
  rcases (query_effect hs key).answer_cases with
    ⟨status, hanswer, hstatus, hasked⟩ | ⟨e, hanswer, -⟩
  · obtain rfl : status = .unknown known := Except.ok.inj (hanswer.symm.trans h)
    cases hasked with
    | found hknown hr =>
      obtain ⟨c, hc⟩ := Option.isSome_iff_exists.1 hknown
      rw [hr] at hstatus ⊢
      exact isBlank_iff.2 ⟨c, hc, by rw [← statusOf_found hc, ← hstatus]; rfl⟩
    | provided hnone _ _ hr => exact blank_grow hr.table hnone
    | fellBack _ hfinal _ _ =>
      rw [← hstatus] at hfinal
      cases hfinal
  · cases hanswer.symm.trans h

/-! What an act does to keys without a value, to the phase and to the tasks. -/

theorem serve_accounts (hs : s.Sound) (c : Call E V C) : s.Accounts c.asked? (s.serve c).2 := by
  cases c with
  | registerKind info => exact .inl (.of_table (registerKind_table info s).answer_snd)
  | setupPhase computed delayed =>
    exact .inl (.of_table ((setupPhase_effect computed delayed s).mono (fun _ _ h => h.table)
      fun _ h => h ▸ rfl).answer_snd)
  | registerLazy kind c =>
    exact .inl (.of_table ((registerLazy_effect kind c s).mono (fun _ _ ⟨_, _, _, h⟩ => h.table)
      fun _ h => h ▸ rfl).answer_snd)
  | registerTriggered kind c =>
    exact .inl (.of_table ((registerTriggered_effect kind c s).mono (fun _ _ h => h.table)
      fun _ h => h ▸ rfl).answer_snd)
  | scheduleEager entities c =>
    exact .inl (.of_table ((scheduleEager_effect entities c s).mono (fun _ _ h => h.table)
      fun _ h => h ▸ rfl).answer_snd)
  | setFinal ep =>
    have hends : Ends (setFinal ep) s (fun _ r => s.NoNewBlank r) (s.NoNewBlank ·) := by
      refine .bind ((checkRunning_ends s).mono (fun _ _ h => h) fun _ h => h ▸ .refl s) ?_
      intro _ r hr
      subst hr
      exact installFinal_blank hs ep
    exact .inl hends.answer_snd
  | query k =>
    exact ((query_effect hs k).mono (fun _ _ h => h.2.accounts) fun _ h =>
      .inl (h ▸ .refl s)).answer_snd
  | force k =>
    have hsound : (s.trace (.force k)).Sound := (Steady.of_quiet hs (trace_becomes _ _)).sound
    have hends : Ends (force k) s (fun _ r => s.Accounts (some k) r) (s.Accounts (some k) ·) := by
      refine .write_then
        (.bind ((query_effect hsound k).mono (fun _ _ h => h.2.accounts.after_trace) ?_)
          fun _ _ h => .answer h)
      exact fun r h => .inl (.of_table (h ▸ trace_table s _))
    exact hends.answer_snd
  | drainEvents =>
    refine .inl (.of_table ?_)
    change s.drainRecords.2.table = s.table
    unfold drainRecords
    split <;> rfl
  | shutdown | stamp | hasProperty | isKnown | ofKind | finalsOfKind | entitiesWith | properties
    | isShutdown
    | statistics | config | isTraced | events => exact .inl (.of_table rfl)

def scheduled (s : Store E V C K) (a : Act E V C K) : List (C × E) :=
  ((s.act a).queue.waiting.drop s.queue.waiting.length).filterMap Task.computation?

theorem mem_scheduled {a : Act E V C K} {tasks : List (Task E C K)} (hopen : s.queue.closed = false)
    (hq : (s.act a).queue = s.queue.enqueue tasks) {c : C} {e : E} (h : .compute c e ∈ tasks) :
    (c, e) ∈ s.scheduled a := by
  rw [scheduled, hq, Queue.waiting_enqueue hopen, List.drop_left]
  exact List.mem_filterMap.2 ⟨_, h, rfl⟩

def beginsPhase (s : Store E V C K) : Act E V C K → Bool
  | .call (.setupPhase computed delayed) =>
    (failureOf (s.serve (.setupPhase computed delayed)).1).isNone
  | _ => false

/-- A result makes the cell of a key without giving it a value: it awaits the key, or contributes
nothing to it. -/
def Mentions (s : Store E V C K) (key : Key E) (a : Act E V C K) : Prop :=
  a.performs = true ∧ s.isKnown key = false ∧ (s.act a).isBlank key = true

/-- A phase begins in which the cell of a key is left over, without a value. -/
def CarriesOver (s : Store E V C K) (key : Key E) (a : Act E V C K) : Prop :=
  s.beginsPhase a = true ∧ s.isBlank key = true

theorem act_noNewBlank (hs : s.Sound) {a : Act E V C K} (hcall : ∀ c, a ≠ .call c)
    (hperform : a.performs = false) : s.NoNewBlank (s.act a) := by
  cases a with
  | call c => exact absurd rfl (hcall c)
  | perform x => cases hperform
  | start =>
    refine .of_table ?_
    simp only [act]
    split
    · rfl
    · split <;> rfl
  | crash c => exact .of_table (by simp [act, fail, notify])
  | round cycles fallbacks =>
    simp only [act]
    split
    · exact .refl s
    · next hguard =>
      simp only [Bool.or_eq_true, not_or, Bool.not_eq_true] at hguard
      have hround := (kept_ages (s := s)).onQuiescence hs hguard.2 cycles fallbacks
      split at hround
      · exact .of_keys hround.2 hs hround.1.sound hround.1.keys
      · exact .of_table hround.1.table
  | drop =>
    refine .of_table ?_
    simp only [act]
    split <;> rfl
  | tell n => exact .of_table rfl

/-- Where a cell without a value comes from: it was there, or a result mentions the key, or the key
is asked for. The kind is then going to be computed, and its lazy computation is scheduled. -/
theorem act_blank (h : s.Healthy) {a : Act E V C K} (hb : (s.act a).isBlank key = true) :
    s.isBlank key = true ∨ s.Mentions key a ∨
      (∀ c, a = .call c → c.setsPhase = false) ∧ s.phase.provides key.kind = true ∧
        ∀ c, s.phase.lazyFor key.kind = some c → (c, key.entity) ∈ s.scheduled a := by
  by_cases hfresh : s.isBlank key = true
  · exact .inl hfresh
  right
  have hnot : ¬ s.NoNewBlank (s.act a) := fun hr => hfresh (hr key hb)
  cases hperform : a.performs with
  | true =>
    left
    refine ⟨hperform, ?_, hb⟩
    by_contra hknown
    rw [Bool.not_eq_false] at hknown
    exact hfresh ((act_ages h.sound a).blank h.sound (h.act a).sound hknown hb)
  | false =>
    obtain ⟨c, rfl⟩ : ∃ c, a = .call c := by
      by_contra hcall
      exact hnot (act_noNewBlank h.sound (fun c hc => hcall ⟨c, hc⟩) hperform)
    obtain ⟨k, hk, hopen, hprovides, hr⟩ := (serve_accounts h.sound c).resolve_left hnot
    obtain ⟨hentity, hkind⟩ := Key.same_iff.1 ((blank_of_grow hr.table hb).resolve_left hfresh)
    refine .inr ⟨?_, Phase.provides_congr hkind s.phase ▸ hprovides, fun comp hcomp => ?_⟩
    · intro c' hc'
      cases hc'
      exact c.setsPhase_of_asked? hk
    · refine mem_scheduled (a := .call c) hopen hr.queue ?_
      rw [lazyTasks, Phase.lazyFor_congr hkind, hcomp, hentity]
      exact List.mem_singleton.2 rfl

/-- What an act does to the phase: nothing, or it is one of the calls about it. -/
inductive Rephases (s : Store E V C K) (a : Act E V C K) : Prop
  | kept (h : (s.act a).phase = s.phase)
  | begun (computed delayed : List Kind) (ha : s.beginsPhase a = true)
      (h : (s.act a).phase = .of computed delayed)
  | lazily (kind : Kind) (c : C) (phase : Phase C) (hopen : s.queue.closed = false)
      (hphase : s.phase.registerLazy kind c = .ok phase)
      (h : (s.inPhase phase).Becomes s.table
        ((s.dueFor kind (·.status.isUnknown) c).map fun p => .compute p.1 p.2) (s.act a))
  | triggered (kind : Kind) (c : C) (h : (s.act a).phase = s.phase.registerTriggered kind c)

theorem act_rephases (s : Store E V C K) (a : Act E V C K) : s.Rephases a := by
  by_cases hset : ∀ c, a = .call c → c.setsPhase = false
  · exact .kept (act_phase s hset)
  simp only [not_forall, Bool.not_eq_false] at hset
  obtain ⟨c, rfl, hc⟩ := hset
  have same {r : Store E V C K} (h : r = s) : r.phase = s.phase := congrArg Store.phase h
  cases c with
  | setupPhase computed delayed =>
    rcases (setupPhase_effect computed delayed s).answer_cases with ⟨_, hanswer, hr⟩ | ⟨e, -, hr⟩
    · exact .begun computed delayed (by simp [beginsPhase, serve, hanswer, failureOf]) hr.phase
    · exact .kept (same hr)
  | registerLazy kind c =>
    rcases (registerLazy_effect kind c s).answer_cases with
      ⟨_, -, hopen, phase, hphase, hr⟩ | ⟨e, -, hr⟩
    · exact .lazily kind c phase hopen hphase hr
    · exact .kept (same hr)
  | registerTriggered kind c =>
    rcases (registerTriggered_effect kind c s).answer_cases with ⟨_, -, hr⟩ | ⟨e, -, hr⟩
    · exact .triggered kind c hr.phase
    · exact .kept (same hr)
  | _ => cases hc

theorem act_provides {a : Act E V C K} (h : s.beginsPhase a = false) (kind : Kind) :
    (s.act a).phase.provides kind = s.phase.provides kind := by
  cases s.act_rephases a with
  | kept hr => rw [hr]
  | begun _ _ ha _ => simp [h] at ha
  | lazily _ _ phase _ hphase hr =>
    rw [hr.phase]
    exact Phase.provides_registerLazy hphase
  | triggered _ _ hr =>
    rw [hr]
    rfl

theorem act_lazyFor (hs : s.Sound) {a : Act E V C K} {c : C}
    (h : (s.act a).phase.lazyFor key.kind = some c) :
    s.phase.lazyFor key.kind = some c ∨
      (s.isBlank key = true → (c, key.entity) ∈ s.scheduled a) := by
  cases s.act_rephases a with
  | kept hr => exact .inl (hr ▸ h)
  | begun _ _ _ hr =>
    rw [hr] at h
    cases h
  | lazily kind c' phase hopen hphase hr =>
    rw [hr.phase, show (s.inPhase phase).phase = phase from rfl,
      Phase.lazyFor_registerLazy hphase] at h
    cases hlazy : s.phase.lazyFor key.kind with
    | some c₀ =>
      rw [hlazy] at h
      exact .inl h
    | none =>
      right
      intro hb
      rw [hlazy, Option.none_or] at h
      split at h
      · next hkind =>
        cases h
        exact mem_scheduled hopen hr.queue (List.mem_map.2 ⟨_, mem_dueFor hs hb hkind c, rfl⟩)
      · cases h
  | triggered _ _ hr =>
    rw [hr] at h
    exact .inl h

/-! Looking back. -/

/-- At some act of the history `P` held, and from then on `Q` held of the store. -/
def Since (P : Store E V C K → Act E V C K → Prop) (Q : Store E V C K → Prop) :
    Store E V C K → List (Act E V C K) → Prop
  | _, [] => False
  | s, a :: acts => P s a ∧ Along (fun s a => Q (s.act a)) s (a :: acts) ∨ Since P Q (s.act a) acts

instance decidableSince {P : Store E V C K → Act E V C K → Prop} {Q : Store E V C K → Prop}
    [∀ s a, Decidable (P s a)] [∀ s, Decidable (Q s)] :
    (s : Store E V C K) → (acts : List (Act E V C K)) → Decidable (Since P Q s acts)
  | _, [] => .isFalse id
  | s, a :: acts => @instDecidableOr _ _ _ (decidableSince (s.act a) acts)

instance (s : Store E V C K) (key : Key E) (a : Act E V C K) : Decidable (s.Mentions key a) :=
  inferInstanceAs (Decidable (_ ∧ _))

instance (s : Store E V C K) (key : Key E) (a : Act E V C K) : Decidable (s.CarriesOver key a) :=
  inferInstanceAs (Decidable (_ ∧ _))

section
variable {P : Store E V C K → Act E V C K → Prop} {Q : Store E V C K → Prop}
  {acts : List (Act E V C K)} {a : Act E V C K}

theorem Since.last (hP : P (s.run acts) a) (hQ : Q ((s.run acts).act a)) :
    Since P Q s (acts ++ [a]) := by
  induction acts generalizing s with
  | nil => exact .inl ⟨hP, hQ, trivial⟩
  | cons b acts ih => exact .inr (ih hP hQ)

theorem Since.extend (h : Since P Q s acts) (hQ : Q ((s.run acts).act a)) :
    Since P Q s (acts ++ [a]) := by
  induction acts generalizing s with
  | nil => exact h.elim
  | cons b acts ih =>
    cases h with
    | inl h =>
      have hlast : Along (fun s a => Q (s.act a)) (s.run (b :: acts)) [a] := ⟨hQ, trivial⟩
      exact .inl ⟨h.1, along_append.2 ⟨h.2, hlast⟩⟩
    | inr h => exact .inr (ih h hQ)

end

/-- A key without a value is provided for, unless it was mentioned or left over and has not been
provided for since. -/
theorem run_provides (config : Config) (tracer : Tracer E V) (cores : Nat)
    (acts : List (Act E V C K)) (hb : ((create config tracer cores).run acts).isBlank key = true)
    (hnot : ((create config tracer cores).run acts).phase.provides key.kind = false) :
    Since (fun s a => s.Mentions key a ∨ s.CarriesOver key a) (·.phase.provides key.kind = false)
      (create config tracer cores) acts := by
  induction acts using List.reverseRecOn with
  | nil => cases hb
  | append_singleton acts a ih =>
    have hreach :=
      (Reachable.create (E := E) (V := V) (C := C) (K := K) config tracer cores).run acts
    rw [run_append] at hb hnot
    generalize hs : (create config tracer cores).run acts = s at hreach hb hnot ih
    obtain hblank | hmention | ⟨hset, hprovides, -⟩ := act_blank hreach.healthy hb
    · cases hbegins : s.beginsPhase a with
      | true => exact .last (hs ▸ .inr ⟨hbegins, hblank⟩) (hs ▸ hnot)
      | false =>
        exact (ih hblank ((act_provides hbegins key.kind).symm.trans hnot)).extend (hs ▸ hnot)
    · exact .last (hs ▸ .inl hmention) (hs ▸ hnot)
    · rw [show s.run [a] = s.act a from rfl, act_phase s hset, hprovides] at hnot
      cases hnot

/-- The lazy computation in force was scheduled for a key without a value, unless the key was
mentioned. -/
theorem run_scheduled (config : Config) (tracer : Tracer E V) (cores : Nat)
    (acts : List (Act E V C K)) {c : C}
    (hb : ((create config tracer cores).run acts).isBlank key = true)
    (hlazy : ((create config tracer cores).run acts).phase.lazyFor key.kind = some c) :
    Since (fun s a => (c, key.entity) ∈ s.scheduled a ∨ s.Mentions key a)
      (·.phase.lazyFor key.kind = some c) (create config tracer cores) acts := by
  induction acts using List.reverseRecOn with
  | nil => cases hb
  | append_singleton acts a ih =>
    have hreach :=
      (Reachable.create (E := E) (V := V) (C := C) (K := K) config tracer cores).run acts
    rw [run_append] at hb hlazy
    generalize hs : (create config tracer cores).run acts = s at hreach hb hlazy ih
    obtain hblank | hmention | ⟨hset, -, hscheduled⟩ := act_blank hreach.healthy hb
    · obtain hbefore | hscheduled := act_lazyFor hreach.healthy.sound hlazy
      · exact (ih hblank hbefore).extend (hs ▸ hlazy)
      · exact .last (hs ▸ .inl (hscheduled hblank)) (hs ▸ hlazy)
    · exact .last (hs ▸ .inr hmention) (hs ▸ hlazy)
    · have hbefore : s.phase.lazyFor key.kind = some c := act_phase s hset ▸ hlazy
      exact .last (hs ▸ .inl (hscheduled c hbefore)) (hs ▸ hlazy)

/-- Who asks for a key and is told that nothing is known may count on a value: the phase computes
the kind or leaves it to a later one, and the lazy computation of the kind, if there is one, has
been scheduled for the entity since it was registered. Passed over are cells that came about in
other ways: for both, those that a result made by mentioning the key, and for the first, those left
over when a phase began. -/
theorem unknown_promises_value (config : Config) (tracer : Tracer E V) (cores : Nat)
    (acts : List (Act E V C K)) (key known : Key E)
    (h : (((create config tracer cores).run acts).serve (.query key)).1 = .ok (.unknown known)) :
    let start : Store E V C K := create config tracer cores
    let asked := acts ++ [.call (.query key)]
    let phase := (start.run acts).phase
    (phase.isComputed key.kind = true ∨ phase.isDelayed key.kind = true ∨
      Since (fun s a => s.Mentions key a ∨ s.CarriesOver key a)
        (·.phase.provides key.kind = false) start asked) ∧
    ∀ c, phase.lazyFor key.kind = some c →
      Since (fun s a => (c, key.entity) ∈ s.scheduled a ∨ s.Mentions key a)
        (·.phase.lazyFor key.kind = some c) start asked := by
  intro start asked phase
  have hsound : (start.run acts).Sound :=
    ((Reachable.create config tracer cores).run acts).healthy.sound
  have hrun : start.run asked = (start.run acts).act (.call (.query key)) := run_append _ _ _
  have hphase : (start.run asked).phase = phase := by
    rw [hrun]
    exact act_phase _ fun c hc => by cases hc; rfl
  have hb : (start.run asked).isBlank key = true := hrun ▸ blank_of_unknown hsound h
  constructor
  · cases hprovides : phase.provides key.kind with
    | true => exact (Bool.or_eq_true_iff.1 hprovides).imp_right .inl
    | false => exact .inr (.inr (run_provides config tracer cores asked hb (hphase ▸ hprovides)))
  · intro c hc
    exact run_scheduled config tracer cores asked hb (hphase ▸ hc)

/-! Cells that are passed over. -/

section
open FactSort (purity)

def purityOf (n : Nat) : Key Element := ⟨.method n, purity.kind⟩

def registerPurity : Act Element Fact Unit Nat :=
  .call (.registerKind ((FallbackRule.fixed (.purity .impure)).info .lower))

def askedBefore : List (Act Element Fact Unit Nat) :=
  [registerPurity, .call (.query (purityOf 1)), .call (.setupPhase [] []),
    .call (.registerLazy purity.kind ())]

theorem askedBefore_unknown_promises_value :
    (((create {} .none 1).run askedBefore).serve (.query (purityOf 1))).1 =
      .ok (.unknown (purityOf 1)) ∧
    Since (fun s a => s.Mentions (purityOf 1) a ∨ s.CarriesOver (purityOf 1) a)
      (·.phase.provides purity.kind = false) (create {} .none 1)
      (askedBefore ++ [.call (.query (purityOf 1))]) ∧
    Since (fun s a => ((), .method 1) ∈ s.scheduled a ∨ s.Mentions (purityOf 1) a)
      (·.phase.lazyFor purity.kind = some ()) (create {} .none 1)
      (askedBefore ++ [.call (.query (purityOf 1))]) := by
  have hunknown : (((create {} .none 1).run askedBefore).serve (.query (purityOf 1))).1 =
      .ok (.unknown (purityOf 1)) := rfl
  have hcomputed : ((create {} .none 1).run askedBefore).phase.isComputed purity.kind = false := by
    decide +kernel
  have hdelayed : ((create {} .none 1).run askedBefore).phase.isDelayed purity.kind = false := by
    decide +kernel
  have hlazy : ((create {} .none 1).run askedBefore).phase.lazyFor purity.kind = some () := by
    decide +kernel
  obtain ⟨hprovided, hscheduled⟩ :=
    unknown_promises_value {} .none 1 askedBefore (purityOf 1) (purityOf 1) hunknown
  refine ⟨hunknown, ?_, hscheduled () hlazy⟩
  exact (hprovided.resolve_left (by simp [purityOf, hcomputed])).resolve_left
    (by simp [purityOf, hdelayed])

def awaitUnasked : List (Act Element Fact Unit Nat) :=
  [registerPurity, .call (.registerLazy purity.kind ()),
    .perform (.suspend ⟨purityOf 1, ⟨0, .purity .impure⟩, ⟨1, .purity .pure⟩⟩
      [.unknown (purityOf 2)] 7)]

/-- Nothing is known about a method whose purity nobody computes, now or later, and about one that
the lazy computation of purity was never scheduled for. -/
theorem unknown_without_promise :
    (((create {} .none 1).run askedBefore).serve (.query (purityOf 1))).1 =
      .ok (.unknown (purityOf 1)) ∧
    ((create {} .none 1).run askedBefore).phase.isComputed purity.kind = false ∧
    ((create {} .none 1).run askedBefore).phase.isDelayed purity.kind = false ∧
    (((create {} .none 1).run awaitUnasked).serve (.query (purityOf 2))).1 =
      .ok (.unknown (purityOf 2)) ∧
    ((create {} .none 1).run awaitUnasked).phase.lazyFor purity.kind = some () ∧
    ¬ Since (fun s a => ((), .method 2) ∈ s.scheduled a) (fun _ => True) (create {} .none 1)
      (awaitUnasked ++ [.call (.query (purityOf 2))]) :=
  ⟨rfl, by decide +kernel, by decide +kernel, rfl, by decide +kernel, by decide +kernel⟩

end

end Store
end Blackboard
