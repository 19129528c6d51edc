import Blackboard.Proofs.Settling

/-! A round step by step. The record of a round lists what was settled, with the store before and
after each step. Keeping the record does not change the round. -/
namespace Blackboard.Store
variable {E V C K : Type}

inductive Target (E V K : Type) where
  | cell (c : Cell E V K)
  | group (members : List Depender)

/-- A step of a round that settled something. -/
structure Settlement (E V C K : Type) where
  before : Store E V C K
  target : Target E V K
  after : Store E V C K

inductive Pass where
  | fallbacks (waitedOn : Bool)
  | groups
  | interims (waitedOn : Bool)
deriving DecidableEq

/-- In the order in which a round tries them. -/
def passes (cycles fallbacks : Bool) : List Pass :=
  (if fallbacks then [.fallbacks true] else []) ++
  (if cycles then [.groups, .interims true] else []) ++
  (if fallbacks then [.fallbacks false] else []) ++
  (if cycles then [.interims false] else [])

def candidates (s : Store E V C K) : Pass → List (Cell E V K)
  | .fallbacks waitedOn => (s.settleable waitedOn).filter (·.status.isUnknown)
  | .groups => []
  | .interims waitedOn => (s.settleable waitedOn).filter (·.suspension.isNone)

/-- The suspended dependers of a delayed kind. -/
def delayedDependers (s : Store E V C K) : List Depender :=
  (s.waiting.map (·.depender)).filter s.isDelayedDepender

/-- As `settleEach`, with a record of what was settled. -/
def logEach {α : Type} (target : α → Target E V K) (settle : α → Op E V C K Bool) :
    List α → Op E V C K (List (Settlement E V C K))
  | [] => return []
  | a :: rest => do
    let before ← get
    let changed ← settle a
    let after ← get
    if changed then
      if after.inFlight then return [⟨before, target a, after⟩]
      let more ← logEach target settle rest
      return ⟨before, target a, after⟩ :: more
    else logEach target settle rest

theorem settleEach_eq_logEach {α : Type} (target : α → Target E V K) (settle : α → Op E V C K Bool)
    (l : List α) : settleEach settle l = (fun log => !log.isEmpty) <$> logEach target settle l := by
  induction l with
  | nil => rfl
  | cons a rest ih =>
    funext s
    simp only [settleEach, logEach, ih, map_bind]
    change EStateM.bind (settle a) _ s = EStateM.bind (settle a) _ s
    simp only [EStateM.bind]
    cases settle a s with
    | error e r => rfl
    | ok changed r =>
      have hget : ∀ {β : Type} (f : Store E V C K → Op E V C K β),
          (get >>= f) r = f r r := fun _ => rfl
      simp only [hget]
      cases changed with
      | false => simp
      | true => by_cases hbusy : r.inFlight = true <;> simp [hbusy]

section
variable [DecidableEq E] [DecidableEq V] [Property V] [ToString E] [ToString V]

def Pass.log : Pass → Op E V C K (List (Settlement E V C K))
  | .fallbacks waitedOn => do logEach .cell fallBack ((← get).candidates (.fallbacks waitedOn))
  | .groups => do
    let s ← get
    logEach .group (resolveGroup s.delayedDependers) (closedComponents s.waiting)
  | .interims waitedOn => do logEach .cell finalize ((← get).candidates (.interims waitedOn))

def logPasses : List Pass → Op E V C K (List (Settlement E V C K))
  | [] => return []
  | pass :: rest => do
    let log ← pass.log
    if log.isEmpty then logPasses rest else return log

/-- What a round settles, in order. -/
def settlements (cycles fallbacks : Bool) : Op E V C K (List (Settlement E V C K)) :=
  logPasses (passes cycles fallbacks)

theorem applyFallbacks_eq_log (waitedOn : Bool) :
    applyFallbacks (E := E) (V := V) (C := C) (K := K) waitedOn =
      (fun log => !log.isEmpty) <$> (Pass.fallbacks waitedOn).log := by
  simp only [applyFallbacks, Pass.log, map_bind, ← settleEach_eq_logEach, candidates]

theorem finalizeInterims_eq_log (waitedOn : Bool) :
    finalizeInterims (E := E) (V := V) (C := C) (K := K) waitedOn =
      (fun log => !log.isEmpty) <$> (Pass.interims waitedOn).log := by
  simp only [finalizeInterims, Pass.log, map_bind, ← settleEach_eq_logEach, candidates]

theorem resolveClosedGroups_eq_log :
    resolveClosedGroups (E := E) (V := V) (C := C) (K := K) =
      (fun log => !log.isEmpty) <$> Pass.groups.log := by
  simp only [resolveClosedGroups, Pass.log, map_bind, ← settleEach_eq_logEach, delayedDependers]

theorem map_logPasses_cons (pass : Pass) (rest : List Pass) :
    ((fun log => !log.isEmpty) <$> logPasses (pass :: rest) : Op E V C K Bool) =
      ((fun log => !log.isEmpty) <$> pass.log) >>= fun changed =>
        if changed = true then pure true else (fun log => !log.isEmpty) <$> logPasses rest := by
  simp only [logPasses, map_bind, bind_map_left]
  congr 1
  funext log
  cases log <;> simp

theorem settle_eq_settlements (cycles fallbacks : Bool) :
    settle (E := E) (V := V) (C := C) (K := K) cycles fallbacks =
      (fun log => !log.isEmpty) <$> settlements cycles fallbacks := by
  have hnone : ((fun log => !log.isEmpty) <$> logPasses [] : Op E V C K Bool) = pure false := rfl
  have hlast : ∀ x : Op E V C K Bool,
      (x >>= fun changed => if changed = true then pure true else pure false) = x := by
    intro x
    conv_rhs => rw [← bind_pure x]
    congr 1
    funext changed
    cases changed <;> rfl
  unfold settle settlements passes
  simp only [applyFallbacks_eq_log, finalizeInterims_eq_log, resolveClosedGroups_eq_log]
  cases cycles <;> cases fallbacks <;>
    simp only [if_true, if_false, Bool.false_eq_true, List.nil_append, List.append_nil,
      List.cons_append, map_logPasses_cons, hnone, hlast]

end

theorem inFlight_eq_false_iff {s : Store E V C K} : s.inFlight = false ↔ s.queue.waiting = [] := by
  simp [inFlight, Queue.pending]

theorem inFlight_of_quiet {s r : Store E V C K} (h : s.Becomes s.table [] r) :
    r.inFlight = s.inFlight := by
  simp [inFlight, h.queue]

def isFinalAt (s : Store E V C K) (i : Nat) : Bool := (s.cell? i).any (·.status.isFinal)

theorem isFinalAt_eq_face? (s : Store E V C K) (i : Nat) :
    s.isFinalAt i = (s.table.face? i).any (·.2.2.isFinal) := by
  cases hc : s.table.cell? i <;> simp [isFinalAt, cell?, CellTable.face?, hc, Cell.face]

theorem isFinalAt_congr {s r : Store E V C K} {i : Nat} (h : r.table.face? i = s.table.face? i) :
    r.isFinalAt i = s.isFinalAt i := by
  rw [isFinalAt_eq_face?, isFinalAt_eq_face?, h]

theorem Takes.isFinalAt {s r : Store E V C K} [DecidableEq V] {c : Cell E V K} {ep : Final E V}
    (h : s.Takes c (.final ep) r) (hc : s.table.cell? c.id = some c) (i : Nat) :
    r.isFinalAt i = (i == c.id || s.isFinalAt i) := by
  rw [isFinalAt_eq_face?, isFinalAt_eq_face?, (takes_final.1 h).table, CellTable.face?_install hc]
  by_cases hi : i = c.id
  · simp [hi, Status.isFinal]
  · simp [hi]

theorem mem_settleable_of_candidate {s : Store E V C K} {pass : Pass} {cell : Cell E V K}
    (h : cell ∈ s.candidates pass) :
    ∃ waitedOn, (pass = .fallbacks waitedOn ∨ pass = .interims waitedOn) ∧
      cell ∈ s.settleable waitedOn := by
  cases pass with
  | fallbacks waitedOn => exact ⟨waitedOn, .inl rfl, (List.mem_filter.1 h).1⟩
  | groups => simp [candidates] at h
  | interims waitedOn => exact ⟨waitedOn, .inr rfl, (List.mem_filter.1 h).1⟩

theorem candidate_mem {s : Store E V C K} {pass : Pass} {cell : Cell E V K}
    (h : cell ∈ s.candidates pass) : cell ∈ s.cells ∧ s.phase.isDelayed cell.key.kind = false := by
  obtain ⟨waitedOn, -, hmem⟩ := mem_settleable_of_candidate h
  obtain ⟨hcell, hd⟩ := List.mem_filter.1 hmem
  exact ⟨hcell, by simpa using (Bool.and_eq_true_iff.1 hd).1⟩

theorem logEach_idle {s : Store E V C K} {α : Type} {target : α → Target E V K}
    {settle : α → Op E V C K Bool} {l : List α} {P : α → Prop}
    (hfirst : ∀ a ∈ l, Ends (settle a) s (fun b r => b = false → r = s ∧ P a) (fun _ => True)) :
    Ends (logEach target settle l) s (fun log r => log = [] → r = s ∧ ∀ a ∈ l, P a)
      (fun _ => True) := by
  induction l with
  | nil => exact .answer fun _ => ⟨rfl, by simp⟩
  | cons a rest ih =>
    refine .read (.bind (hfirst a List.mem_cons_self) ?_)
    rintro (_ | _) r hr
    · obtain ⟨rfl, ha⟩ := hr rfl
      refine .read ((ih fun a' ha' => hfirst a' (List.mem_cons_of_mem _ ha')).mono ?_ fun _ h => h)
      intro log q h hlog
      obtain ⟨hq, hrest⟩ := h hlog
      exact ⟨hq, List.forall_mem_cons.2 ⟨ha, hrest⟩⟩
    · refine .read ?_
      simp only [if_true]
      split
      · exact .answer (by simp)
      · exact .bind (.somehow _ _) fun _ _ _ => .answer (by simp)

variable [DecidableEq E]

/-- What happens in a round: cells may become final, and sleepers may be woken or released. -/
structure Settles (s r : Store E V C K) : Prop where
  becomes : ∃ t ts, s.Becomes t ts r
  sound : r.Sound
  keys : ∀ i, r.table.key? i = s.table.key? i
  asleep : ∀ {d susp}, r.table.suspension? d = some susp → s.table.suspension? d = some susp

namespace Settles
variable {s q r : Store E V C K}

theorem refl (h : s.Sound) : s.Settles s := ⟨⟨_, _, .refl s⟩, h, fun _ => rfl, fun h => h⟩

theorem trans (h : s.Settles q) (h' : q.Settles r) : s.Settles r := by
  obtain ⟨t, ts, hq⟩ := h.becomes
  obtain ⟨u, us, hr⟩ := h'.becomes
  exact ⟨⟨_, _, hq.trans hr⟩, h'.sound, fun i => (h'.keys i).trans (h.keys i),
    fun hd => h.asleep (h'.asleep hd)⟩

theorem of_becomes {t : CellTable E V K} {ts : List (Task E C K)} (hs : s.Sound)
    (h : s.Becomes t ts r) (ht : t.Sound) (hk : ∀ i, t.key? i = s.table.key? i)
    (ha : ∀ {d susp}, t.suspension? d = some susp → s.table.suspension? d = some susp) :
    s.Settles r :=
  ⟨⟨t, ts, h⟩, hs.of_becomes h ht hk, h.table ▸ hk, h.table ▸ ha⟩

theorem of_quiet (hs : s.Sound) (h : s.Becomes s.table [] r) : s.Settles r :=
  of_becomes hs h hs.table (fun _ => rfl) fun hd => hd

theorem seen (h : s.Settles q) {cell : Cell E V K} (hseen : s.Seen cell) : q.Seen cell :=
  ⟨(h.keys _).trans hseen.key, hseen.own⟩

theorem awake (h : s.Settles q) {i : Nat} {c e : Cell E V K} (hc : s.table.cell? i = some c)
    (hnone : c.suspension = none) (he : q.table.cell? i = some e) : e.suspension = none := by
  by_contra hsusp
  obtain ⟨susp, hsome⟩ := Option.ne_none_iff_exists'.1 hsusp
  have hold : s.table.suspension? (.cell i) = some susp :=
    h.asleep (by simp [CellTable.suspension?, he, hsome])
  simp [CellTable.suspension?, hc, hnone] at hold

end Settles

theorem Resolves.settles {s r : Store E V C K} {group : List Depender}
    {batch : List (Cell E V K × Final E V)} (h : s.Resolves group batch r)
    (hs : s.Sound) : s.Settles r :=
  .of_becomes hs h.becomes (hs.table.resolve h.fit) (CellTable.key?_resolve _ _ _)
    fun hd => (CellTable.suspension?_resolve_le hd).2

theorem Resolves.isFinalAt {s r : Store E V C K} {group : List Depender}
    {batch : List (Cell E V K × Final E V)} (h : s.Resolves group batch r) (i : Nat) :
    r.isFinalAt i = (batch.any (·.1.id == i) || s.isFinalAt i) := by
  by_cases hi : ∃ p ∈ batch, p.1.id = i
  · obtain ⟨p, hp, rfl⟩ := hi
    have hany : batch.any (·.1.id == p.1.id) = true := List.any_eq_true.2 ⟨p, hp, by simp⟩
    rw [isFinalAt_eq_face?, h.becomes.table, CellTable.face?_resolve_self h.fit hp, hany]
    rfl
  · push Not at hi
    have hany : batch.any (·.1.id == i) = false :=
      List.any_eq_false.2 fun p hp => by simpa using hi p hp
    rw [isFinalAt_congr (h.becomes.table ▸ CellTable.face?_resolve_of_ne hi), hany, Bool.false_or]

theorem candidate_awake {s : Store E V C K} {pass : Pass} {cell : Cell E V K} (hs : s.Sound)
    (h : cell ∈ s.candidates pass) : cell.suspension = none := by
  obtain ⟨hc, -⟩ := Seen.current hs (candidate_mem h).1
  cases pass with
  | fallbacks waitedOn =>
    by_contra hsusp
    obtain ⟨ep, hep⟩ := hs.table.interim hc hsusp
    simpa [hep, Status.isUnknown] using (List.mem_filter.1 h).2
  | groups => simp [candidates] at h
  | interims waitedOn => exact Option.isNone_iff_eq_none.1 (List.mem_filter.1 h).2

variable [DecidableEq V]

theorem Takes.settles {s r : Store E V C K} {c : Cell E V K} {ep : Final E V}
    (h : s.Takes c (.final ep) r) (hs : s.Sound) (hc : s.table.cell? c.id = some c)
    (hfit : c.Fits (.final ep)) : s.Settles r :=
  .of_becomes hs (takes_final.1 h) (hs.table.install hc hfit) (CellTable.key?_install _ _ _)
    CellTable.suspension?_install_le

/-- What a cell is settled to: its fallback if it is unknown, otherwise what its kind makes of the
bounds. -/
def SettlesTo (s : Store E V C K) (c : Cell E V K) (ep : Final E V) : Prop :=
  ∃ info n, s.schema.find? c.key.kind = some info ∧
    match c.status with
    | .unknown _ => ep = info.fallbackFor (s.phase.reason c.key.kind) n c.key.entity
    | .interim old =>
      ∃ iep : Interim E V, iep.lower = old.lower ∧ iep.upper = old.upper ∧ ep = info.resolve n iep
    | .final _ => False

/-- The settlements that a pass over `s` may come to. -/
inductive Makes (s : Store E V C K) (pass : Pass) : Settlement E V C K → Prop
  | cell {before after : Store E V C K} {cell c : Cell E V K} {ep : Final E V}
      (hcell : cell ∈ s.candidates pass) (hid : c.id = cell.id)
      (hc : before.table.cell? c.id = some c) (hawake : c.suspension = none)
      (hfit : c.Fits (.final ep)) (hep : before.SettlesTo c ep)
      (hr : before.Takes c (.final ep) after) : Makes s pass ⟨before, .cell cell, after⟩
  | group {before after : Store E V C K} {members : List Depender}
      {batch : List (Cell E V K × Final E V)} (hpass : pass = .groups)
      (hmem : members ∈ closedComponents s.waiting)
      (hfree : members.any (s.delayedDependers.contains ·) = false)
      (hr : before.Resolves members batch after) : Makes s pass ⟨before, .group members, after⟩

theorem Makes.settles {s : Store E V C K} {pass : Pass} {st : Settlement E V C K}
    (h : s.Makes pass st) (hs : st.before.Sound) : st.before.Settles st.after := by
  cases h with
  | cell _ _ hc _ hfit _ hr => exact hr.settles hs hc hfit
  | group _ _ _ hr => exact hr.settles hs

/-- A pass over `s` that has got to `q`: bookkeeping and settlements, up to one that queues a
task. -/
inductive Proceeds (s : Store E V C K) (pass : Pass) :
    Store E V C K → List (Settlement E V C K) → Store E V C K → Prop
  | done {q r : Store E V C K} (hr : q.Becomes q.table [] r) : Proceeds s pass q [] r
  | last {q : Store E V C K} {st : Settlement E V C K} (hq : q.Becomes q.table [] st.before)
      (hst : s.Makes pass st) (hbusy : st.after.inFlight = true) : Proceeds s pass q [st] st.after
  | next {q r : Store E V C K} {st : Settlement E V C K} {log : List (Settlement E V C K)}
      (hq : q.Becomes q.table [] st.before) (hst : s.Makes pass st)
      (hidle : st.after.inFlight = false) (hrest : Proceeds s pass st.after log r) :
      Proceeds s pass q (st :: log) r

namespace Proceeds
variable {s q r : Store E V C K} {pass : Pass} {log : List (Settlement E V C K)}

theorem after_quiet {p : Store E V C K} (hp : p.Becomes p.table [] q)
    (h : s.Proceeds pass q log r) : s.Proceeds pass p log r := by
  cases h with
  | done hr => exact .done (hp.then_quiet hr)
  | last hq hst hbusy => exact .last (hp.then_quiet hq) hst hbusy
  | next hq hst hidle hrest => exact .next (hp.then_quiet hq) hst hidle hrest

theorem keeps {P : Store E V C K → Prop} (h : s.Proceeds pass q log r)
    (hset : s.Settles q) (hq : P q) (hquiet : ∀ {q r}, P q → q.Becomes q.table [] r → P r)
    (hstep : ∀ st ∈ log, s.Makes pass st → s.Settles st.before → P st.before → P st.after) :
    s.Settles r ∧ P r ∧ ∀ st ∈ log, s.Settles st.before ∧ P st.before := by
  induction h with
  | done hr => exact ⟨hset.trans (.of_quiet hset.sound hr), hquiet hq hr, by simp⟩
  | @last q st hquiet' hst hbusy =>
    have hbefore := hset.trans (.of_quiet hset.sound hquiet')
    have hP := hquiet hq hquiet'
    refine ⟨hbefore.trans (hst.settles hbefore.sound),
      hstep st List.mem_cons_self hst hbefore hP, ?_⟩
    simpa using ⟨hbefore, hP⟩
  | @next q r st log hquiet' hst hidle hrest ih =>
    have hbefore := hset.trans (.of_quiet hset.sound hquiet')
    have hP := hquiet hq hquiet'
    obtain ⟨hr, hPr, hall⟩ := ih (hbefore.trans (hst.settles hbefore.sound))
      (hstep st List.mem_cons_self hst hbefore hP) fun st' hst' =>
        hstep st' (List.mem_cons_of_mem _ hst')
    refine ⟨hr, hPr, ?_⟩
    intro st' hst'
    rcases List.mem_cons.1 hst' with rfl | hst'
    · exact ⟨hbefore, hP⟩
    · exact hall st' hst'

theorem makes (h : s.Proceeds pass q log r) : ∀ st ∈ log, s.Makes pass st := by
  induction h with
  | done => simp
  | last _ hst => simpa using hst
  | next _ hst _ _ ih => exact List.forall_mem_cons.2 ⟨hst, ih⟩

theorem idle (h : s.Proceeds pass q log r) (hq : q.inFlight = false) :
    ∀ st ∈ log, st.before.inFlight = false := by
  induction h with
  | done => simp
  | last hquiet => simpa using (inFlight_of_quiet hquiet).trans hq
  | next hquiet hst hidle hrest ih => simpa using ⟨(inFlight_of_quiet hquiet).trans hq, ih hidle⟩

theorem ends (h : s.Proceeds pass q log r) (hlog : log ≠ []) :
    ∃ st ∈ log, st.after.Becomes st.after.table [] r := by
  induction h with
  | done => exact absurd rfl hlog
  | @last q st => exact ⟨st, List.mem_cons_self, .refl _⟩
  | @next q r st log hq hst hidle hrest ih =>
    cases log with
    | nil =>
      cases hrest with
      | done hr => exact ⟨st, List.mem_cons_self, hr⟩
    | cons st' log =>
      obtain ⟨st'', hmem, hr⟩ := ih (by simp)
      exact ⟨st'', List.mem_cons_of_mem _ hmem, hr⟩

theorem stops (h : s.Proceeds pass q log r) {pre post : List (Settlement E V C K)}
    {st : Settlement E V C K} (hlog : log = pre ++ st :: post) (hbusy : st.after.inFlight = true) :
    post = [] ∧ r = st.after := by
  induction h generalizing pre with
  | done => simp at hlog
  | last =>
    cases pre with
    | nil =>
      obtain ⟨rfl, rfl⟩ := List.cons.inj hlog
      exact ⟨rfl, rfl⟩
    | cons st' pre => simp at hlog
  | next hquiet hst hidle hrest ih =>
    cases pre with
    | nil =>
      obtain ⟨rfl, rfl⟩ := List.cons.inj hlog
      simp [hbusy] at hidle
    | cons st' pre => exact ih (List.cons.inj hlog).2

end Proceeds

section
variable {s : Store E V C K} {pass : Pass} {α : Type} {target : α → Target E V K}
  {settle : α → Op E V C K Bool} {l : List α}

theorem logEach_proceeds {q : Store E V C K} (hset : s.Settles q)
    (hstep : ∀ a ∈ l, ∀ q, s.Settles q → Ends (settle a) q
      (fun b r => if b then s.Makes pass ⟨q, target a, r⟩ else q.Becomes q.table [] r)
      (fun _ => False)) :
    Ends (logEach target settle l) q (fun log r => s.Proceeds pass q log r) (fun _ => False) := by
  induction l generalizing q with
  | nil => exact .answer (.done (.refl q))
  | cons a rest ih =>
    have hrest := fun {q} (hset : s.Settles q) => ih hset fun a' ha' =>
      hstep a' (List.mem_cons_of_mem _ ha')
    refine .read (.bind (hstep a List.mem_cons_self q hset) ?_)
    rintro (_ | _) r hr
    · exact .read ((hrest (hset.trans (.of_quiet hset.sound hr))).mono
        (fun _ _ h => h.after_quiet hr) fun _ h => h)
    · refine .read ?_
      simp only [if_true]
      have hafter := hset.trans (hr.settles hset.sound)
      by_cases hbusy : r.inFlight = true
      · rw [if_pos hbusy]
        exact .answer (.last (.refl q) hr hbusy)
      · rw [if_neg hbusy]
        exact .bind (hrest hafter) fun log r' h =>
          .answer (.next (.refl q) hr (by simpa using hbusy) h)

theorem logEach_ends {P : α → Prop} (hs : s.Sound)
    (hstep : ∀ a ∈ l, ∀ q, s.Settles q → Ends (settle a) q
      (fun b r => (if b then s.Makes pass ⟨q, target a, r⟩ else q.Becomes q.table [] r) ∧
        (q = s → b = false → r = s ∧ P a)) (fun _ => False)) :
    Ends (logEach target settle l) s
      (fun log r => s.Proceeds pass s log r ∧ (log = [] → r = s ∧ ∀ a ∈ l, P a))
      (fun _ => False) := by
  have hproceeds : Ends (logEach target settle l) s (fun log r => s.Proceeds pass s log r)
      (fun _ => False) :=
    logEach_proceeds (.refl hs) fun a ha q hset =>
      (hstep a ha q hset).mono (fun _ _ h => h.1) fun _ h => h
  have hidle : Ends (logEach target settle l) s (fun log r => log = [] → r = s ∧ ∀ a ∈ l, P a)
      (fun _ => True) :=
    logEach_idle fun a ha =>
      (hstep a ha s (.refl hs)).mono (fun _ _ h => h.2 rfl) fun _ _ => trivial
  exact (hproceeds.and hidle).mono (fun _ _ h => h) fun _ h => h.1

end

def Exhausted (s : Store E V C K) : Pass → Prop
  | .fallbacks waitedOn => ∀ c ∈ s.candidates (.fallbacks waitedOn), False
  | .groups =>
    ∀ group ∈ closedComponents s.waiting, group.any (s.delayedDependers.contains ·) = true
  | .interims waitedOn => ∀ c ∈ s.candidates (.interims waitedOn), ∀ ep, c.status ≠ .interim ep

variable {s : Store E V C K}

theorem Settled.makes {q r : Store E V C K} {pass : Pass} {cell : Cell E V K}
    {P : Final E V → Prop} {b : Bool} (hs : s.Sound) (hset : s.Settles q)
    (hcell : cell ∈ s.candidates pass)
    (hP : ∀ {c ep}, P ep → c.key = cell.key → c.status.sameState cell.status = true →
      q.SettlesTo c ep) (hr : q.Settled cell P r b) :
    (if b then s.Makes pass ⟨q, .cell cell, r⟩ else q.Becomes q.table [] r) ∧
      (q = s → b = true) := by
  obtain ⟨hcur, hseen⟩ := Seen.current hs (candidate_mem hcell).1
  cases hr with
  | moved hmoved hr =>
    refine ⟨hr, ?_⟩
    rintro rfl
    simpa [Status.sameState_self] using hmoved cell hcur
  | taken c new hid hc hsame hfit hnew hr =>
    have hkey : c.key = cell.key := by
      have h := (hset.seen hseen).key
      rw [← hid] at h
      simpa [CellTable.key?, hc] using h
    have hawake := hset.awake hcur (candidate_awake hs hcell) (hid ▸ hc)
    exact ⟨.cell hcell hid hc hawake hfit (hP hnew hkey hsame) hr, fun _ => rfl⟩

variable [Property V] [ToString E] [ToString V]

theorem fallbacks_log_ends (hs : s.Sound) (waitedOn : Bool) :
    Ends (Pass.fallbacks waitedOn).log s (fun log r => s.Proceeds (.fallbacks waitedOn) s log r ∧
      (log = [] → r = s ∧ s.Exhausted (.fallbacks waitedOn))) (fun _ => False) := by
  refine .read (logEach_ends hs ?_)
  intro cell hcell q hset
  obtain ⟨-, hseen⟩ := Seen.current hs (candidate_mem hcell).1
  have hunknown := (List.mem_filter.1 hcell).2
  refine (fallBack_ends hset.sound (hset.seen hseen) hunknown).mono ?_ fun _ h => h
  intro b r hr
  obtain ⟨hmakes, hfirst⟩ := hr.makes hs hset hcell (by
    rintro c ep ⟨info, n, hinfo, rfl⟩ hkey hsame
    refine ⟨info, n, hkey ▸ hinfo, ?_⟩
    have hu := Status.isUnknown_of_sameState hsame hunknown
    cases hst : c.status <;> simp_all [Status.isUnknown])
  exact ⟨hmakes, fun hq hb => by simp [hfirst hq] at hb⟩

theorem interims_log_ends (hs : s.Sound) (waitedOn : Bool) :
    Ends (Pass.interims waitedOn).log s (fun log r => s.Proceeds (.interims waitedOn) s log r ∧
      (log = [] → r = s ∧ s.Exhausted (.interims waitedOn))) (fun _ => False) := by
  refine .read (logEach_ends hs ?_)
  intro cell hcell q hset
  obtain ⟨-, hseen⟩ := Seen.current hs (candidate_mem hcell).1
  by_cases hinterim : ∃ ep, cell.status = .interim ep
  · obtain ⟨iep, hiep⟩ := hinterim
    refine (finalize_ends hset.sound (hset.seen hseen) hiep).mono ?_ fun _ h => h
    intro b r hr
    obtain ⟨hmakes, hfirst⟩ := hr.makes hs hset hcell (by
      rintro c ep ⟨info, n, hinfo, rfl⟩ hkey hsame
      refine ⟨info, n, hkey ▸ hinfo, ?_⟩
      obtain ⟨old, hold, hlower, hupper⟩ := Status.interim_of_sameState (hiep ▸ hsame)
      rw [hold]
      exact ⟨iep, hlower.symm, hupper.symm, rfl⟩)
    exact ⟨hmakes, fun hq hb => by simp [hfirst hq] at hb⟩
  · have hnone : ∀ ep, cell.status ≠ .interim ep := fun ep hep => hinterim ⟨ep, hep⟩
    refine (finalize_idle hnone).mono ?_ fun _ h => h
    rintro b r ⟨rfl, rfl⟩
    exact ⟨.refl r, fun hq _ => ⟨hq, hnone⟩⟩

theorem groups_log_ends (hs : s.Sound) :
    Ends Pass.groups.log s (fun log r => s.Proceeds .groups s log r ∧
      (log = [] → r = s ∧ s.Exhausted .groups)) (fun _ => False) := by
  refine .read (logEach_ends hs ?_)
  intro group hmem q hset
  refine (resolveGroup_ends hset.sound s.delayedDependers group).mono ?_ fun _ h => h
  intro b r hr
  split at hr
  · next hdelayed =>
    obtain ⟨rfl, rfl⟩ := hr
    exact ⟨.refl r, fun hq _ => ⟨hq, hdelayed⟩⟩
  · next hfree =>
    obtain ⟨rfl, batch, hres⟩ := hr
    exact ⟨.group rfl hmem (by simpa using hfree) hres, by simp⟩

/-- In a sound store a pass does not fail, and without settlements it leaves the store as it was. -/
theorem Pass.log_ends (hs : s.Sound) (pass : Pass) :
    Ends pass.log s (fun log r => s.Proceeds pass s log r ∧ (log = [] → r = s ∧ s.Exhausted pass))
      (fun _ => False) := by
  cases pass with
  | fallbacks waitedOn => exact fallbacks_log_ends hs waitedOn
  | groups => exact groups_log_ends hs
  | interims waitedOn => exact interims_log_ends hs waitedOn

/-- The passes come one after the other, and the first that settles something is the last. -/
theorem logPasses_ends (hs : s.Sound) (passes : List Pass) :
    Ends (logPasses passes) s
      (fun log r => (log = [] ∧ r = s ∧ ∀ pass ∈ passes, s.Exhausted pass) ∨
        log ≠ [] ∧ ∃ pre pass post, passes = pre ++ pass :: post ∧ (∀ p ∈ pre, s.Exhausted p) ∧
          s.Proceeds pass s log r)
      (fun _ => False) := by
  induction passes with
  | nil => exact .answer (.inl ⟨rfl, rfl, by simp⟩)
  | cons pass rest ih =>
    refine .bind (pass.log_ends hs) ?_
    rintro (_ | ⟨st, log⟩) r ⟨hlog, hnone⟩
    · obtain ⟨rfl, hpass⟩ := hnone rfl
      refine ih.mono ?_ fun _ h => h
      rintro log q (⟨hlog, hq, hrest⟩ | ⟨hlog, pre, pass', post, rfl, hpre, hq⟩)
      · exact .inl ⟨hlog, hq, List.forall_mem_cons.2 ⟨hpass, hrest⟩⟩
      · exact .inr ⟨hlog, pass :: pre, pass', post, rfl, List.forall_mem_cons.2 ⟨hpass, hpre⟩, hq⟩
    · exact .answer (.inr ⟨by simp, [], pass, rest, rfl, by simp, hlog⟩)

end Blackboard.Store
