import Blackboard.Proofs.Precedence

/-! Contributions and settling. A contribution fails once its cell is final. A round that makes a
cell final while nobody waits on it, and while no first value would trigger anything, is the last
thing of the phase that matters: nobody sleeps any more and nothing is queued, so no computation is
left that could contribute. -/
namespace Blackboard
variable {E V C K σ : Type}

namespace Act

def given? : Act E V C K → Option (Final E V)
  | .call c => c.given?
  | .perform (.install ep) => some ep
  | _ => none

def asked? : Act E V C K → Option (Key E)
  | .call c => c.asked?
  | _ => none

def contributed? : Act E V C K → Option (Contribution E V)
  | .perform (.contribute p) => some p
  | _ => none

def isRound : Act E V C K → Bool
  | .round _ _ => true
  | _ => false

theorem IsWithin.isRound {a : Act E V C K} (h : a.IsWithin) : a.isRound = false := by
  cases a with
  | round => exact h.elim
  | _ => rfl

end Act

namespace CellTable
variable [DecidableEq E] {t u : CellTable E V K} {k : Key E}

def Open (t : CellTable E V K) (k : Key E) : Prop :=
  ∀ i c, t.cell? i = some c → c.key.same k = true → c.status.isFinal = false

instance (t : CellTable E V K) (k : Key E) : Decidable (t.Open k) :=
  decidable_of_iff (∀ c ∈ t.all, c.key.same k = true → c.status.isFinal = false)
    ⟨fun h i c hc => h c (mem_all_iff.2 ⟨i, hc⟩),
      fun h c hc => (mem_all_iff.1 hc).elim fun i => h i c⟩

namespace Open

theorem of_face (h : t.Open k) (hu : ∀ i, u.face? i = t.face? i) : u.Open k := by
  intro i c hc hkey
  have hface := CellTable.face?_of_cell? hc
  rw [hu i] at hface
  obtain ⟨e, he, -, hk, hst⟩ := CellTable.cell?_of_shown hface
  exact hst ▸ h i e he (hk ▸ hkey)

theorem grown (h : t.Open k) (hu : t.Grown u) : u.Open k := by
  intro i c hc hkey
  by_cases hi : i < t.size
  · exact h i c (hu.old hi ▸ hc) hkey
  · obtain ⟨key, rfl⟩ := hu.new (Nat.not_lt.1 hi) hc
    rfl

theorem of_cells (h : t.Open k) (hu : u.cells = t.cells) : u.Open k := by
  intro i c hc
  exact h i c (by simpa only [cell?, hu] using hc)

theorem set (h : t.Open k) {c : Cell E V K} {new : Status E V}
    (hu : ∀ i, u.face? i = if i = c.id then some (c.id, c.key, new) else t.face? i)
    (hnew : c.key.same k = true → new.isFinal = false) : u.Open k := by
  intro i e he hkey
  have hface := CellTable.face?_of_cell? he
  rw [hu i] at hface
  split at hface
  · obtain ⟨-, hk, hst⟩ : c.id = e.id ∧ c.key = e.key ∧ new = e.status := by
      simpa [Cell.face] using hface
    exact hst ▸ hnew (hk ▸ hkey)
  · obtain ⟨b, hb, -, hk, hst⟩ := CellTable.cell?_of_shown hface
    exact hst ▸ h i b hb (hk ▸ hkey)

end Open
end CellTable

namespace Cell
variable [DecidableEq E] [DecidableEq V] [Property V] [ToString E] [ToString V] {c : Cell E V K}

theorem update_ne_finalOverwritten (h : c.status.isFinal = false) (new : Status E V)
    (validate : Bool) (text : String) :
    c.update new validate ≠ .error (.finalOverwritten text) := by
  have hfit : c.checkFit new ≠ .error (.finalOverwritten text) := by
    unfold checkFit
    rw [if_neg (by simp [h])]
    split <;> simp
  have hrefine : checkRefinement c.status new ≠ .error (.finalOverwritten text) := by
    unfold checkRefinement
    split
    · split <;> simp
    · simp
  intro hup
  unfold update at hup
  cases hc : c.checkFit new with
  | error e =>
    rw [hc] at hup hfit
    exact hfit (congrArg _ (Except.error.inj hup))
  | ok =>
    rw [hc] at hup
    cases validate with
    | false => cases hup
    | true =>
      cases hr : checkRefinement c.status new with
      | error e =>
        simp only [hr, bind, Except.bind, if_true, Except.error.injEq] at hup
        exact hrefine (hr.trans (congrArg _ hup))
      | ok => simp [hr, bind, Except.bind, pure, Except.pure] at hup

theorem updateWith_ne_finalOverwritten (h : c.status.isFinal = false)
    (f : Status E V → Option (Status E V)) (validate : Bool) (text : String) :
    c.updateWith f validate ≠ .error (.finalOverwritten text) := by
  unfold updateWith
  rw [if_neg (by simp [h])]
  split
  · exact update_ne_finalOverwritten h _ validate text
  · simp

end Cell

namespace Store
variable {s q r : Store E V C K}

def OverwritesNothing {α : Type} (op : Op E V C K α) (s : Store E V C K) : Prop :=
  ∀ key r, op s ≠ .error (.finalOverwritten key) r

instance {α : Type} (op : Op E V C K α) (s : Store E V C K) : Decidable (OverwritesNothing op s) :=
  decidable_of_iff ((match op s with
      | .error (.finalOverwritten _) _ => false
      | _ => true) = true) <| by
    unfold OverwritesNothing
    split
    · next key r h => simpa using ⟨key, r, h⟩
    · next hnot => simpa using hnot

namespace OverwritesNothing
variable {α β : Type}

theorem answer (a : α) : OverwritesNothing (pure a) s := by
  intro key r h
  cases h

theorem failure {e : Error} (h : ∀ key, e ≠ .finalOverwritten key) :
    OverwritesNothing (throw e : Op E V C K α) s := by
  intro key r hr
  have heq : EStateM.Result.error e s = .error (.finalOverwritten key) r := hr
  exact h key (EStateM.Result.error.inj heq).1

theorem read {f : Store E V C K → Op E V C K α} (h : OverwritesNothing (f s) s) :
    OverwritesNothing (get >>= f) s := h

theorem write (f : Store E V C K → Store E V C K) :
    OverwritesNothing (modify f : Op E V C K PUnit) s := by
  intro key r h
  cases h

theorem bind {x : Op E V C K β} {f : β → Op E V C K α} (hx : OverwritesNothing x s)
    (hf : ∀ b r, x s = .ok b r → OverwritesNothing (f b) r) : OverwritesNothing (x >>= f) s := by
  intro key r h
  change EStateM.bind x f s = _ at h
  unfold EStateM.bind at h
  split at h
  · next b q hq => exact hf b q hq key r h
  · next e q hq =>
    obtain ⟨rfl, rfl⟩ := EStateM.Result.error.inj h
    exact hx key q hq

end OverwritesNothing

theorem infoOf_overwritesNothing (kind : Kind) : OverwritesNothing (infoOf kind) s := by
  refine .read ?_
  unfold Schema.get
  cases s.schema.find? kind with
  | some info => exact .answer info
  | none => exact .failure (by simp)

/-- No computation is left that could run in the phase: none is queued, none sleeps, and none waits
for a first value. -/
structure Spent (s : Store E V C K) : Prop where
  queue : s.queue.waiting = []
  asleep : ∀ d, s.table.suspension? d = none
  untriggered : ∀ c ∈ s.cells, c.status.isUnknown = true → s.phase.triggeredBy c.key.kind = []

theorem Spent.quiet (h : s.Spent) (hr : s.Becomes s.table [] r) : r.Spent where
  queue := by rw [hr.queue, Queue.enqueue_nil, h.queue]
  asleep := hr.table ▸ h.asleep
  untriggered := by
    unfold cells
    rw [hr.table, hr.phase]
    exact h.untriggered

theorem Spent.installTasks_eq_nil (h : s.Spent) {c : Cell E V K} (hc : s.table.cell? c.id = some c)
    (new : Status E V) : s.table.installTasks s.phase c new = [] := by
  have hin : ∀ d, (s.table.settleIn c.id new).suspension? d = none := by
    intro d
    rw [CellTable.settleIn, CellTable.suspension?_put]
    split
    · rw [CellTable.suspension?_release, h.asleep, ite_self]
    · exact h.asleep d
  have hfirst : ∀ t : CellTable E V K,
      (if c.status.isUnknown then firstTasks s.phase t c else []) = [] := by
    intro t
    split
    · next hu => simp [firstTasks, h.untriggered c (CellTable.mem_all_iff.2 ⟨_, hc⟩) hu]
    · rfl
  rw [CellTable.installTasks, hfirst, List.append_nil, List.filterMap_eq_nil_iff]
  intro d _
  simp [CellTable.wakeTask?, hin d]

theorem Spent.takes [DecidableEq V] (h : s.Spent) {c : Cell E V K} {ep : Final E V}
    (hc : s.table.cell? c.id = some c) (hr : s.Takes c (.final ep) r) : r.Spent := by
  have hb := takes_final.1 hr
  rw [h.installTasks_eq_nil hc] at hb
  refine ⟨by rw [hb.queue, Queue.enqueue_nil, h.queue], fun d => ?_, ?_⟩
  · rw [hb.table]
    by_contra hsusp
    obtain ⟨susp, hsome⟩ := Option.ne_none_iff_exists'.1 hsusp
    simpa [h.asleep d] using CellTable.suspension?_install_le hsome
  · rw [hb.phase]
    intro e he hu
    obtain ⟨i, hi⟩ := CellTable.mem_all_iff.1 he
    have hface := CellTable.face?_of_cell? hi
    rw [hb.table, CellTable.face?_install hc] at hface
    split at hface
    · obtain ⟨-, -, hst⟩ : c.id = e.id ∧ c.key = e.key ∧ .final ep = e.status := by
        simpa [Cell.face] using hface
      simp [← hst, Status.isUnknown] at hu
    · obtain ⟨b, hbcell, -, hk, hst⟩ := CellTable.cell?_of_shown hface
      exact hk ▸ h.untriggered b (CellTable.mem_all_iff.2 ⟨i, hbcell⟩) (hst ▸ hu)

variable [DecidableEq E] {k : Key E}

theorem cellOf_overwritesNothing (key : Key E) : OverwritesNothing (cellOf key) s := by
  refine .bind (infoOf_overwritesNothing key.kind) fun info q _ =>
    .bind (.read ?_) fun p r _ => .answer _
  unfold CellTable.getOrCreate cellId
  split
  · next heq => exact .bind (.write _) fun _ _ _ => .answer _
  · next e heq =>
    refine .failure fun text he => ?_
    subst he
    split at heq
    · cases heq
    · split at heq <;> cases heq

variable [DecidableEq V]

theorem Takes.leaves_open {c : Cell E V K} {new : Status E V} (h : s.Takes c new r)
    (hopen : s.table.Open k) (hc : s.table.cell? c.id = some c)
    (hnew : c.key.same k = true → new.isFinal = false) : r.table.Open k := by
  unfold Takes at h
  split at h
  · exact hopen.set (h.table ▸ CellTable.face?_install hc new) hnew
  · exact h.table ▸ hopen

theorem Spent.kept (h : s.Spent) (hs : s.Sound) : s.Kept Spent Spent where
  start := h
  weaken hq := hq
  quiet_before hq hr := hq.quiet hr
  quiet hq hr := hq.quiet hr
  step hq _ _ hst := by
    cases hst with
    | cell _ _ hc _ _ _ hr => exact hq.takes hc hr
    | group _ hmem _ _ =>
      obtain ⟨x, hx, -⟩ := Waiting.mem_closedComponents hmem
      obtain ⟨d, susp, hd, -⟩ := (mem_nodes_waiting hs).1 hx
      simp [h.asleep d] at hd

theorem hasDependers_of_closedComponent (hs : s.Sound) (hl : s.table.Linked) {group : List Depender}
    (h : group ∈ closedComponents s.waiting) {i : Nat} (hi : .cell i ∈ group) {c : Cell E V K}
    (hc : s.table.cell? i = some c) : c.hasDependers = true := by
  obtain ⟨x, hx, hiff, hclosed⟩ := Waiting.mem_closedComponents h
  obtain ⟨y, hdecode, hy⟩ := (hiff _).1 hi
  obtain rfl : y = i := by
    unfold Depender.decode at hdecode
    split at hdecode <;> cases hdecode
    rfl
  -- what the member waits on leads back to it, so its last step there is somebody who waits on the
  -- member
  obtain ⟨e, susp, he, hey⟩ := (mem_nodes_waiting hs).1 (Waiting.waitsFor_mem hx hy)
  obtain ⟨p, hp⟩ := List.exists_mem_of_ne_nil _ (hs.table.awaits he).1
  have hdep : p.1 ∈ Waiting.dependeesOf s.waiting y :=
    (mem_dependeesOf_waiting hs).2 ⟨e, susp, he, hey, List.mem_map_of_mem hp⟩
  have hnext := Waiting.mem_dependeesOf_of_not_open (hclosed y hy).1 hdep
  have hback : Waiting.WaitsFor s.waiting p.1 y := (hclosed p.1 (hy.tail hnext)).2.trans hy
  have hwaits : ∃ z, y ∈ Waiting.successors s.waiting z := by
    rcases hback.cases_tail with heq | ⟨z, -, hz⟩
    · exact ⟨y, heq ▸ hnext⟩
    · exact ⟨z, hz⟩
  obtain ⟨z, hz⟩ := hwaits
  obtain ⟨d, susp', hd, -, hmem⟩ := (mem_dependeesOf_waiting hs).1 (Waiting.mem_successors.1 hz).1
  obtain ⟨c', hc', htold, -⟩ := dependee_open hl hd hmem
  exact Option.some.inj (hc'.symm.trans hc) ▸ htold

/-- When a pass makes a cell final that nobody waited on, nobody sleeps, unless for a cell of a
delayed kind. -/
theorem Proceeds.asleep_eq_none {pass : Pass} {log : List (Settlement E V C K)}
    {pre post : List Pass} (h : s.Proceeds pass s log r) (hs : s.Sound) (hl : s.table.Linked)
    (hpasses : passes true true = pre ++ pass :: post) (hpre : ∀ p ∈ pre, s.Exhausted p)
    (hdelayed : s.phase.delayed = []) {i : Nat} {c : Cell E V K} (hc : s.table.cell? i = some c)
    (hopen : c.status.isFinal = false) (hnone : c.hasDependers = false)
    (hset : r.isFinalAt i = true) (d : Depender) : s.table.suspension? d = none := by
  have hbefore : s.isFinalAt i = false := by
    simp [isFinalAt, show s.cell? i = some c from hc, hopen]
  obtain ⟨st, hst, hst₁, hst₂⟩ := h.recorded hbefore hset
  have hwaited : pass = .fallbacks false ∨ pass = .interims false := by
    cases h.makes st hst with
    | @cell before after cell c' ep hcand hid hc' hawake hfit hep hr =>
      have hi : i = c'.id := by simpa [hr.isFinalAt hc', hst₁] using hst₂
      obtain ⟨waitedOn, hpass, hmem⟩ := mem_settleable_of_candidate hcand
      obtain ⟨hcur, -⟩ := Seen.current hs (candidate_mem hcand).1
      obtain rfl : cell = c := Option.some.inj (hcur.symm.trans (hid ▸ hi ▸ hc))
      have hw := (List.mem_filter.1 hmem).2
      simp only [hnone, Bool.and_eq_true, beq_iff_eq] at hw
      exact hw.2 ▸ hpass
    | @group before after members batch hpass hmem hfree hr =>
      have hany : batch.any (·.1.id == i) = true := by simpa [hr.isFinalAt, hst₁] using hst₂
      obtain ⟨p, hp, hid⟩ := List.any_eq_true.1 hany
      have hin := (hr.members p hp).1
      rw [beq_iff_eq.1 hid] at hin
      simp [hasDependers_of_closedComponent hs hl hmem hin hc] at hnone
  obtain ⟨hfallbacks, hgroups, hinterims⟩ := passes_before hpasses hwaited
  by_contra hsusp
  obtain ⟨susp, hd⟩ := Option.ne_none_iff_exists'.1 hsusp
  obtain ⟨-, -, j, -, e, -, -, -, hkind⟩ := awaitsDelayed_of_exhausted hs hl (hpre _ hfallbacks)
    (hpre _ hgroups) (hpre _ hinterims) hd
  simp [Phase.isDelayed, hdelayed] at hkind

variable [Property V] [ToString E]

theorem FallsAsleep.leaves_open {ep : Interim E V} {dependees : List (Status E V)} {x : K}
    {c : Cell E V K} {n : Nat} {obs : List (Nat × Status E V)}
    (h : s.FallsAsleep ep dependees x q c n obs r) (hopen : s.table.Open k) :
    r.table.Open k := by
  refine (hopen.grown h.grows.grown).set
    (h.becomes.table ▸ CellTable.face?_fallAsleep h.cell ep _) fun _ => ?_
  cases hch : (c.replace (.interim ep)).1.changed with
  | true =>
    rw [Cell.replace_of_changed hch]
    rfl
  | false =>
    rw [(Cell.replace_of_unchanged hch).1]
    exact h.fits.refinable

variable [ToString V]

theorem contribute_overwritesNothing (hs : s.Sound) (hopen : s.table.Open k) {p : Contribution E V}
    (hkey : p.key.same k = true) : OverwritesNothing (contribute p) s := by
  refine .read ?_
  split
  · exact .failure (by simp)
  refine .bind (cellOf_overwritesNothing p.key) fun c q hq => ?_
  obtain ⟨hgrows, hc, hown⟩ := (cellOf_ends hs p.key).of_ok hq
  have hrefinable := hopen.grown hgrows.grown c.id c hc (Key.same_trans hown hkey)
  unfold contributeTo
  cases p.applied c.status with
  | error crash => exact .answer _
  | ok new =>
    refine .read (.bind ?_ fun u r _ => .bind (.write _) fun _ _ _ => .answer _)
    unfold carryOut
    cases hup : c.updateWith (fun _ => new.map .interim) q.config.debug with
    | ok pair => exact .bind (.write _) fun _ _ _ => .answer _
    | error e =>
      refine .failure fun text he => ?_
      exact Cell.updateWith_ne_finalOverwritten hrefinable _ _ text (he ▸ hup)

theorem perform_leaves_open (hs : s.Sound) (hopen : s.table.Open k) {a : Action E V C K}
    (ha : ∀ ep, a = .install ep → ep.key.same k = false) :
    Ends (perform a) s (fun _ r => r.table.Open k) (·.table.Open k) := by
  cases a with
  | install ep =>
    refine .unbroken ((installFinal_ends hs ep).mono ?_ fun _ h => hopen.grown h.grown)
    rintro _ r ⟨q, c, hgrows, hc, hkey, hfit, -, htakes⟩
    refine htakes.leaves_open (hopen.grown hgrows.grown) hc fun hsame => ?_
    have hnot := ha ep rfl
    rw [Key.same_trans (Key.same_symm hkey) hsame] at hnot
    cases hnot
  | contribute p =>
    refine (contribute_ends hs p).mono ?_ fun _ h => hopen.grown h.grown
    rintro _ r ⟨q, c, hgrows, hc, -, hquiet | ⟨ep, hfit, -, htakes⟩⟩
    · exact hquiet.table ▸ hopen.grown hgrows.grown
    · exact htakes.leaves_open (hopen.grown hgrows.grown) hc fun _ => rfl
  | suspend ep dependees x =>
    refine .unbroken ((suspend_ends hs ep dependees x).mono ?_ ?_)
    · rintro _ r ⟨q, c, n, obs, q', h, hreg⟩
      exact (h.leaves_open hopen).of_face hreg.face?
    · rintro r (hgrows | ⟨q, c, n, obs, q', pre, h, -, hr⟩)
      · exact hopen.grown hgrows.grown
      · exact (h.leaves_open hopen).of_face (hr.table ▸ CellTable.face?_watch _ _ _)
  | collaborate dependees x =>
    refine .unbroken ((collaborate_ends hs dependees x).mono ?_ ?_)
    · rintro _ r ⟨q, n, obs, q', hgrows, -, hadd, -, hreg⟩
      exact ((hopen.grown hgrows.grown).of_cells (hadd.table ▸ rfl)).of_face hreg.face?
    · intro r h
      obtain ⟨q, id, pre, hgrows, -, hcells⟩ := h.watched
      exact ((hopen.grown hgrows.grown).of_face (CellTable.face?_watch _ _ _)).of_cells hcells
  | schedule c e => exact .unbroken (.write ((schedule_becomes "incremental" s c e).table ▸ hopen))

/-- The key is not made final by a client, and a round makes it final only when nobody waits on it
and when no cell that still lacks a value would trigger a computation with it. -/
structure LeavesLast (s : Store E V C K) (k : Key E) (a : Act E V C K) : Prop where
  not_given : ∀ ep ∈ a.given?, ep.key.same k = false
  computed : ∀ key ∈ a.asked?, key.same k = true → s.phase.isComputed key.kind = true
  not_delayed : a.isRound = true → s.phase.delayed = []
  settled : a.isRound = true → ∀ c ∈ s.cells, c.key.same k = true → c.status.isFinal = false →
    (s.act a).isFinalAt c.id = true → c.hasDependers = false ∧
      ∀ e ∈ s.cells, e.status.isUnknown = true → (s.phase.triggeredBy e.key.kind).isEmpty = true

instance (s : Store E V C K) (k : Key E) (a : Act E V C K) : Decidable (s.LeavesLast k a) :=
  decidable_of_iff ((∀ ep ∈ a.given?, ep.key.same k = false) ∧
      (∀ key ∈ a.asked?, key.same k = true → s.phase.isComputed key.kind = true) ∧
      (a.isRound = true → s.phase.delayed = []) ∧
      (a.isRound = true → ∀ c ∈ s.cells, c.key.same k = true → c.status.isFinal = false →
        (s.act a).isFinalAt c.id = true → c.hasDependers = false ∧
          ∀ e ∈ s.cells, e.status.isUnknown = true →
            (s.phase.triggeredBy e.key.kind).isEmpty = true))
    ⟨fun h => ⟨h.1, h.2.1, h.2.2.1, h.2.2.2⟩, fun h => ⟨h.1, h.2, h.3, h.4⟩⟩

theorem act_leaves_open (hs : s.Sound) (hopen : s.table.Open k) {a : Act E V C K}
    (h : s.LeavesLast k a) (hround : a.isRound = false) : (s.act a).table.Open k := by
  have hfail : ∀ (r : Store E V C K) e, (r.fail e).table = r.table :=
    fun r e => by simp [Store.fail, notify]
  cases a with
  | call c =>
    rcases serve_cases hs c with ⟨rfl, hr⟩ | hr
    · change (s.serve _).2.table.Open k
      rw [hr]
      exact hopen
    · change (s.serve c).2.table.Open k
      cases hr with
      | steady hr => exact hopen.grown hr.grown
      | settled q c' ep hq hc hkey hfit hcheck htakes why =>
        refine htakes.leaves_open (hopen.grown hq.grown) hc fun hsame => ?_
        rcases why with hgiven | ⟨-, -, key, hasked, hown, hnot⟩
        · have hother := h.not_given ep hgiven
          rw [Key.same_trans (Key.same_symm hkey) hsame] at hother
          cases hother
        · have hcomputed := h.computed key hasked (Key.same_trans (Key.same_symm hown) hsame)
          rw [hnot] at hcomputed
          cases hcomputed
  | start =>
    simp only [Store.act]
    split
    · exact hopen
    · split <;> exact hopen
  | perform a =>
    have hends := perform_leaves_open hs hopen (a := a) (by rintro ep rfl; exact h.not_given ep rfl)
    simp only [Store.act]
    cases hr : perform a s with
    | ok u r => exact hends.of_ok hr
    | error e r => exact hfail r e ▸ hends.of_error hr
  | crash c => exact hfail s _ ▸ hopen
  | round cycles fallbacks => cases hround
  | drop =>
    simp only [Store.act]
    split <;> exact hopen
  | tell n => exact hopen

namespace Spent

theorem round (h : s.Spent) (hs : s.Sound) (cycles fallbacks : Bool) :
    (s.act (.round cycles fallbacks)).Spent := by
  simp only [Store.act]
  split
  · exact h
  · next hguard =>
    simp only [Bool.or_eq_true, not_or, Bool.not_eq_true] at hguard
    have hround := (h.kept hs).onQuiescence hs hguard.2 cycles fallbacks
    split at hround
    · exact hround.2
    · exact h.quiet hround.1

end Spent

/-- A round that makes the key final finds no computation left. -/
theorem spent_of_round (h : s.Healthy) (hopen : s.table.Open k)
    (hlast : s.LeavesLast k (.round true true)) (hhalted : s.queue.halted = false)
    (hwaiting : s.queue.waiting = [])
    (hfinal : ¬ (s.act (.round true true)).table.Open k) : s.Spent := by
  have hidle : s.inFlight = false := inFlight_eq_false_iff.2 hwaiting
  have hfault : s.fault = none := by
    have hflags := h.flags
    rw [hhalted] at hflags
    cases hf : s.fault <;> simp [hf] at hflags ⊢
  obtain ⟨q, n, hq, heq⟩ := s.onQuiescence_eq true true
  have hs : q.Sound := (Settles.of_quiet h.sound hq).sound
  obtain ⟨log, r, hr, hround⟩ := (logPasses_ends hs (passes true true)).exists_ok
  have hend : s.act (.round true true) = r.notify (.quiescent n (!log.isEmpty)) := by
    have hact : s.act (.round true true) = (s.onQuiescence true true).2 := by
      simp [Store.act, hhalted, hidle]
    rw [hact, heq, settle_of_settlements hr]
  have htable : (s.act (.round true true)).table = r.table := by rw [hend]; rfl
  rcases hround with ⟨-, rfl, -⟩ | ⟨-, pre, pass, post, hpasses, hpre, hproceeds⟩
  · exact absurd (htable ▸ hq.table ▸ hopen) hfinal
  -- the cell that became final was there before, and the round found it as the key's condition says
  obtain ⟨hset, -⟩ := hproceeds.keeps (P := fun _ => True) (.refl hs) trivial (fun _ _ => trivial)
    fun _ _ _ _ _ => trivial
  simp only [CellTable.Open, htable, not_forall, Bool.not_eq_false] at hfinal
  obtain ⟨i, e, he, hkey, hset'⟩ := hfinal
  obtain ⟨c, hc, hckey⟩ : ∃ c, s.table.cell? i = some c ∧ c.key = e.key := by
    have hk := hset.keys i
    rw [hq.table] at hk
    simpa [CellTable.key?, he, eq_comm] using hk
  have hnot := hopen i c hc (hckey ▸ hkey)
  have hfinal : r.isFinalAt i = true := by simp [isFinalAt, show r.cell? i = some e from he, hset']
  have hafter : (s.act (.round true true)).isFinalAt i = true := by
    rw [isFinalAt_congr (congrArg (CellTable.face? · i) htable)]
    exact hfinal
  obtain ⟨hnone, huntriggered⟩ :=
    hlast.settled rfl c (CellTable.mem_all_iff.2 ⟨i, hc⟩) (hckey ▸ hkey) hnot
      (h.sound.table.id_eq hc ▸ hafter)
  refine ⟨hwaiting, fun d => ?_, fun c hc hu => List.isEmpty_iff.1 (huntriggered c hc hu)⟩
  rw [← hq.table]
  exact hproceeds.asleep_eq_none hs (hq.table ▸ h.linked hfault) hpasses hpre
    (hq.phase ▸ hlast.not_delayed rfl) (hq.table ▸ hc) hnot hnone hfinal d

def Along (P : Store E V C K → Act E V C K → Prop) : Store E V C K → List (Act E V C K) → Prop
  | _, [] => True
  | s, a :: acts => P s a ∧ Along P (s.act a) acts

instance decidableAlong {P : Store E V C K → Act E V C K → Prop} [∀ s a, Decidable (P s a)] :
    (s : Store E V C K) → (acts : List (Act E V C K)) → Decidable (Along P s acts)
  | _, [] => .isTrue trivial
  | s, a :: acts => @instDecidableAnd _ _ _ (decidableAlong (s.act a) acts)

theorem along_append {P : Store E V C K → Act E V C K → Prop} {as bs : List (Act E V C K)} :
    Along P s (as ++ bs) ↔ Along P s as ∧ Along P (s.run as) bs := by
  induction as generalizing s with
  | nil => simp [Along, run]
  | cons a as ih =>
    simp only [List.cons_append, Along, ih, and_assoc]
    rfl

/-- A contribution for the key is handled while the key is not final, and so does not fail for
that. -/
def Timely (k : Key E) (s : Store E V C K) (a : Act E V C K) : Prop :=
  ∀ p ∈ a.contributed?, p.key.same k = true → s.table.Open k ∧ OverwritesNothing (contribute p) s

instance (k : Key E) (s : Store E V C K) (a : Act E V C K) : Decidable (Timely k s a) :=
  inferInstanceAs (Decidable (∀ p ∈ a.contributed?, p.key.same k = true →
    s.table.Open k ∧ OverwritesNothing (contribute p) s))

theorem timely_of_within (h : s.Reachable) (hopen : s.table.Open k) {acts : List (Act E V C K)}
    (hwithin : ∀ a ∈ acts, a.IsWithin) (hlast : Along (fun s a => s.LeavesLast k a) s acts) :
    Along (Timely k) s acts ∧ (s.run acts).table.Open k := by
  induction acts generalizing s with
  | nil => exact ⟨trivial, hopen⟩
  | cons a acts ih =>
    obtain ⟨ha, hacts⟩ := List.forall_mem_cons.1 hwithin
    obtain ⟨hrest, hend⟩ :=
      ih (h.act a) (act_leaves_open h.healthy.sound hopen hlast.1 ha.isRound) hacts hlast.2
    exact ⟨⟨fun p _ hkey => ⟨hopen, contribute_overwritesNothing h.healthy.sound hopen hkey⟩,
      hrest⟩, hend⟩

/-- At the start of a turn: the key is open, or nothing will run any more. -/
def Poised (s : Store E V C K) (k : Key E) : Prop :=
  s.table.Open k ∨ s.queue.halted = true ∨ s.Spent

end Store

open Store

variable [DecidableEq E] [DecidableEq V] [Property V] [ToString E] [ToString V] {k : Key E}

theorem Client.turn_timely (client : Client E V C K σ) {w : World E V C K σ} (h : w.store.Reachable)
    (hpoised : w.store.Poised k)
    (hlast : Along (fun s a => s.LeavesLast k a) w.store (client.turnActs true true w)) :
    Along (Timely k) w.store (client.turnActs true true w) ∧
      (w.store.run (client.turnActs true true w)).Poised k := by
  have hs := h.healthy.sound
  have hquiet : ∀ {a : Act E V C K}, a.contributed? = none → Along (Timely k) w.store [a] :=
    fun hnone => ⟨fun p hp => by simp [hnone] at hp, trivial⟩
  unfold turnActs laterActs nextAct at *
  by_cases hlost : w.lost.isSome = true
  · rw [if_pos hlost]
    exact ⟨trivial, hpoised⟩
  rw [if_neg hlost] at *
  by_cases hhalted : w.store.queue.halted = true
  · rw [if_pos hhalted, if_pos hhalted] at *
    refine ⟨hquiet rfl, .inr (.inl ?_)⟩
    simp [Store.run, Store.act, hhalted, Queue.drop]
  · rw [if_neg hhalted, if_neg hhalted] at *
    cases hq : w.store.queue.waiting with
    | nil =>
      simp only [hq, List.isEmpty_nil, if_true] at hlast ⊢
      refine ⟨hquiet rfl, ?_⟩
      change (w.store.act (.round true true)).Poised k
      rcases hpoised with hopen | hhalt | hspent
      · by_cases hstill : (w.store.act (.round true true)).table.Open k
        · exact .inl hstill
        · have hspent := spent_of_round h.healthy hopen hlast.1 (by simpa using hhalted) hq hstill
          exact .inr (.inr (hspent.round hs true true))
      · exact absurd hhalt hhalted
      · exact .inr (.inr (hspent.round hs true true))
    | cons task rest =>
      simp only [hq, List.isEmpty_cons, Bool.false_eq_true, if_false] at hlast ⊢
      have hopen : w.store.table.Open k := by
        rcases hpoised with hopen | hhalt | hspent
        · exact hopen
        · exact absurd hhalt hhalted
        · simp [hspent.queue] at hq
      obtain ⟨htimely, hend⟩ :=
        timely_of_within (h.act .start) (act_leaves_open hs hopen hlast.1 rfl)
          (List.forall_mem_append.2 ⟨calls_within _ _, concluding_within _ _⟩) hlast.2
      exact ⟨⟨(hquiet rfl).1, htimely⟩, .inl hend⟩

theorem Client.acts_timely (client : Client E V C K σ) (fuel : Nat) {w : World E V C K σ}
    (h : w.store.Reachable) (hpoised : w.store.Poised k)
    (hlast : Along (fun s a => s.LeavesLast k a) w.store (client.acts true true fuel w)) :
    Along (Timely k) w.store (client.acts true true fuel w) := by
  induction fuel generalizing w with
  | zero => trivial
  | succ fuel ih =>
    unfold acts at hlast ⊢
    rw [along_append] at hlast ⊢
    obtain ⟨hturn, hpoised'⟩ := client.turn_timely h hpoised hlast.1
    refine ⟨hturn, ?_⟩
    have hstore := client.turn_eq_run true true w
    have hrest := hlast.2
    rw [← hstore] at hpoised' hrest ⊢
    have hreach := h.turn client true true
    generalize (client.worker true true).turn w = t at *
    obtain ⟨more, w'⟩ := t
    cases more with
    | true => exact ih hreach hpoised' hrest
    | false => trivial

/-- Suppose that during a wait no client makes the key final, that no kind is delayed when a round
is held, and that a round makes the key final only while nobody waits on it and no first value would
trigger anything. Then every contribution for the key is handled before the key is final, and none
fails because it is. -/
theorem World.contributions_before_settling {client : Client E V C K σ} {w : World E V C K σ}
    (h : w.store.Reachable) (hopen : w.store.table.Open k) (fuel : Nat)
    (hlast : Along (fun s a => s.LeavesLast k a) w.store (w.waitActs client fuel true true)) :
    Along (Timely k) w.store (w.waitActs client fuel true true) := by
  obtain ⟨acts, hacts⟩ := w.store.beginWait_run true true
  refine ⟨by simp [Timely, Act.contributed?], by simp [Timely, Act.contributed?], ?_⟩
  refine client.acts_timely fuel (w := { w with store := w.store.beginWait true true }) ?_
    (.inl hopen) hlast.2.2
  exact hacts ▸ h.run acts

section
open FactSort (callers)

/-- A computation waits on the callers of its entity. When they change it adds a caller to the
method that it is named for, if there is one. -/
def relay : Client Element Fact (Option Nat) (Option Nat) Unit where
  start target e _ := do
    match ← Script.ask (.query ⟨e, callers.kind⟩) with
    | .ok status => return (.ok (.collaboration [] [status] target), ())
    | .error _ => return (.ok .nothing, ())
  resume target _ _ :=
    return (.ok (target.elim .nothing fun m => .contribution ⟨⟨.method m, callers.kind⟩,
    fun _ => .ok (some (.ofValue ⟨.method m, callers.kind⟩ ⟨9, .callers (.ofList [1, 7])⟩))⟩), ())

def relays (tasks : List (Nat × Option Nat)) : World Element Fact (Option Nat) (Option Nat) Unit :=
  ⟨(create {} .none 1).run
    ([.call (.registerKind ((FallbackRule.fixed (.callers ∅)).info .lower)),
      .perform (.contribute ⟨⟨.method 1, callers.kind⟩,
        fun _ => .ok (some (.ofValue ⟨.method 1, callers.kind⟩ ⟨0, .callers (.ofList [1])⟩))⟩),
      .perform (.contribute ⟨⟨.method 2, callers.kind⟩,
        fun _ => .ok (some (.ofValue ⟨.method 2, callers.kind⟩ ⟨1, .callers (.ofList [2])⟩))⟩)] ++
      tasks.map fun t => .call (.scheduleEager [.method t.1] t.2)), (), none⟩

def relayed : World Element Fact (Option Nat) (Option Nat) Unit := relays [(2, some 1)]

theorem relayed_contributions_before_settling :
    relayed.store.Reachable ∧ relayed.store.table.Open ⟨.method 1, callers.kind⟩ ∧
    Along (fun s a => s.LeavesLast ⟨.method 1, callers.kind⟩ a) relayed.store
      (relayed.waitActs relay 9 true true) ∧
    (relayed.waitActs relay 9 true true).countP (·.contributed?.isSome) = 1 ∧
    Along (Timely ⟨.method 1, callers.kind⟩) relayed.store (relayed.waitActs relay 9 true true) :=
  have hr : relayed.store.Reachable := (Reachable.create {} .none 1).run _
  have hopen : relayed.store.table.Open ⟨.method 1, callers.kind⟩ := by decide +kernel
  have hlast : Along (fun s a => s.LeavesLast ⟨.method 1, callers.kind⟩ a) relayed.store
      (relayed.waitActs relay 9 true true) := by decide +kernel
  ⟨hr, hopen, hlast, by decide +kernel, World.contributions_before_settling hr hopen 9 hlast⟩

def relayedToWaiter : World Element Fact (Option Nat) (Option Nat) Unit :=
  relays [(1, none), (2, some 1)]

/-- So they are settled while a contribution to them still waits for the callers of the second
method. -/
theorem relayedToWaiter_overwritten :
    relayedToWaiter.store.Reachable ∧ relayedToWaiter.store.table.Open ⟨.method 1, callers.kind⟩ ∧
    Along (fun s a => (∀ ep ∈ a.given?, ep.key.same ⟨.method 1, callers.kind⟩ = false) ∧
      s.phase.delayed = [] ∧
        (s.phase.lazyFor callers.kind).isNone = true)
      relayedToWaiter.store (relayedToWaiter.waitActs relay 9 true true) ∧
    ¬ Along (fun s a => ∀ p ∈ a.contributed?, p.key.same ⟨.method 1, callers.kind⟩ = true →
        OverwritesNothing (contribute p) s)
      relayedToWaiter.store (relayedToWaiter.waitActs relay 9 true true) :=
  ⟨(Reachable.create {} .none 1).run _, by decide +kernel, by decide +kernel, by decide +kernel⟩

end

end Blackboard
