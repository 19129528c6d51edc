import Blackboard.Proofs.Completeness
import Blackboard.Proofs.Ledger

/-! No continuation is lost and none is used twice. Over a whole run, the continuations that were
accepted are those that sleep, those that are queued, those that were started, and those that were
discarded because their cell was settled or computed anew without them. -/
namespace Blackboard
variable {E V C K : Type}

def Depender.isCell (chosen : Nat → Bool) : Depender → Bool
  | .cell i => chosen i
  | .collaborator _ => false

namespace CellTable

def pendingIn (t : CellTable E V K) (chosen : Nat → Bool) : Multiset (Depender × K) :=
  t.pending.filter (·.1.isCell chosen = true)

variable {t : CellTable E V K} {chosen : Nat → Bool}

theorem collaborator_not_mem_pendingIn (id : Nat) (k : K) :
    (.collaborator id, k) ∉ t.pendingIn chosen := by
  intro h
  exact absurd (Multiset.mem_filter.1 h).2 (by simp [Depender.isCell])

variable [DecidableEq E]

theorem Sound.pendingIn_congr (h : t.Sound) (gone : Depender → Prop) [DecidablePred gone]
    (hcell : ∀ i, t.suspension? (.cell i) ≠ none → (chosen i = true ↔ gone (.cell i)))
    (hother : ∀ i, ¬ gone (.collaborator i)) :
    t.pendingIn chosen = t.pending.filter (gone ·.1) := by
  refine Multiset.filter_congr ?_
  intro x hx
  obtain ⟨susp, hs, -⟩ := h.mem_pending.1 hx
  obtain ⟨d, k⟩ := x
  cases d with
  | cell i => exact hcell i (by simp [hs])
  | collaborator i => simp [Depender.isCell, hother i]

theorem Sound.pendingIn_eq_zero (h : t.Sound)
    (hcell : ∀ i, t.suspension? (.cell i) ≠ none → chosen i = false) : t.pendingIn chosen = 0 := by
  rw [h.pendingIn_congr (fun _ => False) (fun i hi => by simp [hcell i hi]) fun _ h => h]
  exact Multiset.filter_false _

end CellTable

namespace Store

def isCellOf [DecidableEq E] (s : Store E V C K) (key : Key E) (i : Nat) : Bool :=
  (s.cell? i).any (·.key.same key)

end Store

/-! What becomes of continuations in one act. -/

namespace Act
variable [DecidableEq E] [DecidableEq V] [Property V] [ToString E] [ToString V]

/-- The continuation that comes with an interim result which the store accepts. -/
def accepts (s : Store E V C K) : Act E V C K → Multiset (Depender × K)
  | .perform (.suspend ep dependees k) =>
    match Store.suspend ep dependees k s with
    | .ok () r => ((r.table.find? ep.key).map fun c => (Depender.cell c.id, k)).elim 0 ({·})
    | .error _ _ => 0
  | .perform (.collaborate dependees k) =>
    match Store.collaborate dependees k s with
    | .ok () _ => {(.collaborator s.table.nextCollaborator, k)}
    | .error _ _ => 0
  | _ => 0

def starts (s : Store E V C K) : Act E V C K → Multiset (Depender × K)
  | .start => if s.queue.halted then 0 else carried (s.queue.waiting.take 1)
  | _ => 0

/-- The cell sleeps and is made final by another result, or from outside. -/
def overrules (s : Store E V C K) (a : Act E V C K) : Multiset (Depender × K) :=
  match a with
  | .call (.setFinal ep) | .perform (.install ep) =>
    s.table.pendingIn fun i => s.isCellOf ep.key i && (s.act a).isFinalAt i
  | _ => 0

/-- The cell sleeps in a closed group that is resolved. -/
def resolves (s : Store E V C K) (a : Act E V C K) : Multiset (Depender × K) :=
  match a with
  | .round _ _ =>
    s.table.pendingIn fun i =>
      (closedComponents s.waiting).any (·.contains (.cell i)) && (s.act a).isFinalAt i
  | _ => 0

/-- The cell sleeps and there is another interim result for it. -/
def replaces (s : Store E V C K) : Act E V C K → Multiset (Depender × K)
  | .perform (.suspend ep _ _) => s.table.pendingIn (s.isCellOf ep.key)
  | _ => 0

def discards (s : Store E V C K) (a : Act E V C K) : Multiset (Depender × K) :=
  a.overrules s + a.resolves s + a.replaces s

end Act

namespace Store
variable {s q r : Store E V C K}

theorem carried_of_idle (h : s.inFlight = false) : carried s.queue.waiting = 0 := by
  have hnil : s.queue.waiting = [] := by simpa [inFlight, Queue.pending] using h
  rw [hnil, carried_nil]

/-- How far a round from `s` has come. The members of some closed groups were made final and lost
their continuations; who slept otherwise is as it was, and its continuation is asleep or queued. -/
structure Dismisses (s : Store E V C K) (gone : List Depender) (q : Store E V C K) : Prop where
  held : q.held + s.table.pending.filter (·.1 ∈ gone) = s.held
  groups : ∀ d ∈ gone, ∃ group ∈ closedComponents s.waiting, d ∈ group
  final : ∀ i, .cell i ∈ gone → s.table.suspension? (.cell i) ≠ none → q.isFinalAt i = true
  others : ∀ i, .cell i ∉ gone → s.table.suspension? (.cell i) ≠ none →
    q.table.face? i = s.table.face? i

theorem Dismisses.pending {gone : List Depender} (h : s.Dismisses gone q) (hs : s.inFlight = false)
    (hq : q.inFlight = false) : q.table.pending = s.table.pending.filter (¬ ·.1 ∈ gone) := by
  have hheld := h.held
  rw [Store.held, Store.held, carried_of_idle hq, carried_of_idle hs, add_zero, add_zero] at hheld
  have hsplit : s.table.pending.filter (¬ ·.1 ∈ gone) + s.table.pending.filter (·.1 ∈ gone) =
      s.table.pending := by
    rw [add_comm]
    exact Multiset.filter_add_not _ _
  exact add_right_cancel (hheld.trans hsplit.symm)

theorem Dismisses.quiet {gone : List Depender} (h : s.Dismisses gone q)
    (hq : q.Becomes q.table [] r) (hopen : q.queue.closed = false) :
    s.Dismisses gone r := by
  have hheld : r.held = q.held := by rw [hq.held hopen, carried_nil, add_zero, Store.held]
  have hface : ∀ i, r.table.face? i = q.table.face? i := fun i => by rw [hq.table]
  exact ⟨hheld ▸ h.held, h.groups, fun i hi hs => isFinalAt_congr (hface i) ▸ h.final i hi hs,
    fun i hi hs => (hface i).trans (h.others i hi hs)⟩

variable [DecidableEq E]

/-! Cells that stay as they are, and cells that become final. -/

theorem Steady.not_final (h : s.Steady r) (hs : s.Sound) {i : Nat}
    (hi : s.table.suspension? (.cell i) ≠ none) : r.isFinalAt i = false := by
  obtain ⟨susp, hsusp⟩ := Option.ne_none_iff_exists'.1 hi
  obtain ⟨c, hc, hcs⟩ := Option.bind_eq_some_iff.1 hsusp
  obtain ⟨ep, hep⟩ := hs.table.interim hc (by simp [hcs])
  have hr : r.cell? i = some c := h.grown.cell? hc
  simp [isFinalAt, hr, hep, Status.isFinal]

theorem Steady.isCellOf_iff (h : s.Steady q) {c : Cell E V K} {key : Key E}
    (hc : q.table.cell? c.id = some c) (hkey : c.key.same key = true) {i : Nat}
    (hi : s.table.suspension? (.cell i) ≠ none) : s.isCellOf key i = true ↔ i = c.id := by
  obtain ⟨susp, hsusp⟩ := Option.ne_none_iff_exists'.1 hi
  obtain ⟨e, he, -⟩ := Option.bind_eq_some_iff.1 hsusp
  have hq := h.grown.cell? he
  have hcell : s.cell? i = some e := he
  simp only [isCellOf, hcell, Option.any_some]
  constructor
  · intro hsame
    exact h.sound.table.key_inj hq hc (Key.same_trans hsame (Key.same_symm hkey))
  · intro heq
    subst heq
    obtain rfl : e = c := Option.some.inj (hq.symm.trans hc)
    exact hkey

theorem pendingOf_isCell (hs : s.Sound) (hq : s.Steady q) {chosen : Nat → Bool} {n : Nat}
    (h : ∀ i, s.table.suspension? (.cell i) ≠ none → (chosen i = true ↔ i = n)) :
    s.table.pendingIn chosen = q.table.pendingOf (.cell n) := by
  rw [CellTable.pendingOf, hq.pending hs]
  refine hs.table.pendingIn_congr (· = .cell n) ?_ (by simp)
  intro i hi
  rw [h i hi, Depender.cell.injEq]

theorem Dismisses.asleep {gone : List Depender} (h : s.Dismisses gone q) (hss : s.Sound)
    (hqs : q.Sound) (hs : s.inFlight = false) (hq : q.inFlight = false) {i : Nat}
    (hi : .cell i ∉ gone) (hsusp : s.table.suspension? (.cell i) ≠ none) :
    q.table.suspension? (.cell i) ≠ none := by
  obtain ⟨susp, hsome⟩ := Option.ne_none_iff_exists'.1 hsusp
  have hmem : (.cell i, susp.continuation) ∈ q.table.pending := by
    rw [h.pending hs hq, Multiset.mem_filter]
    exact ⟨hss.table.mem_pending.2 ⟨susp, hsome, rfl⟩, hi⟩
  obtain ⟨susp', hsome', -⟩ := hqs.table.mem_pending.1 hmem
  simp [hsome']

theorem Dismisses.resolve {gone : List Depender} (h : s.Dismisses gone q) (hss : s.Sound)
    (hqs : q.Sound) (hs : s.inFlight = false) (hq : q.inFlight = false)
    (hopen : q.queue.closed = false) {group : List Depender} {batch : List (Cell E V K × Final E V)}
    (hgroup : group ∈ closedComponents s.waiting) (hr : q.Resolves group batch r) :
    s.Dismisses (gone ++ group) r := by
  have hne : ∀ i, (∀ p ∈ batch, p.1.id ≠ i) → r.table.face? i = q.table.face? i := by
    intro i hi
    rw [hr.becomes.table]
    exact CellTable.face?_resolve_of_ne hi
  refine ⟨?_, ?_, ?_, ?_⟩
  · have hheld := hr.held hqs hopen
    rw [h.pending hs hq, Multiset.filter_filter] at hheld
    have hboth : s.table.pending.filter (·.1 ∈ gone ++ group) =
        s.table.pending.filter (fun x => x.1 ∈ group ∧ ¬ x.1 ∈ gone) +
          s.table.pending.filter (·.1 ∈ gone) := by
      have hnone : s.table.pending.filter
          (fun x => (x.1 ∈ group ∧ ¬ x.1 ∈ gone) ∧ x.1 ∈ gone) = 0 :=
        Multiset.filter_eq_nil.2 fun x _ hx => hx.1.2 hx.2
      rw [Multiset.filter_add_filter, hnone, add_zero]
      refine Multiset.filter_congr fun x _ => ?_
      rw [List.mem_append]
      tauto
    rw [hboth, ← add_assoc, hheld]
    exact h.held
  · intro d hd
    cases List.mem_append.1 hd with
    | inl hd => exact h.groups d hd
    | inr hd => exact ⟨group, hgroup, hd⟩
  · intro i hi hsusp
    by_cases hgone : .cell i ∈ gone
    · simp [hr.isFinalAt, h.final i hgone hsusp]
    · -- a member with interim bounds is in the batch
      have hin : Depender.cell i ∈ group := (List.mem_append.1 hi).resolve_left hgone
      obtain ⟨susp, hsome⟩ := Option.ne_none_iff_exists'.1 hsusp
      obtain ⟨c, hc, hcs⟩ := Option.bind_eq_some_iff.1 hsome
      obtain ⟨ep, hep⟩ := hss.table.interim hc (by simp [hcs])
      have hface : q.table.face? i = some (c.id, c.key, .interim ep) := by
        rw [h.others i hgone hsusp, CellTable.face?_of_cell? hc, Cell.face, hep]
      obtain ⟨p, hp, rfl⟩ := hr.mem_batch hin hface
      rw [hr.isFinalAt, List.any_eq_true.2 ⟨p, hp, by simp⟩, Bool.true_or]
  · intro i hi hsusp
    rw [List.mem_append, not_or] at hi
    refine (hne i ?_).trans (h.others i hi.1 hsusp)
    intro p hp heq
    exact hi.2 (heq ▸ (hr.members p hp).1)

theorem Dismisses.balance {gone : List Depender} (h : s.Dismisses gone r) (hs : s.Sound) :
    r.held + s.table.pendingIn (fun i =>
      (closedComponents s.waiting).any (·.contains (.cell i)) && r.isFinalAt i) = s.held := by
  rw [hs.table.pendingIn_congr (· ∈ gone) ?_ ?_, h.held]
  · intro i hi
    rw [Bool.and_eq_true, List.any_eq_true]
    constructor
    · intro hboth
      by_contra hstays
      have hfinal := (isFinalAt_congr (h.others i hstays hi)).symm.trans hboth.2
      rw [(Steady.refl hs).not_final hs hi] at hfinal
      cases hfinal
    · intro hgone
      obtain ⟨group, hgroup, hmem⟩ := h.groups _ hgone
      exact ⟨⟨group, hgroup, List.contains_iff_mem.2 hmem⟩, h.final i hgone hi⟩
  · intro i hgone
    obtain ⟨group, hgroup, hmem⟩ := h.groups _ hgone
    obtain ⟨j, susp, hj, -⟩ := asleep_in_closedComponent hs hgroup hmem
    cases hj

variable [DecidableEq V]

theorem Takes.overruled {c : Cell E V K} {ep : Final E V}
    (h : q.Takes c (.final ep) r) (hs : s.Sound) (hq : s.Steady q)
    (hc : q.table.cell? c.id = some c) (hkey : c.key.same ep.key = true) :
    s.table.pendingIn (fun i => s.isCellOf ep.key i && r.isFinalAt i) =
      q.table.pendingOf (.cell c.id) := by
  refine pendingOf_isCell hs hq ?_
  intro i hi
  rw [Bool.and_eq_true, hq.isCellOf_iff hc hkey hi]
  exact ⟨fun hboth => hboth.1, fun heq => ⟨heq, by simp [h.isFinalAt hc, heq]⟩⟩

theorem Takes.balance {c : Cell E V K} {ep : Final E V} (h : q.Takes c (.final ep) r) (hs : s.Sound)
    (hopen : s.queue.closed = false) (hq : s.Steady q) (hc : q.table.cell? c.id = some c)
    (hkey : c.key.same ep.key = true) (hfit : c.Fits (.final ep)) :
    r.held + s.table.pendingIn (fun i => s.isCellOf ep.key i && r.isFinalAt i) = s.held := by
  have hqopen : q.queue.closed = false := by
    obtain ⟨tasks, htasks⟩ := hq.queue
    rw [htasks, Queue.closed_enqueue, hopen]
  have hheld := h.held hq.sound hqopen hc hfit
  rw [h.overruled hs hq hc hkey, ← hq.held hs hopen, ← hheld]
  rfl

/-! What a round does. -/

namespace Dismisses
variable {gone : List Depender}

theorem take (h : s.Dismisses gone q) (hss : s.Sound) (hqs : q.Sound) (hs : s.inFlight = false)
    (hq : q.inFlight = false) (hopen : q.queue.closed = false) {c : Cell E V K} {ep : Final E V}
    (hc : q.table.cell? c.id = some c) (hawake : c.suspension = none) (hfit : c.Fits (.final ep))
    (hr : q.Takes c (.final ep) r) : s.Dismisses gone r := by
  have hnone : q.table.suspension? (.cell c.id) = none := by
    simp [CellTable.suspension?, hc, hawake]
  have hheld := hr.held hqs hopen hc hfit
  rw [hqs.table.pendingOf_eq_zero hnone, ite_self, add_zero] at hheld
  have hface : ∀ i, i ≠ c.id → r.table.face? i = q.table.face? i := fun i hi => by
    rw [(takes_final.1 hr).table, CellTable.face?_install hc, if_neg hi]
  refine ⟨hheld ▸ h.held, h.groups, ?_, ?_⟩
  · intro i hi hsusp
    simp [hr.isFinalAt hc, h.final i hi hsusp]
  · intro i hi hsusp
    refine (hface i ?_).trans (h.others i hi hsusp)
    intro heq
    exact h.asleep hss hqs hs hq hi hsusp (heq ▸ hnone)

end Dismisses

theorem kept_dismisses (hs : s.Sound) (hopen : s.queue.closed = false)
    (hidle : s.inFlight = false) :
    s.Kept (fun q => q.queue.closed = false ∧ ∃ gone, s.Dismisses gone q)
      (fun q => q.queue.closed = false ∧ ∃ gone, s.Dismisses gone q) := by
  have hquiet : ∀ {q r : Store E V C K}, (q.queue.closed = false ∧ ∃ gone, s.Dismisses gone q) →
      q.Becomes q.table [] r → r.queue.closed = false ∧ ∃ gone, s.Dismisses gone r := by
    intro q r h hr
    obtain ⟨hq, gone, hgone⟩ := h
    exact ⟨hr.closed.trans hq, gone, hgone.quiet hr hq⟩
  refine ⟨⟨hopen, [], ?_⟩, fun h => h, hquiet, hquiet, ?_⟩
  · exact ⟨by simp, by simp, by simp, fun _ _ _ => rfl⟩
  · rintro pass st ⟨hqopen, gone, hgone⟩ hset hq hst
    cases hst with
    | cell _ _ hc hawake hfit _ hr =>
      exact ⟨(takes_final.1 hr).closed.trans hqopen, gone,
        hgone.take hs hset.sound hidle hq hqopen hc hawake hfit hr⟩
    | group _ hgroup _ hr =>
      exact ⟨hr.becomes.closed.trans hqopen, _,
        hgone.resolve hs hset.sound hidle hq hqopen hgroup hr⟩

/-! Every act is balanced. -/

theorem Healthy.running (h : s.Healthy) (hr : s.queue.halted = false) :
    s.fault = none ∧ s.queue.closed = false := by
  have hflags := h.flags
  rw [hr, eq_comm, Bool.or_eq_false_iff] at hflags
  exact ⟨Option.isSome_eq_false_iff.1 hflags.1 |> Option.isNone_iff_eq_none.1, hflags.2⟩

variable [ToString E]

theorem collaborate_balance [ToString V] (hs : s.Sound) (hopen : s.queue.closed = false)
    (dependees : List (Status E V)) (k : K) :
    Ends (collaborate dependees k) s
      (fun _ r => r.held = s.held + {(.collaborator s.table.nextCollaborator, k)})
      (fun _ => True) := by
  refine (collaborate_ends hs dependees k).mono ?_ fun _ _ => trivial
  intro _ r h
  obtain ⟨q, n, obs, q', hgrows, hobs, hadd, hsound, hreg⟩ := h
  have hqopen : q.queue.closed = false := hgrows.becomes.closed.trans hopen
  have hnew := hgrows.sound.table.pending_enlist (hadd.table ▸ hsound.table)
  rw [hreg.held hsound (hadd.closed.trans hqopen), hadd.held hqopen, carried_nil, add_zero, hnew,
    add_right_comm, ← hgrows.grown.nextCollaborator, ← (Steady.of_grows hgrows).held hs hopen,
    Store.held]

variable [Property V]

theorem Served.balance {given : Option (Final E V)} {asked : Option (Key E)}
    (h : s.Served given asked r) (hs : s.Sound) (hopen : s.queue.closed = false) :
    r.held + given.elim 0 (fun ep => s.table.pendingIn fun i => s.isCellOf ep.key i &&
      r.isFinalAt i) = s.held := by
  cases h with
  | steady h =>
    rw [h.held hs hopen]
    cases given with
    | none => exact add_zero _
    | some ep =>
      rw [Option.elim_some, hs.table.pendingIn_eq_zero fun i hi => by simp [h.not_final hs hi],
        add_zero]
  | settled q c ep hq hc hkey hfit hcheck hr why =>
    cases why with
    | inl hgiven =>
      subst hgiven
      exact hr.balance hs hopen hq hc hkey hfit
    | inr hnone =>
      obtain ⟨rfl, hawake, -⟩ := hnone
      have hpaid := hr.balance hs hopen hq hc hkey hfit
      have hzero : q.table.pendingOf (.cell c.id) = 0 :=
        hq.sound.table.pendingOf_eq_zero (by simp [CellTable.suspension?, hc, hawake])
      rwa [hr.overruled hs hq hc hkey, hzero] at hpaid

variable [ToString V]

theorem round_dismisses (h : s.Sound) (hopen : s.queue.closed = false) (cycles fallbacks : Bool) :
    ∃ gone, s.Dismisses gone (s.act (.round cycles fallbacks)) := by
  have hrefl : s.Dismisses [] s := ⟨by simp, by simp, by simp, fun _ _ _ => rfl⟩
  simp only [Store.act]
  split
  · exact ⟨[], hrefl⟩
  · next hguard =>
    simp only [Bool.or_eq_true, not_or, Bool.not_eq_true] at hguard
    have hround := (kept_dismisses h hopen hguard.2).onQuiescence h hguard.2 cycles fallbacks
    split at hround
    · exact hround.2.2
    · exact ⟨[], hrefl.quiet hround.1 hopen⟩

theorem suspend_balance (hs : s.Sound) (hopen : s.queue.closed = false) (ep : Interim E V)
    (dependees : List (Status E V)) (k : K) :
    Ends (suspend ep dependees k) s
      (fun _ r => ∃ c, r.table.find? ep.key = some c ∧
        r.held + s.table.pendingIn (s.isCellOf ep.key) = s.held + {(.cell c.id, k)})
      (fun _ => True) := by
  refine (suspend_ends hs ep dependees k).mono ?_ fun _ _ => trivial
  intro _ r h
  obtain ⟨q, c, n, obs, q', ⟨hgrows, hc, hkey, hfit, -, hobs, -, hsleep, hsound⟩, hreg⟩ := h
  have hq := Steady.of_grows hgrows
  have hqopen : q.queue.closed = false := hgrows.becomes.closed.trans hopen
  have hheld : r.held + q.table.pendingOf (.cell c.id) = q.held + {(.cell c.id, k)} := by
    have hpaid := hgrows.sound.table.pending_fallAsleep q.phase hc hfit hobs.nonempty
      (hobs.ids_lt (n := n) (k := k))
    rw [hreg.held hsound (hsleep.closed.trans hqopen), hsleep.held hqopen, Store.held,
      add_right_comm, hpaid, add_right_comm]
  have hslept : s.table.pendingIn (s.isCellOf ep.key) = q.table.pendingOf (.cell c.id) :=
    pendingOf_isCell hs hq fun i hi => hq.isCellOf_iff hc hkey hi
  have hown : r.table.key? c.id = some c.key := by
    rw [CellTable.key?_of_face? (hreg.face? c.id), hsleep.table, CellTable.key?_fallAsleep,
      CellTable.key?, hc]
    rfl
  obtain ⟨e, he, hec⟩ := CellTable.find?_of_key? (hreg.retains hsound).sound.table hown hkey
  exact ⟨e, he, by rw [hec, hslept, hheld, hq.held hs hopen]⟩

theorem installFinal_balance (hs : s.Sound) (hopen : s.queue.closed = false) (ep : Final E V) :
    Ends (installFinal ep) s
      (fun _ r => r.held + s.table.pendingIn
        (fun i => s.isCellOf ep.key i && r.isFinalAt i) = s.held)
      (fun _ => True) := by
  refine (installFinal_ends hs ep).mono ?_ fun _ _ => trivial
  intro _ r h
  obtain ⟨q, c, hgrows, hc, hkey, hfit, -, hr⟩ := h
  exact hr.balance hs hopen (.of_grows hgrows) hc hkey hfit

theorem contribute_balance (hs : s.Sound) (hopen : s.queue.closed = false) (p : Contribution E V) :
    Ends (contribute p) s (fun _ r => r.held = s.held) (fun _ => True) := by
  refine (contribute_ends hs p).mono ?_ fun _ _ => trivial
  intro _ r h
  obtain ⟨q, c, hgrows, hc, -, hr⟩ := h
  have hqopen : q.queue.closed = false := hgrows.becomes.closed.trans hopen
  rw [← (Steady.of_grows hgrows).held hs hopen]
  cases hr with
  | inl hquiet => rw [hquiet.held hqopen, carried_nil, add_zero, Store.held]
  | inr htakes =>
    obtain ⟨ep, hfit, -, hr⟩ := htakes
    simpa [Status.isFinal] using hr.held hgrows.sound hqopen hc hfit

theorem overrules_call (c : Call E V C) :
    Act.overrules s (.call c) = c.given?.elim 0 (fun ep =>
      s.table.pendingIn fun i => s.isCellOf ep.key i && (s.act (.call c)).isFinalAt i) := by
  cases c <;> rfl

/-- A fault halts the queue, so an act that leaves it running has performed what it was to
perform. -/
theorem act_perform_ok {a : Action E V C K} (h : (s.act (.perform a)).queue.halted = false) :
    ∃ lost r, perform a s = .ok lost r ∧ s.act (.perform a) = r := by
  simp only [Store.act] at h ⊢
  cases hr : perform a s with
  | ok lost r => exact ⟨lost, r, rfl, rfl⟩
  | error e r =>
    simp only [hr] at h
    cases h

theorem halted_act (h : s.Healthy) {a : Act E V C K} (hr : (s.act a).queue.halted = false) :
    s.queue.halted = false := by
  cases a with
  | call c =>
    cases serve_cases h.sound c with
    | inl hshut =>
      obtain ⟨rfl, heq⟩ := hshut
      change (s.serve _).2.queue.halted = false at hr
      rw [heq] at hr
      cases hr
    | inr hserved =>
      change (s.serve c).2.queue.halted = false at hr
      generalize (s.serve c).2 = r at hserved hr
      have hsteady : ∀ {q : Store E V C K}, s.Steady q → q.queue.halted = s.queue.halted := by
        intro q hq
        obtain ⟨tasks, htasks⟩ := hq.queue
        rw [htasks, Queue.halted_enqueue]
      cases hserved with
      | steady hq => rw [← hsteady hq, hr]
      | settled q c' ep hq hc hkey hfit hcheck htakes why =>
        rw [← hsteady hq, ← (takes_final.1 htakes).halted, hr]
  | start =>
    by_contra hhalted
    rw [Bool.not_eq_false] at hhalted
    simp [Store.act, hhalted] at hr
  | perform a =>
    obtain ⟨lost, r, hok, heq⟩ := act_perform_ok hr
    obtain ⟨⟨t, ts, hb⟩, -⟩ := ((perform_ends h.sound a).of_ok hok).1
    rw [← hb.halted, ← heq, hr]
  | crash c => cases hr
  | round cycles fallbacks =>
    by_contra hhalted
    rw [Bool.not_eq_false] at hhalted
    simp [Store.act, hhalted] at hr
  | drop =>
    by_contra hhalted
    rw [Bool.not_eq_false] at hhalted
    simp [Store.act, hhalted, Queue.drop] at hr
  | tell n => exact hr

/-- As long as the queue is not halted, what a store holds changes by what an act accepts, starts
and discards. -/
theorem act_balance (h : s.Healthy) (a : Act E V C K) (hr : (s.act a).queue.halted = false) :
    (s.act a).held + a.starts s + a.discards s = s.held + a.accepts s := by
  have hrun := halted_act h hr
  obtain ⟨-, hopen⟩ := h.running hrun
  cases a with
  | call c =>
    have hdiscards : Act.discards s (.call c) = Act.overrules s (.call c) := by
      simp [Act.discards, Act.resolves, Act.replaces]
    rw [hdiscards, overrules_call]
    cases serve_cases h.sound c with
    | inl hshut =>
      obtain ⟨rfl, heq⟩ := hshut
      change (s.serve _).2.queue.halted = false at hr
      rw [heq] at hr
      cases hr
    | inr hserved =>
      have hpaid := hserved.balance h.sound hopen
      simpa only [Act.starts, Act.accepts, Store.act, add_zero] using hpaid
  | start =>
    have hzero : Act.discards s .start = 0 := by
      simp [Act.discards, Act.overrules, Act.resolves, Act.replaces]
    simp only [hzero, Store.act, Act.starts, Act.accepts, hrun, Bool.false_eq_true,
      if_false, add_zero]
    cases hq : s.queue.waiting with
    | nil => simp
    | cons task rest =>
      have hcons : carried s.queue.waiting = carried [task] + carried rest := by
        rw [hq, ← carried_append]
        rfl
      rw [Store.held, Store.held, hcons, add_assoc, add_comm (carried [task])]
      rfl
  | perform a =>
    obtain ⟨lost, r, hok, heq⟩ := act_perform_ok hr
    simp only [Act.discards, Act.overrules, Act.resolves, Act.replaces, Act.starts,
      Act.accepts, heq]
    cases a with
    | install ep =>
      have hpaid := (installFinal_balance h.sound hopen ep).of_ok (unbroken_ok hok)
      simpa using hpaid
    | suspend ep dependees k =>
      have hok' : suspend ep dependees k s = .ok () r := unbroken_ok hok
      obtain ⟨c, hc, hpaid⟩ := (suspend_balance h.sound hopen ep dependees k).of_ok hok'
      simpa [hok', hc] using hpaid
    | contribute p =>
      have hpaid := (contribute_balance h.sound hopen p).of_ok hok
      simpa using hpaid
    | collaborate dependees k =>
      have hok' : collaborate dependees k s = .ok () r := unbroken_ok hok
      have hpaid := (collaborate_balance h.sound hopen dependees k).of_ok hok'
      simpa [hok'] using hpaid
    | schedule c e =>
      have hr' : s.Becomes s.table [.compute c e] r := by
        have hr' := schedule_becomes "incremental" s c e
        have heq' : s.schedule "incremental" c e = r := by injection unbroken_ok hok
        rwa [heq'] at hr'
      have hnone : carried [(.compute c e : Task E C K)] = 0 := rfl
      have hpaid := hr'.held hopen
      simpa [hnone, Store.held] using hpaid
  | crash c => cases hr
  | round cycles fallbacks =>
    obtain ⟨gone, hgone⟩ := round_dismisses h.sound hopen cycles fallbacks
    simpa [Act.discards, Act.overrules, Act.resolves, Act.replaces, Act.starts, Act.accepts]
      using hgone.balance h.sound
  | drop =>
    simp [Store.act, hrun, Act.discards, Act.overrules, Act.resolves, Act.replaces,
      Act.starts, Act.accepts]
  | tell n =>
    simp only [Act.discards, Act.overrules, Act.resolves, Act.replaces, Act.starts,
      Act.accepts, add_zero]
    rfl

/-! Whole runs. -/

def total (f : Store E V C K → Act E V C K → Multiset (Depender × K)) (s : Store E V C K) :
    List (Act E V C K) → Multiset (Depender × K)
  | [] => 0
  | a :: acts => f s a + (s.act a).total f acts

/-- What may have become of a continuation. -/
inductive Fate where
  | asleep
  | queued
  | started
  /-- Its cell was made final by another result, or from outside. -/
  | overruled
  /-- Its cell was resolved with a closed group. -/
  | resolved
  /-- A later interim result took its place. -/
  | replaced

/-- The continuations that met a fate in a run. -/
def met (s : Store E V C K) (acts : List (Act E V C K)) : Fate → Multiset (Depender × K)
  | .asleep => (s.run acts).table.pending
  | .queued => carried (s.run acts).queue.waiting
  | .started => s.total (fun s a => a.starts s) acts
  | .overruled => s.total (fun s a => a.overrules s) acts
  | .resolved => s.total (fun s a => a.resolves s) acts
  | .replaced => s.total (fun s a => a.replaces s) acts

def accepted (s : Store E V C K) (acts : List (Act E V C K)) : Multiset (Depender × K) :=
  s.total (fun s a => a.accepts s) acts

theorem started_of_no_start {acts : List (Act E V C K)} (h : Act.start ∉ acts) (s : Store E V C K) :
    s.met acts .started = 0 := by
  induction acts generalizing s with
  | nil => rfl
  | cons a acts ih =>
    rw [List.mem_cons, not_or] at h
    have hfirst : a.starts s = 0 := by
      cases a with
      | start => exact absurd rfl h.1
      | _ => rfl
    have hrest := ih h.2 (s.act a)
    simp only [met, total] at hrest ⊢
    rw [hfirst, hrest, add_zero]

theorem turn_started {σ : Type} (client : Client E V C K σ) (cycles fallbacks : Bool)
    {w : World E V C K σ} (h : w.lost = none) :
    ∃ acts, ((client.worker cycles fallbacks).turn w).2.store = w.store.run acts ∧
      w.store.met acts .started =
        if w.store.queue.halted then 0 else carried (w.store.queue.waiting.take 1) := by
  obtain ⟨acts, hstart, hacts⟩ := client.turn_run cycles fallbacks h
  refine ⟨_, hacts, ?_⟩
  have hrest := started_of_no_start hstart (w.store.act (w.store.nextAct cycles fallbacks))
  simp only [met, total] at hrest ⊢
  rw [hrest, add_zero]
  unfold nextAct
  cases hhalted : w.store.queue.halted with
  | true => rfl
  | false =>
    cases hq : w.store.queue.waiting with
    | nil => rfl
    | cons task rest => simp [Act.starts, hhalted, hq]

theorem halted_run (h : s.Healthy) {acts : List (Act E V C K)}
    (hr : (s.run acts).queue.halted = false) :
    s.queue.halted = false := by
  induction acts generalizing s with
  | nil => exact hr
  | cons a acts ih => exact halted_act h (ih (h.act a) hr)

theorem total_discards (s : Store E V C K) (acts : List (Act E V C K)) :
    s.total (fun s a => a.discards s) acts =
      s.met acts .overruled + s.met acts .resolved + s.met acts .replaced := by
  induction acts generalizing s with
  | nil => rfl
  | cons a acts ih =>
    have hrest := ih (s.act a)
    simp only [met, total, Act.discards] at hrest ⊢
    rw [hrest]
    ac_rfl

theorem run_balance (h : s.Healthy) (acts : List (Act E V C K))
    (hr : (s.run acts).queue.halted = false) :
    (s.run acts).held + s.met acts .started + s.total (fun s a => a.discards s) acts =
      s.held + s.accepted acts := by
  induction acts generalizing s with
  | nil => simp [met, accepted, total, run]
  | cons a acts ih =>
    have hfirst := act_balance h a (halted_run (h.act a) hr)
    have hrest := ih (h.act a) hr
    simp only [met, accepted, total] at hrest ⊢
    change ((s.act a).run acts).held + _ + _ = _
    calc ((s.act a).run acts).held + (a.starts s + (s.act a).total (fun s a => a.starts s) acts) +
          (a.discards s + (s.act a).total (fun s a => a.discards s) acts)
        = (((s.act a).run acts).held + (s.act a).total (fun s a => a.starts s) acts +
            (s.act a).total (fun s a => a.discards s) acts) +
              (a.starts s + a.discards s) := by ac_rfl
      _ = ((s.act a).held + a.starts s + a.discards s) +
        (s.act a).total (fun s a => a.accepts s) acts := by
          rw [hrest]
          ac_rfl
      _ = s.held + (a.accepts s + (s.act a).total (fun s a => a.accepts s) acts) := by
          rw [hfirst, add_assoc]

theorem started_of_halted (h : s.Healthy) (hs : s.queue.halted = true) (acts : List (Act E V C K)) :
    s.met acts .started = 0 := by
  induction acts generalizing s with
  | nil => rfl
  | cons a acts ih =>
    have hnext : (s.act a).queue.halted = true := by
      by_contra hr
      rw [Bool.not_eq_true] at hr
      rw [halted_act h hr] at hs
      cases hs
    have hfirst : a.starts s = 0 := by
      cases a with
      | start => simp [Act.starts, hs]
      | _ => rfl
    have hrest := ih (h.act a) hnext
    simp only [met, total] at hrest ⊢
    rw [hfirst, hrest, add_zero]

theorem started_le (h : s.Healthy) (acts : List (Act E V C K)) :
    s.met acts .started ≤ s.held + s.accepted acts := by
  induction acts generalizing s with
  | nil => exact Multiset.zero_le _
  | cons a acts ih =>
    cases hr : (s.act a).queue.halted with
    | true =>
      have hfirst : a.starts s = 0 := by
        cases a with
        | start =>
          have hs : s.queue.halted = true := by
            by_contra hs
            rw [Bool.not_eq_true] at hs
            simp only [Store.act, hs, Bool.false_eq_true, if_false] at hr
            split at hr <;> simp_all [count]
          simp [Act.starts, hs]
        | _ => rfl
      have hrest := started_of_halted (h.act a) hr acts
      simp only [met, total] at hrest ⊢
      rw [hfirst, hrest]
      exact Multiset.zero_le _
    | false =>
      have hfirst := act_balance h a hr
      have hrest := ih (h.act a)
      simp only [met, accepted, total] at hrest ⊢
      calc a.starts s + (s.act a).total (fun s a => a.starts s) acts
          ≤ a.starts s + ((s.act a).held + (s.act a).total (fun s a => a.accepts s) acts) := by
            gcongr
        _ ≤ ((s.act a).held + a.starts s + a.discards s) +
          (s.act a).total (fun s a => a.accepts s) acts := by
            rw [add_comm (a.starts s), add_right_comm, add_right_comm _ (a.discards s)]
            exact Multiset.le_add_right _ _
        _ = s.held + (a.accepts s + (s.act a).total (fun s a => a.accepts s) acts) := by
            rw [hfirst, add_assoc]

theorem collaborator_not_mem_total {f : Store E V C K → Act E V C K → Multiset (Depender × K)}
    {id : Nat} {k : K} (hf : ∀ s a, (.collaborator id, k) ∉ f s a) (s : Store E V C K)
    (acts : List (Act E V C K)) :
    (.collaborator id, k) ∉ s.total f acts := by
  induction acts generalizing s with
  | nil => exact Multiset.notMem_zero _
  | cons a acts ih =>
    rw [total, Multiset.mem_add, not_or]
    exact ⟨hf s a, ih (s.act a)⟩

theorem collaborator_not_met (s : Store E V C K) (acts : List (Act E V C K)) (id : Nat) (k : K) :
    (.collaborator id, k) ∉ s.met acts .overruled ∧ (.collaborator id, k) ∉ s.met acts .resolved ∧
      (.collaborator id, k) ∉ s.met acts .replaced := by
  refine ⟨collaborator_not_mem_total ?_ s acts, collaborator_not_mem_total ?_ s acts,
    collaborator_not_mem_total ?_ s acts⟩
  all_goals intro s a
  · unfold Act.overrules
    split
    · exact CellTable.collaborator_not_mem_pendingIn id k
    · exact CellTable.collaborator_not_mem_pendingIn id k
    · exact Multiset.notMem_zero _
  · unfold Act.resolves
    split
    · exact CellTable.collaborator_not_mem_pendingIn id k
    · exact Multiset.notMem_zero _
  · unfold Act.replaces
    split
    · exact CellTable.collaborator_not_mem_pendingIn id k
    · exact Multiset.notMem_zero _

theorem accepted_eq (h : s.Healthy) (hheld : s.held = 0) (acts : List (Act E V C K))
    (hr : (s.run acts).queue.halted = false) :
    s.accepted acts = s.met acts .asleep + s.met acts .queued + s.met acts .started +
      (s.met acts .overruled + s.met acts .resolved + s.met acts .replaced) := by
  have hall := run_balance h acts hr
  rw [hheld, zero_add, total_discards] at hall
  exact hall.symm

/-- What is accepted once meets one fate, once. -/
theorem one_fate [DecidableEq K] {acts : List (Act E V C K)} {x : Depender × K}
    (hall : s.accepted acts = s.met acts .asleep + s.met acts .queued + s.met acts .started +
      (s.met acts .overruled + s.met acts .resolved + s.met acts .replaced))
    (hx : (s.accepted acts).count x = 1) :
    ∃ fate, (s.met acts fate).count x = 1 ∧ ∀ other ≠ fate, (s.met acts other).count x = 0 := by
  simp only [hall, Multiset.count_add] at hx
  obtain ⟨fate, hfate⟩ : ∃ fate, (s.met acts fate).count x ≠ 0 := by
    by_contra hnone
    push Not at hnone
    simp [hnone] at hx
  refine ⟨fate, ?_, ?_⟩
  · cases fate <;> omega
  · intro other hother
    cases fate <;> cases other <;> first | exact absurd rfl hother | omega

/-- In every run of a new store, each continuation is started at most as often as it was accepted.
While there is no fault and the store is not shut down, the continuations that were accepted are
exactly those that sleep, those that are queued, those that were started and those that were
discarded for one of three reasons; so one that was accepted once has met exactly one fate. No
collaborator's continuation is ever discarded. -/
theorem continuations_conserved [DecidableEq K] (config : Config)
    (tracer : Tracer E V) (cores : Nat) (acts : List (Act E V C K)) :
    let s : Store E V C K := create config tracer cores
    s.met acts .started ≤ s.accepted acts ∧
    ((s.run acts).fault = none → (s.run acts).isShutdown = false →
      s.accepted acts = s.met acts .asleep + s.met acts .queued + s.met acts .started +
        (s.met acts .overruled + s.met acts .resolved + s.met acts .replaced) ∧
      ∀ x, (s.accepted acts).count x = 1 →
        ∃ fate, (s.met acts fate).count x = 1 ∧ ∀ other ≠ fate, (s.met acts other).count x = 0) ∧
    ∀ id k, (.collaborator id, k) ∉ s.met acts .overruled ∧
      (.collaborator id, k) ∉ s.met acts .resolved ∧
      (.collaborator id, k) ∉ s.met acts .replaced := by
  intro s
  have hs : s.Healthy := .create config tracer cores
  have hheld : s.held = 0 := rfl
  refine ⟨?_, ?_, s.collaborator_not_met acts⟩
  · have hle := started_le hs acts
    rwa [hheld, zero_add] at hle
  · intro hfault hopen
    have hhealthy : (s.run acts).Healthy :=
      ((Reachable.create config tracer cores).run acts).healthy
    have hrunning : (s.run acts).queue.halted = false := by
      rw [hhealthy.flags, hfault]
      exact hopen
    have hall := accepted_eq hs hheld acts hrunning
    exact ⟨hall, fun x hx => one_fate hall hx⟩

/-- One continuation is replaced, one is overruled, and of two that are woken one is started. -/
def manyFates : List (Act Element Fact Unit Nat) :=
  let key n : Key Element := ⟨.method n, FactSort.purity.kind⟩
  let waits m n k : Act Element Fact Unit Nat :=
    .perform (.suspend ⟨key m, ⟨0, .purity .impure⟩, ⟨1, .purity .pure⟩⟩ [.unknown (key n)] k)
  [.call (.registerKind ((FallbackRule.fixed (.purity .impure)).info .lower)),
    waits 0 1 10, waits 0 1 20, .perform (.collaborate [.unknown (key 1)] 30), waits 2 1 40,
    .perform (.install ⟨key 2, ⟨2, .purity .pure⟩⟩),
      .perform (.install ⟨key 1, ⟨3, .purity .pure⟩⟩), .start]

theorem manyFates_conserved :
    let s : Store Element Fact Unit Nat := create {} .none 1
    (s.run manyFates).fault = none ∧ (s.run manyFates).isShutdown = false ∧
      (s.accepted manyFates).count (.cell 1, 20) = 1 ∧
        (s.met manyFates .started).count (.cell 1, 20) = 1 ∧
      ∃ fate, (s.met manyFates fate).count (.cell 1, 20) = 1 ∧
        ∀ other ≠ fate, (s.met manyFates other).count (.cell 1, 20) = 0 :=
  have hone : ((create {} .none 1 : Store Element Fact Unit Nat).accepted manyFates).count
      (.cell 1, 20) = 1 := by
    decide
  ⟨rfl, rfl, hone, by decide, ((continuations_conserved {} .none 1 manyFates).2.1 rfl rfl).2 _ hone⟩

end Store
end Blackboard
