import Blackboard.Proofs.ClosedGroups
import Blackboard.Proofs.Delayed
import Blackboard.Proofs.Equations
import Blackboard.Proofs.Lifecycle

/-! Closed groups are resolved in turn, up to the first one that somebody outside waits on. The
members become final, each as its kind resolves it, and are not computed any more; whoever else
waited on them is resumed, once. -/
namespace Blackboard.Store
variable {E V C K : Type} {s q r : Store E V C K} {group : List Depender}
  {groups done : List (List Depender)} {tasks tasks' : List (Task E C K)}

/-! ### The groups -/

def freeGroups (s : Store E V C K) : List (List Depender) :=
  (closedComponents s.waiting).filter fun group => !group.any s.isDelayedDepender

/-- The members are cells that sleep and wait for members only. -/
def ClosedIn (s : Store E V C K) (group : List Depender) : Prop :=
  ∀ d ∈ group, ∃ i susp, d = .cell i ∧ s.table.suspension? (.cell i) = some susp ∧ ∀ j ∈ susp.ids,
    .cell j ∈ group

/-- Closed groups without a common member. -/
structure Separate (s : Store E V C K) (groups : List (List Depender)) : Prop where
  closed : ∀ group ∈ groups, s.ClosedIn group
  apart : groups.Pairwise List.Disjoint

theorem Separate.sublist (h : s.Separate groups) (hsub : done.Sublist groups) :
    s.Separate done where
  closed group hgroup := h.closed group (hsub.subset hgroup)
  apart := h.apart.sublist hsub

theorem Separate.not_mem (h : s.Separate groups) {g g' : List Depender} (hg : g ∈ groups)
    (hg' : g' ∈ groups) {d e : Depender} (hd : d ∉ g) (he : e ∈ g) (hd' : d ∈ g') : e ∉ g' := by
  intro he'
  have hne : g ≠ g' := fun heq => hd (heq ▸ hd')
  have hsymm : Std.Symm (List.Disjoint : List Depender → List Depender → Prop) :=
    ⟨fun _ _ hdisj => hdisj.symm⟩
  exact h.apart.forall hg hg' hne he he'

theorem Separate.not_mem_flatten (h : s.Separate groups) {g : List Depender}
    (hg : g ∈ groups) {d : Depender} (hd : d ∉ g) {susp : Suspension E V K}
    (hsusp : s.table.suspension? d = some susp) {j : Nat} (hj : j ∈ susp.ids) (hmem : .cell j ∈ g) :
    d ∉ groups.flatten := by
  intro hflat
  obtain ⟨g', hg', hdg'⟩ := List.mem_flatten.1 hflat
  obtain ⟨i, susp', rfl, hsusp', hall⟩ := h.closed g' hg' d hdg'
  obtain rfl : susp' = susp := Option.some.inj (hsusp'.symm.trans hsusp)
  exact h.not_mem hg hg' hd hmem hdg' (hall j hj)

theorem closedComponents_apart (ws : List Waiting) :
    (closedComponents ws).Pairwise List.Disjoint := by
  have hnodup : (closedComponents ws).flatten.Nodup := by
    rw [Waiting.flatten_closedComponents]
    exact (Waiting.nodup_flatten_groups ws).map Depender.decode_injective
  exact (List.nodup_flatten.1 hnodup).2

section
variable [DecidableEq E]

theorem separate_freeGroups (hs : s.Sound) : s.Separate s.freeGroups := by
  refine Separate.sublist ⟨?_, closedComponents_apart s.waiting⟩ List.filter_sublist
  intro group hgroup d hd
  exact asleep_in_closedComponent hs hgroup hd

theorem freeGroups_eq (hs : s.Sound) :
    s.freeGroups = (closedComponents s.waiting).filter fun group =>
      !group.any (s.delayedDependers.contains ·) := by
  apply List.filter_congr
  intro group hgroup
  have hany : group.any s.isDelayedDepender = group.any (s.delayedDependers.contains ·) := by
    rw [Bool.eq_iff_iff, List.any_eq_true, List.any_eq_true]
    apply exists_congr
    intro d
    apply and_congr_right
    intro hd
    rw [contains_delayedDependers hs hgroup hd]
  rw [hany]

end

/-! ### What resolving a list of groups does -/

/-- An interim value has become what its kind makes of the bounds. -/
def MadeFinal (s : Store E V C K) (i : Nat) (r : Store E V C K) : Prop :=
  ∃ key ep info n, s.table.face? i = some (i, key, .interim ep) ∧
    s.schema.find? key.kind = some info ∧
    r.table.face? i = some (i, key, .final (info.resolve n ep))

theorem Spares.mem_of_settled {l : List Depender} (h : s.Spares (· ∉ l) tasks r) {j : Nat}
    (hj : s.isFinalAt j = false ∧ r.isFinalAt j = true) : .cell j ∈ l := by
  by_contra hnot
  have hsame := isFinalAt_congr (h.face hnot)
  simp [hj.1, hj.2] at hsame

theorem Spares.closedIn {l : List Depender} (h : s.Spares (· ∉ l) tasks r)
    (hdisj : l.Disjoint group) (hclosed : s.ClosedIn group) : r.ClosedIn group := by
  intro d hd
  obtain ⟨i, susp, rfl, hsusp, hall⟩ := hclosed d hd
  refine ⟨i, susp, rfl, ?_, hall⟩
  have hslumber := h.slumber fun hmem => hdisj hmem hd
  rw [hsusp] at hslumber
  generalize resumptions (.cell i) tasks = woken at hslumber
  generalize r.table.suspension? (.cell i) = now at hslumber
  cases hslumber with
  | kept => rfl
  | woken hold hj hsettled =>
    obtain rfl := Option.some.inj hold
    exact absurd (hall _ hj) (hdisj (h.mem_of_settled hsettled))

theorem settleEach_cons {α : Type} {settle : α → Op E V C K Bool} {a : α} {changed : Bool}
    (h : settle a s = .ok changed q) (rest : List α) :
    settleEach settle (a :: rest) s =
      if changed && q.inFlight then .ok true q
      else ((changed || ·) <$> settleEach settle rest) q := by
  change EStateM.bind (settle a) _ s = _
  simp only [EStateM.bind, h]
  change (if (changed && q.inFlight) = true then pure true else _ : Op E V C K Bool) q = _
  split <;> rfl

variable [DecidableEq E]

theorem Resolves.madeFinal {batch : List (Cell E V K × Final E V)} (h : s.Resolves group batch r)
    {p : Cell E V K × Final E V} (hp : p ∈ batch) : s.MadeFinal p.1.id r := by
  obtain ⟨-, ep, info, n, hep, hinfo, hres⟩ := h.members p hp
  refine ⟨p.1.key, ep, info, n, ?_, hinfo, ?_⟩
  · rw [h.shown hp, Cell.face, hep]
  · rw [h.becomes.table, CellTable.face?_resolve_self h.fit hp, hres]

theorem Resolves.resumes {batch : List (Cell E V K × Final E V)} (h : s.Resolves group batch r) :
    Resumes s.table.size
      (((s.table.releaseAll group).putAll batch).announceTasks (C := C) batch) := by
  apply CellTable.resumes_announceTasks
  intro p hp
  obtain ⟨c, hc, -⟩ := CellTable.cell?_of_face? (h.shown hp)
  exact CellTable.lt_size_of_cell? hc

theorem Resolves.member {batch : List (Cell E V K × Final E V)} (h : s.Resolves group batch r)
    (hs : s.Sound) (hclosed : s.ClosedIn group) {d : Depender} (hd : d ∈ group) :
    ∃ i, d = .cell i ∧ s.MadeFinal i r ∧ r.table.suspension? (.cell i) = none ∧
      resumptions (.cell i)
        (((s.table.releaseAll group).putAll batch).announceTasks (C := C) batch) = [] := by
  obtain ⟨i, susp, rfl, hsusp, -⟩ := hclosed d hd
  obtain ⟨c, hc, hcs⟩ := Option.bind_eq_some_iff.1 hsusp
  obtain ⟨ep, hep⟩ := hs.table.interim hc (by simp [hcs])
  have hface : s.table.face? i = some (c.id, c.key, .interim ep) := by
    rw [CellTable.face?_of_cell? hc, Cell.face, hep]
  obtain ⟨p, hp, hpi⟩ := h.mem_batch hd hface
  have hslumber :=
    CellTable.slumber_announce (C := C) ((s.table.releaseAll group).putAll batch) batch (.cell i)
  rw [CellTable.suspension?_putAll, CellTable.suspension?_releaseAll, if_pos hd] at hslumber
  obtain ⟨hawake, hnone⟩ := hslumber.eq_of_awake
  refine ⟨i, rfl, hpi ▸ h.madeFinal hp, ?_, hnone⟩
  rw [h.becomes.table]
  exact hawake

variable [DecidableEq V]

/-- The groups are dissolved: their members are final and sleep no more, and nobody is told but
those who waited on a member. -/
structure Dissolves (s : Store E V C K) (groups : List (List Depender)) (tasks : List (Task E C K))
    (r : Store E V C K) : Prop where
  schema : r.schema = s.schema
  sound : r.Sound
  linked : r.table.Linked
  tidy : r.table.Tidy
  keys : ∀ i, r.table.key? i = s.table.key? i
  resumes : Resumes s.table.size tasks
  spares : s.Spares (· ∉ groups.flatten) tasks r
  members : ∀ d ∈ groups.flatten, ∃ i,
    d = .cell i ∧ s.MadeFinal i r ∧ r.table.suspension? (.cell i) = none ∧
    resumptions (.cell i) tasks = []

namespace Resolves
variable {batch : List (Cell E V K × Final E V)}

theorem dissolves (h : s.Resolves group batch r) (hs : s.Sound) (hl : s.table.Linked)
    (ht : s.table.Tidy) (hclosed : s.ClosedIn group) :
    s.Dissolves [group] (((s.table.releaseAll group).putAll batch).announceTasks batch) r where
  schema := h.becomes.schema
  sound := (h.settles hs).sound
  linked := h.becomes.table ▸ hl.resolve hs.table h.fit
  tidy := by
    rw [h.becomes.table]
    apply ht.resolve h.fit
    intro p hp
    obtain ⟨-, ep, -, -, hep, -⟩ := h.members p hp
    simp [hep, Status.isUnknown]
  keys := (h.settles hs).keys
  resumes := h.resumes
  spares := .of_resolves (by simp) h
  members d hd := h.member hs hclosed (by simpa using hd)

end Resolves

namespace Dissolves

theorem nil (hs : s.Sound) (hl : s.table.Linked) (ht : s.table.Tidy) : s.Dissolves [] [] s where
  schema := rfl
  sound := hs
  linked := hl
  tidy := ht
  keys _ := rfl
  resumes := by simp [Resumes]
  spares := .of_quiet (.refl s)
  members := by simp

theorem cons (h : s.Dissolves [group] tasks q) (h' : q.Dissolves groups tasks' r)
    (hdisj : ∀ g ∈ groups, group.Disjoint g) (hclosed : ∀ g ∈ groups, q.ClosedIn g) :
    s.Dissolves (group :: groups) (tasks ++ tasks') r where
  schema := h'.schema.trans h.schema
  sound := h'.sound
  linked := h'.linked
  tidy := h'.tidy
  keys i := (h'.keys i).trans (h.keys i)
  resumes := h.resumes.append (CellTable.size_eq_of_key? h.keys ▸ h'.resumes)
  spares := (h.spares.mono (by simp +contextual)).trans (h'.spares.mono (by simp +contextual))
  members := by
    have happart : ∀ d ∈ group, d ∉ groups.flatten := by
      intro d hd hmem
      obtain ⟨g, hg, hdg⟩ := List.mem_flatten.1 hmem
      exact hdisj g hg hd hdg
    intro d hd
    rw [List.flatten_cons, List.mem_append] at hd
    cases hd with
    | inl hd =>
      -- what the first group came to, the others leave
      obtain ⟨i, rfl, ⟨key, ep, info, n, hold, hinfo, hnew⟩, hawake, hnone⟩ :=
        h.members d (by simpa using hd)
      have hslumber := h'.spares.slumber (happart _ hd)
      rw [hawake] at hslumber
      obtain ⟨hawake', hnone'⟩ := hslumber.eq_of_awake
      refine ⟨i, rfl, ⟨key, ep, info, n, hold, hinfo, ?_⟩, hawake', ?_⟩
      · rw [h'.spares.face (happart _ hd), hnew]
      · rw [resumptions_append, hnone, hnone', List.append_nil]
    | inr hd =>
      -- and the members of the others slept through the first one
      obtain ⟨i, rfl, ⟨key, ep, info, n, hold, hinfo, hnew⟩, hawake, hnone⟩ := h'.members d hd
      have hnot : .cell i ∉ [group].flatten := fun hmem => happart _ (by simpa using hmem) hd
      obtain ⟨g, hg, hdg⟩ := List.mem_flatten.1 hd
      obtain ⟨i', susp, heq, hsusp, -⟩ := hclosed g hg _ hdg
      obtain rfl := Depender.cell.inj heq
      have hslumber := h.spares.slumber hnot
      rw [hsusp] at hslumber
      obtain ⟨-, hnone'⟩ := hslumber.eq_of_asleep
      refine ⟨i, rfl, ⟨key, ep, info, n, ?_, h.schema ▸ hinfo, hnew⟩, hawake, ?_⟩
      · rw [← h.spares.face hnot, hold]
      · rw [resumptions_append, hnone, hnone', List.append_nil]

/-- Sleepers that are no members: those who wait on no member sleep on, the others are woken,
once. -/
theorem outside (h : s.Dissolves groups tasks r) {d : Depender} (hd : d ∉ groups.flatten)
    {susp : Suspension E V K} (hsusp : s.table.suspension? d = some susp) :
    (r.table.suspension? d = some susp ∧ resumptions d tasks = [] ∧ ∀ j ∈ susp.ids,
      .cell j ∉ groups.flatten) ∨
      r.table.suspension? d = none ∧
        ∃ j ∈ susp.ids, .cell j ∈ groups.flatten ∧
          resumptions d tasks = [(j, susp.continuation)] := by
  have hslumber := h.spares.slumber hd
  rw [hsusp] at hslumber
  generalize hw : resumptions d tasks = woken at hslumber
  generalize hnow : r.table.suspension? d = now at hslumber
  cases hslumber with
  | kept =>
    refine .inl ⟨rfl, rfl, ?_⟩
    intro j hj hmem
    obtain ⟨i, heq, ⟨key, ep, info, n, -, -, hfinal⟩, -⟩ := h.members _ hmem
    obtain rfl := Depender.cell.inj heq
    -- nobody sleeps over a final value
    obtain ⟨c, hc, -, hopen⟩ := dependee_open h.linked hnow hj
    obtain ⟨c', hc', -, -, hstatus⟩ := CellTable.cell?_of_shown hfinal
    obtain rfl : c = c' := Option.some.inj (hc.symm.trans hc')
    simp [hstatus, Status.isFinal] at hopen
  | @woken susp' j hold hj hsettled =>
    obtain rfl := Option.some.inj hold
    exact .inr ⟨rfl, j, hj, h.spares.mem_of_settled hsettled, rfl⟩

end Dissolves

structure Still (s : Store E V C K) : Prop where
  sound : s.Sound
  linked : s.table.Linked
  tidy : s.table.Tidy
  taking : s.queue.closed = false
  empty : s.queue.waiting = []

theorem Dissolves.waiting_eq (h : s.Dissolves groups tasks r) (hs : s.Still) :
    r.queue.waiting = tasks := by
  rw [h.spares.queue, Queue.waiting_enqueue hs.taking, hs.empty, List.nil_append]

variable [Property V] [ToString E] [ToString V]

/-! ### In turn -/

def resolveAll (groups : List (List Depender)) : Op E V C K Unit :=
  groups.forM fun group => discard (resolveGroup [] group)

theorem resolveGroup_eq (delayed group : List Depender) :
    (resolveGroup delayed group : Op E V C K Bool) =
      if group.any (delayed.contains ·) then return false else resolveGroup [] group := by
  unfold resolveGroup
  simp

theorem resolveGroup_ok (hs : s.Sound) (group : List Depender) :
    ∃ batch q, resolveGroup [] group s = .ok true q ∧ s.Resolves group batch q := by
  obtain ⟨b, q, hq, hok⟩ := (resolveGroup_ends hs [] group).exists_ok
  have hnone : group.any (fun d => ([] : List Depender).contains d) = false := by simp
  rw [hnone] at hok
  obtain ⟨rfl, batch, hres⟩ := hok
  exact ⟨batch, q, hq, hres⟩

theorem resolveAll_cons {b : Bool} (h : resolveGroup [] group s = .ok b q)
    (groups : List (List Depender)) :
    resolveAll (group :: groups) s = resolveAll groups q := by
  have hfirst : (discard (resolveGroup [] group) : Op E V C K Unit) s = .ok () q := map_ok h _
  change EStateM.bind (discard (resolveGroup [] group)) _ s = _
  simp [EStateM.bind, hfirst, resolveAll]

theorem resolveAll_dissolves (hs : s.Sound) (hl : s.table.Linked) (ht : s.table.Tidy)
    (hsep : s.Separate groups) (h : resolveAll groups s = .ok () r) :
    ∃ tasks, s.Dissolves groups tasks r := by
  induction groups generalizing s with
  | nil =>
    obtain rfl : s = r := by simpa [resolveAll, pure, EStateM.pure] using h
    exact ⟨[], .nil hs hl ht⟩
  | cons group groups ih =>
    obtain ⟨batch, q, hq, hres⟩ := resolveGroup_ok hs group
    rw [resolveAll_cons hq] at h
    obtain ⟨hdisj, hapart⟩ := List.pairwise_cons.1 hsep.apart
    have hfirst := hres.dissolves hs hl ht (hsep.closed group List.mem_cons_self)
    have hclosed : ∀ g ∈ groups, q.ClosedIn g := by
      intro g hg
      exact hfirst.spares.closedIn (by simpa using hdisj g hg)
        (hsep.closed g (List.mem_cons_of_mem _ hg))
    obtain ⟨tasks, hrest⟩ := ih hfirst.sound hfirst.linked hfirst.tidy ⟨hclosed, hapart⟩ h
    exact ⟨_, hfirst.cons hrest hdisj hclosed⟩

/-- Of the groups, the first ones are resolved in turn. The queue stays empty until the last one of
them, and if any are left, then because a task was queued. -/
structure InTurn (s : Store E V C K) (groups done : List (List Depender))
    (r : Store E V C K) : Prop where
  order : done <+: groups
  resolved : resolveAll done s = .ok () r
  onward : ∀ pre post, done = pre ++ post → post ≠ [] →
    ∃ q, resolveAll pre s = .ok () q ∧ q.queue.waiting = []
  stops : done = groups ∨ r.queue.waiting ≠ []

namespace InTurn

theorem nil (s : Store E V C K) : s.InTurn [] [] s where
  order := List.prefix_rfl
  resolved := rfl
  onward _ _ h hne := absurd (List.append_eq_nil_iff.1 h.symm).2 hne
  stops := .inl rfl

theorem last {b : Bool} (hidle : s.queue.waiting = []) (h : resolveGroup [] group s = .ok b q)
    (hbusy : q.queue.waiting ≠ []) (groups : List (List Depender)) :
    s.InTurn (group :: groups) [group] q where
  order := ⟨groups, rfl⟩
  resolved := resolveAll_cons h []
  onward pre post hdone hne := by
    cases pre with
    | nil => exact ⟨s, rfl, hidle⟩
    | cons g pre =>
      have hpost := (List.append_eq_nil_iff.1 (List.cons.inj hdone).2.symm).2
      exact absurd hpost hne
  stops := .inr hbusy

theorem next {b : Bool} (hidle : s.queue.waiting = []) (h : resolveGroup [] group s = .ok b q)
    (hrest : q.InTurn groups done r) : s.InTurn (group :: groups) (group :: done) r where
  order := List.cons_prefix_cons.2 ⟨rfl, hrest.order⟩
  resolved := (resolveAll_cons h done).trans hrest.resolved
  onward pre post hdone hne := by
    cases pre with
    | nil => exact ⟨s, rfl, hidle⟩
    | cons g pre =>
      obtain ⟨rfl, hrest'⟩ := List.cons.inj hdone
      rw [resolveAll_cons h]
      exact hrest.onward pre post hrest' hne
  stops := hrest.stops.imp_left fun hall => by rw [hall]

end InTurn

/-- The loop passes over the groups with a delayed member, resolves the others in turn, and stops
with the first one that queues a task. -/
theorem settleEach_inTurn (hs : s.Sound) (hidle : s.queue.waiting = []) (delayed : List Depender)
    (groups : List (List Depender)) :
    ∃ done r, settleEach (resolveGroup delayed) groups s = .ok (!done.isEmpty) r ∧
      s.InTurn (groups.filter fun group => !group.any (delayed.contains ·)) done r := by
  induction groups generalizing s with
  | nil => exact ⟨[], s, rfl, .nil s⟩
  | cons group groups ih =>
    by_cases hdelayed : group.any (delayed.contains ·) = true
    · have hpass : resolveGroup delayed group s = .ok false s := by
        rw [resolveGroup_eq, if_pos hdelayed]
        rfl
      obtain ⟨done, r, hr, hturn⟩ := ih hs hidle
      rw [List.filter_cons_of_neg (by simpa using hdelayed)]
      refine ⟨done, r, ?_, hturn⟩
      rw [settleEach_cons hpass, Bool.false_and, if_neg Bool.false_ne_true]
      simpa using map_ok hr (false || ·)
    · obtain ⟨batch, q, hq, hres⟩ := resolveGroup_ok hs group
      have htaken : resolveGroup delayed group s = .ok true q := by
        rw [resolveGroup_eq, if_neg hdelayed]
        exact hq
      have hfilter : (group :: groups).filter (fun g => !g.any (delayed.contains ·)) =
          group :: groups.filter fun g => !g.any (delayed.contains ·) :=
        List.filter_cons_of_pos (by simpa using hdelayed)
      rw [settleEach_cons htaken, Bool.true_and, hfilter]
      by_cases hbusy : q.inFlight = true
      · rw [if_pos hbusy]
        refine ⟨[group], q, rfl, .last hidle hq ?_ _⟩
        intro hempty
        simp [inFlight_eq_false_iff.2 hempty] at hbusy
      · rw [if_neg hbusy]
        have hidle' : q.queue.waiting = [] := inFlight_eq_false_iff.1 (by simpa using hbusy)
        obtain ⟨done, r, hr, hturn⟩ := ih (hres.settles hs).sound hidle'
        exact ⟨group :: done, r, by simpa using map_ok hr (true || ·), .next hidle hq hturn⟩

theorem resolveClosedGroups_inTurn (hs : s.Sound) (hidle : s.queue.waiting = []) :
    ∃ done r, resolveClosedGroups s = .ok (!done.isEmpty) r ∧ s.InTurn s.freeGroups done r := by
  rw [freeGroups_eq hs]
  exact settleEach_inTurn hs hidle s.delayedDependers (closedComponents s.waiting)

/-! ### Cycle resolution -/

/-- What resolving the groups `done` comes to. A member is final, as its kind resolves the bounds it
held; its computation is neither asleep nor queued, and it tells nobody. Whoever else waited on
members of a group is resumed, once, for one of them. Nothing else changes its value or is woken,
and nothing else is queued. -/
structure CyclesResolved (s : Store E V C K) (done : List (List Depender))
    (r : Store E V C K) : Prop where
  member : ∀ g ∈ done, ∀ d ∈ g, ∃ i c ep info n c',
    d = .cell i ∧ s.cell? i = some c ∧ c.status = .interim ep ∧
    s.schema.find? c.key.kind = some info ∧ r.cell? i = some c' ∧ c'.key = c.key ∧
    c'.status = .final (info.resolve n ep) ∧ c'.suspension = none ∧ c'.dependers = ∅ ∧
    resumptions d r.queue.waiting = []
  waiter : ∀ g ∈ done, ∀ d susp, d ∉ g → s.table.suspension? d = some susp →
    (∃ j ∈ susp.ids, .cell j ∈ g) →
    r.table.suspension? d = none ∧
      ∃ j ∈ susp.ids, .cell j ∈ g ∧ resumptions d r.queue.waiting = [(j, susp.continuation)]
  value : ∀ i, .cell i ∉ done.flatten → r.table.face? i = s.table.face? i
  sleeper : ∀ d ∉ done.flatten,
    (∀ susp, s.table.suspension? d = some susp → ∀ j ∈ susp.ids, .cell j ∉ done.flatten) →
    r.table.suspension? d = s.table.suspension? d ∧ resumptions d r.queue.waiting = []
  resumes : Resumes s.table.size r.queue.waiting

/-- Nobody outside waits on a group before the last one: such a depender would have been woken. -/
theorem InTurn.last_of_waiter (h : s.InTurn groups done r) (hs : s.Still) (hsep : s.Separate done)
    {g : List Depender} (hg : g ∈ done) {d : Depender} (hd : d ∉ done.flatten)
    {susp : Suspension E V K} (hsusp : s.table.suspension? d = some susp) {j : Nat}
    (hj : j ∈ susp.ids) (hmem : .cell j ∈ g) : done.getLast? = some g := by
  obtain ⟨pre, post, hdone⟩ := List.append_of_mem hg
  have hlast : post = [] := by
    by_contra hne
    have hsplit : done = (pre ++ [g]) ++ post := by simp [hdone]
    obtain ⟨q, hq, hempty⟩ := h.onward (pre ++ [g]) post hsplit hne
    have hsub : (pre ++ [g]).Sublist done := hsplit ▸ List.sublist_append_left _ _
    obtain ⟨tasks, hdis⟩ := resolveAll_dissolves hs.sound hs.linked hs.tidy (hsep.sublist hsub) hq
    have htasks : tasks = [] := (hdis.waiting_eq hs).symm.trans hempty
    have hout : d ∉ (pre ++ [g]).flatten := fun hin => hd (hsub.flatten.subset hin)
    cases hdis.outside hout hsusp with
    | inl hkept => exact hkept.2.2 j hj (List.mem_flatten.2 ⟨g, by simp, hmem⟩)
    | inr hwoken =>
      obtain ⟨-, j', -, -, hresumed⟩ := hwoken
      simp [htasks, resumptions] at hresumed
  simp [hdone, hlast]

theorem InTurn.cyclesResolved (h : s.InTurn groups done r) (hs : s.Still)
    (hsep : s.Separate groups) : s.CyclesResolved done r := by
  have hsep' := hsep.sublist h.order.sublist
  obtain ⟨tasks, hdis⟩ := resolveAll_dissolves hs.sound hs.linked hs.tidy hsep' h.resolved
  have htasks := hdis.waiting_eq hs
  refine ⟨?_, ?_, ?_, ?_, htasks ▸ hdis.resumes⟩
  · intro g hg d hd
    obtain ⟨i, rfl, ⟨key, ep, info, n, hold, hinfo, hnew⟩, hawake, hnone⟩ :=
      hdis.members d (List.mem_flatten.2 ⟨g, hg, hd⟩)
    obtain ⟨c, hc, -, rfl, hep⟩ := CellTable.cell?_of_shown hold
    obtain ⟨c', hc', -, hkey, hfinal⟩ := CellTable.cell?_of_shown hnew
    have hquiet : c'.dependers = ∅ := (hdis.tidy i c' hc').quiet (by simp [hfinal, Status.isFinal])
    refine ⟨i, c, ep, info, n, c', rfl, hc, hep, hinfo, hc', hkey, hfinal, ?_, hquiet,
      htasks ▸ hnone⟩
    simpa [CellTable.suspension?, hc'] using hawake
  · intro g hg d susp hd hsusp hwaits
    obtain ⟨j, hj, hmem⟩ := hwaits
    have hout := hsep'.not_mem_flatten hg hd hsusp hj hmem
    cases hdis.outside hout hsusp with
    | inl hkept => exact absurd (List.mem_flatten.2 ⟨g, hg, hmem⟩) (hkept.2.2 j hj)
    | inr hwoken =>
      obtain ⟨hawake, j', hj', hflat, hresumed⟩ := hwoken
      obtain ⟨g', hg', hmem'⟩ := List.mem_flatten.1 hflat
      have hlast := h.last_of_waiter hs hsep' hg hout hsusp hj hmem
      have hlast' := h.last_of_waiter hs hsep' hg' hout hsusp hj' hmem'
      obtain rfl : g = g' := Option.some.inj (hlast.symm.trans hlast')
      exact ⟨hawake, j', hj', hmem', htasks ▸ hresumed⟩
  · intro i hi
    exact hdis.spares.face hi
  · intro d hd hno
    rw [htasks]
    cases hsusp : s.table.suspension? d with
    | none =>
      have hslumber := hdis.spares.slumber hd
      rw [hsusp] at hslumber
      exact hslumber.eq_of_awake
    | some susp =>
      cases hdis.outside hd hsusp with
      | inl hkept => exact ⟨hkept.1, hkept.2.1⟩
      | inr hwoken =>
        obtain ⟨-, j, hj, hflat, -⟩ := hwoken
        exact absurd hflat (hno susp hsusp j hj)

/-- When the queue is empty, the closed groups without a delayed member are resolved in the order in
which they are listed, up to the first one that queues a task; a change is reported if and only if
there was one. -/
theorem closed_cycles_resolved (h : s.Reachable) (hfault : s.fault = none)
    (hopen : s.isShutdown = false) (hidle : s.queue.waiting = []) :
    ∃ done r, resolveClosedGroups s = .ok (!done.isEmpty) r ∧ s.InTurn s.freeGroups done r ∧
      s.CyclesResolved done r := by
  have hs : s.Still := ⟨h.healthy.sound, h.healthy.linked hfault, h.tidy, hopen, hidle⟩
  obtain ⟨done, r, hr, hturn⟩ := resolveClosedGroups_inTurn hs.sound hidle
  exact ⟨done, r, hr, hturn, hturn.cyclesResolved hs (separate_freeGroups hs.sound)⟩

/-- Two pairs of methods whose purities wait on each other, and a collaborator that waits on both of
the first pair. -/
def twoCycles : Store Element Fact Unit Nat :=
  let bounds (m : Nat) : Interim Element Fact :=
    ⟨⟨.method m, FactSort.purity.kind⟩, ⟨0, .purity .impure⟩, ⟨1, .purity .pure⟩⟩
  let wait (m n k : Nat) : Act Element Fact Unit Nat :=
    .perform (.suspend (bounds m) [.interim (bounds n)] k)
  (create {} .none 1).run
    [.call (.registerKind ((FallbackRule.fixed (.purity .impure)).info .lower)),
      .perform (.suspend (bounds 0) [.unknown (bounds 1).key] 7), wait 1 0 8, .start, wait 0 1 7,
      .perform (.suspend (bounds 2) [.unknown (bounds 3).key] 4), wait 3 2 5, .start, wait 2 3 4,
      .perform (.collaborate [.interim (bounds 0), .interim (bounds 1)] 9)]

/-- The collaborator is resumed once, and the second pair is left to the next round. -/
theorem twoCycles_closed_cycles_resolved :
    twoCycles.Reachable ∧ twoCycles.fault = none ∧ twoCycles.isShutdown = false ∧
      twoCycles.queue.waiting = [] ∧
    twoCycles.freeGroups = [[.cell 1, .cell 0], [.cell 3, .cell 2]] ∧
    (∃ done r, resolveClosedGroups twoCycles = .ok (!done.isEmpty) r ∧
      twoCycles.InTurn twoCycles.freeGroups done r ∧ twoCycles.CyclesResolved done r) ∧
    (let r := (twoCycles.answer resolveClosedGroups).2
     resumptions (.collaborator 0) r.queue.waiting = [(1, 9)] ∧
      r.cells.map (·.status.isFinal) = [true, true, false, false]) := by
  have hr : twoCycles.Reachable := (Reachable.create {} .none 1).run _
  have hfault : twoCycles.fault = none := Option.isNone_iff_eq_none.1 (by decide +kernel)
  have hidle : twoCycles.queue.waiting = [] := List.isEmpty_iff.1 (by decide +kernel)
  exact ⟨hr, hfault, by decide +kernel, hidle, by decide +kernel,
    closed_cycles_resolved hr hfault (by decide +kernel) hidle, by decide +kernel⟩

end Blackboard.Store
