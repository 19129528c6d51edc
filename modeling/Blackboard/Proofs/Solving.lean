import Blackboard.Proofs.Equations

/-! A store on its way to a solution. Each entity with a cell that is not final is due exactly once:
its computation runs, is queued, or sleeps. What sleeps solves its equation and waits on each
successor that is not final. -/
namespace Blackboard.Equations
variable {E V C K : Type} {e : E}

theorem mem_of_nodup_add {a b : Multiset E} (h : (a + b).Nodup) : e ∈ a ↔ e ∈ a + b ∧ e ∉ b := by
  have hdisjoint := (Multiset.nodup_add.1 h).2.2
  constructor
  · intro he
    exact ⟨Multiset.mem_add.2 (.inl he), Multiset.disjoint_left.1 hdisjoint he⟩
  · intro he
    exact (Multiset.mem_add.1 he.1).resolve_right he.2

variable [DecidableEq E] [DecidableEq V] {eqs : Equations E V C K} {s r : Store E V C K}
  {running : Multiset E}

/-- The invariant of a phase. `running` holds the entity whose computation runs, if there is one;
every entity that is neither final nor unknown runs, waits in the queue or sleeps, and does so
once. -/
structure Solving (eqs : Equations E V C K) (running : Multiset E) (s : Store E V C K) : Prop where
  setting : eqs.Setting s
  sound : s.Sound
  linked : s.table.Linked
  nodes : ∀ {i key}, s.table.key? i = some key → ∃ e ∈ eqs.nodes, key = eqs.keyOf e
  bounds : eqs.Bounds (eqs.view s)
  nodup : (running + eqs.due s).Nodup
  mem_due : ∀ e, e ∈ running + eqs.due s ↔ s.isKnown (eqs.keyOf e) = true ∧
    (eqs.view s e).isFinal = false
  rests : ∀ {d susp}, s.table.suspension? d = some susp → eqs.Rests s d susp
  queued : ∀ task ∈ s.queue.waiting, eqs.Expects s.table.size task

namespace Solving

theorem requeue {running' : Multiset E} (h : eqs.Solving running s) (hsetting : eqs.Setting r)
    (htable : r.table = s.table) (hschema : r.schema = s.schema)
    (hdue : running' + eqs.due r = running + eqs.due s)
    (hqueue : r.queue.waiting ⊆ s.queue.waiting) : eqs.Solving running' r := by
  have hview : eqs.view r = eqs.view s := eqs.view_congr htable
  refine ⟨hsetting, h.sound.congr htable hschema, htable ▸ h.linked, ?_, hview ▸ h.bounds,
    hdue ▸ h.nodup, ?_, ?_, ?_⟩
  · rw [htable]
    exact h.nodes
  · intro e
    rw [hdue, hview, Store.isKnown, htable]
    exact h.mem_due e
  · rw [htable]
    intro d susp hd
    obtain ⟨hcell, hsolved, hcovers⟩ := h.rests hd
    exact ⟨htable ▸ hcell, hview ▸ hsolved, hview ▸ htable ▸ hcovers⟩
  · intro task htask
    rw [htable]
    exact h.queued task (hqueue htask)

theorem quiet (h : eqs.Solving running s) (hr : s.Becomes s.table [] r) :
    eqs.Solving running r := by
  have hqueue : r.queue = s.queue := by simp [hr.queue]
  refine h.requeue (h.setting.of_becomes hr) hr.table hr.schema ?_
    (by rw [hqueue]; exact List.Subset.refl _)
  rw [due, due, Store.held, Store.held, hr.table, hqueue]

theorem next {running' : Multiset E} {t : CellTable E V K} {ts : List (Task E C K)}
    (h : eqs.Solving running s) (gone : Multiset E) (hr : s.Becomes t ts r) (hsound : r.Sound)
    (hlinked : r.table.Linked) (hkeys : ∀ i, r.table.key? i = s.table.key? i)
    (hbounds : eqs.Bounds (eqs.view r)) (hi : eqs.Improves (eqs.view s) (eqs.view r))
    (hts : Resumes s.table.size ts) (hdue : running' + eqs.due r + gone = running + eqs.due s)
    (hgone : ∀ e ∈ running + eqs.due s, e ∈ gone ↔ (eqs.view r e).isFinal = true)
    (hrests : ∀ {d susp}, r.table.suspension? d = some susp →
      s.table.suspension? d = some susp ∨ eqs.Rests r d susp) : eqs.Solving running' r := by
  have hknown : ∀ e, r.isKnown (eqs.keyOf e) = true ↔ s.isKnown (eqs.keyOf e) = true := by
    intro e
    exact ⟨Store.isKnown_of_keys hsound h.sound fun i _ hi => (hkeys i).symm.trans hi,
      Store.isKnown_of_keys h.sound hsound fun i _ hi => (hkeys i).trans hi⟩
  have hnodup : (running' + eqs.due r + gone).Nodup := hdue ▸ h.nodup
  have hsize : r.table.size = s.table.size := CellTable.size_eq_of_key? hkeys
  refine ⟨h.setting.of_becomes hr, hsound, hlinked, ?_, hbounds, ?_, ?_, ?_, ?_⟩
  · intro i key hkey
    exact h.nodes ((hkeys i).symm.trans hkey)
  · exact Multiset.nodup_of_le (Multiset.le_add_right _ _) hnodup
  · intro e
    rw [mem_of_nodup_add hnodup, hdue, hknown]
    constructor
    · intro he
      refine ⟨((h.mem_due e).1 he.1).1, ?_⟩
      have hopen := mt (hgone e he.1).2 he.2
      simpa using hopen
    · intro he
      have hold : (eqs.view s e).isFinal = false := by
        by_contra hfinal
        rw [Bool.not_eq_false] at hfinal
        rw [eqs.improves_final hi e hfinal, hfinal] at he
        cases he.2
      have hmem := (h.mem_due e).2 ⟨he.1, hold⟩
      refine ⟨hmem, fun hg => ?_⟩
      rw [(hgone e hmem).1 hg] at he
      cases he.2
  · intro d susp hd
    cases hrests hd with
    | inl hold =>
      exact (h.rests hold).mono h.sound hsound h.linked hlinked
        (fun i _ hi => (hkeys i).trans hi) hi hold hd
    | inr hnew => exact hnew
  · intro task htask
    rw [hr.queue, Queue.waiting_enqueue h.setting.closed, List.mem_append] at htask
    rw [hsize]
    cases htask with
    | inl hold => exact h.queued task hold
    | inr hnew =>
      obtain ⟨d, i, k, rfl, hlt⟩ := hts task hnew
      exact .resume d hlt k

theorem key_of_find? (h : eqs.Solving running s) {c : Cell E V K}
    (hc : s.table.find? (eqs.keyOf e) = some c) : c.key = eqs.keyOf e ∧ e ∈ eqs.nodes := by
  obtain ⟨hcell, hsame⟩ := CellTable.find?_eq_some h.sound.table hc
  have hown : s.table.key? c.id = some c.key := by simp [CellTable.key?, hcell]
  obtain ⟨x, hx, hkey⟩ := h.nodes hown
  rw [hkey, keyOf_same] at hsame
  exact ⟨by rw [hkey, hsame], hsame ▸ hx⟩

theorem cell_of_due (h : eqs.Solving running s) (he : e ∈ running + eqs.due s) :
    ∃ c, s.table.find? (eqs.keyOf e) = some c ∧ s.table.cell? c.id = some c ∧
      c.status = eqs.view s e ∧ c.status.isFinal = false := by
  obtain ⟨hknown, hopen⟩ := (h.mem_due e).1 he
  obtain ⟨c, hc⟩ := Option.isSome_iff_exists.1 hknown
  obtain ⟨hcell, -⟩ := CellTable.find?_eq_some h.sound.table hc
  have hstatus : eqs.view s e = c.status := Store.statusOf_found hc
  exact ⟨c, hc, hcell, hstatus.symm, hstatus ▸ hopen⟩

theorem cell_inj (h : eqs.Solving running s) {x y : E} {b c : Cell E V K}
    (hb : s.table.find? (eqs.keyOf x) = some b) (hc : s.table.find? (eqs.keyOf y) = some c)
    (hid : b.id = c.id) : x = y := by
  obtain ⟨hbcell, hbsame⟩ := CellTable.find?_eq_some h.sound.table hb
  obtain ⟨hcell, hsame⟩ := CellTable.find?_eq_some h.sound.table hc
  obtain rfl : b = c := Option.some.inj (hbcell.symm.trans (hid ▸ hcell))
  exact keyOf_same.1 (Key.same_trans (Key.same_symm hbsame) hsame)

theorem view_of_face? (h : eqs.Solving running s) (hsound : r.Sound)
    (hkeys : ∀ i, r.table.key? i = s.table.key? i) {c : Cell E V K} {new : Status E V}
    (hc : s.table.find? (eqs.keyOf e) = some c)
    (hface : ∀ j, r.table.face? j = if j = c.id then some (c.id, c.key, new) else s.table.face? j) :
    eqs.view r = Function.update (eqs.view s) e new := by
  obtain ⟨hcell, hsame⟩ := CellTable.find?_eq_some h.sound.table hc
  refine Function.eq_update_iff.2
    ⟨Store.statusOf_of_face? hsound ((hface c.id).trans (if_pos rfl)) hsame, ?_⟩
  intro x hx
  refine Store.statusOf_congr h.sound hsound hkeys ?_
  intro b hb
  exact (hface b.id).trans (if_neg fun hid => hx (h.cell_inj hb hc hid))

theorem asleep_due (h : eqs.Solving running s) {d : Depender} {susp : Suspension E V K}
    (hd : s.table.suspension? d = some susp) : eqs.entity susp.continuation ∈ eqs.due s := by
  have hpending : (d, susp.continuation) ∈ s.table.pending :=
    h.sound.table.mem_pending.2 ⟨susp, hd, rfl⟩
  refine Multiset.mem_add.2 (.inl (Multiset.mem_map.2 ⟨(d, susp.continuation), ?_, rfl⟩))
  exact Multiset.mem_add.2 (.inl hpending)

theorem awake (h : eqs.Solving {e} s) {c : Cell E V K} (hc : s.table.find? (eqs.keyOf e) = some c) :
    s.table.suspension? (.cell c.id) = none := by
  by_contra hasleep
  obtain ⟨susp, hsusp⟩ := Option.ne_none_iff_exists'.1 hasleep
  obtain ⟨b, hb, hid⟩ := (h.rests hsusp).cell
  have heq : eqs.entity susp.continuation = e := h.cell_inj hb hc (by simpa using hid.symm)
  have hdisjoint := (Multiset.nodup_add.1 h.nodup).2.2
  exact Multiset.disjoint_left.1 hdisjoint (Multiset.mem_singleton_self e)
    (heq ▸ h.asleep_due hsusp)

theorem size_lt (h : eqs.Solving running s) {x : E} (hx : x ∈ eqs.nodes)
    (hnew : s.table.find? (eqs.keyOf x) = none) : s.table.size < eqs.nodes.toFinset.card := by
  have : Nonempty E := ⟨x⟩
  have hcells : ∀ i ∈ Finset.range s.table.size, ∃ e ∈ eqs.nodes,
      s.table.key? i = some (eqs.keyOf e) := by
    intro i hi
    obtain ⟨c, hc⟩ := CellTable.cell?_of_lt (Finset.mem_range.1 hi)
    have hown : s.table.key? i = some c.key := by simp [CellTable.key?, hc]
    obtain ⟨e, he, hkey⟩ := h.nodes hown
    exact ⟨e, he, hkey ▸ hown⟩
  choose! entity hnode hkey using hcells
  have hcard : (Finset.range s.table.size).card ≤ (eqs.nodes.toFinset.erase x).card := by
    refine Finset.card_le_card_of_injOn entity ?_ ?_
    · intro i hi
      refine Finset.mem_erase.2 ⟨?_, List.mem_toFinset.2 (hnode i hi)⟩
      intro heq
      obtain ⟨c, hc, -⟩ := CellTable.find?_of_key? h.sound.table (hkey i hi) (keyOf_same.2 heq)
      rw [hnew] at hc
      cases hc
    · intro i hi j hj heq
      obtain ⟨c, hc, rfl⟩ := CellTable.find?_of_key? h.sound.table (hkey i hi) (keyOf_same.2 rfl)
      obtain ⟨b, hb, rfl⟩ := CellTable.find?_of_key? h.sound.table (hkey j hj) (keyOf_same.2 rfl)
      rw [heq, hb] at hc
      rw [Option.some.inj hc]
  have herase := Finset.card_erase_lt_of_mem (List.mem_toFinset.2 hx)
  rw [Finset.card_range] at hcard
  omega

/-! Asking for an entity makes a cell if there is none, and nothing becomes known. -/

section
variable {x : E} (hnew : s.table.find? (eqs.keyOf x) = none)
  (hr : s.Becomes (s.table.grow (eqs.keyOf x)) [.compute eqs.computation x] r)
include hnew hr

theorem find?_grow (y : E) :
    r.table.find? (eqs.keyOf y) =
      if x = y then some (.create s.table.size (eqs.keyOf x)) else s.table.find? (eqs.keyOf y) := by
  rw [hr.table, CellTable.find?_grow]
  by_cases hy : x = y
  · subst hy
    rw [hnew, if_pos (keyOf_same.2 rfl), if_pos rfl, Option.none_or]
  · rw [if_neg (mt keyOf_same.1 hy), if_neg hy, Option.or_none]

theorem view_grow : eqs.view r = eqs.view s := by
  funext y
  rw [view, view, Store.statusOf, Store.statusOf, find?_grow hnew hr]
  by_cases hy : x = y
  · subst hy
    rw [if_pos rfl, hnew]
    rfl
  · rw [if_neg hy]

theorem isKnown_grow (y : E) :
    r.isKnown (eqs.keyOf y) = true ↔ s.isKnown (eqs.keyOf y) = true ∨ y = x := by
  rw [Store.isKnown, Store.isKnown, find?_grow hnew hr]
  by_cases hy : x = y
  · simp [hy]
  · simp [hy, Ne.symm hy]

theorem due_grow (h : eqs.Solving running s) (hroom : s.table.size < collaboratorBit) :
    eqs.due r = eqs.due s + {x} := by
  have hpending := h.sound.table.pending_congr (h.sound.table.grow hnew hroom)
    (CellTable.suspension?_grow s.table (eqs.keyOf x))
  have hnone : carried [(.compute eqs.computation x : Task E C K)] = 0 := rfl
  have hone : asked [(.compute eqs.computation x : Task E C K)] = {x} := rfl
  simpa [hone] using eqs.due_of_becomes hr h.setting.closed 0 0 (by simpa [hnone] using hpending)

theorem grow (h : eqs.Solving running s) (hx : x ∈ eqs.nodes)
    (hroom : s.table.size < collaboratorBit) : eqs.Solving running r := by
  have hview := view_grow hnew hr
  have hdue := due_grow hnew hr h hroom
  have hopen : (eqs.view s x).isFinal = false := by
    rw [view, Store.statusOf, hnew]
    rfl
  have hfresh : x ∉ running + eqs.due s := by
    intro hmem
    obtain ⟨hold, -⟩ := (h.mem_due x).1 hmem
    simp [Store.isKnown, hnew] at hold
  have hsound : r.Sound := by
    obtain ⟨info, hinfo, -⟩ := h.setting.kind
    exact h.sound.grow (Option.isSome_iff_exists.2 ⟨info, hinfo⟩) hnew hroom hr.table hr.schema
  have hlinked : r.table.Linked := hr.table ▸ h.linked.grown (.grow _ _)
  have hkey : ∀ i, r.table.key? i =
      if i = s.table.size then some (eqs.keyOf x) else s.table.key? i := by
    rw [hr.table]
    exact CellTable.key?_grow _ _
  refine ⟨h.setting.of_becomes hr, hsound, hlinked, ?_, hview ▸ h.bounds, ?_, ?_, ?_, ?_⟩
  · intro i key hi
    rw [hkey] at hi
    split at hi
    · cases hi
      exact ⟨x, hx, rfl⟩
    · exact h.nodes hi
  · rw [hdue, ← add_assoc, Multiset.nodup_add]
    exact ⟨h.nodup, Multiset.nodup_singleton x, Multiset.disjoint_singleton.2 hfresh⟩
  · intro y
    rw [hdue, ← add_assoc, Multiset.mem_add, Multiset.mem_singleton, h.mem_due,
      isKnown_grow hnew hr, hview]
    by_cases hy : y = x
    · simp [hy, hopen]
    · simp [hy]
  · intro d susp hd
    have hold : s.table.suspension? d = some susp := by
      rw [hr.table, CellTable.suspension?_grow] at hd
      exact hd
    have hkeys : ∀ i own, s.table.key? i = some own → r.table.key? i = some own := by
      intro i own hi
      rw [hkey, if_neg, hi]
      exact Nat.ne_of_lt (CellTable.lt_size_iff_key?.2 (by rw [hi]; rfl))
    exact (h.rests hold).mono h.sound hsound h.linked hlinked hkeys
      (hview ▸ eqs.improves_refl _) hold hd
  · intro task htask
    rw [hr.queue, Queue.waiting_enqueue h.setting.closed, List.mem_append,
      List.mem_singleton] at htask
    cases htask with
    | inl hold =>
      refine (h.queued task hold).mono ?_
      rw [hr.table, CellTable.size_grow]
      omega
    | inr hnew => exact hnew ▸ .compute x

theorem advances_grow (h : eqs.Solving running s) (hx : x ∈ eqs.nodes) : eqs.Advances s r := by
  refine ⟨fun y hy => (isKnown_grow hnew hr y).2 (.inl hy), (remaining_lt ?_).le⟩
  have hsize := h.size_lt hx hnew
  rw [distance, distance, view_grow hnew hr, hr.table, CellTable.size_grow]
  omega

end

end Solving

/-! Waiting on successors. -/

/-- What the computation of an entity may wait on: successors, and each that is not final. -/
structure Awaits (eqs : Equations E V C K) (s : Store E V C K) (e : E)
    (dependees : List (Status E V)) : Prop where
  nonempty : dependees ≠ []
  refinable : ∀ d ∈ dependees, d.isFinal = false ∧ ∃ x ∈ eqs.succ e, d = eqs.view s x
  covers : ∀ x ∈ eqs.succ e, (eqs.view s x).isFinal = false → eqs.view s x ∈ dependees
  known : ∀ x ∈ eqs.succ e, s.isKnown (eqs.keyOf x) = true

theorem awaits_succ (hknown : ∀ x ∈ eqs.succ e, s.isKnown (eqs.keyOf x) = true)
    (hsome : ((eqs.succ e).map (eqs.view s)).filter (·.isRefinable) ≠ []) :
    eqs.Awaits s e (((eqs.succ e).map (eqs.view s)).filter (·.isRefinable)) := by
  refine ⟨hsome, ?_, ?_, hknown⟩
  · intro d hd
    obtain ⟨hmem, hrefinable⟩ := List.mem_filter.1 hd
    obtain ⟨x, hx, rfl⟩ := List.mem_map.1 hmem
    exact ⟨by simpa [Status.isRefinable] using hrefinable, x, hx, rfl⟩
  · intro x hx hopen
    exact List.mem_filter.2 ⟨List.mem_map_of_mem hx, by simp [Status.isRefinable, hopen]⟩

theorem succ_final (hnone : ((eqs.succ e).map (eqs.view s)).filter (·.isRefinable) = []) :
    ∀ x ∈ eqs.succ e, (eqs.view s x).isFinal = true := by
  intro x hx
  simpa [Status.isRefinable] using List.filter_eq_nil_iff.1 hnone _ (List.mem_map_of_mem hx)

theorem Awaits.congr {dependees : List (Status E V)} (h : eqs.Awaits s e dependees)
    (htable : r.table = s.table) : eqs.Awaits r e dependees := by
  have hview : eqs.view r = eqs.view s := eqs.view_congr htable
  refine ⟨h.nonempty, hview ▸ h.refinable, hview ▸ h.covers, ?_⟩
  intro x hx
  rw [Store.isKnown, htable]
  exact h.known x hx

namespace Solving

theorem mayAwait (h : eqs.Solving {e} s) {c : Cell E V K}
    (hc : s.table.find? (eqs.keyOf e) = some c) {dependees : List (Status E V)}
    (hd : eqs.Awaits s e dependees) : s.MayAwait c dependees := by
  refine ⟨hd.nonempty, fun d hmem => (hd.refinable d hmem).1, ?_⟩
  intro d hmem
  obtain ⟨-, x, hx, rfl⟩ := hd.refinable d hmem
  obtain ⟨b, hb⟩ := Option.isSome_iff_exists.1 (hd.known x hx)
  refine ⟨b, ?_, (Store.statusOf_found hb).symm,
    fun hid => (eqs.succ_closed hx).1 (h.cell_inj hb hc hid)⟩
  rw [eqs.bounds_key h.bounds x]
  exact hb

theorem rests_of_solves (h : eqs.Solving {e} s) (hsound : r.Sound)
    (hkeys : ∀ i, r.table.key? i = s.table.key? i) {c : Cell E V K}
    (hc : s.table.find? (eqs.keyOf e) = some c) {status : Status E V}
    (hview : eqs.view r = Function.update (eqs.view s) e status)
    (hsolved : eqs.Solved (Function.update (eqs.view s) e status) e) {n : Nat} {k : K}
    (hk : eqs.entity k = e) {dependees : List (Status E V)} (hd : eqs.Awaits s e dependees)
    {obs : List (Nat × Status E V)} (hvalues : obs.map (·.2) = dependees)
    (hcells : ∀ p ∈ obs, ∃ b, s.table.find? p.2.key = some b ∧ b.id = p.1 ∧ b.status = p.2) :
    eqs.Rests r (.cell c.id) ⟨n, k, obs⟩ := by
  have hle : ∀ i own, s.table.key? i = some own → r.table.key? i = some own := fun i _ hi =>
    (hkeys i).trans hi
  subst hk
  refine ⟨?_, hview ▸ hsolved, ?_⟩
  · obtain ⟨c', hc', hid⟩ := Store.find?_of_keys h.sound hsound hle hc
    exact ⟨c', hc', by rw [hid]⟩
  · intro x hx
    rw [hview, Function.update_of_ne (eqs.succ_closed hx).1]
    cases hfinal : (eqs.view s x).isFinal with
    | true => exact .inl rfl
    | false =>
      have hmem : eqs.view s x ∈ obs.map (·.2) := hvalues ▸ hd.covers x hx hfinal
      obtain ⟨p, hp, hpx⟩ := List.mem_map.1 hmem
      obtain ⟨b, hb, hid, -⟩ := hcells p hp
      rw [hpx, eqs.bounds_key h.bounds x] at hb
      obtain ⟨b', hb', hid'⟩ := Store.find?_of_keys h.sound hsound hle hb
      exact .inr ⟨b', hb', List.mem_map.2 ⟨p, hp, by rw [hid', hid]⟩⟩

end Solving

variable [Property V] [ToString E]

/-! What a computation asks for, and what it returns. -/

/-- A status that an entity may take while all else stays. -/
structure Offers (eqs : Equations E V C K) (v : E → Status E V) (e : E)
    (new : Status E V) : Prop where
  key : new.key = eqs.keyOf e
  hasValue : new.isUnknown = false
  refines : Cell.checkRefinement (v e) new = .ok ()
  bounds : eqs.Bounds (Function.update v e new)
  improves : eqs.Improves v (Function.update v e new)

/-- Bounds with which an entity solves its equation. Unless they say what was known before, they are
nearer to a final value. -/
structure Solves (eqs : Equations E V C K) (v : E → Status E V) (e : E) (ep : Interim E V) : Prop
    extends eqs.Offers v e (.interim ep) where
  nearer : (v e).sameValues (.interim ep) = false → eqs.level (.interim ep) < eqs.level (v e)
  solved : ∀ status, status.sameValues (.interim ep) = true →
    eqs.Solved (Function.update v e status) e

theorem Solves.replace {v : E → Status E V} {ep : Interim E V} (hnew : eqs.Solves v e ep)
    (hv : eqs.Bounds v) {c : Cell E V K} (hstatus : c.status = v e) {status : Status E V}
    (hreplace : (c.replace (.interim ep)).2.status = status) :
    status.sameValues (.interim ep) = true ∧ eqs.Bounds (Function.update v e status) ∧
      eqs.Improves v (Function.update v e status) ∧
      (eqs.level status < eqs.level (v e) ∨ (c.replace (.interim ep)).1.changed = false) := by
  cases hch : (c.replace (.interim ep)).1.changed with
  | true =>
    have hdiffers : c.status.sameValues (.interim ep) = false := by
      by_contra hsame
      simp [Cell.replace, Status.isFinal, Update.unchanged, Bool.not_eq_false _ ▸ hsame] at hch
    rw [Cell.replace_of_changed hch] at hreplace
    subst hreplace
    exact ⟨by simp [Status.sameValues, Stamped.agrees], hnew.bounds, hnew.improves,
      .inl (hnew.nearer (hstatus ▸ hdiffers))⟩
  | false =>
    obtain ⟨heq, -, hsame⟩ := Cell.replace_of_unchanged hch
    rw [heq] at hreplace
    have hold : status = v e := hreplace.symm.trans hstatus
    rw [hold, Function.update_eq_self]
    exact ⟨hstatus ▸ hsame, hv, eqs.improves_refl v, .inr rfl⟩

theorem Solving.accepts (h : eqs.Solving {e} s) {new : Status E V}
    (hnew : eqs.Offers (eqs.view s) e new) :
    ∃ c, s.table.find? (eqs.keyOf e) = some c ∧ s.table.cell? c.id = some c ∧
      c.status = eqs.view s e ∧ c.Fits new ∧ Cell.checkRefinement c.status new = .ok () := by
  obtain ⟨c, hc, hcell, hstatus, hopen⟩ := h.cell_of_due (e := e) (by simp)
  refine ⟨c, hc, hcell, hstatus, ⟨hopen, ?_, hnew.hasValue⟩, hstatus ▸ hnew.refines⟩
  rw [hnew.key, (h.key_of_find? hc).1]
  exact keyOf_same.2 rfl

variable [ToString V]

theorem Solving.ask (h : eqs.Solving running s)
    (hroom : eqs.nodes.toFinset.card ≤ collaboratorBit) {x : E} (hx : x ∈ eqs.nodes) :
    Store.Ends (Store.query (eqs.keyOf x)) s
      (fun status r => status = eqs.view s x ∧ eqs.Solving running r ∧ eqs.Advances s r ∧
        eqs.view r = eqs.view s ∧ r.isKnown (eqs.keyOf x) = true)
      (fun _ => False) := by
  cases hc : s.table.find? (eqs.keyOf x) with
  | some c =>
    have hknown : (s.table.find? (eqs.keyOf x)).isSome := by rw [hc]; rfl
    refine (Store.query_found h.setting.closed hknown).mono ?_ fun _ hr => hr
    intro status r hr
    obtain ⟨rfl, rfl⟩ := hr
    exact ⟨rfl, h, .refl eqs r, rfl, hknown⟩
  | none =>
    have hsize := h.size_lt hx hc
    obtain ⟨info, hinfo, -⟩ := h.setting.kind
    refine (Store.query_new h.setting.closed hc (by omega)
      (Option.isSome_iff_exists.2 ⟨info, hinfo⟩) h.setting.computed h.setting.lazy).mono
      ?_ fun _ hr => hr
    intro status r hr
    obtain ⟨rfl, hr⟩ := hr
    have hview := Solving.view_grow hc hr
    exact ⟨congrFun hview x, .grow hc hr h hx (by omega), Solving.advances_grow hc hr h hx, hview,
      (Solving.isKnown_grow hc hr x).2 (.inr rfl)⟩

namespace Solving

theorem finish (h : eqs.Solving {e} s) {ep : Final E V}
    (hnew : eqs.Offers (eqs.view s) e (.final ep)) :
    Store.Ends (Store.installFinal ep) s (fun _ r => eqs.Solving 0 r ∧ eqs.Advances s r)
      (fun _ => False) := by
  obtain ⟨c, hc, hcell, hstatus, hfit, hvalid⟩ := h.accepts hnew
  have hopen : (eqs.view s e).isFinal = false := hstatus ▸ hfit.refinable
  have hkey : ep.key = eqs.keyOf e := hnew.key
  refine (Store.installFinal_succeeds h.sound (hkey ▸ hc) hfit hvalid).mono ?_ fun _ hr => hr
  intro _ r hr
  have hbecomes : s.Becomes (s.table.install c (.final ep))
      (s.table.installTasks s.phase c (.final ep)) r :=
    Store.takes_final.1 hr
  have hsound := (hr.leaves h.sound hcell hfit).sound
  have hkeys : ∀ i, r.table.key? i = s.table.key? i := by
    rw [hbecomes.table]
    exact CellTable.key?_install _ _ _
  have hface := CellTable.face?_install hcell (.final ep)
  rw [← hbecomes.table] at hface
  have hview := h.view_of_face? hsound hkeys hc hface
  have hself : eqs.view r e = .final ep := by rw [hview, Function.update_self]
  have hi : eqs.Improves (eqs.view s) (eqs.view r) := hview ▸ hnew.improves
  have hts := s.table.resumes_installTasks h.setting.triggered
    (CellTable.lt_size_of_cell? hcell) (.final ep)
  have hdue : eqs.due r = eqs.due s := by
    have hpending := h.sound.table.pending_install s.phase hcell hfit
    rw [h.sound.table.pendingOf_eq_zero (h.awake hc)] at hpending
    have hdue := eqs.due_of_becomes hbecomes h.setting.closed 0 0 (by simpa using hpending)
    simpa [hts.asked_eq_zero] using hdue
  refine ⟨h.next {e} hbecomes hsound (hr.linked h.sound h.linked hcell hfit) hkeys
    (hview ▸ hnew.bounds) hi hts (by rw [hdue, zero_add, add_comm]) ?_ ?_, ?_⟩
  · intro x hx
    rw [Multiset.mem_singleton]
    constructor
    · intro heq
      rw [heq, hself]
      rfl
    · intro hfinal
      by_contra hne
      rw [hview, Function.update_of_ne hne, ((h.mem_due x).1 hx).2] at hfinal
      cases hfinal
  · intro d susp hd
    rw [hbecomes.table] at hd
    exact .inl (CellTable.suspension?_install_le hd)
  · refine .of_keys h.sound hsound hkeys
      (remaining_lt (distance_lt hi (CellTable.size_eq_of_key? hkeys).ge
        (h.key_of_find? hc).2 ?_)).le
    rw [hself, eqs.level_of_isFinal rfl]
    exact eqs.level_pos hopen

theorem rest (h : eqs.Solving {e} s) {ep : Interim E V} (hnew : eqs.Solves (eqs.view s) e ep)
    {dependees : List (Status E V)} (hd : eqs.Awaits s e dependees) {k : K}
    (hk : eqs.entity k = e) :
    Store.Ends (Store.suspend ep dependees k) s (fun _ r => eqs.Solving 0 r ∧ eqs.Advances s r)
      (fun _ => False) := by
  obtain ⟨c, hc, hcell, hstatus, hfit, hvalid⟩ := h.accepts hnew.toOffers
  have hkey : ep.key = eqs.keyOf e := hnew.key
  refine (Store.suspend_succeeds h.sound (hkey ▸ hc) hfit hvalid (h.mayAwait hc hd) k).mono
    ?_ fun _ hr => hr
  intro _ r hr
  obtain ⟨n, obs, hvalues, hcells, hr⟩ := hr
  have hview := h.view_of_face? hr.sound hr.keys hc hr.face?
  obtain ⟨hsame, hbounds, hi, hnearer⟩ := hnew.replace h.bounds hstatus rfl
  rw [← hview] at hbounds hi
  have hts := s.table.resumes_fallAsleepTasks h.setting.triggered
    (CellTable.lt_size_of_cell? hcell) ep ⟨n, k, obs⟩
  have hdue : eqs.due r = eqs.due s + {e} := by
    have hpending := hr.pending
    rw [h.sound.table.pendingOf_eq_zero (h.awake hc)] at hpending
    simpa [hts.asked_eq_zero, hk] using eqs.due_of_becomes hr.becomes h.setting.closed 0 _ hpending
  refine ⟨h.next 0 hr.becomes hr.sound (hr.linked h.linked) hr.keys hbounds hi hts
    (by simp [hdue, add_comm]) ?_ ?_, .of_keys h.sound hr.sound hr.keys ?_⟩
  · intro x hx
    refine iff_of_false (Multiset.notMem_zero x) ?_
    rw [Bool.not_eq_true, hview]
    by_cases hxe : x = e
    · subst hxe
      rw [Function.update_self]
      exact Status.isFinal_of_sameValues hsame
    · rw [Function.update_of_ne hxe]
      exact ((h.mem_due x).1 hx).2
  · intro d susp hasleep
    have hwas := hr.asleep hasleep
    by_cases hcell : d = .cell c.id
    · rw [if_pos hcell, Option.some.injEq] at hwas
      rw [← hwas, hcell]
      exact .inr (h.rests_of_solves hr.sound hr.keys hc hview (hnew.solved _ hsame) hk hd
        hvalues hcells)
    · rw [if_neg hcell] at hwas
      exact .inl hwas
  · cases hnearer with
    | inl hlt =>
      refine (remaining_lt (distance_lt hi (CellTable.size_eq_of_key? hr.keys).ge
        (h.key_of_find? hc).2 ?_)).le
      rwa [hview, Function.update_self]
    | inr hsilent =>
      -- nothing new was said, so nobody was woken
      have hquiet : r.queue = s.queue := by
        rw [hr.becomes.queue, CellTable.fallAsleepTasks,
          if_neg (by rw [hsilent]; exact Bool.false_ne_true), Queue.enqueue_nil]
      exact remaining_le (distance_le hi (CellTable.size_eq_of_key? hr.keys).ge) (by rw [hquiet])

end Solving
end Blackboard.Equations
