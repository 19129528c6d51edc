import Blackboard.Proofs.Completeness
import Blackboard.Proofs.Solving

/-! Rounds of a store on its way to a solution. No task is left, so all that is not final sleeps. A
closed group solves its own equations and depends on nothing else that is not final, so it may be
resolved. -/
namespace Blackboard.Equations
variable {E V C K : Type} [DecidableEq E] [DecidableEq V] {eqs : Equations E V C K}
  {s q r : Store E V C K} {running : Multiset E} {e : E} {group : List Depender}
  {batch : List (Cell E V K × Final E V)}

def InGroup (eqs : Equations E V C K) (q : Store E V C K) (group : List Depender) (e : E) : Prop :=
  ∃ c, q.table.find? (eqs.keyOf e) = some c ∧ .cell c.id ∈ group ∧ (eqs.view q e).isFinal = false

namespace Solving

theorem find?_of_cell? (h : eqs.Solving running s) {c : Cell E V K}
    (hc : s.table.cell? c.id = some c) :
    ∃ e ∈ eqs.nodes, c.key = eqs.keyOf e ∧ s.table.find? (eqs.keyOf e) = some c := by
  have hown : s.table.key? c.id = some c.key := by simp [CellTable.key?, hc]
  obtain ⟨e, he, hkey⟩ := h.nodes hown
  obtain ⟨b, hb, hid⟩ := CellTable.find?_of_key? h.sound.table (hkey ▸ hown) (keyOf_same.2 rfl)
  obtain ⟨hbcell, -⟩ := CellTable.find?_eq_some h.sound.table hb
  obtain rfl : b = c := Option.some.inj (hbcell.symm.trans (hid ▸ hc))
  exact ⟨e, he, hkey, hb⟩

theorem asleep_of_idle (h : eqs.Solving 0 s) (hidle : s.inFlight = false) {c : Cell E V K}
    (hc : s.table.find? (eqs.keyOf e) = some c) (hopen : (eqs.view s e).isFinal = false) :
    ∃ susp, s.table.suspension? (.cell c.id) = some susp ∧ eqs.entity susp.continuation = e := by
  have hempty : s.queue.waiting = [] := by simpa [Store.inFlight, Queue.pending] using hidle
  have hdue : e ∈ 0 + eqs.due s := (h.mem_due e).2 ⟨by simp [Store.isKnown, hc], hopen⟩
  have hpending : ∃ d k, (d, k) ∈ s.table.pending ∧ eqs.entity k = e := by
    simpa [due, Store.held, hempty, asked] using hdue
  obtain ⟨d, k, hd, hk⟩ := hpending
  obtain ⟨susp, hsusp, heq⟩ := h.sound.table.mem_pending.1 hd
  obtain ⟨b, hb, hbd⟩ := (h.rests hsusp).cell
  dsimp only at hsusp heq hbd
  rw [heq, hk, hc] at hb
  obtain rfl := Option.some.inj hb
  exact ⟨susp, hbd ▸ hsusp, by rw [heq, hk]⟩

theorem inGroup_of_batch (h : eqs.Solving 0 q) (hr : q.Resolves group batch r)
    {p : Cell E V K × Final E V} (hp : p ∈ batch) :
    ∃ x c, q.table.find? (eqs.keyOf x) = some c ∧ c.id = p.1.id ∧ p.1.key = eqs.keyOf x ∧
      p.1.status = eqs.view q x ∧ eqs.InGroup q group x := by
  obtain ⟨c, hc, hid, hkey, hstatus⟩ := CellTable.cell?_of_shown (hr.shown hp)
  rw [← hid] at hc
  obtain ⟨x, -, hx, hfind⟩ := h.find?_of_cell? hc
  have hview : eqs.view q x = c.status := Store.statusOf_found hfind
  refine ⟨x, c, hfind, hid, hkey ▸ hx, by rw [hview, hstatus], c, hfind, ?_, ?_⟩
  · rw [hid]
    exact (hr.members p hp).1
  · rw [hview, hstatus]
    exact (hr.fit.fits p hp).refinable

theorem exists_batch (h : eqs.Solving 0 q) (hidle : q.inFlight = false)
    (hr : q.Resolves group batch r) {x : E} (hx : eqs.InGroup q group x) :
    ∃ p ∈ batch, p.1.key = eqs.keyOf x := by
  obtain ⟨c, hc, hmem, hopen⟩ := hx
  obtain ⟨hcell, -⟩ := CellTable.find?_eq_some h.sound.table hc
  obtain ⟨susp, hsusp, -⟩ := h.asleep_of_idle hidle hc hopen
  obtain ⟨ep, hep⟩ := h.sound.table.interim hcell (by
    intro hnone
    simp [CellTable.suspension?, hcell, hnone] at hsusp)
  have hface : q.table.face? c.id = some (c.id, c.key, .interim ep) := by
    rw [CellTable.face?_of_cell? hcell, Cell.face, hep]
  obtain ⟨p, hp, hid⟩ := hr.mem_batch hmem hface
  have hshown := hr.shown hp
  rw [hid, hface] at hshown
  simp only [Cell.face, Option.some.injEq, Prod.mk.injEq] at hshown
  exact ⟨p, hp, hshown.2.1.symm.trans (h.key_of_find? hc).1⟩

theorem view_inGroup (h : eqs.Solving 0 q) (hidle : q.inFlight = false)
    (hr : q.Resolves group batch r) (hsound : r.Sound) {x : E} (hx : eqs.InGroup q group x) :
    ∃ n ep, eqs.view q x = .interim ep ∧
      eqs.view r x = .final ⟨ep.key, eqs.resolution.resolve n ep.lower ep.upper⟩ := by
  obtain ⟨p, hp, hkey⟩ := h.exists_batch hidle hr hx
  obtain ⟨y, -, -, -, hy, hstatus, -⟩ := h.inGroup_of_batch hr hp
  obtain rfl : y = x := congrArg Key.entity (hy.symm.trans hkey)
  have hface := CellTable.face?_resolve_self hr.fit hp
  rw [← hr.becomes.table] at hface
  have hnew : eqs.view r y = .final p.2 :=
    Store.statusOf_of_face? hsound hface (by rw [hkey]; exact keyOf_same.2 rfl)
  obtain ⟨-, ep, info, n, hep, hinfo, hresolved⟩ := hr.members p hp
  obtain ⟨info', hinfo', hresolution⟩ := h.setting.kind
  rw [hkey] at hinfo
  obtain rfl : info = info' := Option.some.inj (hinfo.symm.trans hinfo')
  refine ⟨n, ep, hstatus.symm.trans hep, ?_⟩
  rw [hnew, hresolved, KindInfo.resolve, hresolution]

theorem view_not_inGroup (h : eqs.Solving 0 q) (hr : q.Resolves group batch r) (hsound : r.Sound)
    (hkeys : ∀ i, r.table.key? i = q.table.key? i) {x : E} (hx : ¬ eqs.InGroup q group x) :
    eqs.view r x = eqs.view q x := by
  refine Store.statusOf_congr h.sound hsound hkeys ?_
  intro c hc
  rw [hr.becomes.table]
  refine CellTable.face?_resolve_of_ne ?_
  intro p hp hid
  obtain ⟨y, b, hb, hbid, -, -, hy⟩ := h.inGroup_of_batch hr hp
  exact hx (h.cell_inj hb hc (hbid.trans hid) ▸ hy)

theorem mem_released (h : eqs.Solving 0 q) (hidle : q.inFlight = false) {x : E} :
    x ∈ (q.table.pending.filter (·.1 ∈ group)).map (fun p => eqs.entity p.2) ↔
      eqs.InGroup q group x := by
  constructor
  · intro hx
    obtain ⟨y, hy, rfl⟩ := Multiset.mem_map.1 hx
    obtain ⟨hy, hmem⟩ := Multiset.mem_filter.1 hy
    obtain ⟨susp, hsusp, heq⟩ := h.sound.table.mem_pending.1 hy
    obtain ⟨c, hc, hd⟩ := (h.rests hsusp).cell
    rw [← heq]
    refine ⟨c, hc, hd ▸ hmem, ((h.mem_due _).1 ?_).2⟩
    rw [zero_add]
    exact h.asleep_due hsusp
  · intro hx
    obtain ⟨c, hc, hmem, hopen⟩ := hx
    obtain ⟨susp, hsusp, heq⟩ := h.asleep_of_idle hidle hc hopen
    refine Multiset.mem_map.2 ⟨(.cell c.id, susp.continuation), Multiset.mem_filter.2 ⟨?_, hmem⟩,
      heq⟩
    exact h.sound.table.mem_pending.2 ⟨susp, hsusp, rfl⟩

theorem solved_inGroup (h : eqs.Solving 0 q) (hidle : q.inFlight = false) {x : E}
    (hx : eqs.InGroup q group x) : eqs.Solved (eqs.view q) x := by
  obtain ⟨c, hc, -, hopen⟩ := hx
  obtain ⟨susp, hsusp, rfl⟩ := h.asleep_of_idle hidle hc hopen
  exact (h.rests hsusp).solved

theorem closed_inGroup (h : eqs.Solving 0 q) (hs : s.Sound) (hset : s.Settles q)
    (hidle : q.inFlight = false) (hgroup : group ∈ closedComponents s.waiting) {x : E}
    (hx : eqs.InGroup q group x) :
    ∀ y ∈ eqs.succ x, (eqs.view q y).isFinal = true ∨ eqs.InGroup q group y := by
  intro y hy
  obtain ⟨c, hc, hmem, hopen⟩ := hx
  obtain ⟨susp, hsusp, rfl⟩ := h.asleep_of_idle hidle hc hopen
  cases (h.rests hsusp).covers y hy with
  | inl hfinal => exact .inl hfinal
  | inr hawaits =>
    obtain ⟨b, hb, hbmem⟩ := hawaits
    obtain ⟨i, susp', hd, hsusp', hids⟩ := Store.asleep_in_closedComponent hs hgroup hmem
    cases hd
    obtain rfl : susp' = susp := Option.some.inj (hsusp'.symm.trans (hset.asleep hsusp))
    cases hyfinal : (eqs.view q y).isFinal with
    | true => exact .inl rfl
    | false => exact .inr ⟨b, hb, hids b.id hbmem, hyfinal⟩

theorem resolve (h : eqs.Solving 0 q) (hs : s.Sound) (hset : s.Settles q)
    (hidle : q.inFlight = false) (hgroup : group ∈ closedComponents s.waiting)
    (hr : q.Resolves group batch r) :
    eqs.Solving 0 r ∧ eqs.Improves (eqs.view q) (eqs.view r) ∧
      ∀ x c, q.table.find? (eqs.keyOf x) = some c → .cell c.id ∈ group →
        (eqs.view r x).isFinal = true := by
  have hsound := (hr.settles h.sound).sound
  have hkeys : ∀ i, r.table.key? i = q.table.key? i := (hr.settles h.sound).keys
  have hin := fun x (hx : eqs.InGroup q group x) => h.view_inGroup hidle hr hsound hx
  have hout := fun x (hx : ¬ eqs.InGroup q group x) => h.view_not_inGroup hr hsound hkeys hx
  have hfinal : ∀ x, eqs.InGroup q group x → (eqs.view r x).isFinal = true := by
    intro x hx
    obtain ⟨n, ep, -, hnew⟩ := hin x hx
    rw [hnew]
    rfl
  obtain ⟨hbounds, hi⟩ := eqs.settle h.bounds (fun x => h.solved_inGroup hidle)
    (fun x => h.closed_inGroup hs hset hidle hgroup) hout hin
  have hts : Resumes q.table.size
      (((q.table.releaseAll group).putAll batch).announceTasks (C := C) batch) := by
    refine CellTable.resumes_announceTasks _ ?_
    intro p hp
    obtain ⟨x, c, hc, hid, -⟩ := h.inGroup_of_batch hr hp
    rw [← hid]
    exact CellTable.lt_size_of_cell? (CellTable.find?_eq_some h.sound.table hc).1
  have hdue : eqs.due r + (q.table.pending.filter (·.1 ∈ group)).map (fun p => eqs.entity p.2) =
      eqs.due q := by
    have hpending := h.sound.table.pending_resolve (C := C) hr.fit
    simpa [hts.asked_eq_zero] using
      eqs.due_of_becomes hr.becomes h.setting.closed _ 0 (by simpa using hpending)
  have hgone : ∀ x ∈ 0 + eqs.due q,
      x ∈ (q.table.pending.filter (·.1 ∈ group)).map (fun p => eqs.entity p.2) ↔
        (eqs.view r x).isFinal = true := by
    intro x hx
    rw [h.mem_released hidle]
    refine ⟨hfinal x, fun hxfinal => ?_⟩
    by_contra hmem
    rw [hout x hmem, ((h.mem_due x).1 hx).2] at hxfinal
    cases hxfinal
  have hlinked := hr.becomes.table ▸ h.linked.resolve h.sound.table hr.fit
  refine ⟨h.next _ hr.becomes hsound hlinked hkeys hbounds hi hts (by simpa using hdue) hgone ?_,
    hi, ?_⟩
  · intro d susp hd
    rw [hr.becomes.table] at hd
    exact .inl (CellTable.suspension?_resolve_le hd).2
  · intro x c hc hmem
    cases hxfinal : (eqs.view q x).isFinal with
    | true => rw [eqs.improves_final hi x hxfinal, hxfinal]
    | false => exact hfinal x ⟨c, hc, hmem, hxfinal⟩

theorem asleep_in_group (h : eqs.Solving running s) (hgroup : group ∈ closedComponents s.waiting) :
    ∃ x c, s.table.find? (eqs.keyOf x) = some c ∧ .cell c.id ∈ group ∧
      (eqs.view s x).isFinal = false := by
  obtain ⟨y, -, hiff, -⟩ := Waiting.mem_closedComponents hgroup
  obtain ⟨i, susp, hd, hsusp, -⟩ :=
    Store.asleep_in_closedComponent h.sound hgroup ((hiff _).2 ⟨y, rfl, .refl⟩)
  obtain ⟨c, hc, hid⟩ := (h.rests hsusp).cell
  refine ⟨_, c, hc, hid ▸ hd ▸ (hiff _).2 ⟨y, rfl, .refl⟩, ((h.mem_due _).1 ?_).2⟩
  exact Multiset.mem_add.2 (.inr (h.asleep_due hsusp))

theorem kept (h : eqs.Solving 0 s) :
    s.Kept (fun q => eqs.Solving 0 q ∧ eqs.Improves (eqs.view s) (eqs.view q))
      (fun q => (eqs.Solving 0 q ∧ eqs.Improves (eqs.view s) (eqs.view q)) ∧
        eqs.distance q < eqs.distance s) where
  start := ⟨h, eqs.improves_refl _⟩
  weaken hq := hq.1
  quiet_before hq hr := ⟨hq.1.quiet hr, eqs.view_congr hr.table ▸ hq.2⟩
  quiet hq hr :=
    ⟨⟨hq.1.1.quiet hr, eqs.view_congr hr.table ▸ hq.1.2⟩, eqs.distance_congr hr.table ▸ hq.2⟩
  step := by
    intro pass st hq hset hidle hst
    cases hst with
    | @cell q r _ _ _ _ _ hc hawake hfit _ _ =>
      -- whoever is not final sleeps
      obtain ⟨x, -, -, hfind⟩ := hq.1.find?_of_cell? hc
      have hopen : (eqs.view q x).isFinal = false := by
        rw [view, Store.statusOf_found hfind]
        exact hfit.refinable
      obtain ⟨susp, hsusp, -⟩ := hq.1.asleep_of_idle hidle hfind hopen
      simp [CellTable.suspension?, hc, hawake] at hsusp
    | @group q r group batch _ hgroup _ hr =>
      obtain ⟨hsolving, hi, hfinal⟩ := hq.1.resolve h.sound hset hidle hgroup hr
      have himproves := eqs.improves_trans hq.2 hi
      refine ⟨⟨hsolving, himproves⟩, ?_⟩
      obtain ⟨x, c, hc, hmem, hopen⟩ := h.asleep_in_group hgroup
      obtain ⟨c', hc', hid⟩ :=
        Store.find?_of_keys h.sound hset.sound (fun i _ hi => (hset.keys i).trans hi) hc
      have hsize : r.table.size = s.table.size :=
        CellTable.size_eq_of_key? fun i => ((hr.settles hset.sound).keys i).trans (hset.keys i)
      refine distance_lt himproves hsize.ge (h.key_of_find? hc).2 ?_
      rw [eqs.level_of_isFinal (hfinal x c' hc' (hid ▸ hmem))]
      exact eqs.level_pos hopen

variable [Property V] [ToString E] [ToString V]

/-- When the queue ran dry: the round brings the store nearer, or nothing was left to settle. -/
theorem round (h : eqs.Solving 0 s) (hidle : s.inFlight = false) :
    eqs.Solving 0 (s.onQuiescence true true).2 ∧ eqs.Advances s (s.onQuiescence true true).2 ∧
      if (s.onQuiescence true true).1 then eqs.remaining (s.onQuiescence true true).2 <
        eqs.remaining s
      else (s.onQuiescence true true).2.Idle true true := by
  have hround := h.kept.onQuiescence h.sound hidle true true
  cases hchanged : (s.onQuiescence true true).1 with
  | true =>
    simp only [hchanged, if_true] at hround ⊢
    obtain ⟨hset, ⟨hsolving, -⟩, hlt⟩ := hround
    exact ⟨hsolving, .of_keys h.sound hset.sound hset.keys (remaining_lt hlt).le, remaining_lt hlt⟩
  | false =>
    simp only [hchanged, Bool.false_eq_true, if_false] at hround ⊢
    obtain ⟨hquiet, hdone⟩ := hround
    exact ⟨h.quiet hquiet, .of_quiet hquiet, hdone.congr hquiet.table.symm hquiet.phase.symm⟩

end Solving
end Blackboard.Equations
