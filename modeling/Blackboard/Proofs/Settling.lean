import Blackboard.Proofs.Group
import Blackboard.Store.Quiescence

/-! The steps of a round, one by one: a fallback, an interim value that nobody refines, a closed
group. In a sound store none of them fails. -/
namespace Blackboard

namespace Status
variable {E V : Type} [DecidableEq V]

theorem sameState_self (s : Status E V) : s.sameState s = true := by
  cases s <;> simp [sameState]

theorem isUnknown_of_sameState {s observed : Status E V} (h : s.sameState observed = true)
    (hu : observed.isUnknown = true) : s.isUnknown = true := by
  cases observed with
  | unknown k => cases s <;> simp_all [sameState, isUnknown]
  | interim ep => simp [isUnknown] at hu
  | final ep => simp [isUnknown] at hu

theorem interim_of_sameState {s : Status E V} {ep : Interim E V}
    (h : s.sameState (.interim ep) = true) :
    ∃ old, s = .interim old ∧ old.lower = ep.lower ∧ old.upper = ep.upper := by
  cases s with
  | unknown k => simp [sameState] at h
  | interim old => exact ⟨old, rfl, by simpa [sameState] using h⟩
  | final old => simp [sameState] at h

end Status

namespace Store
variable {E V C K : Type}

theorem release_becomes {s : Store E V C K} (hs : s.table.Apart) (d : Depender) :
    s.Becomes (s.table.release d) [] (s.release d) := by
  have hfst := s.table.takeSuspensionIf_fst d fun _ => true
  have hall : ∀ {o}, s.table.suspension? d = o →
      (s.table.suspension? d).filter (fun _ => true) = o := by
    rintro o rfl
    cases s.table.suspension? d <;> rfl
  unfold Store.release takeSuspensionIf
  generalize htake : s.table.takeSuspensionIf d (fun _ => true) = r at hfst ⊢
  obtain ⟨taken, t⟩ := r
  simp only at hfst
  subst hfst
  unfold CellTable.release
  cases hd : s.table.suspension? d with
  | some susp =>
    have ht : t = s.table.clear d := by
      rw [← CellTable.takeSuspensionIf_snd_of_some hs (hall hd), htake]
    rw [ht]
    change s.Becomes (s.table.detach d susp) []
      (Store.unlink { s with table := s.table.clear d } d susp)
    constructor <;> simp [unlink, CellTable.detach]
  | none =>
    have ht : t = s.table := by
      rw [← CellTable.takeSuspensionIf_snd_of_none hs (hall hd), htake]
    rw [ht]
    exact .refl s

theorem infoOf_registered {s : Store E V C K} {kind : Kind} (h : (s.schema.find? kind).isSome) :
    Ends (infoOf kind) s (fun info r => r = s ∧ s.schema.find? kind = some info)
      (fun _ => False) := by
  obtain ⟨info, hinfo⟩ := Option.isSome_iff_exists.1 h
  refine .read ?_
  have hget : s.schema.get kind = .ok info := by simp [Schema.get, hinfo]
  rw [hget]
  exact .answer ⟨rfl, hinfo⟩

theorem writeCell_put [DecidableEq V] {s : Store E V C K} {c : Cell E V K}
    (hc : s.table.cell? c.id = some c) (hawake : c.suspension = none) (ep : Final E V) :
    s.Becomes (s.table.put c.id (.final ep)) [] (s.writeCell (c.replace (.final ep)).2) := by
  have hch := c.changed_final ep
  have hwrite := writeCell_becomes (f := fun _ => (c.replace (.final ep)).2) hc (c.id_replace _)
  have hput : (s.table.modify c.id fun _ => (c.replace (.final ep)).2) =
      s.table.put c.id (.final ep) := by
    rw [Cell.replace_of_changed hch]
    apply CellTable.modify_congr
    intro e he
    obtain rfl : c = e := Option.some.inj (hc.symm.trans he)
    simp [Status.isFinal, ← hawake]
  rwa [hput] at hwrite

variable [DecidableEq E]

theorem releaseAll_becomes {s : Store E V C K} (hs : s.table.Sound) (ds : List Depender) :
    s.Becomes (s.table.releaseAll ds) [] (ds.foldl release s) := by
  induction ds generalizing s with
  | nil => exact .refl s
  | cons d ds ih =>
    have first := release_becomes hs.apart d
    have rest := ih (first.table ▸ hs.release d)
    rw [first.table] at rest
    exact first.trans rest

structure Seen (s : Store E V C K) (cell : Cell E V K) : Prop where
  key : s.table.key? cell.id = some cell.key
  own : cell.status.key.same cell.key = true

theorem Seen.current {s : Store E V C K} (hs : s.Sound) {cell : Cell E V K} (h : cell ∈ s.cells) :
    s.table.cell? cell.id = some cell ∧ s.Seen cell := by
  obtain ⟨i, hi⟩ := CellTable.mem_all_iff.1 h
  have hc : s.table.cell? cell.id = some cell := hs.table.id_eq hi ▸ hi
  exact ⟨hc, by simp [CellTable.key?, hc], hs.table.own_key hc⟩

def IsResolution (s : Store E V C K) (c : Cell E V K) (ep : Final E V) : Prop :=
  ∃ iep info n, c.status = .interim iep ∧ s.schema.find? c.key.kind = some info ∧
    ep = info.resolve n iep

/-- The members of a group become final together, each as its kind resolves it, and then the others
are woken. -/
structure Resolves (s : Store E V C K) (group : List Depender)
    (batch : List (Cell E V K × Final E V)) (r : Store E V C K) : Prop where
  fit : (s.table.releaseAll group).Batch batch
  members : ∀ p ∈ batch, .cell p.1.id ∈ group ∧ s.IsResolution p.1 p.2
  covers : ∀ i c ep, .cell i ∈ group → (s.table.releaseAll group).cell? i = some c →
    c.status = .interim ep →
    ∃ p ∈ batch, p.1.id = i
  becomes : s.Becomes (s.table.resolve group batch)
    (((s.table.releaseAll group).putAll batch).announceTasks batch) r

theorem Resolves.shown {s r : Store E V C K} {group : List Depender}
    {batch : List (Cell E V K × Final E V)} (h : s.Resolves group batch r)
    {p : Cell E V K × Final E V} (hp : p ∈ batch) : s.table.face? p.1.id = some p.1.face := by
  rw [← CellTable.face?_releaseAll s.table group]
  exact CellTable.face?_of_cell? (h.fit.cell p hp)

theorem Resolves.mem_batch {s r : Store E V C K} {group : List Depender}
    {batch : List (Cell E V K × Final E V)} (h : s.Resolves group batch r) {i id : Nat}
    {key : Key E} {ep : Interim E V} (hi : .cell i ∈ group)
    (hface : s.table.face? i = some (id, key, .interim ep)) : ∃ p ∈ batch, p.1.id = i := by
  rw [← CellTable.face?_releaseAll s.table group] at hface
  obtain ⟨c, hc, -, -, hep⟩ := CellTable.cell?_of_shown hface
  exact h.covers i c ep hi hc hep

variable [DecidableEq V]

/-- A cell that was seen before is made final, unless it moved on since. -/
inductive Settled (s : Store E V C K) (cell : Cell E V K) (ep : Final E V → Prop)
    (r : Store E V C K) :
    Bool → Prop
  | moved (h : ∀ c, s.table.cell? cell.id = some c → c.status.sameState cell.status = false)
      (hr : s.Becomes s.table [] r) : Settled s cell ep r false
  | taken (c : Cell E V K) (new : Final E V) (hid : c.id = cell.id)
      (hc : s.table.cell? c.id = some c) (hsame : c.status.sameState cell.status = true)
      (hfit : c.Fits (.final new)) (hnew : ep new) (hr : s.Takes c (.final new) r) :
      Settled s cell ep r true

theorem settled_taken {s q r : Store E V C K} (hs : s.Sound) {cell c : Cell E V K} {ep : Final E V}
    {P : Final E V → Prop} (hq : s.Becomes s.table [] q) (hc : s.table.cell? cell.id = some c)
    (hsame : c.status.sameState cell.status = true) (hfit : c.Fits (.final ep)) (hep : P ep)
    (hr : (q.writeCell (c.replace (.final ep)).2).Becomes
      (q.writeCell (c.replace (.final ep)).2).table [] r) :
    s.Settled cell P (r.afterUpdate (c.replace (.final ep)).2 (c.replace (.final ep)).1) true := by
  have hid : c.id = cell.id := hs.table.id_eq hc
  have hsound : q.table.Sound := hq.table ▸ hs.table
  refine .taken c ep hid (hid ▸ hc) hsame hfit hep ?_
  have htakes := takes_afterUpdate hsound (by rwa [hq.table, hid]) hfit
    (c.id_replace (.final ep)) (c.key_replace (.final ep)) hr
  rw [takes_final, hq.table, hq.phase] at htakes
  exact takes_final.2 (hq.after_quiet htakes)

def report (p : Cell E V K × Final E V) : Cell E V K × Final E V × Update E V K :=
  ((p.1.replace (.final p.2)).2, p.2, (p.1.replace (.final p.2)).1)

theorem announce_becomes {s : Store E V C K} (hs : s.table.Sound) (size : Nat)
    {batch : List (Cell E V K × Final E V)} (hawake : ∀ p ∈ batch, p.1.suspension = none)
    (hknown : ∀ p ∈ batch, p.1.status.isUnknown = false) :
    s.Becomes (s.table.announce batch) (s.table.announceTasks batch)
      ((batch.map report).foldl (announceResolved size) s) := by
  induction batch generalizing s with
  | nil => exact .refl s
  | cons p batch ih =>
    have hch := p.1.changed_final p.2
    obtain ⟨hold, hdeps, hdrop⟩ : (p.1.replace (.final p.2)).1.old = p.1.status ∧
        (p.1.replace (.final p.2)).1.dependers = p.1.dependers ∧
        (p.1.replace (.final p.2)).1.dropped = none := by
      rw [Cell.replace_of_changed hch]
      simp [hawake p List.mem_cons_self]
    have first : s.Becomes (s.table.wakeAll p.1.id p.1.dependers.members)
        (p.1.dependers.members.filterMap (s.table.wakeTask? p.1.id))
        (announceResolved size s (report p)) := by
      unfold announceResolved report
      dsimp only
      have hquiet := ((notify_becomes s (.resolvedCycle p.2.key p.2.value.value size)).then_quiet
        (count_becomes _ fun n => { n with resolvedCycles := n.resolvedCycles + 1 })).then_quiet
        (trace_becomes _ (.cycleResolution p.2 size))
      generalize hs₁ : (((s.notify _).count _).trace _ : Store E V C K) = s₁ at hquiet ⊢
      have hafter := afterUpdate_becomes (s := s₁) (p.1.replace (.final p.2)).2 hch
        (by rw [hdrop]; exact hquiet.table) hs
      rw [hold, hdeps, hknown p List.mem_cons_self, Cell.id_replace] at hafter
      simpa using hquiet.after_quiet hafter
    have rest := ih (s := announceResolved size s (report p)) (first.table ▸ hs.wakeAll _ _)
      (fun q hq => hawake q (List.mem_cons_of_mem _ hq))
      (fun q hq => hknown q (List.mem_cons_of_mem _ hq))
    rw [first.table] at rest
    exact first.trans rest

variable [Property V] [ToString E] [ToString V]

theorem finalizeIf_ends {s : Store E V C K} {id : Nat} {observed : Status E V} {ep : Final E V}
    {c : Cell E V K} (hc : s.table.cell? id = some c)
    (hfit : c.status.sameState observed = true → c.Fits (.final ep)) :
    Ends (finalizeIf id observed ep) s
      (fun done r => match done with
        | none => r = s ∧ c.status.sameState observed = false
        | some (c', u) => c.status.sameState observed = true ∧ c.replace (.final ep) = (u, c') ∧
            r = s.writeCell c')
      (fun _ => False) := by
  refine .read ?_
  have hcell : s.cell? id = some c := hc
  simp only [hcell, Cell.updateIf]
  by_cases hsame : c.status.sameState observed = true
  · have hup : c.update (.final ep) false = .ok (c.replace (.final ep)) :=
      Cell.update_of_fits (hfit hsame) (by simp)
    rw [if_pos hsame, hup]
    exact .write_then (.answer ⟨hsame, rfl, rfl⟩)
  · rw [if_neg hsame]
    exact .answer ⟨rfl, by simpa using hsame⟩

theorem fallBack_ends {s : Store E V C K} (hs : s.Sound) {cell : Cell E V K} (hseen : s.Seen cell)
    (hu : cell.status.isUnknown = true) :
    Ends (fallBack cell) s
      (fun b r => s.Settled cell (fun ep => ∃ info n, s.schema.find? cell.key.kind = some info ∧
        ep = info.fallbackFor (s.phase.reason cell.key.kind) n cell.key.entity) r b)
      (fun _ => False) := by
  obtain ⟨c, hc, hkey⟩ := Option.map_eq_some_iff.1 hseen.key
  refine .read (.bind (infoOf_registered (hkey ▸ hs.registered hc)) ?_)
  rintro info r ⟨rfl, hinfo⟩
  refine .bind ((freshStamp_ends r).mono (fun _ _ h => h) fun _ h => h) ?_
  intro n q hq
  have hfit : c.status.sameState cell.status = true →
      c.Fits (.final (info.fallbackFor (r.phase.reason cell.key.kind) n cell.key.entity)) := by
    intro hsame
    have hunknown := Status.isUnknown_of_sameState hsame hu
    refine ⟨?_, ?_, rfl⟩
    · cases hst : c.status <;> simp_all [Status.isFinal, Status.isUnknown]
    · rw [hkey]
      exact Key.same_iff.2 ⟨rfl, Kind.same_iff.1 (Schema.same_of_find? hinfo)⟩
  refine .bind (finalizeIf_ends (hq.table ▸ hc) hfit) ?_
  rintro (_ | ⟨c', u⟩) q' hq'
  · obtain ⟨rfl, hmoved⟩ := hq'
    refine .answer (.moved ?_ hq)
    intro e he
    rwa [← Option.some.inj (hc.symm.trans he)]
  · obtain ⟨hsame, hrep, rfl⟩ := hq'
    obtain ⟨rfl, rfl⟩ := Prod.mk.inj hrep
    refine .write_then (.write_then (.write_then (.write_then (.answer ?_))))
    exact settled_taken hs hq hc hsame (hfit hsame) ⟨info, n, hinfo, rfl⟩
      (((notify_becomes _ _).then_quiet (count_becomes _ _)).then_quiet (trace_becomes _ _))

theorem finalize_ends {s : Store E V C K} (hs : s.Sound) {cell : Cell E V K} (hseen : s.Seen cell)
    {iep : Interim E V} (hi : cell.status = .interim iep) :
    Ends (finalize cell) s
      (fun b r => s.Settled cell (fun ep => ∃ info n, s.schema.find? cell.key.kind = some info ∧
        ep = info.resolve n iep) r b)
      (fun _ => False) := by
  obtain ⟨c, hc, hkey⟩ := Option.map_eq_some_iff.1 hseen.key
  have hown : iep.key.same cell.key = true := by
    have h := hseen.own
    rwa [hi] at h
  have hfind : s.schema.find? iep.key.kind = s.schema.find? cell.key.kind :=
    Schema.find?_congr (Key.same_iff.1 hown).2
  unfold finalize
  simp only [hi]
  refine .bind (infoOf_registered (by rw [hfind, ← hkey]; exact hs.registered hc)) ?_
  rintro info r ⟨rfl, hinfo⟩
  refine .bind ((freshStamp_ends r).mono (fun _ _ h => h) fun _ h => h) ?_
  intro n q hq
  have hfit : c.status.sameState (.interim iep) = true → c.Fits (.final (info.resolve n iep)) := by
    intro hsame
    obtain ⟨old, hold, -⟩ := Status.interim_of_sameState hsame
    exact ⟨by simp [hold, Status.isFinal], hkey ▸ hown, rfl⟩
  refine .bind (finalizeIf_ends (hq.table ▸ hc) hfit) ?_
  rintro (_ | ⟨c', u⟩) q' hq'
  · obtain ⟨rfl, hmoved⟩ := hq'
    refine .answer (.moved ?_ hq)
    intro e he
    rwa [hi, ← Option.some.inj (hc.symm.trans he)]
  · obtain ⟨hsame, hrep, rfl⟩ := hq'
    obtain ⟨rfl, rfl⟩ := Prod.mk.inj hrep
    refine .write_then (.write_then (.write_then (.answer ?_)))
    exact settled_taken hs hq hc (hi ▸ hsame) (hfit hsame) ⟨info, n, hfind ▸ hinfo, rfl⟩
      ((notify_becomes _ _).then_quiet (count_becomes _ _))

theorem finalize_idle {s : Store E V C K} {cell : Cell E V K}
    (h : ∀ ep, cell.status ≠ .interim ep) :
    Ends (finalize cell) s (fun b r => b = false ∧ r = s) (fun _ => False) := by
  unfold finalize
  split
  · next ep hep => exact absurd hep (h ep)
  · exact .answer ⟨rfl, rfl⟩

/-! A closed group. -/

theorem resolveMember_ends {s : Store E V C K} (hs : s.Sound) {d : Depender}
    (hawake : s.table.suspension? d = none) :
    Ends (resolveMember d) s
      (fun done r => match done with
        | none => s.Becomes s.table [] r ∧
            ∀ i c ep, d = .cell i → s.table.cell? i = some c → c.status ≠ .interim ep
        | some (c', ep, u) =>
          ∃ c, d = .cell c.id ∧ s.table.cell? c.id = some c ∧ c.suspension = none ∧
            c.Fits (.final ep) ∧ s.IsResolution c ep ∧ c.replace (.final ep) = (u, c') ∧
            s.Becomes (s.table.put c.id (.final ep)) [] r)
      (fun _ => False) := by
  cases d with
  | collaborator id => exact .answer ⟨.refl s, by simp⟩
  | cell id =>
    refine .read ?_
    cases hc : s.table.cell? id with
    | none =>
      have hst : s.status? id = none := by simp [status?, cell?, hc]
      simp only [hst]
      refine .answer ⟨.refl s, ?_⟩
      rintro i c ep ⟨⟩ hi
      simp [hc] at hi
    | some c =>
      have hst : s.status? id = some c.status := by simp [status?, cell?, hc]
      have hid : c.id = id := hs.table.id_eq hc
      simp only [hst]
      split
      · next iep hiep =>
        obtain hiep : c.status = .interim iep := Option.some.inj hiep
        have hown : iep.key.same c.key = true := by
          have h := hs.table.own_key hc
          rwa [hiep] at h
        have hfind : s.schema.find? iep.key.kind = s.schema.find? c.key.kind :=
          Schema.find?_congr (Key.same_iff.1 hown).2
        refine .bind (infoOf_registered (by rw [hfind]; exact hs.registered hc)) ?_
        rintro info r ⟨rfl, hinfo⟩
        refine .bind ((freshStamp_ends r).mono (fun _ _ h => h) fun _ h => h) ?_
        intro n q hq
        have hfit : c.Fits (.final (info.resolve n iep)) :=
          ⟨by simp [hiep, Status.isFinal], hown, rfl⟩
        refine .bind (finalizeIf_ends (hq.table ▸ hc) fun _ => hfit) ?_
        rintro (_ | ⟨c', u⟩) q' hq'
        · obtain ⟨-, hmoved⟩ := hq'
          rw [hiep, Status.sameState_self] at hmoved
          simp at hmoved
        · obtain ⟨-, hrep, rfl⟩ := hq'
          obtain ⟨rfl, rfl⟩ := Prod.mk.inj hrep
          have hnone : c.suspension = none := by simpa [CellTable.suspension?, hc] using hawake
          have hcid : q.table.cell? c.id = some c := by rw [hq.table, hid, hc]
          refine .answer ⟨c, by rw [hid], by rw [hid, hc], hnone, hfit,
            ⟨iep, info, n, hiep, hfind ▸ hinfo, rfl⟩, rfl, ?_⟩
          have hput := writeCell_put hcid hnone (info.resolve n iep)
          rw [hq.table] at hput
          exact hq.after_quiet hput
      · next hno =>
        refine .answer ⟨.refl s, ?_⟩
        rintro i e ep ⟨⟩ hi hep
        obtain rfl : c = e := Option.some.inj (hc.symm.trans hi)
        exact hno ep (by rw [hep])

theorem resolveMembers_ends {s : Store E V C K} (hs : s.Sound) {group : List Depender}
    (hawake : ∀ d ∈ group, s.table.suspension? d = none) :
    Ends (resolveMembers group) s
      (fun rs r => ∃ batch, rs = batch.map report ∧ s.table.Batch batch ∧
        (∀ p ∈ batch, .cell p.1.id ∈ group ∧ s.IsResolution p.1 p.2) ∧
        (∀ i c ep, .cell i ∈ group → s.table.cell? i = some c → c.status = .interim ep →
          ∃ p ∈ batch, p.1.id = i) ∧
        s.Becomes (s.table.putAll batch) [] r)
      (fun _ => False) := by
  induction group generalizing s with
  | nil => exact .answer ⟨[], rfl, ⟨by simp, by simp, by simp, .nil⟩, by simp, by simp, .refl s⟩
  | cons d group ih =>
    refine .bind (resolveMember_ends hs (hawake d List.mem_cons_self)) ?_
    rintro (_ | ⟨c', ep, u⟩) q hq
    · obtain ⟨hquiet, hno⟩ := hq
      have hsound : q.Sound := hs.of_becomes hquiet hs.table fun _ => rfl
      refine .bind (ih hsound fun e he => hquiet.table ▸ hawake e (List.mem_cons_of_mem _ he)) ?_
      rintro rs r ⟨batch, rfl, hbatch, hmembers, hcovers, hr⟩
      rw [hquiet.table] at hbatch hcovers hr
      refine .answer ⟨batch, rfl, hbatch, ?_, ?_, hquiet.after_quiet hr⟩
      · intro p hp
        obtain ⟨hin, iep, info, n, hres⟩ := hmembers p hp
        exact ⟨List.mem_cons_of_mem _ hin, iep, info, n, hquiet.schema ▸ hres⟩
      · intro i c ep hi hc hep
        rcases List.mem_cons.1 hi with hd | hi
        · exact absurd hep (hno i c ep hd.symm hc)
        · exact hcovers i c ep hi hc hep
    · obtain ⟨c, rfl, hc, hnone, hfit, hres, hrep, hput⟩ := hq
      have hsound : q.Sound := hs.of_becomes hput
        (hs.table.put hc hfit.key fun h => absurd hnone h) (fun i => CellTable.key?_put _ _ i _)
      refine .bind (ih hsound ?_) ?_
      · intro e he
        rw [hput.table, CellTable.suspension?_put]
        exact hawake e (List.mem_cons_of_mem _ he)
      rintro rs r ⟨batch, rfl, hbatch, hmembers, hcovers, hr⟩
      rw [hput.table] at hbatch hcovers hr
      refine .answer ⟨(c, ep) :: batch, ?_, .cons hc hnone hfit hbatch, ?_, ?_, hput.trans hr⟩
      · simp [report, hrep]
      · intro p hp
        rcases List.mem_cons.1 hp with rfl | hp
        · exact ⟨List.mem_cons_self, hres⟩
        · obtain ⟨hin, iep, info, n, hres'⟩ := hmembers p hp
          exact ⟨List.mem_cons_of_mem _ hin, iep, info, n, hput.schema ▸ hres'⟩
      · intro i e ep' hi he hep
        by_cases hci : c.id = i
        · exact ⟨(c, ep), List.mem_cons_self, hci⟩
        · have hin : Depender.cell i ∈ group := by
            simpa [Ne.symm hci] using hi
          have hcell : (s.table.put c.id (.final ep)).cell? i = some e := by
            rw [CellTable.cell?_put, he]
            simp [hci]
          obtain ⟨p, hp, hpi⟩ := hcovers i e ep' hin hcell hep
          exact ⟨p, List.mem_cons_of_mem _ hp, hpi⟩

theorem resolveGroup_ends {s : Store E V C K} (hs : s.Sound) (delayed group : List Depender) :
    Ends (resolveGroup delayed group) s
      (fun b r => if group.any (delayed.contains ·) then b = false ∧ r = s
        else b = true ∧ ∃ batch, s.Resolves group batch r)
      (fun _ => False) := by
  unfold resolveGroup
  by_cases hdelayed : group.any (delayed.contains ·) = true
  · simp only [hdelayed, if_true]
    exact .answer ⟨rfl, rfl⟩
  · simp only [hdelayed, Bool.false_eq_true, if_false]
    have hrel := releaseAll_becomes hs.table group
    have hsound : Sound (group.foldl release s) := hs.of_becomes hrel (hs.table.releaseAll group)
      fun i => CellTable.key?_of_face? (CellTable.face?_releaseAll _ _ _)
    refine .write_then (.bind (resolveMembers_ends hsound ?_) ?_)
    · intro d hd
      rw [hrel.table, CellTable.suspension?_releaseAll, if_pos hd]
    rintro rs q ⟨batch, rfl, hbatch, hmembers, hcovers, hput⟩
    have hall := hrel.trans hput
    rw [hrel.table] at hbatch hcovers hall
    refine .write_then (.answer ⟨rfl, batch, hbatch, ?_, hcovers, ?_⟩)
    · intro p hp
      obtain ⟨hin, iep, info, n, hres⟩ := hmembers p hp
      exact ⟨hin, iep, info, n, hrel.schema ▸ hres⟩
    · have htold :=
        announce_becomes (hall.table ▸ (hs.table.releaseAll group).putAll hbatch) group.length
          hbatch.awake (fun p hp => by
          obtain ⟨-, iep, -, -, hst, -⟩ := hmembers p hp
          simp [hst, Status.isUnknown])
      rw [hall.table] at htold
      exact hall.trans htold

end Store
end Blackboard
