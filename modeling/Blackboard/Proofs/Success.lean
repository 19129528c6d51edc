import Blackboard.Proofs.Ledger
import Blackboard.Proofs.Links

/-! Operations that succeed: what is asked of cells that are there, with values that fit them, is
done and nothing else. -/
namespace Blackboard.Store
variable {E V C K : Type} {s : Store E V C K}

theorem carryOut_succeeds (u : Update E V K) (c : Cell E V K) (s : Store E V C K) :
    Ends (carryOut (.ok (u, c))) s (fun u' r => u' = u ∧ r = s.writeCell c) (fun _ => False) :=
  .write_then (.answer ⟨rfl, rfl⟩)

theorem checkRunning_succeeds (hopen : s.queue.closed = false) :
    Ends checkRunning s (fun _ r => r = s) (fun _ => False) := by
  refine .read ?_
  rw [if_neg (by simp [isShutdown, hopen])]
  exact .answer rfl

variable [DecidableEq E]

theorem registered_of_find? (hs : s.Sound) {key : Key E} {c : Cell E V K}
    (hc : s.table.find? key = some c) : (s.schema.find? key.kind).isSome := by
  obtain ⟨hcell, hkey⟩ := CellTable.find?_eq_some hs.table hc
  rw [← Schema.find?_congr (Key.same_iff.1 hkey).2]
  exact hs.registered hcell

theorem cellOf_found (hs : s.Sound) {key : Key E} {c : Cell E V K}
    (hc : s.table.find? key = some c) :
    Ends (cellOf key) s (fun e r => e = c ∧ r = s) (fun _ => False) := by
  refine .bind (infoOf_registered (registered_of_find? hs hc)) ?_
  intro info r hr
  obtain ⟨rfl, -⟩ := hr
  have hfound : Ends (getOrCreate key) r (fun p q => p = (c, false) ∧ q = r) (fun _ => False) := by
    have hget : r.table.getOrCreate key = .ok (c, false, r.table) := by
      simp [CellTable.getOrCreate, hc]
    unfold getOrCreate
    refine .read ?_
    rw [hget]
    exact .write_then (.answer ⟨rfl, rfl⟩)
  refine .bind hfound ?_
  intro p q hq
  obtain ⟨rfl, rfl⟩ := hq
  exact .answer ⟨rfl, rfl⟩

theorem observe_found (hs : s.Sound) {dependees : List (Status E V)}
    (hd : ∀ d ∈ dependees, ∃ c, s.table.find? d.key = some c ∧ c.status = d) :
    Ends (observe dependees) s
      (fun obs r => r = s ∧ obs.map (·.2) = dependees ∧
        ∀ p ∈ obs, ∃ c, s.table.find? p.2.key = some c ∧ c.id = p.1 ∧ c.status = p.2)
      (fun _ => False) := by
  induction dependees with
  | nil => exact .answer ⟨rfl, rfl, by simp⟩
  | cons d ds ih =>
    obtain ⟨c, hc, hst⟩ := hd d List.mem_cons_self
    refine .bind (cellOf_found hs hc) ?_
    intro e r hr
    obtain ⟨rfl, rfl⟩ := hr
    refine .bind (ih fun d' hd' => hd d' (List.mem_cons_of_mem _ hd')) ?_
    intro obs q hq
    obtain ⟨rfl, hobs, hcells⟩ := hq
    refine .answer ⟨rfl, by simp [hobs], ?_⟩
    intro p hp
    cases List.mem_cons.1 hp with
    | inl heq =>
      subst heq
      exact ⟨e, hc, rfl, hst⟩
    | inr hp => exact hcells p hp

/-! What is known about a key, by what its cell shows. -/

section
variable {r : Store E V C K} {key : Key E}

theorem find?_of_keys (hs : s.Sound) (hr : r.Sound)
    (hk : ∀ i own, s.table.key? i = some own → r.table.key? i = some own) {c : Cell E V K}
    (hc : s.table.find? key = some c) : ∃ e, r.table.find? key = some e ∧ e.id = c.id := by
  obtain ⟨hcell, hkey⟩ := CellTable.find?_eq_some hs.table hc
  have hown : s.table.key? c.id = some c.key := by simp [CellTable.key?, hcell]
  exact CellTable.find?_of_key? hr.table (hk _ _ hown) hkey

theorem isKnown_of_keys (hs : s.Sound) (hr : r.Sound)
    (hk : ∀ i own, s.table.key? i = some own → r.table.key? i = some own)
    (h : s.isKnown key = true) : r.isKnown key = true := by
  obtain ⟨c, hc⟩ := Option.isSome_iff_exists.1 h
  obtain ⟨e, he, -⟩ := find?_of_keys hs hr hk hc
  simp [isKnown, he]

theorem statusOf_found {c : Cell E V K} (hc : s.table.find? key = some c) :
    s.statusOf key = c.status := by
  simp [statusOf, hc]

theorem find?_of_face? (hs : s.Sound) {i : Nat} {own : Key E} {status : Status E V}
    (hi : s.table.face? i = some (i, own, status)) (hsame : own.same key = true) :
    ∃ c, s.table.find? key = some c ∧ c.id = i ∧ c.status = status := by
  obtain ⟨c, hcell, -, hkey, hstatus⟩ := CellTable.cell?_of_shown hi
  have hown : s.table.key? i = some own := by simp [CellTable.key?, hcell, hkey]
  obtain ⟨e, he, heid⟩ := CellTable.find?_of_key? hs.table hown hsame
  obtain ⟨hecell, -⟩ := CellTable.find?_eq_some hs.table he
  obtain rfl : c = e := Option.some.inj (hcell.symm.trans (heid ▸ hecell))
  exact ⟨c, he, heid, hstatus⟩

theorem statusOf_of_face? (hs : s.Sound) {i : Nat} {own : Key E} {status : Status E V}
    (hi : s.table.face? i = some (i, own, status)) (hsame : own.same key = true) :
    s.statusOf key = status := by
  obtain ⟨c, hc, -, hstatus⟩ := find?_of_face? hs hi hsame
  rw [statusOf_found hc, hstatus]

theorem statusOf_congr (hs : s.Sound) (hr : r.Sound) (hk : ∀ i, r.table.key? i = s.table.key? i)
    (hf : ∀ c, s.table.find? key = some c → r.table.face? c.id = s.table.face? c.id) :
    r.statusOf key = s.statusOf key := by
  cases hc : s.table.find? key with
  | some c =>
    obtain ⟨hcell, hkey⟩ := CellTable.find?_eq_some hs.table hc
    rw [statusOf_found hc]
    exact statusOf_of_face? hr ((hf c hc).trans (CellTable.face?_of_cell? hcell)) hkey
  | none =>
    have hnone : r.table.find? key = none := by
      cases he : r.table.find? key with
      | none => rfl
      | some e =>
        obtain ⟨c, hc', -⟩ := find?_of_keys hr hs (fun i own hi => (hk i).symm.trans hi) he
        simp [hc] at hc'
    simp [statusOf, hc, hnone]

end

/-! Waiting on others, and giving values. -/

/-- What an interim result may depend on: other cells that are as it observed them, and not
final. -/
structure MayAwait (s : Store E V C K) (c : Cell E V K) (dependees : List (Status E V)) : Prop where
  nonempty : dependees ≠ []
  refinable : ∀ d ∈ dependees, d.isFinal = false
  found : ∀ d ∈ dependees, ∃ e, s.table.find? d.key = some e ∧ e.status = d ∧ e.id ≠ c.id

theorem checkSuspension_succeeds [ToString E] [ToString V] (hs : s.Sound) {c : Cell E V K}
    {key : Key E} {dependees : List (Status E V)} (hc : s.table.find? key = some c)
    (hd : s.MayAwait c dependees) (depender : String) :
    Ends (checkSuspension depender (some key) dependees) s (fun _ r => r = s) (fun _ => False) := by
  have hown : ∀ d ∈ dependees, key.same d.key = false := by
    intro d hmem
    obtain ⟨e, he, -, hne⟩ := hd.found d hmem
    obtain ⟨hcell, hkey⟩ := CellTable.find?_eq_some hs.table hc
    obtain ⟨hcell', hkey'⟩ := CellTable.find?_eq_some hs.table he
    by_contra hsame
    rw [Bool.not_eq_false] at hsame
    exact hne (hs.table.key_inj hcell' hcell
      (Key.same_trans hkey' (Key.same_symm (Key.same_trans hkey hsame))))
  have hcheck : ∀ ds : List (Status E V), (∀ d ∈ ds, d ∈ dependees) →
      checkDependees depender (some key) ds = .ok () := by
    intro ds
    induction ds with
    | nil => exact fun _ => rfl
    | cons d ds ih =>
      intro hmem
      have hin := hmem d List.mem_cons_self
      simp only [checkDependees, Option.any_some, hown d hin, hd.refinable d hin,
        Bool.false_eq_true, if_false]
      exact ih fun d' hd' => hmem d' (List.mem_cons_of_mem _ hd')
  unfold checkSuspension
  cases hds : dependees with
  | nil => exact absurd hds hd.nonempty
  | cons d ds =>
    refine .read ?_
    rw [← hds]
    split
    · rw [hcheck dependees fun _ h => h]
      exact .answer rfl
    · exact .answer rfl

theorem getOrCreate_new {key : Key E} (hc : s.table.find? key = none)
    (hroom : s.table.size < collaboratorBit) :
    Ends (getOrCreate key) s (fun p r => p.2 = true ∧ r = { s with table := s.table.grow key })
      (fun _ => False) := by
  have hget : s.table.getOrCreate key = .ok (.create s.table.size key, true, s.table.grow key) := by
    simp [CellTable.getOrCreate, hc, cellId, hroom, CellTable.grow, bind, Except.bind,
      pure, Except.pure]
  unfold getOrCreate
  refine .read ?_
  rw [hget]
  exact .write_then (.answer ⟨rfl, rfl⟩)

variable [DecidableEq V]

theorem registerDependers_current [ToString E] (hs : s.table.Sound) (d : Depender) (epoch : Nat)
    {obs : List (Nat × Status E V)} (hobs : ∀ p ∈ obs, s.table.IsCurrent p) :
    Ends (registerDependers d epoch obs) s (fun _ r => s.Becomes (s.table.watch d obs) [] r)
      (fun _ => False) := by
  induction obs generalizing s with
  | nil => exact .answer (.refl s)
  | cons p obs ih =>
    obtain ⟨id, observed⟩ := p
    obtain ⟨c, hc, hsame, hopen⟩ := hobs (id, observed) List.mem_cons_self
    refine .read ?_
    have hcell : s.cell? id = some c := hc
    simp only [hcell, Cell.addDepender, hsame, hopen, Bool.not_true, Bool.false_eq_true, if_false]
    have hlink : s.Becomes (s.table.link d id) [] (s.writeCell _) :=
      writeCell_becomes (f := fun c => { c with dependers := c.dependers.insert d.encode }) hc
        (hs.id_eq (c := c) hc)
    refine .write_then ((ih (hlink.table ▸ hs.link d id) ?_).mono ?_ fun _ h => h)
    · intro p hp
      rw [hlink.table]
      exact (CellTable.isCurrent_congr (CellTable.face?_link _ _ _)).2
        (hobs p (List.mem_cons_of_mem _ hp))
    · intro _ r hr
      rw [hlink.table] at hr
      exact hlink.trans hr

theorem MayAwait.isCurrent {c : Cell E V K} {dependees : List (Status E V)}
    (hd : s.MayAwait c dependees) (hs : s.Sound) (hcell : s.table.cell? c.id = some c)
    {obs : List (Nat × Status E V)} (hvalues : obs.map (·.2) = dependees)
    (hcells : ∀ p ∈ obs, ∃ e, s.table.find? p.2.key = some e ∧ e.id = p.1 ∧ e.status = p.2)
    (ep : Interim E V) (susp : Suspension E V K) :
    ∀ p ∈ obs, (s.table.fallAsleep c ep susp).IsCurrent p := by
  intro p hp
  obtain ⟨e, he, hid, hst⟩ := hcells p hp
  have hmem : p.2 ∈ dependees := hvalues ▸ List.mem_map_of_mem hp
  obtain ⟨e', he', -, hne⟩ := hd.found p.2 hmem
  obtain rfl : e = e' := Option.some.inj (he.symm.trans he')
  obtain ⟨hecell, -⟩ := CellTable.find?_eq_some hs.table he
  have hface := CellTable.face?_fallAsleep hcell ep susp e.id
  rw [if_neg hne, CellTable.face?_of_cell? hecell, hid] at hface
  obtain ⟨b, hb, -, -, hstatus⟩ := CellTable.cell?_of_shown hface
  refine ⟨b, hb, ?_, ?_⟩
  · rw [hstatus, hst]
    exact Status.sameState_self _
  · rw [hstatus, hst]
    exact hd.refinable p.2 hmem

/-- A cell takes bounds and sleeps. Its dependers are woken if it changed, and nobody else falls
asleep. -/
structure Sleeps (s : Store E V C K) (c : Cell E V K) (ep : Interim E V) (susp : Suspension E V K)
    (r : Store E V C K) : Prop where
  becomes : s.Becomes r.table (s.table.fallAsleepTasks s.phase c ep susp) r
  sound : r.Sound
  linked : s.table.Linked → r.table.Linked
  keys : ∀ i, r.table.key? i = s.table.key? i
  face? : ∀ j, r.table.face? j =
    if j = c.id then some (c.id, c.key, (c.replace (.interim ep)).2.status) else s.table.face? j
  asleep : ∀ {d x}, r.table.suspension? d = some x →
    (if d = .cell c.id then some susp else s.table.suspension? d) = some x
  pending : r.table.pending + carried (s.table.fallAsleepTasks s.phase c ep susp) +
    s.table.pendingOf (.cell c.id) = s.table.pending + {(.cell c.id, susp.continuation)}

theorem Sleeps.of_watch {q r : Store E V C K} {c : Cell E V K} {ep : Interim E V} {n : Nat} {k : K}
    {dependees : List (Status E V)} {obs : List (Nat × Status E V)} (hs : s.Sound)
    (hc : s.table.cell? c.id = some c) (hfit : c.Fits (.interim ep))
    (hobs : s.Observed dependees obs)
    (hq : s.Becomes (s.table.fallAsleep c ep ⟨n, k, obs⟩)
      (s.table.fallAsleepTasks s.phase c ep ⟨n, k, obs⟩) q) (hqs : q.Sound)
      (hcurrent : ∀ p ∈ obs, q.table.IsCurrent p)
    (hr : q.Becomes (q.table.watch (.cell c.id) obs) [] r) : s.Sleeps c ep ⟨n, k, obs⟩ r := by
  have hreg : q.Registered (.cell c.id) n obs r := .asleep hcurrent hr
  have hasleep : ∀ d, r.table.suspension? d = q.table.suspension? d := by
    intro d
    rw [hr.table, CellTable.suspension?_watch]
  refine ⟨?_, (hreg.retains hqs).sound, ?_, ?_, ?_, ?_, ?_⟩
  · have hboth := hq.trans hr
    rwa [List.append_nil, ← hr.table] at hboth
  · exact fun hl => hreg.linked_of_fallAsleep hs hl hc hfit hobs hq hqs
  · intro i
    rw [CellTable.key?_of_face? (hreg.face? i), hq.table]
    exact CellTable.key?_fallAsleep _ _ _ _ i
  · intro j
    rw [hreg.face?, hq.table]
    exact CellTable.face?_fallAsleep hc ep _ j
  · intro d x hd
    rw [hasleep, hq.table] at hd
    exact CellTable.suspension?_fallAsleep_le hc hd
  · rw [hqs.table.pending_congr (hreg.retains hqs).sound.table hasleep, hq.table]
    exact hs.table.pending_fallAsleep s.phase hc hfit hobs.nonempty (hobs.ids_lt (n := n) (k := k))

variable [Property V] [ToString E] [ToString V]

theorem installFinal_succeeds (hs : s.Sound) {ep : Final E V} {c : Cell E V K}
    (hc : s.table.find? ep.key = some c) (hfit : c.Fits (.final ep))
    (hval : Cell.checkRefinement c.status (.final ep) = .ok ()) :
    Ends (installFinal ep) s (fun _ r => s.Takes c (.final ep) r) (fun _ => False) := by
  refine .bind (cellOf_found hs hc) ?_
  intro e q hq
  obtain ⟨rfl, rfl⟩ := hq
  obtain ⟨hcell, -⟩ := CellTable.find?_eq_some hs.table hc
  refine .read ?_
  rw [Cell.update_of_fits hfit fun _ => hval]
  refine .bind (carryOut_succeeds _ _ _) ?_
  intro u r hr
  obtain ⟨rfl, rfl⟩ := hr
  exact .write (takes_afterUpdate hs.table hcell hfit rfl rfl (.refl _))

theorem suspend_succeeds (hs : s.Sound) {ep : Interim E V} {c : Cell E V K}
    {dependees : List (Status E V)} (hc : s.table.find? ep.key = some c)
    (hfit : c.Fits (.interim ep)) (hval : Cell.checkRefinement c.status (.interim ep) = .ok ())
    (hd : s.MayAwait c dependees) (k : K) :
    Ends (suspend ep dependees k) s
      (fun _ r => ∃ n obs, obs.map (·.2) = dependees ∧
        (∀ p ∈ obs, ∃ e, s.table.find? p.2.key = some e ∧ e.id = p.1 ∧ e.status = p.2) ∧
        s.Sleeps c ep ⟨n, k, obs⟩ r)
      (fun _ => False) := by
  obtain ⟨hcell, hkey⟩ := CellTable.find?_eq_some hs.table hc
  refine .bind (checkSuspension_succeeds hs hc hd _) ?_
  intro _ q hq
  subst hq
  refine .bind (observe_found hs fun d hmem => ?_) ?_
  · obtain ⟨e, he, hst, -⟩ := hd.found d hmem
    exact ⟨e, he, hst⟩
  intro obs q hq
  obtain ⟨rfl, hvalues, hcells⟩ := hq
  have hobs : q.Observed dependees obs := by
    refine ⟨hvalues, ?_, ?_⟩
    · intro hnil
      exact hd.nonempty (by rw [← hvalues, hnil]; rfl)
    · intro p hp
      obtain ⟨e, he, hid, -⟩ := hcells p hp
      obtain ⟨hecell, hekey⟩ := CellTable.find?_eq_some hs.table he
      exact ⟨e, hid ▸ hecell, hekey⟩
  refine .bind (cellOf_found hs hc) ?_
  intro e r hr
  obtain ⟨rfl, rfl⟩ := hr
  refine .read ?_
  rw [Cell.update_of_fits hfit fun _ => hval]
  refine .bind (carryOut_succeeds _ _ _) ?_
  intro u r₁ hr₁
  obtain ⟨rfl, rfl⟩ := hr₁
  refine .bind ((nextEpoch_ends _).mono (fun _ _ h => h) fun _ h => h) ?_
  intro n q₁ hq₁
  obtain ⟨-, hquiet⟩ := hq₁
  have hsleep :=
    fallAsleep_becomes hs.table hcell hfit hobs.nonempty (hobs.ids_lt (n := n) (k := k)) hquiet
  have hsound : Sound _ :=
    hs.of_becomes hsleep (hs.table.fallAsleep hcell hfit hobs.nonempty hobs.ids_lt)
      (CellTable.key?_fallAsleep _ _ _ _)
  have hcurrent := hd.isCurrent hs hcell hvalues hcells ep ⟨n, k, obs⟩
  rw [← hsleep.table] at hcurrent
  refine .write_then
    (.write_then ((registerDependers_current hsound.table _ n hcurrent).mono ?_ fun _ h => h))
  intro _ r' hr'
  exact ⟨n, obs, hvalues, hcells, .of_watch hs hcell hfit hobs hsleep hsound hcurrent hr'⟩

/-! Asking for a key. -/

theorem query_found (hopen : s.queue.closed = false) {key : Key E}
    (hc : (s.table.find? key).isSome) :
    Ends (query key) s (fun status r => status = s.statusOf key ∧ r = s) (fun _ => False) := by
  refine .bind (checkRunning_succeeds hopen) ?_
  intro _ r hr
  subst hr
  refine .read ?_
  have hnone : (r.table.find? key).isNone = false := by
    cases hf : r.table.find? key <;> simp [hf] at hc ⊢
  rw [hnone]
  exact .read (.answer ⟨rfl, rfl⟩)

theorem query_new (hopen : s.queue.closed = false) {key : Key E} {comp : C}
    (hc : s.table.find? key = none) (hroom : s.table.size < collaboratorBit)
    (hk : (s.schema.find? key.kind).isSome) (hcomputed : s.phase.isComputed key.kind = true)
    (hlazy : s.phase.lazyFor key.kind = some comp) :
    Ends (query key) s
      (fun status r => status = r.statusOf key ∧
        s.Becomes (s.table.grow key) [.compute comp key.entity] r)
      (fun _ => False) := by
  refine .bind (checkRunning_succeeds hopen) ?_
  intro _ r hr
  subst hr
  refine .read ?_
  rw [hc]
  refine .bind (infoOf_registered hk) ?_
  intro info q hq
  obtain ⟨rfl, -⟩ := hq
  refine .read ?_
  simp only [hcomputed, Bool.true_or, if_true]
  have hask : Ends (askFor key) q
      (fun _ r => q.Becomes (q.table.grow key) [.compute comp key.entity] r) (fun _ => False) := by
    have hgrow : q.Becomes (q.table.grow key) [] { q with table := q.table.grow key } := by
      constructor <;> simp
    refine .bind (getOrCreate_new hc hroom) ?_
    intro p r hr
    obtain ⟨c, created⟩ := p
    obtain ⟨rfl, rfl⟩ := hr
    refine .read ?_
    dsimp only
    rw [hlazy]
    exact .write (hgrow.trans (schedule_becomes "lazy" _ comp key.entity))
  refine .bind hask ?_
  intro _ r hr
  exact .read (.answer ⟨rfl, hr⟩)

end Blackboard.Store
