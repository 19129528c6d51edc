import Blackboard.Proofs.Install
import Blackboard.Proofs.Watch

/-! What the handling of a result does to a store, operation by operation. -/
namespace Blackboard

namespace Schema
variable {E V : Type} {schema : Schema E V}

theorem find?_eq_some_of_get {kind : Kind} {info : KindInfo E V} (h : schema.get kind = .ok info) :
    schema.find? kind = some info := by
  unfold Schema.get at h
  split at h
  · next i hi =>
    cases h
    exact hi
  · cases h

theorem same_of_find? {kind : Kind} {info : KindInfo E V} (h : schema.find? kind = some info) :
    info.kind.same kind = true := by
  simpa [find?] using List.find?_some h

theorem find?_congr {a b : Kind} (h : a.id = b.id) : schema.find? a = schema.find? b := by
  simp only [find?, Kind.same, h]

end Schema

namespace Store
variable {E V C K : Type}

theorem infoOf_ends (kind : Kind) (s : Store E V C K) :
    Ends (infoOf kind) s (fun info r => r = s ∧ s.schema.find? kind = some info) (· = s) := by
  unfold infoOf
  refine .read ?_
  cases h : s.schema.get kind with
  | ok info => exact .answer ⟨rfl, Schema.find?_eq_some_of_get h⟩
  | error e => exact .failure rfl

/-- A cell takes a status, and what follows from that happens; a status that says nothing new is
left. -/
def Takes [DecidableEq V] (s : Store E V C K) (c : Cell E V K) (new : Status E V)
    (r : Store E V C K) : Prop :=
  if (c.replace new).1.changed then
    s.Becomes (s.table.install c new) (s.table.installTasks s.phase c new) r
  else s.Becomes s.table [] r

theorem takes_final [DecidableEq V] {s r : Store E V C K} {c : Cell E V K} {ep : Final E V} :
    s.Takes c (.final ep) r ↔
      s.Becomes (s.table.install c (.final ep)) (s.table.installTasks s.phase c (.final ep)) r := by
  rw [Takes, if_pos (c.changed_final ep)]

theorem writeCell_self {s : Store E V C K} {c : Cell E V K} (hc : s.table.cell? c.id = some c) :
    s.Becomes s.table [] (s.writeCell c) := by
  have h := writeCell_becomes (f := fun c => c) hc rfl
  rwa [CellTable.modify_eq_self fun _ _ => rfl] at h

theorem carryOut_ends (change : Except Error (Update E V K × Cell E V K)) (s : Store E V C K) :
    Ends (carryOut change) s (fun u r => ∃ c, change = .ok (u, c) ∧ r = s.writeCell c) (· = s) := by
  unfold carryOut
  split
  · next u c => exact .write_then (.answer ⟨c, rfl, rfl⟩)
  · exact .failure rfl

theorem nextEpoch_ends (s : Store E V C K) :
    Ends nextEpoch s (fun n r => n = s.epoch ∧ s.Becomes s.table [] r) (fun _ => False) :=
  ⟨rfl, by constructor <;> simp⟩

theorem freshStamp_ends (s : Store E V C K) :
    Ends freshStamp s (fun _ r => s.Becomes s.table [] r) (fun _ => False) := by
  change s.Becomes s.table [] _
  constructor <;> simp

theorem modifyCell_becomes (s : Store E V C K) (id : Nat) (f : Cell E V K → Cell E V K) :
    s.Becomes (s.table.modify id f) [] (s.modifyCell id f) := by
  constructor <;> simp [modifyCell]

theorem Registered.face? [DecidableEq V] {s r : Store E V C K} {d : Depender} {epoch : Nat}
    {obs : List (Nat × Status E V)} (h : s.Registered d epoch obs r) (i : Nat) :
    r.table.face? i = s.table.face? i := by
  cases h with
  | asleep h hr => exact hr.table ▸ CellTable.face?_watch _ _ _ _
  | stopped pre post p c hobs hpre hc hp hr =>
    split at hr
    · exact hr.table ▸ (CellTable.face?_detach _ _ _ _).trans (CellTable.face?_watch _ _ _ _)
    · exact hr.table ▸ CellTable.face?_watch _ _ _ _

variable [DecidableEq E]

/-- The table is sound, and the kind of every cell is registered. -/
structure Sound (s : Store E V C K) : Prop where
  table : s.table.Sound
  registered : ∀ {i c}, s.table.cell? i = some c → (s.schema.find? c.key.kind).isSome

theorem Sound.congr {s r : Store E V C K} (h : s.Sound) (ht : r.table = s.table)
    (hk : r.schema = s.schema) : r.Sound :=
  ⟨ht ▸ h.table, fun {_ _} hc => hk ▸ h.registered (ht ▸ hc)⟩

/-- Some cells were made, and nothing else happened to cells and tasks. -/
structure Grows (s r : Store E V C K) : Prop where
  becomes : s.Becomes r.table [] r
  grown : s.table.Grown r.table
  sound : r.Sound

theorem Grows.refl {s : Store E V C K} (h : s.Sound) : s.Grows s := ⟨.refl s, .refl _, h⟩

theorem Grows.trans {s r q : Store E V C K} (h : s.Grows r) (h' : r.Grows q) : s.Grows q :=
  ⟨h.becomes.trans h'.becomes, h.grown.trans h'.grown, h'.sound⟩

theorem Sound.grow {s r : Store E V C K} (hs : s.Sound) {key : Key E}
    (hk : (s.schema.find? key.kind).isSome) (hnew : s.table.find? key = none)
    (hroom : s.table.size < collaboratorBit) (ht : r.table = s.table.grow key)
    (hschema : r.schema = s.schema) : r.Sound := by
  refine ⟨ht ▸ hs.table.grow hnew hroom, ?_⟩
  intro i c hc
  rw [ht, CellTable.cell?_grow] at hc
  rw [hschema]
  by_cases hi : i = s.table.size
  · obtain rfl : _ = c := by simpa [hi] using hc
    exact hk
  · exact hs.registered (by simpa [hi] using hc)

theorem getOrCreate_effect (key : Key E) (s : Store E V C K) :
    Ends (getOrCreate key) s
      (fun p r => s.table.find? key = some p.1 ∧ p.2 = false ∧ r = s ∨
        s.table.find? key = none ∧ s.table.size < collaboratorBit ∧
          p = (.create s.table.size key, true) ∧ r = { s with table := s.table.grow key })
      (· = s) := by
  unfold getOrCreate
  refine .read ?_
  rcases s.table.getOrCreate_cases key with ⟨c, hf, hget⟩ | ⟨hf, hroom, hget⟩ | ⟨e, hget⟩
  · rw [hget]
    exact .write_then (.answer (.inl ⟨hf, rfl, rfl⟩))
  · rw [hget]
    exact .write_then (.answer (.inr ⟨hf, hroom, rfl, rfl⟩))
  · rw [hget]
    exact .failure rfl

theorem getOrCreate_ends {s : Store E V C K} (hs : s.Sound) {key : Key E}
    (hk : (s.schema.find? key.kind).isSome) :
    Ends (getOrCreate key) s
      (fun p r => s.Grows r ∧ r.table.cell? p.1.id = some p.1 ∧ p.1.key.same key = true ∧
        (p.2 = true → s.table.find? key = none ∧ p.1 = .create s.table.size key))
      (· = s) := by
  refine (getOrCreate_effect key s).mono ?_ fun _ h => h
  rintro ⟨c, created⟩ r (⟨hf, rfl, rfl⟩ | ⟨hf, hroom, hp, rfl⟩)
  · obtain ⟨hc, hkey⟩ := CellTable.find?_eq_some hs.table hf
    exact ⟨.refl hs, hc, hkey, by simp⟩
  · obtain ⟨rfl, rfl⟩ := Prod.mk.inj hp
    have hnew : (s.table.grow key).cell? s.table.size = some (.create s.table.size key) := by
      rw [CellTable.cell?_grow, if_pos rfl]
    refine ⟨⟨?_, .grow _ _, hs.grow hk hf hroom rfl rfl⟩, hnew, ?_, fun _ => ⟨hf, rfl⟩⟩
    · constructor <;> simp
    · simp [Cell.create]

theorem cellOf_ends {s : Store E V C K} (hs : s.Sound) (key : Key E) :
    Ends (cellOf key) s
      (fun c r => s.Grows r ∧ r.table.cell? c.id = some c ∧ c.key.same key = true) (· = s) := by
  refine .bind (infoOf_ends key.kind s) ?_
  rintro info r ⟨rfl, hinfo⟩
  refine .bind (getOrCreate_ends hs (by simp [hinfo])) ?_
  rintro ⟨c, created⟩ r ⟨hgrows, hc, hkey, -⟩
  exact .answer ⟨hgrows, hc, hkey⟩

def Foreign (own : Option (Key E)) (dependees : List (Status E V)) : Prop :=
  ∀ d ∈ dependees, own.any (·.same d.key) = false

theorem foreign_of_checkDependees [ToString E] [ToString V] {depender : String}
    {own : Option (Key E)} {dependees : List (Status E V)}
    (h : checkDependees depender own dependees = .ok ()) : Foreign own dependees := by
  induction dependees with
  | nil => simp [Foreign]
  | cons d ds ih =>
    unfold checkDependees at h
    split at h
    · cases h
    · next hown =>
      split at h
      · cases h
      · exact List.forall_mem_cons.2 ⟨by simpa using hown, ih h⟩

theorem checkSuspension_ends [ToString E] [ToString V] (depender : String) (own : Option (Key E))
    (dependees : List (Status E V)) (s : Store E V C K) :
    Ends (checkSuspension depender own dependees) s
      (fun _ r => r = s ∧ dependees ≠ [] ∧ (s.config.debug = true → Foreign own dependees))
      (· = s) := by
  unfold checkSuspension
  cases dependees with
  | nil => exact .bind (.failure rfl) (fun _ _ h => h)
  | cons d ds =>
    refine .read ?_
    split
    · split
      · next h => exact .answer ⟨rfl, by simp, fun _ => foreign_of_checkDependees h⟩
      · exact .failure rfl
    · next h => exact .answer ⟨rfl, by simp, fun hdebug => absurd hdebug h⟩

theorem observe_ends {s : Store E V C K} (hs : s.Sound) (dependees : List (Status E V)) :
    Ends (observe dependees) s
      (fun obs r => s.Grows r ∧ obs.map (·.2) = dependees ∧
        ∀ p ∈ obs, ∃ c, r.table.cell? p.1 = some c ∧ c.key.same p.2.key = true)
      (s.Grows ·) := by
  induction dependees generalizing s with
  | nil => exact .answer ⟨.refl hs, rfl, by simp⟩
  | cons d ds ih =>
    refine .bind ((cellOf_ends hs d.key).mono (fun _ _ h => h) ?_) ?_
    · rintro r rfl
      exact .refl hs
    · rintro c q ⟨hgrows, hc, hkey⟩
      refine .bind ((ih hgrows.sound).mono (fun _ _ h => h) (fun _ h => hgrows.trans h)) ?_
      rintro obs r ⟨hgrows', hobs, hcells⟩
      refine .answer ⟨hgrows.trans hgrows', by simp [hobs], ?_⟩
      intro p hp
      rcases List.mem_cons.1 hp with rfl | hp
      · exact ⟨c, hgrows'.grown.cell? hc, hkey⟩
      · exact hcells p hp

theorem Sound.of_becomes {s r : Store E V C K} {t : CellTable E V K}
    {ts : List (Task E C K)} (hs : s.Sound) (h : s.Becomes t ts r) (ht : t.Sound)
    (hk : ∀ i, t.key? i = s.table.key? i) : r.Sound := by
  refine ⟨h.table ▸ ht, ?_⟩
  intro i c hc
  rw [h.table] at hc
  have hkey := hk i
  rw [CellTable.key?, hc, Option.map_some, eq_comm] at hkey
  obtain ⟨e, he, hec⟩ := Option.map_eq_some_iff.1 hkey
  rw [h.schema, ← hec]
  exact hs.registered he

/-- Cells and tasks may have changed, and the store is sound. -/
structure Leaves (s r : Store E V C K) : Prop where
  becomes : ∃ t ts, s.Becomes t ts r
  sound : r.Sound

theorem Grows.leaves {s r : Store E V C K} (h : s.Grows r) : s.Leaves r :=
  ⟨⟨_, _, h.becomes⟩, h.sound⟩

theorem Leaves.trans {s q r : Store E V C K} (h : s.Leaves q) (h' : q.Leaves r) : s.Leaves r := by
  obtain ⟨⟨t, ts, hq⟩, -⟩ := h
  obtain ⟨⟨u, us, hr⟩, hsound⟩ := h'
  exact ⟨⟨_, _, hq.trans hr⟩, hsound⟩

/-- Moreover no cell took another status. -/
structure Retains (s r : Store E V C K) : Prop extends s.Leaves r where
  face : ∀ {i f}, s.table.face? i = some f → r.table.face? i = some f

theorem Grows.retains {s r : Store E V C K} (h : s.Grows r) : s.Retains r := by
  refine ⟨h.leaves, ?_⟩
  intro i f hf
  obtain ⟨c, hc, rfl⟩ := CellTable.cell?_of_face? hf
  exact CellTable.face?_of_cell? (h.grown.cell? hc)

theorem Retains.trans {s q r : Store E V C K} (h : s.Retains q) (h' : q.Retains r) : s.Retains r :=
  ⟨h.toLeaves.trans h'.toLeaves, fun hf => h'.face (h.face hf)⟩

theorem watch_retains {s r : Store E V C K} {d : Depender}
    {obs : List (Nat × Status E V)} (hs : s.Sound) (h : s.Becomes (s.table.watch d obs) [] r) :
    s.Retains r := by
  have hface : ∀ i, r.table.face? i = s.table.face? i :=
    fun i => h.table ▸ CellTable.face?_watch _ _ _ _
  exact ⟨⟨⟨_, _, h⟩, hs.of_becomes h (hs.table.watch d obs) fun _ =>
    CellTable.key?_of_face? (CellTable.face?_watch _ _ _ _)⟩, fun hf => (hface _).trans hf⟩

/-- What a computation observed, together with the cells it observed it of. -/
structure Observed (s : Store E V C K) (dependees : List (Status E V))
    (obs : List (Nat × Status E V)) : Prop where
  values : obs.map (·.2) = dependees
  nonempty : obs ≠ []
  cells : ∀ p ∈ obs, ∃ c, s.table.cell? p.1 = some c ∧ c.key.same p.2.key = true

theorem Observed.lt {s : Store E V C K} {dependees : List (Status E V)}
    {obs : List (Nat × Status E V)} (h : s.Observed dependees obs) :
    ∀ p ∈ obs, p.1 < s.table.size := by
  intro p hp
  obtain ⟨c, hc, -⟩ := h.cells p hp
  exact CellTable.lt_size_of_cell? hc

theorem Observed.ids_lt {s : Store E V C K} {dependees : List (Status E V)} {n : Nat} {k : K}
    {obs : List (Nat × Status E V)} (h : s.Observed dependees obs) :
    ∀ i ∈ (⟨n, k, obs⟩ : Suspension E V K).ids, i < s.table.size := by
  intro i hi
  obtain ⟨p, hp, rfl⟩ := List.mem_map.1 hi
  exact h.lt p hp

theorem Ends.observing [ToString E] [ToString V] {α : Type} {s : Store E V C K} (hs : s.Sound)
    (depender : String) (own : Option (Key E)) {dependees : List (Status E V)}
    {f : List (Nat × Status E V) → Op E V C K α} {ok : α → Store E V C K → Prop}
    {bad : Store E V C K → Prop} (hbad : ∀ r, s.Grows r → bad r)
    (hf : ∀ obs q, s.Grows q → q.Observed dependees obs →
      (s.config.debug = true → Foreign own dependees) →
      Ends (f obs) q ok bad) :
    Ends (checkSuspension depender own dependees >>= fun _ => observe dependees >>= f)
      s ok bad := by
  refine .bind ((checkSuspension_ends _ _ dependees s).mono (fun _ _ h => h) ?_) ?_
  · rintro r rfl
    exact hbad _ (.refl hs)
  rintro _ r ⟨rfl, hne, hforeign⟩
  refine .bind ((observe_ends hs dependees).mono (fun _ _ h => h) hbad) ?_
  rintro obs q ⟨hgrows, hobs, hcells⟩
  refine hf obs q hgrows ⟨hobs, ?_, hcells⟩ hforeign
  rintro rfl
  exact hne hobs.symm

theorem addCollaborator_ends {s : Store E V C K} (hs : s.Sound) {susp : Suspension E V K}
    (hne : susp.dependees ≠ []) (hlt : ∀ i ∈ susp.ids, i < s.table.size) :
    Ends (addCollaborator susp) s
      (fun id r => id = s.table.nextCollaborator ∧ s.Becomes (s.table.enlist susp) [] r ∧ r.Sound)
      (fun r => s.Retains r ∧ s.Becomes r.table [] r ∧ r.table.cells = s.table.cells) := by
  refine .read ?_
  unfold CellTable.addCollaborator
  by_cases hroom : s.table.nextCollaborator < collaboratorBit
  · simp only [hroom, if_true]
    have hr : s.Becomes (s.table.enlist susp) [] { s with table := s.table.enlist susp } := by
      constructor <;> simp
    exact .write_then (.answer ⟨rfl, hr,
      hs.of_becomes hr (hs.table.enlist hroom hne hlt) fun _ => rfl⟩)
  · simp only [hroom, if_false]
    have hr : s.Becomes s.table.skip [] { s with table := s.table.skip } := by
      constructor <;> simp
    exact .write_then (.failure
      ⟨⟨⟨⟨_, _, hr⟩, hs.of_becomes hr hs.table.skip fun _ => rfl⟩, fun hf => hf⟩, hr, rfl⟩)

variable [DecidableEq V]

theorem takes_afterUpdate {s q : Store E V C K} (hs : s.table.Sound) {c cell : Cell E V K}
    {new : Status E V} (hc : s.table.cell? c.id = some c) (hfit : c.Fits new) (hid : cell.id = c.id)
    (hkey : cell.key = c.key)
    (hq : (s.writeCell (c.replace new).2).Becomes (s.writeCell (c.replace new).2).table [] q) :
    s.Takes c new (q.afterUpdate cell (c.replace new).1) := by
  unfold Takes
  split
  · next hch =>
    have hwrite := writeCell_becomes (f := fun _ => (c.replace new).2) hc (c.id_replace new)
    have hsame := hwrite.trans hq
    rw [hwrite.table] at hsame
    have htable := CellTable.replace_eq_settleIn hc hch
    rw [← hsame.table, ← hid] at htable
    have hafter := afterUpdate_becomes cell hch htable (hid ▸ hs.settleIn hc hfit)
    have hold : (c.replace new).1.old = c.status ∧ (c.replace new).1.dependers = c.dependers := by
      rw [Cell.replace_of_changed hch]
      exact ⟨rfl, rfl⟩
    have hfirst : ∀ t : CellTable E V K, firstTasks s.phase t cell = firstTasks s.phase t c := by
      intro t
      simp only [firstTasks, hid, hkey]
    rw [hold.1, hold.2, hsame.phase, hfirst, hid] at hafter
    exact hsame.trans hafter
  · next hch =>
    obtain ⟨hr, -, -⟩ := Cell.replace_of_unchanged (by simpa using hch)
    rw [hr] at hq ⊢
    have hsame := (writeCell_self hc).then_quiet hq
    simpa [afterUpdate, Update.unchanged] using hsame

theorem fallAsleep_becomes {s q : Store E V C K} (hs : s.table.Sound) {c : Cell E V K}
    {ep : Interim E V} {susp : Suspension E V K} (hc : s.table.cell? c.id = some c)
    (hfit : c.Fits (.interim ep)) (hne : susp.dependees ≠ [])
    (hlt : ∀ j ∈ susp.ids, j < s.table.size) (hq : (s.writeCell (c.replace (.interim ep)).2).Becomes
      (s.writeCell (c.replace (.interim ep)).2).table [] q) :
    s.Becomes (s.table.fallAsleep c ep susp) (s.table.fallAsleepTasks s.phase c ep susp)
      ((q.modifyCell c.id (·.suspend susp)).afterUpdate c (c.replace (.interim ep)).1) := by
  have hwrite := writeCell_becomes (f := fun _ => (c.replace (.interim ep)).2) hc (c.id_replace _)
  have hsleep := (hwrite.then_quiet hq).trans (modifyCell_becomes q c.id (·.suspend susp))
  rw [(hwrite.then_quiet hq).table] at hsleep
  unfold CellTable.fallAsleep CellTable.fallAsleepTasks
  by_cases hch : (c.replace (.interim ep)).1.changed
  · rw [CellTable.put_interim hc hch] at hsleep
    rw [if_pos hch, if_pos hch]
    have hsound := hs.put_suspend hc hfit hne hlt
    have hafter := afterUpdate_becomes c hch (s := q.modifyCell c.id (·.suspend susp))
      (t := (s.table.put c.id (.interim ep)).modify c.id (·.suspend susp))
      (by rw [Cell.replace_of_changed hch]; exact hsleep.table) hsound
    have hold : (c.replace (.interim ep)).1.old = c.status ∧
        (c.replace (.interim ep)).1.dependers = c.dependers := by
      rw [Cell.replace_of_changed hch]
      exact ⟨rfl, rfl⟩
    rw [hold.1, hold.2, hsleep.phase] at hafter
    exact hsleep.trans hafter
  · obtain ⟨hr, -, -⟩ := Cell.replace_of_unchanged (by simpa using hch)
    rw [if_neg hch, if_neg hch]
    have hself : (s.table.modify c.id fun _ => c) = s.table :=
      CellTable.modify_eq_self fun e he => Option.some.inj (hc.symm.trans he)
    simp only [hr] at hsleep ⊢
    rw [hself] at hsleep
    simpa [afterUpdate, Update.unchanged] using hsleep

theorem Takes.leaves {s r : Store E V C K} {c : Cell E V K} {new : Status E V} (h : s.Takes c new r)
    (hs : s.Sound) (hc : s.table.cell? c.id = some c) (hfit : c.Fits new) : s.Leaves r := by
  unfold Takes at h
  split at h
  · exact ⟨⟨_, _, h⟩, hs.of_becomes h (hs.table.install hc hfit) (CellTable.key?_install _ _ _)⟩
  · exact ⟨⟨_, _, h⟩, hs.of_becomes h hs.table fun _ => rfl⟩

theorem Registered.retains {s r : Store E V C K} {d : Depender} {epoch : Nat}
    {obs : List (Nat × Status E V)} (h : s.Registered d epoch obs r) (hs : s.Sound) :
    s.Retains r := by
  have hface := h.face?
  have hkey : ∀ i, r.table.key? i = s.table.key? i := fun i => CellTable.key?_of_face? (hface i)
  cases h with
  | asleep h hr => exact watch_retains hs hr
  | stopped pre post p c hobs hpre hc hp hr =>
    split at hr
    · have hsound := hs.of_becomes hr ((hs.table.watch d pre).detach d _) (hr.table ▸ hkey)
      exact ⟨⟨⟨_, _, hr⟩, hsound⟩, fun hf => (hface _).trans hf⟩
    · exact watch_retains hs hr

/-- A collaborator that was cut off: cells were made for what it observed, and some of them may tell
it already. -/
structure CutOff (s r : Store E V C K) : Prop extends s.Retains r where
  watched : ∃ q id pre, s.Grows q ∧ (∀ p ∈ pre, q.table.IsCurrent p) ∧
    r.table.cells = (q.table.watch (.collaborator id) pre).cells
  silent : s.Becomes r.table [] r

theorem Grows.cutOff {s r : Store E V C K} (h : s.Grows r) : s.CutOff r :=
  ⟨h.retains, ⟨r, 0, [], h, by simp, rfl⟩, h.becomes⟩

variable [ToString E]

theorem collaborate_ends [ToString V] {s : Store E V C K} (hs : s.Sound)
    (dependees : List (Status E V)) (k : K) :
    Ends (collaborate dependees k) s
      (fun _ r => ∃ q n obs q', s.Grows q ∧ q.Observed dependees obs ∧
        q.Becomes (q.table.enlist ⟨n, k, obs⟩) [] q' ∧ q'.Sound ∧
        q'.Registered (.collaborator q.table.nextCollaborator) n obs r)
      (s.CutOff ·) := by
  refine .observing hs "collaborative continuation" none (fun _ h => h.cutOff) ?_
  intro obs q hgrows hobs _
  refine .bind ((nextEpoch_ends _).mono (fun _ _ h => h) fun _ h => h.elim) ?_
  rintro n q₁ ⟨-, hquiet⟩
  have hsound₁ : q₁.Sound := hgrows.sound.of_becomes hquiet hgrows.sound.table fun _ => rfl
  have hsame : q.Retains q₁ := ⟨⟨⟨_, _, hquiet⟩, hsound₁⟩, fun hf => hquiet.table ▸ hf⟩
  refine .bind ((addCollaborator_ends hsound₁ hobs.nonempty (hquiet.table ▸ hobs.ids_lt)).mono
    (fun _ _ h => h) ?_) ?_
  · rintro r ⟨hretains, hsilent, hcells⟩
    exact ⟨(hgrows.retains.trans hsame).trans hretains,
      ⟨q, 0, [], hgrows, by simp, hcells.trans (hquiet.table ▸ rfl)⟩,
        (hgrows.becomes.then_quiet hquiet).trans hsilent⟩
  rintro id q₂ ⟨rfl, hadd, hsound₂⟩
  rw [hquiet.table] at hadd ⊢
  have hboth := hquiet.after_quiet hadd
  refine (registerDependers_ends hsound₂.table _ n ?_).mono ?_ ?_
  · intro p hp
    rw [hboth.table]
    exact hobs.lt p hp
  · intro _ r hr
    exact ⟨q, n, obs, q₂, hgrows, hobs, hboth, hsound₂, hr⟩
  · rintro r ⟨pre, hpre, hr⟩
    have hadded : q.Retains q₂ := ⟨⟨⟨_, _, hboth⟩, hsound₂⟩, fun hf => hboth.table ▸ hf⟩
    refine ⟨(hgrows.retains.trans hadded).trans (watch_retains hsound₂ hr),
      ⟨q, q.table.nextCollaborator, pre, hgrows, fun p hp => ?_, ?_⟩, ?_⟩
    · have hcur := hpre p hp
      rw [hboth.table] at hcur
      exact hcur
    · rw [hr.table, hboth.table]
      exact CellTable.cells_watch_congr (u := q.table.enlist _) (t := q.table) rfl _ pre
    · rw [hr.table]
      exact (hgrows.becomes.trans hboth).trans hr

variable [Property V]

/-- What a store that validates made sure of before a cell takes a status. -/
def Checks (s : Store E V C K) (c : Cell E V K) (new : Status E V) : Prop :=
  s.config.debug = true → Cell.checkRefinement c.status new = .ok ()

/-- An interim result, up to where it is registered with its dependees: cells are made for what it
mentions, and its own cell takes the bounds and falls asleep. -/
structure FallsAsleep (s : Store E V C K) (ep : Interim E V) (dependees : List (Status E V)) (k : K)
    (q : Store E V C K) (c : Cell E V K) (n : Nat) (obs : List (Nat × Status E V))
    (r : Store E V C K) : Prop where
  grows : s.Grows q
  cell : q.table.cell? c.id = some c
  key : c.key.same ep.key = true
  fits : c.Fits (.interim ep)
  checks : q.Checks c (.interim ep)
  observed : q.Observed dependees obs
  foreign : s.config.debug = true → Foreign (some ep.key) dependees
  becomes : q.Becomes (q.table.fallAsleep c ep ⟨n, k, obs⟩)
    (q.table.fallAsleepTasks q.phase c ep ⟨n, k, obs⟩) r
  sound : r.Sound

theorem FallsAsleep.leaves {s q r : Store E V C K} {ep : Interim E V}
    {dependees : List (Status E V)} {k : K} {c : Cell E V K} {n : Nat}
    {obs : List (Nat × Status E V)} (h : s.FallsAsleep ep dependees k q c n obs r) :
    s.Leaves r :=
  h.grows.leaves.trans ⟨⟨_, _, h.becomes⟩, h.sound⟩

variable [ToString V]

theorem installFinal_ends {s : Store E V C K} (hs : s.Sound) (ep : Final E V) :
    Ends (installFinal ep) s
      (fun _ r => ∃ q c, s.Grows q ∧ q.table.cell? c.id = some c ∧ c.key.same ep.key = true ∧
        c.Fits (.final ep) ∧ q.Checks c (.final ep) ∧ q.Takes c (.final ep) r)
      (s.Grows ·) := by
  refine .bind ((cellOf_ends hs ep.key).mono (fun _ _ h => h) ?_) ?_
  · rintro r rfl
    exact .refl hs
  · rintro c q ⟨hgrows, hc, hkey⟩
    refine .read (.bind ((carryOut_ends _ q).mono (fun _ _ h => h) ?_) ?_)
    · rintro r rfl
      exact hgrows
    · rintro u r ⟨c', hup, rfl⟩
      obtain ⟨hfit, hcheck, hr⟩ := Cell.update_eq_ok hup
      obtain ⟨rfl, rfl⟩ := Prod.mk.inj hr
      exact .write ⟨q, c, hgrows, hc, hkey, hfit, hcheck,
        takes_afterUpdate hgrows.sound.table hc hfit rfl rfl (.refl _)⟩

theorem contributeTo_ends {q : Store E V C K} (hq : q.Sound) {c : Cell E V K}
    (hc : q.table.cell? c.id = some c) (p : Contribution E V) :
    Ends (contributeTo c p) q
      (fun _ r => (∀ ep, p.update c.status ≠ .ok (some ep)) ∧ q.Becomes q.table [] r ∨
        ∃ ep, p.update c.status = .ok (some ep) ∧ c.Fits (.interim ep) ∧ q.Checks c (.interim ep) ∧
          q.Takes c (.interim ep) r)
      (· = q) := by
  unfold contributeTo
  cases hp : p.applied c.status with
  | error crash =>
    refine .answer (.inl ⟨fun ep hep => ?_, .refl q⟩)
    unfold Contribution.applied at hp
    split at hp
    · cases hp
    · cases hp.symm.trans hep
  | ok new =>
    refine .read (.bind (carryOut_ends _ q) ?_)
    rintro u r ⟨c', hup, rfl⟩
    refine .write_then (.answer ?_)
    unfold Cell.updateWith at hup
    split at hup
    · cases hup
    next hopen =>
    rw [Contribution.applied, if_neg hopen] at hp
    cases new with
    | none =>
      left
      obtain ⟨rfl, rfl⟩ := Prod.mk.inj (Except.ok.inj hup)
      exact ⟨by simp [hp], by simpa [afterUpdate, Update.unchanged] using writeCell_self hc⟩
    | some ep =>
      right
      obtain ⟨hfit, hcheck, hr⟩ := Cell.update_eq_ok hup
      obtain ⟨rfl, rfl⟩ := Prod.mk.inj hr
      exact ⟨ep, hp, hfit, hcheck, takes_afterUpdate hq.table hc hfit rfl rfl (.refl _)⟩

theorem contribute_ends {s : Store E V C K} (hs : s.Sound) (p : Contribution E V) :
    Ends (contribute p) s
      (fun _ r => ∃ q c, s.Grows q ∧ q.table.cell? c.id = some c ∧ c.key.same p.key = true ∧
        (q.Becomes q.table [] r ∨
          ∃ ep, c.Fits (.interim ep) ∧ q.Checks c (.interim ep) ∧ q.Takes c (.interim ep) r))
      (s.Grows ·) := by
  refine .read ?_
  split
  · exact .failure (.refl hs)
  refine .bind ((cellOf_ends hs p.key).mono (fun _ _ h => h) ?_) ?_
  · rintro r rfl
    exact .refl hs
  · rintro c q ⟨hgrows, hc, hkey⟩
    refine (contributeTo_ends hgrows.sound hc p).mono ?_ fun _ h => h ▸ hgrows
    rintro _ r (⟨-, hr⟩ | ⟨ep, -, htaken⟩)
    · exact ⟨q, c, hgrows, hc, hkey, .inl hr⟩
    · exact ⟨q, c, hgrows, hc, hkey, .inr ⟨ep, htaken⟩⟩

/-- An interim result. It may fail before its cell falls asleep, or with some of its dependees
already watched. -/
theorem suspend_ends {s : Store E V C K} (hs : s.Sound) (ep : Interim E V)
    (dependees : List (Status E V)) (k : K) :
    Ends (suspend ep dependees k) s
      (fun _ r => ∃ q c n obs q', s.FallsAsleep ep dependees k q c n obs q' ∧
        q'.Registered (.cell c.id) n obs r)
      (fun r => s.Grows r ∨ ∃ q c n obs q' pre, s.FallsAsleep ep dependees k q c n obs q' ∧
        (∀ p ∈ pre, q'.table.IsCurrent p) ∧ q'.Becomes (q'.table.watch (.cell c.id) pre) [] r) := by
  refine .observing hs (toString ep.key) (some ep.key) (fun _ h => .inl h) ?_
  intro obs q₁ hgrows₁ hobs₁ hforeign
  refine .bind ((cellOf_ends hgrows₁.sound ep.key).mono (fun _ _ h => h) ?_) ?_
  · rintro r rfl
    exact .inl hgrows₁
  rintro c q ⟨hgrows₂, hc, hkey⟩
  have hgrows := hgrows₁.trans hgrows₂
  have hobs : q.Observed dependees obs := by
    refine ⟨hobs₁.values, hobs₁.nonempty, fun p hp => ?_⟩
    obtain ⟨e, he, hek⟩ := hobs₁.cells p hp
    exact ⟨e, hgrows₂.grown.cell? he, hek⟩
  refine .read (.bind ((carryOut_ends _ q).mono (fun _ _ h => h) ?_) ?_)
  · rintro r rfl
    exact .inl hgrows
  rintro u _ ⟨c', hup, rfl⟩
  obtain ⟨hfit, hcheck, hr⟩ := Cell.update_eq_ok hup
  obtain ⟨rfl, rfl⟩ := Prod.mk.inj hr
  refine .bind ((nextEpoch_ends _).mono (fun _ _ h => h) fun _ h => h.elim) ?_
  rintro n q₂ ⟨-, hquiet⟩
  have hsleep :=
    fallAsleep_becomes hgrows.sound.table hc hfit hobs.nonempty
      (hobs.ids_lt (n := n) (k := k)) hquiet
  have hsound : Sound _ := hgrows.sound.of_becomes hsleep
    (hgrows.sound.table.fallAsleep hc hfit hobs.nonempty hobs.ids_lt)
    (CellTable.key?_fallAsleep _ _ _ _)
  refine .write_then
    (.write_then ((registerDependers_ends hsound.table (.cell c.id) n ?_).mono ?_ ?_))
  · intro p hp
    rw [hsleep.table, CellTable.size_eq_of_key? (CellTable.key?_fallAsleep _ _ _ _)]
    exact hobs.lt p hp
  · intro _ r hr
    exact ⟨q, c, n, obs, _, ⟨hgrows, hc, hkey, hfit, hcheck, hobs, hforeign, hsleep, hsound⟩, hr⟩
  · rintro r ⟨pre, hpre, hr⟩
    exact .inr ⟨q, c, n, obs, _, pre,
      ⟨hgrows, hc, hkey, hfit, hcheck, hobs, hforeign, hsleep, hsound⟩, hpre, hr⟩

end Store
end Blackboard
