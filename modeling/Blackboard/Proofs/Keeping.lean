import Blackboard.Proofs.Outcome
import Blackboard.Proofs.Sound
import Blackboard.Store.Query
import Blackboard.Store.Quiescence
import Blackboard.Store.Registration

/-! Steps that nobody notices. Much of what operations do is silent: cells are made, suspended and
linked, but no status changes, and nothing is told, counted or queued. Whatever silent steps keep,
and the resuming of sleepers and the scheduling of computations with them, is kept by every
operation that puts no status in place; and what is kept, too, when statuses are put in place, told
and counted is kept by every step of a round. -/
namespace Blackboard

def Event.scheduled? {E V : Type} : Event E V → Option (E × String)
  | .schedule e origin => some (e, origin)
  | _ => none

namespace CellTable
variable {E V K : Type} {t u : CellTable E V K}

theorem face?_modify {f : Cell E V K → Cell E V K} (hf : ∀ c, (f c).face = c.face)
    (t : CellTable E V K) (i j : Nat) : (t.modify i f).face? j = t.face? j := by
  rw [face?, cell?_modify, face?]
  by_cases h : i = j
  · cases t.cell? j <;> simp [h, hf]
  · simp [h]

theorem face?_overwrite {c c' : Cell E V K} (hc : t.cell? c.id = some c)
    (hface : c'.face = c.face) (j : Nat) : (t.modify c'.id fun _ => c').face? j = t.face? j := by
  have hid : c'.id = c.id := congrArg Prod.fst hface
  rw [face?, cell?_modify, face?, hid]
  by_cases h : c.id = j
  · subst h
    simp [hc, hface]
  · simp [h]

theorem face?_unlink (t : CellTable E V K) (d : Depender) (susp : Suspension E V K) (i : Nat) :
    (t.unlink d susp).face? i = t.face? i := by
  rw [face?, cell?_unlink, face?]
  cases t.cell? i with
  | none => rfl
  | some c => by_cases h : i ∈ susp.ids <;> simp [h, Cell.removeDepender, Cell.face]

theorem face?_takeSuspensionIf (t : CellTable E V K) (d : Depender)
    (p : Suspension E V K → Bool) (i : Nat) : (t.takeSuspensionIf d p).2.face? i = t.face? i := by
  cases d with
  | cell id =>
    refine face?_modify (fun c => ?_) t id i
    unfold Cell.takeSuspensionIf
    split
    · split <;> rfl
    · rfl
  | collaborator id => rfl

theorem cells_addCollaborator (t : CellTable E V K) (susp : Suspension E V K) :
    (t.addCollaborator susp).2.cells = t.cells := by
  unfold addCollaborator
  dsimp only
  split <;> rfl

variable [DecidableEq E]

/-- Numbers and keys tell cells apart, and a status speaks of its own cell. -/
structure Labelled (t : CellTable E V K) : Prop where
  id_eq : ∀ {i c}, t.cell? i = some c → c.id = i
  key_inj : ∀ {i j c e}, t.cell? i = some c → t.cell? j = some e → c.key.same e.key = true → i = j
  own_key : ∀ {i c}, t.cell? i = some c → c.status.key.same c.key = true

theorem Sound.labelled (h : t.Sound) : t.Labelled := ⟨h.id_eq, h.key_inj, h.own_key⟩

/-- The cells show what they showed, and nothing is known yet about new ones. -/
structure Adds (t u : CellTable E V K) : Prop where
  labelled : u.Labelled
  kept : ∀ {i face}, t.face? i = some face → u.face? i = some face
  fresh : ∀ {i c}, t.cell? i = none → u.cell? i = some c → c.status = .unknown c.key

theorem Adds.of_faces (h : ∀ i, u.face? i = t.face? i) (ht : t.Labelled) : t.Adds u where
  labelled := by
    have hold {i : Nat} {c : Cell E V K} (hc : u.cell? i = some c) :
        ∃ e, t.cell? i = some e ∧ e.id = c.id ∧ e.key = c.key ∧ e.status = c.status :=
      cell?_of_shown ((h i).symm.trans (face?_of_cell? hc))
    refine ⟨?_, ?_, ?_⟩
    · intro i c hc
      obtain ⟨e, he, hid, -⟩ := hold hc
      exact hid ▸ ht.id_eq he
    · intro i j c e hc he hsame
      obtain ⟨c', hc', -, hkey, -⟩ := hold hc
      obtain ⟨e', he', -, hkey', -⟩ := hold he
      exact ht.key_inj hc' he' (hkey ▸ hkey' ▸ hsame)
    · intro i c hc
      obtain ⟨e, he, -, hkey, hstatus⟩ := hold hc
      exact hkey ▸ hstatus ▸ ht.own_key he
  kept {i _} hi := (h i).trans hi
  fresh {i c} hnone hc := by
    have hface := (h i).symm.trans (face?_of_cell? hc)
    simp [face?, hnone] at hface

theorem Adds.grow (ht : t.Labelled) {key : Key E} (hnew : t.find? key = none) :
    t.Adds (t.grow key) := by
  have hcell {i : Nat} {c : Cell E V K} (hi : (t.grow key).cell? i = some c) :
      t.cell? i = some c ∨ i = t.size ∧ c = .create t.size key := by
    rw [cell?_grow] at hi
    by_cases hs : i = t.size
    · exact .inr ⟨hs, by simpa [hs] using hi.symm⟩
    · exact .inl (by simpa [hs] using hi)
  refine ⟨⟨?_, ?_, ?_⟩, ?_, ?_⟩
  · intro i c hi
    rcases hcell hi with hc | ⟨rfl, rfl⟩
    · exact ht.id_eq hc
    · rfl
  · intro i j c e hi hj hsame
    rcases hcell hi with hc | ⟨rfl, rfl⟩ <;> rcases hcell hj with he | ⟨rfl, rfl⟩
    · exact ht.key_inj hc he hsame
    · exact absurd hsame (find?_eq_none_iff.1 hnew i c hc)
    · exact absurd (Key.same_symm hsame) (find?_eq_none_iff.1 hnew j e he)
    · rfl
  · intro i c hi
    rcases hcell hi with hc | ⟨rfl, rfl⟩
    · exact ht.own_key hc
    · exact Key.same_iff.2 ⟨rfl, rfl⟩
  · intro i face hface
    obtain ⟨c, hc, rfl⟩ := cell?_of_face? hface
    have hi : i ≠ t.size := Nat.ne_of_lt (lt_size_of_cell? hc)
    exact face?_of_cell? (by simpa [cell?_grow, hi] using hc)
  · intro i c hnone hi
    rcases hcell hi with hc | ⟨rfl, rfl⟩
    · simp [hnone] at hc
    · rfl

end CellTable

namespace Store
variable {E V C K α β : Type} {s q r : Store E V C K}

/-- The operation keeps what the relation says, whether it fails or not. -/
def Keeps (R : Store E V C K → Store E V C K → Prop) (op : Op E V C K α) : Prop :=
  ∀ s, Ends op s (fun _ r => R s r) (R s ·)

theorem Keeps.write {R : Store E V C K → Store E V C K → Prop} {f : Store E V C K → Store E V C K}
    (h : ∀ s, R s (f s)) : Keeps R (modify f) := fun s => .write (h s)

theorem Keeps.read {R : Store E V C K → Store E V C K → Prop} {f : Store E V C K → Op E V C K α}
    (h : ∀ s, Keeps R (f s)) : Keeps R (get >>= f) := fun s => .read (h s s)

theorem Keeps.unbroken {R : Store E V C K → Store E V C K → Prop} {op : Op E V C K Unit}
    (h : Keeps R op) : Keeps R (unbroken op) := fun s => (h s).unbroken

def aftermath (cell : Cell E V K) (u : Update E V K) (s : Store E V C K) : Store E V C K :=
  let s := match u.dropped with
    | some susp => s.unlink (.cell cell.id) susp
    | none => s
  let s := u.dependers.members.foldl (wake cell) s
  if u.old.isUnknown then s.trigger cell else s

theorem afterUpdate_eq (cell : Cell E V K) (u : Update E V K) (s : Store E V C K) :
    s.afterUpdate cell u = if !u.changed then s else aftermath cell u
      (((s.count fun n => { n with updates := n.updates + 1 }).notify
        (.updated cell.key u.new u.dependers.size)).trace (.update u.old u.new)) := rfl

theorem settleEach_keeps {P bad : Store E V C K → Prop} {γ : Type} {settle : γ → Op E V C K Bool}
    (hstep : ∀ a q, P q → Ends (settle a) q (fun _ r => P r) bad) (hs : P s) (l : List γ) :
    Ends (settleEach settle l) s (fun _ r => P r) bad := by
  induction l generalizing s with
  | nil => exact .answer hs
  | cons a rest ih =>
    refine .bind (hstep a s hs) fun changed q hq => .read ?_
    split
    · exact .answer hq
    · exact .bind (ih hq) fun _ _ hr => .answer hr

variable [DecidableEq E]

/-- Nothing is told, counted or queued, and no status changes. -/
structure Silent (s r : Store E V C K) : Prop where
  queue : r.queue = s.queue
  tracer : r.tracer = s.tracer
  stats : r.stats = s.stats
  fault : r.fault = s.fault
  table : s.table.Labelled → s.table.Adds r.table

namespace Silent

theorem of_cells (hcells : r.table.cells = s.table.cells) (hqueue : r.queue = s.queue)
    (htracer : r.tracer = s.tracer) (hstats : r.stats = s.stats)
    (hfault : r.fault = s.fault) : s.Silent r :=
  ⟨hqueue, htracer, hstats, hfault,
    .of_faces fun i => by simp only [CellTable.face?, CellTable.cell?, hcells]⟩

theorem refl (s : Store E V C K) : s.Silent s := .of_cells rfl rfl rfl rfl rfl

theorem notify (s : Store E V C K) (n : Notice E V) : s.Silent (s.notify n) :=
  .of_cells rfl rfl rfl rfl rfl

theorem of_faces {t : CellTable E V K} (h : s.table.Labelled → ∀ i, t.face? i = s.table.face? i) :
    s.Silent { s with table := t } :=
  ⟨rfl, rfl, rfl, rfl, fun ht => .of_faces (h ht) ht⟩

theorem modifyCell (s : Store E V C K) (id : Nat) {f : Cell E V K → Cell E V K}
    (hf : ∀ c, (f c).face = c.face) : s.Silent (s.modifyCell id f) :=
  .of_faces fun _ => CellTable.face?_modify hf _ _

theorem writeCell {id : Nat} {c c' : Cell E V K} (hc : s.cell? id = some c)
    (hface : c'.face = c.face) : s.Silent (s.writeCell c') :=
  .of_faces fun ht => CellTable.face?_overwrite ((ht.id_eq hc).symm ▸ hc) hface

theorem unlink (s : Store E V C K) (d : Depender) (susp : Suspension E V K) :
    s.Silent (s.unlink d susp) :=
  .of_faces fun _ => CellTable.face?_unlink _ _ _

theorem takeSuspensionIf (s : Store E V C K) (d : Depender) (p : Suspension E V K → Bool) :
    s.Silent (s.takeSuspensionIf d p).2 :=
  .of_faces fun _ => CellTable.face?_takeSuspensionIf _ _ _

end Silent

theorem freshStamp_silent (s : Store E V C K) :
    Ends freshStamp s (fun _ r => s.Silent r ∧ r.table = s.table) (fun _ => False) :=
  ⟨.of_cells rfl rfl rfl rfl rfl, rfl⟩

theorem nextEpoch_silent (s : Store E V C K) :
    Ends nextEpoch s (fun _ r => s.Silent r ∧ r.table = s.table) (fun _ => False) :=
  ⟨.of_cells rfl rfl rfl rfl rfl, rfl⟩

/-- What holds between the store before and the store after silent steps, sleepers that are resumed,
and more such steps. -/
structure Keeper (R : Store E V C K → Store E V C K → Prop) : Prop where
  trans : ∀ {s q r}, R s q → R q r → R s r
  silent : ∀ {s r}, s.Silent r → R s r
  resume : ∀ s d dependee susp, R s (resume d dependee susp s)

namespace Keeper
variable {R : Store E V C K → Store E V C K → Prop}

theorem refl (hR : Keeper R) (s : Store E V C K) : R s s := hR.silent (.refl s)

theorem foldl {γ : Type} (hR : Keeper R) {f : Store E V C K → γ → Store E V C K}
    (hf : ∀ s a, R s (f s a)) (l : List γ) (s : Store E V C K) : R s (l.foldl f s) := by
  induction l generalizing s with
  | nil => exact hR.refl s
  | cons a l ih => exact hR.trans (hf s a) (ih _)

theorem resumeIf (hR : Keeper R) (s : Store E V C K) (d : Depender) (dependee : Cell E V K)
    (p : Suspension E V K → Bool) : R s (s.resumeIf d dependee p) := by
  have htaken := hR.silent (.takeSuspensionIf s d p)
  unfold Store.resumeIf
  generalize s.takeSuspensionIf d p = x at htaken
  obtain ⟨taken, q⟩ := x
  cases taken with
  | some susp => exact hR.trans htaken (hR.resume q d dependee susp)
  | none => exact htaken

theorem release (hR : Keeper R) (s : Store E V C K) (d : Depender) : R s (s.release d) := by
  have htaken := hR.silent (.takeSuspensionIf s d fun _ => true)
  unfold Store.release
  generalize s.takeSuspensionIf d (fun _ => true) = x at htaken
  obtain ⟨taken, q⟩ := x
  cases taken with
  | some susp => exact hR.trans htaken (hR.silent (.unlink q d susp))
  | none => exact htaken

theorem trigger (hR : Keeper R) (hschedule : ∀ s c e, R s (schedule "triggered" s c e))
    (s : Store E V C K) (cell : Cell E V K) : R s (s.trigger cell) := by
  unfold Store.trigger
  split
  · next c hc =>
    dsimp only
    split
    · have hmarked : R s (s.writeCell c.markTriggered.2) := hR.silent (.writeCell hc rfl)
      exact hR.trans hmarked (hR.foldl (fun s c => hschedule s c cell.key.entity) _ _)
    · exact hR.refl s
  · exact hR.refl s

end Keeper

theorem Keeper.aftermath {R : Store E V C K → Store E V C K → Prop} (hR : Keeper R)
    (hschedule : ∀ s c e, R s (schedule "triggered" s c e)) (s : Store E V C K) (cell : Cell E V K)
    (u : Update E V K) : R s (s.aftermath cell u) := by
  have hrest (q : Store E V C K) :
      R q (if u.old.isUnknown then (u.dependers.members.foldl (wake cell) q).trigger cell
        else u.dependers.members.foldl (wake cell) q) := by
    have hwoken : R q (u.dependers.members.foldl (wake cell) q) :=
      hR.foldl (fun s d => hR.resumeIf s d cell (·.waitsOn cell.id)) _ q
    split
    · exact hR.trans hwoken (hR.trigger hschedule _ cell)
    · exact hwoken
  unfold Store.aftermath
  cases u.dropped with
  | some susp => exact hR.trans (hR.silent (.unlink s _ susp)) (hrest _)
  | none => exact hrest s

namespace Keeper
variable {R : Store E V C K → Store E V C K → Prop}

/-! How operations are put together. -/

theorem bind (hR : Keeper R) {x : Op E V C K β} {f : β → Op E V C K α} (hx : Keeps R x)
    (hf : ∀ b, Keeps R (f b)) :
    Keeps R (x >>= f) := fun s =>
  .bind (hx s) fun b r hr => (hf b r).mono (fun _ _ h => hR.trans hr h) fun _ h => hR.trans hr h

theorem answer (hR : Keeper R) (a : α) : Keeps R (pure a) := fun s => .answer (hR.refl s)

theorem failure (hR : Keeper R) (e : Error) : Keeps R (throw e : Op E V C K α) :=
  fun s => .failure (hR.refl s)

theorem silently (hR : Keeper R) {f : Store E V C K → Store E V C K}
    (h : ∀ s : Store E V C K, s.Silent (f s)) :
    Keeps R (modify f) := .write fun s => hR.silent (h s)

/-! Operations. -/

theorem freshStamp (hR : Keeper R) : Keeps R freshStamp := fun s =>
  (freshStamp_silent s).mono (fun _ _ h => hR.silent h.1) fun _ h => h.elim

theorem nextEpoch (hR : Keeper R) : Keeps R nextEpoch := fun s =>
  (nextEpoch_silent s).mono (fun _ _ h => hR.silent h.1) fun _ h => h.elim

theorem checkRunning (hR : Keeper R) : Keeps R checkRunning := by
  refine .read fun s => ?_
  split
  · exact hR.failure _
  · exact hR.answer _

theorem infoOf (hR : Keeper R) (kind : Kind) : Keeps R (infoOf kind) := by
  refine .read fun s => ?_
  split
  · exact hR.answer _
  · exact hR.failure _

theorem addCollaborator (hR : Keeper R) (susp : Suspension E V K) :
    Keeps R (addCollaborator susp) := by
  intro s
  refine .read ?_
  have hcells := s.table.cells_addCollaborator susp
  generalize s.table.addCollaborator susp = x at hcells
  obtain ⟨added, t⟩ := x
  have hsilent : R s { s with table := t } := hR.silent (.of_cells hcells rfl rfl rfl rfl)
  refine .write_then ?_
  cases added with
  | ok id => exact .answer hsilent
  | error e => exact .failure hsilent

theorem getOrCreate (hR : Keeper R) (key : Key E) : Keeps R (getOrCreate key) := by
  intro s
  refine .read ?_
  rcases s.table.getOrCreate_cases key with ⟨c, hf, hget⟩ | ⟨hf, hroom, hget⟩ | ⟨e, hget⟩
  · rw [hget]
    exact .write_then (.answer (hR.refl s))
  · rw [hget]
    exact .write_then (.answer (hR.silent ⟨rfl, rfl, rfl, rfl, fun ht => .grow ht hf⟩))
  · rw [hget]
    exact .failure (hR.refl s)

theorem cellOf (hR : Keeper R) (key : Key E) : Keeps R (cellOf key) :=
  hR.bind (hR.infoOf _) fun _ => hR.bind (hR.getOrCreate key) fun _ => hR.answer _

theorem observe (hR : Keeper R) (dependees : List (Status E V)) : Keeps R (observe dependees) := by
  induction dependees with
  | nil => exact hR.answer _
  | cons d ds ih => exact hR.bind (hR.cellOf d.key) fun _ => hR.bind ih fun _ => hR.answer _

theorem askFor (hR : Keeper R) (hschedule : ∀ s c e, R s (schedule "lazy" s c e)) (key : Key E) :
    Keeps R (askFor key) := by
  refine hR.bind (hR.getOrCreate key) fun made => ?_
  obtain ⟨c, created⟩ := made
  cases created with
  | false => exact hR.answer _
  | true =>
    refine .read fun s => ?_
    split
    · exact .write fun s => hschedule s _ _
    · exact hR.answer _

section
variable [ToString E]

theorem checkSuspension [ToString V] (hR : Keeper R) (depender : String) (own : Option (Key E))
    (dependees : List (Status E V)) : Keeps R (checkSuspension depender own dependees) := by
  unfold Store.checkSuspension
  cases dependees with
  | nil => exact fun s => hR.refl s
  | cons d ds =>
    refine .read fun s => ?_
    split
    · split
      · exact hR.answer _
      · exact hR.failure _
    · exact hR.answer _

variable [DecidableEq V]

theorem registerDependers (hR : Keeper R) (d : Depender) (epoch : Nat)
    (obs : List (Nat × Status E V)) : Keeps R (registerDependers d epoch obs) := by
  induction obs with
  | nil => exact hR.answer _
  | cons p obs ih =>
    intro s
    refine .read ?_
    cases hc : s.cell? p.1 with
    | none => exact ih s
    | some c =>
      dsimp only
      have hface (c' : Cell E V K) (hadd : c.addDepender d p.2 = .ok (true, c')) :
          c'.face = c.face := by
        unfold Cell.addDepender at hadd
        split at hadd
        · simp at hadd
        · split at hadd
          · simp at hadd
          · simp only [Except.ok.injEq, Prod.mk.injEq, true_and] at hadd
            exact hadd ▸ rfl
      rcases hadd : c.addDepender d p.2 with e | ⟨_ | _, c'⟩
      · exact .failure (hR.refl s)
      · exact .write (hR.resumeIf s d c _)
      · have hwritten : R s (s.writeCell c') := hR.silent (.writeCell hc (hface c' hadd))
        exact .write_then ((ih _).mono (fun _ _ h => hR.trans hwritten h) fun _ h =>
          hR.trans hwritten h)

variable [ToString V]

theorem collaborate (hR : Keeper R) (dependees : List (Status E V)) (k : K) :
    Keeps R (collaborate dependees k) :=
  hR.bind (hR.checkSuspension _ _ _) fun _ => hR.bind (hR.observe dependees) fun obs =>
    hR.bind hR.nextEpoch fun n =>
    hR.bind (hR.addCollaborator _) fun _ => hR.registerDependers _ n obs

end

/-! Calls. -/

theorem registerKind (hR : Keeper R) (info : KindInfo E V) : Keeps R (registerKind info) := by
  refine hR.bind hR.checkRunning fun _ => hR.bind (hR.silently fun s => .notify s _) fun _ =>
    .read fun s => ?_
  split
  · exact hR.silently fun _ => .of_cells rfl rfl rfl rfl rfl
  · exact hR.failure _

theorem setupPhase (hR : Keeper R) (computed delayed : List Kind) :
    Keeps R (setupPhase computed delayed) := by
  have hinfos (kinds : List Kind) :
      Keeps R (kinds.forM fun kind => discard (Store.infoOf kind)) := by
    induction kinds with
    | nil => exact hR.answer _
    | cons kind kinds ih =>
      exact hR.bind (hR.bind (hR.infoOf kind) fun _ => hR.answer _) fun _ => ih
  exact hR.bind hR.checkRunning fun _ => hR.bind (hinfos _) fun _ =>
    hR.bind (hR.silently fun s => .notify s _) fun _ => hR.silently fun _ =>
      .of_cells rfl rfl rfl rfl rfl

theorem registerLazy (hR : Keeper R) (hschedule : ∀ s c e, R s (schedule "lazy" s c e))
    (kind : Kind) (c : C) : Keeps R (registerLazy kind c) := by
  refine hR.bind hR.checkRunning fun _ => hR.bind (hR.infoOf kind) fun _ => .read fun s => ?_
  split
  · exact hR.failure _
  · exact hR.bind (hR.silently fun _ => .of_cells rfl rfl rfl rfl rfl) fun _ =>
      hR.bind (hR.silently fun s => .notify s _) fun _ =>
        .write fun s => hR.foldl (fun s (cell : Cell E V K) => hschedule s c cell.key.entity) _ s

theorem registerTriggered (hR : Keeper R)
    (hschedule : ∀ s c e, R s (schedule "triggered" s c e)) (kind : Kind) (c : C) :
    Keeps R (registerTriggered kind c) :=
  hR.bind hR.checkRunning fun _ => hR.bind (hR.infoOf kind) fun _ =>
    hR.bind (hR.silently fun _ => .of_cells rfl rfl rfl rfl rfl) fun _ =>
      hR.bind (hR.silently fun s => .notify s _) fun _ =>
        .write fun s => hR.foldl (fun s (cell : Cell E V K) => hschedule s c cell.key.entity) _ s

theorem scheduleEager (hR : Keeper R) (hschedule : ∀ s c e, R s (schedule "eager" s c e))
    (entities : List E) (c : C) : Keeps R (scheduleEager entities c) :=
  hR.bind hR.checkRunning fun _ => .write fun s => hR.foldl (fun s e => hschedule s c e) _ s

end Keeper

/-! Changing cells. -/

/-- Keeps, besides, what holds when a status is put in place, when anything but a scheduling is
told, and when anything but a resumption is counted. -/
structure Recorder (R : Store E V C K → Store E V C K → Prop) : Prop extends Keeper R where
  writeCell : ∀ s c, R s (writeCell c s)
  trace : ∀ (s : Store E V C K) {e : Event E V}, e.scheduled? = none → R s (s.trace e)
  count : ∀ (s : Store E V C K) {f : Statistics → Statistics},
    (∀ n, (f n).notifications = n.notifications) →
    R s (s.count f)
  schedule : ∀ s c e, R s (schedule "triggered" s c e)

namespace Recorder
variable {R : Store E V C K → Store E V C K → Prop}

theorem afterUpdate (hR : Recorder R) (s : Store E V C K) (cell : Cell E V K) (u : Update E V K) :
    R s (s.afterUpdate cell u) := by
  rw [afterUpdate_eq]
  split
  · exact hR.refl s
  have hcount : R s (s.count fun n => { n with updates := n.updates + 1 }) :=
    hR.count s fun _ => rfl
  have hnoted := hR.trans hcount (hR.silent (.notify _ (.updated cell.key u.new u.dependers.size)))
  have htold := hR.trans hnoted (hR.trace _ (e := .update u.old u.new) rfl)
  exact hR.trans htold (hR.aftermath hR.schedule _ cell u)

theorem carryOut (hR : Recorder R) (change : Except Error (Update E V K × Cell E V K)) :
    Keeps R (carryOut change) := by
  unfold Store.carryOut
  split
  · exact hR.bind (.write fun s => hR.writeCell s _) fun _ => hR.answer _
  · exact hR.failure _

variable [DecidableEq V] [ToString E] [ToString V] [Property V]

theorem installFinal (hR : Recorder R) (ep : Final E V) : Keeps R (installFinal ep) :=
  hR.bind (hR.cellOf ep.key) fun c => .read fun _ => hR.bind (hR.carryOut _) fun u =>
    .write fun s => hR.afterUpdate s c u

theorem contributeTo (hR : Recorder R) (c : Cell E V K) (p : Contribution E V) :
    Keeps R (contributeTo c p) := by
  unfold Store.contributeTo
  split
  · exact hR.answer _
  · exact .read fun _ => hR.bind (hR.carryOut _) fun u =>
      hR.bind (.write fun s => hR.afterUpdate s c u) fun _ => hR.answer _

theorem contribute (hR : Recorder R) (p : Contribution E V) : Keeps R (contribute p) := by
  refine .read fun s => ?_
  split
  · exact hR.failure _
  · exact hR.bind (hR.cellOf p.key) fun c => hR.contributeTo c p

theorem suspend (hR : Recorder R) (ep : Interim E V) (dependees : List (Status E V)) (k : K) :
    Keeps R (suspend ep dependees k) :=
  hR.bind (hR.checkSuspension _ _ _) fun _ => hR.bind (hR.observe dependees) fun obs =>
    hR.bind (hR.cellOf ep.key) fun c => .read fun _ => hR.bind (hR.carryOut _) fun u =>
      hR.bind hR.nextEpoch fun n =>
        hR.bind (hR.silently fun s => .modifyCell s _ fun _ => rfl) fun _ =>
        hR.bind (.write fun s => hR.afterUpdate s c u) fun _ => hR.registerDependers _ n obs

theorem fallBackNow (hR : Recorder R) (info : KindInfo E V) (key : Key E) :
    Keeps R (fallBackNow info key) := by
  refine .read fun s => hR.bind (hR.getOrCreate key) fun made => ?_
  obtain ⟨c, created⟩ := made
  cases created with
  | false => exact hR.answer _
  | true =>
    exact hR.bind hR.freshStamp fun _ => hR.bind (.write fun s => hR.count s fun _ => rfl) fun _ =>
      hR.bind (.write fun s => hR.trace s rfl) fun _ => hR.bind (hR.carryOut _) fun u =>
        .write fun s => hR.afterUpdate s c u

theorem query (hR : Recorder R) (hschedule : ∀ s c e, R s (Store.schedule "lazy" s c e))
    (key : Key E) : Keeps R (query key) := by
  have hanswer : Keeps R (do return (← get).statusOf key) := .read fun _ => hR.answer _
  refine hR.bind hR.checkRunning fun _ => .read fun s => ?_
  split
  · refine hR.bind (hR.infoOf _) fun info => .read fun q => ?_
    dsimp only
    split
    · exact hR.bind (hR.askFor hschedule key) fun _ => hanswer
    · exact hR.bind (hR.fallBackNow info key) fun _ => hanswer
  · exact hanswer

/-! Steps of a round. -/

theorem finalizeIf (hR : Recorder R) (id : Nat) (observed : Status E V) (ep : Final E V) :
    Keeps R (finalizeIf id observed ep) := by
  refine .read fun s => ?_
  split
  · exact hR.answer _
  · split
    · exact hR.bind (.write fun s => hR.writeCell s _) fun _ => hR.answer _
    · exact hR.answer _
    · exact hR.failure _

theorem fallBack (hR : Recorder R) (cell : Cell E V K) : Keeps R (fallBack cell) := by
  refine .read fun s => hR.bind (hR.infoOf _) fun info => hR.bind hR.freshStamp fun stamp =>
    hR.bind (hR.finalizeIf _ _ _) fun done => ?_
  cases done with
  | none => exact hR.answer _
  | some cu =>
    exact hR.bind (hR.silently fun s => .notify s _) fun _ =>
      hR.bind (.write fun s => hR.count s fun _ => rfl) fun _ =>
      hR.bind (.write fun s => hR.trace s rfl) fun _ =>
        hR.bind (.write fun s => hR.afterUpdate s cu.1 cu.2) fun _ =>
        hR.answer _

theorem finalize (hR : Recorder R) (cell : Cell E V K) : Keeps R (finalize cell) := by
  unfold Store.finalize
  split
  · refine hR.bind (hR.infoOf _) fun info => hR.bind hR.freshStamp fun stamp =>
      hR.bind (hR.finalizeIf _ _ _) fun done => ?_
    cases done with
    | none => exact hR.answer _
    | some cu =>
      exact hR.bind (hR.silently fun s => .notify s _) fun _ =>
        hR.bind (.write fun s => hR.count s fun _ => rfl) fun _ =>
          hR.bind (.write fun s => hR.afterUpdate s cu.1 cu.2) fun _ => hR.answer _
  · exact hR.answer _

theorem resolveMembers (hR : Recorder R) (ds : List Depender) : Keeps R (resolveMembers ds) := by
  induction ds with
  | nil => exact hR.answer _
  | cons d ds ih =>
    refine hR.bind ?_ fun _ => hR.bind ih fun _ => hR.answer _
    cases d with
    | collaborator id => exact hR.answer _
    | cell id =>
      refine .read fun s => ?_
      split
      · exact hR.bind (hR.infoOf _) fun _ => hR.bind hR.freshStamp fun _ =>
          hR.bind (hR.finalizeIf _ _ _) fun _ => hR.answer _
      · exact hR.answer _

theorem resolveGroup (hR : Recorder R) (delayed group : List Depender) :
    Keeps R (resolveGroup delayed group) := by
  have hannounce (s : Store E V C K) (x : Cell E V K × Final E V × Update E V K) :
      R s (s.announceResolved group.length x) := by
    have htold := hR.silent (.notify s (.resolvedCycle x.2.1.key x.2.1.value.value group.length))
    have hcount := hR.trans htold
      (hR.count _ (f := fun n => { n with resolvedCycles := n.resolvedCycles + 1 }) fun _ => rfl)
    exact hR.trans (hR.trans hcount (hR.trace _ rfl)) (hR.afterUpdate _ x.1 x.2.2)
  unfold Store.resolveGroup
  split
  · exact hR.answer _
  · exact hR.bind (.write fun s => hR.foldl hR.release group s) fun _ =>
      hR.bind (hR.resolveMembers group) fun resolved =>
        hR.bind (.write fun s => hR.foldl hannounce resolved s) fun _ => hR.answer _

end Recorder

/-! Rounds. What each step of a round keeps, a round keeps. -/

section
variable {P bad : Store E V C K → Prop}

variable [DecidableEq V] [Property V] [ToString E] [ToString V]

theorem settle_keeps (hfall : ∀ cell q, P q → Ends (fallBack cell) q (fun _ r => P r) bad)
    (hgroup : ∀ delayed group q, P q → Ends (resolveGroup delayed group) q (fun _ r => P r) bad)
    (hinterim : ∀ cell q, P q → Ends (finalize cell) q (fun _ r => P r) bad) (hs : P s)
    (cycles fallbacks : Bool) : Ends (settle cycles fallbacks) s (fun _ r => P r) bad := by
  have hthen {x y : Op E V C K Bool} (hx : ∀ q, P q → Ends x q (fun _ r => P r) bad)
      (hy : ∀ q, P q → Ends y q (fun _ r => P r) bad) (q : Store E V C K) (hq : P q) :
      Ends (x >>= fun done => if done then pure true else y) q (fun _ r => P r) bad := by
    refine .bind (hx q hq) fun done r hr => ?_
    cases done with
    | true => exact .answer hr
    | false => exact hy r hr
  have hfallbacks (waitedOn : Bool) (q : Store E V C K) (hq : P q) :
      Ends (applyFallbacks waitedOn) q (fun _ r => P r) bad := .read (settleEach_keeps hfall hq _)
  have hgroups (q : Store E V C K) (hq : P q) : Ends resolveClosedGroups q (fun _ r => P r) bad :=
    .read (settleEach_keeps (hgroup _) hq _)
  have hinterims (waitedOn : Bool) (q : Store E V C K) (hq : P q) :
      Ends (finalizeInterims waitedOn) q (fun _ r => P r) bad :=
        .read (settleEach_keeps hinterim hq _)
  cases fallbacks <;> cases cycles
  · exact .answer hs
  · exact hthen hgroups (hthen (hinterims true) (hinterims false)) s hs
  · exact hthen (hfallbacks true) (hthen (hfallbacks false) fun _ hq => .answer hq) s hs
  · exact hthen (hfallbacks true) (hthen hgroups (hthen (hinterims true) (hthen (hfallbacks false)
      (hinterims false)))) s hs

theorem Recorder.settle {R : Store E V C K → Store E V C K → Prop} (hR : Recorder R)
    (cycles fallbacks : Bool) : Keeps R (settle cycles fallbacks) := by
  intro s
  have hthen {op : Op E V C K Bool} (hop : Keeps R op) (q : Store E V C K) (hq : R s q) :
      Ends op q (fun _ r => R s r) (R s ·) :=
    (hop q).mono (fun _ _ h => hR.trans hq h) fun _ h => hR.trans hq h
  exact settle_keeps (fun cell => hthen (hR.fallBack cell))
    (fun delayed group => hthen (hR.resolveGroup delayed group))
    (fun cell => hthen (hR.finalize cell)) (hR.refl s) cycles fallbacks

end

end Store
end Blackboard
