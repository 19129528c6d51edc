import Blackboard.Proofs.Invariants

/-! The life of a cell. It is made once and stays where it is, it is marked with its first value,
and a final value is the end: nobody refines it, nobody is told about it, and it is never
replaced. -/
namespace Blackboard

theorem Depender.eq_of_decode_encode {d : Depender} {j : Nat} (h : decode d.encode = .cell j) :
    d = .cell j := by
  cases d with
  | cell i =>
    by_cases hi : i < collaboratorBit
    · simpa [decode, encode, hi] using h
    · simp [decode, encode, hi] at h
  | collaborator i =>
    have hi : ¬ encode (.collaborator i) < collaboratorBit := by simp [encode]
    simp [decode, hi] at h

namespace Cell
variable {E V K : Type}

/-- The cell is marked exactly if it has a value, a final one tells nobody, and the cells that are
told are among the first `size` ones. -/
structure Tidy (size : Nat) (c : Cell E V K) : Prop where
  marked : c.triggered = c.status.hasValue
  quiet : c.status.isFinal = true → c.dependers = ∅
  told : ∀ {j}, .cell j ∈ c.dependers.members → j < size

/-- The cell tells no more dependers than before; its suspension aside, nothing else happened to
it. -/
structure Eased (old c : Cell E V K) : Prop where
  status : c.status = old.status
  triggered : c.triggered = old.triggered
  dependers : ∀ n ∈ c.dependers, n ∈ old.dependers

namespace Eased
variable {a b c : Cell E V K}

theorem refl (c : Cell E V K) : c.Eased c := ⟨rfl, rfl, fun _ h => h⟩

theorem trans (h : a.Eased b) (h' : b.Eased c) : a.Eased c :=
  ⟨h'.status.trans h.status, h'.triggered.trans h.triggered,
    fun n hn => h.dependers n (h'.dependers n hn)⟩

theorem empty (h : a.Eased c) (ha : a.dependers = ∅) : c.dependers = ∅ := by
  refine SortedSet.ext (List.eq_nil_iff_forall_not_mem.2 fun n hn => ?_)
  have hold := h.dependers n hn
  rw [ha] at hold
  exact SortedSet.not_mem_empty n hold

theorem members (h : a.Eased c) {d : Depender} (hd : d ∈ c.dependers.members) :
    d ∈ a.dependers.members := by
  obtain ⟨n, hn, rfl⟩ := List.mem_map.1 hd
  exact List.mem_map_of_mem (h.dependers n hn)

theorem tidy {size : Nat} (h : a.Eased c) (ha : a.Tidy size) : c.Tidy size where
  marked := by rw [h.triggered, h.status, ha.marked]
  quiet hf := h.empty (ha.quiet (h.status ▸ hf))
  told hj := ha.told (h.members hj)

end Eased

theorem Tidy.of_empty {size : Nat} {c : Cell E V K} (ht : c.triggered = true)
    (hv : c.status.isUnknown = false) (hd : c.dependers = ∅) : c.Tidy size where
  marked := by simp [ht, Status.hasValue, hv]
  quiet _ := hd
  told hj := by
    rw [hd] at hj
    exact absurd hj List.not_mem_nil

end Cell

namespace CellTable
variable {E V K : Type} {t u v : CellTable E V K}

def Tidy (t : CellTable E V K) : Prop := ∀ i c, t.cell? i = some c → c.Tidy t.size

def Eases (t u : CellTable E V K) : Prop :=
  ∀ i c, u.cell? i = some c → ∃ e, t.cell? i = some e ∧ e.Eased c

namespace Eases

theorem refl (t : CellTable E V K) : t.Eases t := fun _ c hc => ⟨c, hc, .refl c⟩

theorem trans (h : t.Eases u) (h' : u.Eases v) : t.Eases v := by
  intro i c hc
  obtain ⟨b, hb, hbc⟩ := h' i c hc
  obtain ⟨a, ha, hab⟩ := h i b hb
  exact ⟨a, ha, hab.trans hbc⟩

theorem detach (t : CellTable E V K) (d : Depender) (susp : Suspension E V K) :
    t.Eases (t.detach d susp) := by
  intro i c hc
  rw [cell?_detach] at hc
  obtain ⟨e, he, rfl⟩ := Option.map_eq_some_iff.1 hc
  refine ⟨e, he, rfl, rfl, fun n hn => ?_⟩
  by_cases hi : i ∈ susp.ids
  · simp only [hi, if_true, SortedSet.mem_erase] at hn
    exact hn.1
  · simpa [hi] using hn

theorem release (t : CellTable E V K) (d : Depender) : t.Eases (t.release d) := by
  rw [CellTable.release]
  split
  · exact detach t d _
  · exact .refl t

theorem releaseAll (t : CellTable E V K) (ds : List Depender) : t.Eases (t.releaseAll ds) := by
  induction ds generalizing t with
  | nil => exact .refl t
  | cons d ds ih => exact (release t d).trans (ih _)

theorem wake (t : CellTable E V K) (id : Nat) (d : Depender) : t.Eases (t.wake id d) := by
  rw [CellTable.wake]
  split
  · exact detach t d _
  · exact .refl t

theorem wakeAll (t : CellTable E V K) (id : Nat) (ds : List Depender) :
    t.Eases (t.wakeAll id ds) := by
  induction ds generalizing t with
  | nil => exact .refl t
  | cons d ds ih => exact (wake t id d).trans (ih _)

theorem announce (t : CellTable E V K) (batch : List (Cell E V K × Final E V)) :
    t.Eases (t.announce batch) := by
  induction batch generalizing t with
  | nil => exact .refl t
  | cons p rest ih => exact (wakeAll t p.1.id _).trans (ih _)

end Eases

/-- A cell takes a status, and its dependers are taken out to be told; the other cells are eased. -/
def Yields (t : CellTable E V K) (c : Cell E V K) (new : Status E V) (u : CellTable E V K) : Prop :=
  ∀ i e, u.cell? i = some e →
    if i = c.id then e.status = new ∧ e.triggered = c.triggered ∧ e.dependers = ∅
    else ∃ b, t.cell? i = some b ∧ b.Eased e

theorem yields_put {c : Cell E V K} {new : Status E V} (hc : t.cell? c.id = some c)
    (hu : t.Eases u) : t.Yields c new (u.put c.id new) := by
  intro i e he
  rw [cell?_put] at he
  obtain ⟨b, hb, rfl⟩ := Option.map_eq_some_iff.1 he
  obtain ⟨a, ha, hab⟩ := hu i b hb
  by_cases hi : i = c.id
  · subst hi
    obtain rfl : c = a := Option.some.inj (hc.symm.trans ha)
    simpa using hab.triggered
  · rw [if_neg hi, if_neg (Ne.symm hi)]
    exact ⟨a, ha, hab⟩

theorem Yields.suspend {c : Cell E V K} {new : Status E V} (h : t.Yields c new u)
    (susp : Suspension E V K) : t.Yields c new (u.modify c.id (·.suspend susp)) := by
  intro i e he
  rw [cell?_modify] at he
  by_cases hi : i = c.id
  · rw [if_pos hi.symm] at he
    obtain ⟨b, hb, rfl⟩ := Option.map_eq_some_iff.1 he
    have hb' := h i b hb
    rw [if_pos hi] at hb' ⊢
    exact hb'
  · rw [if_neg (Ne.symm hi)] at he
    exact h i e he

namespace Tidy

theorem empty : (CellTable.empty : CellTable E V K).Tidy := by
  intro i c hc
  simp [CellTable.empty, cell?] at hc

theorem of_eases (h : t.Tidy) (hu : t.Eases u) (hk : ∀ i, u.key? i = t.key? i) : u.Tidy := by
  intro i c hc
  obtain ⟨e, he, hec⟩ := hu i c hc
  rw [size_eq_of_key? hk]
  exact hec.tidy (h i e he)

theorem of_cells (h : t.Tidy) (hu : u.cells = t.cells) : u.Tidy := by
  have hcell : ∀ i, u.cell? i = t.cell? i := fun i => by simp only [cell?, hu]
  have hsize : u.size = t.size := by simp only [size, hu]
  intro i c hc
  rw [hsize]
  exact h i c (hcell i ▸ hc)

theorem grown (h : t.Tidy) (hu : t.Grown u) : u.Tidy := by
  intro i c hc
  by_cases hi : i < t.size
  · have hold := h i c (hu.old hi ▸ hc)
    exact ⟨hold.marked, hold.quiet, fun hj => Nat.lt_of_lt_of_le (hold.told hj) hu.size_le⟩
  · obtain ⟨key, rfl⟩ := hu.new (Nat.not_lt.1 hi) hc
    exact ⟨rfl, fun _ => rfl, fun hj => absurd hj List.not_mem_nil⟩

theorem yields (h : t.Tidy) {c : Cell E V K} {new : Status E V} (hc : t.cell? c.id = some c)
    (hnew : new.isUnknown = false) (hu : t.Yields c new u) (hk : ∀ i, u.key? i = t.key? i)
    (ds : List Depender) :
    (if c.status.isUnknown then (u.wakeAll c.id ds).mark c.id else u.wakeAll c.id ds).Tidy := by
  have hsize : (u.wakeAll c.id ds).size = t.size :=
    size_eq_of_key? fun i => (key?_of_face? (face?_wakeAll u c.id ds i)).trans (hk i)
  have hwoken : ∀ i e, (u.wakeAll c.id ds).cell? i = some e →
      if i = c.id then e.status = new ∧ e.triggered = c.triggered ∧
          e.dependers = ∅ else e.Tidy t.size := by
    intro i e he
    obtain ⟨b, hb, hbe⟩ := Eases.wakeAll u c.id ds i e he
    have hb' := hu i b hb
    split at hb'
    · next hi =>
      rw [if_pos hi]
      exact ⟨hbe.status.trans hb'.1, hbe.triggered.trans hb'.2.1, hbe.empty hb'.2.2⟩
    · next hi =>
      obtain ⟨a, ha, hab⟩ := hb'
      rw [if_neg hi]
      exact (hab.trans hbe).tidy (h i a ha)
  intro i e he
  split at he
  · rw [if_pos ‹_›, mark, size_modify, hsize]
    rw [mark, cell?_modify] at he
    by_cases hi : i = c.id
    · rw [if_pos hi.symm] at he
      obtain ⟨b, hb, rfl⟩ := Option.map_eq_some_iff.1 he
      obtain ⟨hst, -, hd⟩ : b.status = new ∧ b.triggered = c.triggered ∧ b.dependers = ∅ := by
        simpa [hi] using hwoken i b hb
      exact .of_empty rfl (hst ▸ hnew) hd
    · rw [if_neg (Ne.symm hi)] at he
      simpa [hi] using hwoken i e he
  · next hknown =>
    rw [if_neg hknown, hsize]
    have hmarked := (h c.id c hc).marked
    have he' := hwoken i e he
    split at he'
    · refine .of_empty ?_ (he'.1 ▸ hnew) he'.2.2
      rw [he'.2.1, hmarked]
      simpa [Status.hasValue] using hknown
    · exact he'

theorem install (h : t.Tidy) {c : Cell E V K} {new : Status E V} (hc : t.cell? c.id = some c)
    (hnew : new.isUnknown = false) : (t.install c new).Tidy := by
  refine h.yields hc hnew (u := t.settleIn c.id new) ?_ (fun i => key?_settleIn t c.id i new) _
  rw [settleIn]
  split
  · exact yields_put hc (.release t _)
  · exact yields_put hc (.refl t)

theorem suspend (h : t.Tidy) (id : Nat) (susp : Suspension E V K) :
    (t.modify id (·.suspend susp)).Tidy := by
  refine h.of_eases ?_ fun i => key?_suspend t id i susp
  intro i c hc
  rw [cell?_modify] at hc
  split at hc
  · obtain ⟨b, hb, rfl⟩ := Option.map_eq_some_iff.1 hc
    exact ⟨b, hb, rfl, rfl, fun _ hn => hn⟩
  · exact ⟨c, hc, .refl c⟩

theorem fallAsleep [DecidableEq V] (h : t.Tidy) {c : Cell E V K} (hc : t.cell? c.id = some c)
    (ep : Interim E V) (susp : Suspension E V K) : (t.fallAsleep c ep susp).Tidy := by
  unfold CellTable.fallAsleep
  split
  · have hvalue : (Status.interim ep).isUnknown = false := rfl
    refine h.yields hc hvalue ((yields_put hc (.refl t)).suspend susp) ?_ _
    exact fun i => (key?_suspend _ _ _ _).trans (key?_put _ _ _ _)
  · exact h.suspend c.id susp

theorem put (h : t.Tidy) {c : Cell E V K} {new : Status E V} (hc : t.cell? c.id = some c)
    (hold : c.status.isUnknown = false) (hnew : new.isUnknown = false) : (t.put c.id new).Tidy := by
  simpa [wakeAll, hold] using h.yields hc hnew (yields_put hc (.refl t))
    (fun i => key?_put t c.id i new) []

theorem putAll [DecidableEq E] (h : t.Tidy) {batch : List (Cell E V K × Final E V)}
    (hb : t.Batch batch) (hold : ∀ p ∈ batch, p.1.status.isUnknown = false) :
    (t.putAll batch).Tidy := by
  induction batch generalizing t with
  | nil => exact h
  | cons p rest ih =>
    exact ih (h.put (hb.cell p List.mem_cons_self) (hold p List.mem_cons_self) rfl) hb.tail
      fun q hq => hold q (List.mem_cons_of_mem _ hq)

theorem resolve [DecidableEq E] (h : t.Tidy) {group : List Depender}
    {batch : List (Cell E V K × Final E V)} (hb : (t.releaseAll group).Batch batch)
    (hold : ∀ p ∈ batch, p.1.status.isUnknown = false) : (t.resolve group batch).Tidy := by
  have hreleased := h.of_eases (.releaseAll t group) fun i =>
    key?_of_face? (face?_releaseAll t group i)
  exact (hreleased.putAll hb hold).of_eases (.announce _ batch) fun i =>
    key?_of_face? (face?_announce _ batch i)

theorem link (h : t.Tidy) {d : Depender} {i : Nat} {c : Cell E V K} (hc : t.cell? i = some c)
    (hopen : c.status.isFinal = false) (hd : ∀ j, d = .cell j → j < t.size) :
    (t.link d i).Tidy := by
  intro j e he
  rw [size_link]
  rw [CellTable.link, cell?_modify] at he
  by_cases hij : i = j
  · subst hij
    obtain rfl : { c with dependers := c.dependers.insert d.encode } = e := by simpa [hc] using he
    refine ⟨(h i c hc).marked, fun hf => by simp [hopen] at hf, fun {j} hj => ?_⟩
    obtain ⟨n, hn, hnj⟩ := List.mem_map.1 hj
    rcases SortedSet.mem_insert.1 hn with rfl | hn
    · exact hd j (Depender.eq_of_decode_encode hnj)
    · exact (h i c hc).told (List.mem_map.2 ⟨n, hn, hnj⟩)
  · exact h j e (by simpa [hij] using he)

theorem watch [DecidableEq V] (h : t.Tidy) {d : Depender} {ps : List (Nat × Status E V)}
    (hps : ∀ p ∈ ps, t.IsCurrent p) (hd : ∀ j, d = .cell j → j < t.size) : (t.watch d ps).Tidy := by
  induction ps generalizing t with
  | nil => exact h
  | cons p ps ih =>
    obtain ⟨⟨c, hc, -, hopen⟩, hrest⟩ := List.forall_mem_cons.1 hps
    refine ih (h.link hc hopen hd) (fun q hq => ?_) fun j hj => size_link t d p.1 ▸ hd j hj
    exact (isCurrent_congr (face?_link t d p.1)).2 (hrest q hq)

end Tidy
end CellTable

namespace Store
variable {E V C K : Type} {s q r : Store E V C K}

/-- What happens between two moments: options stay and a fault is not forgotten; cells that were
tidy are tidy, none of them disappears or loses its value, and what is final stays as it is. -/
structure Ages (s r : Store E V C K) : Prop where
  config : r.config = s.config
  fault : r.fault = none → s.fault = none
  tidy : s.table.Tidy → r.table.Tidy
  cells : ∀ {i id key old}, s.table.face? i = some (id, key, old) → ∃ new,
    r.table.face? i = some (id, key, new) ∧ (old.hasValue = true → new.hasValue = true) ∧
      (old.isFinal = true → new = old)

namespace Ages

theorem trans (h : s.Ages q) (h' : q.Ages r) : s.Ages r := by
  refine ⟨h'.config.trans h.config, fun hr => h.fault (h'.fault hr),
    fun ht => h'.tidy (h.tidy ht), ?_⟩
  intro i id key old hold
  obtain ⟨mid, hmid, hvalue, hfinal⟩ := h.cells hold
  obtain ⟨new, hnew, hvalue', hfinal'⟩ := h'.cells hmid
  refine ⟨new, hnew, fun hv => hvalue' (hvalue hv), fun hf => ?_⟩
  obtain rfl := hfinal hf
  exact hfinal' hf

theorem of_face (hc : r.config = s.config) (hr : r.fault = none → s.fault = none)
    (ht : s.table.Tidy → r.table.Tidy)
    (hf : ∀ {i f}, s.table.face? i = some f → r.table.face? i = some f) : s.Ages r :=
  ⟨hc, hr, ht, fun {_ _ _ old} hold => ⟨old, hf hold, fun h => h, fun _ => rfl⟩⟩

theorem of_table (h : r.table = s.table) (hc : r.config = s.config)
    (hr : r.fault = none → s.fault = none) : s.Ages r :=
  of_face hc hr (fun ht => h ▸ ht) fun hf => h ▸ hf

theorem of_becomes {t : CellTable E V K} {ts : List (Task E C K)} (h : s.Becomes t ts r)
    (ht : s.table.Tidy → t.Tidy) (hf : ∀ {i f}, s.table.face? i = some f → t.face? i = some f) :
    s.Ages r :=
  of_face h.config (fun hr => h.fault ▸ hr) (fun hs => h.table ▸ ht hs) fun hs => h.table ▸ hf hs

theorem of_quiet (h : s.Becomes s.table [] r) : s.Ages r := of_becomes h (fun ht => ht) fun hf => hf

theorem of_steady [DecidableEq E] (h : s.Steady r) : s.Ages r := by
  refine of_face h.config (fun hr => h.fault ▸ hr) (fun ht => ht.grown h.grown) ?_
  intro i f hf
  obtain ⟨c, hc, rfl⟩ := CellTable.cell?_of_face? hf
  exact CellTable.face?_of_cell? (h.grown.cell? hc)

theorem fail (s : Store E V C K) (e : Error) : s.Ages (s.fail e) := by
  refine of_table (by simp [Store.fail, notify]) (by simp [Store.fail, notify]) fun hr => ?_
  cases hs : s.fault with
  | none => rfl
  | some e => simp [Store.fail, notify, hs] at hr

theorem of_cell {t : CellTable E V K} {ts : List (Task E C K)} {c : Cell E V K} {new : Status E V}
    (h : s.Becomes t ts r) (hc : s.table.cell? c.id = some c) (hopen : c.status.isFinal = false)
    (hvalue : new.isUnknown = false)
    (hf : ∀ i, t.face? i = if i = c.id then some (c.id, c.key, new) else s.table.face? i)
    (ht : s.table.Tidy → t.Tidy) : s.Ages r := by
  refine ⟨h.config, fun hr => h.fault ▸ hr, fun hs => h.table ▸ ht hs, ?_⟩
  intro i id key old hold
  rw [h.table, hf i]
  by_cases hi : i = c.id
  · subst hi
    rw [CellTable.face?_of_cell? hc] at hold
    obtain ⟨rfl, rfl, rfl⟩ : c.id = id ∧ c.key = key ∧ c.status = old := by
      simpa [Cell.face] using hold
    exact ⟨new, by simp, fun _ => by simp [Status.hasValue, hvalue],
      fun hfinal => by simp [hopen] at hfinal⟩
  · rw [if_neg hi]
    exact ⟨old, hold, fun h => h, fun _ => rfl⟩

theorem cell? (h : s.Ages r) {i : Nat} {c : Cell E V K} (hc : s.cell? i = some c) :
    ∃ c', r.cell? i = some c' ∧ c'.key = c.key ∧
      (c.status.hasValue = true → c'.status.hasValue = true) ∧
      (c.status.isFinal = true → c'.status = c.status) := by
  obtain ⟨new, hnew, hvalue, hfinal⟩ := h.cells (CellTable.face?_of_cell? hc)
  obtain ⟨c', hc', -, hkey, rfl⟩ := CellTable.cell?_of_shown hnew
  exact ⟨c', hc', hkey, hvalue, hfinal⟩

end Ages

theorem getElem?_cells (s : Store E V C K) (i : Nat) : s.cells[i]? = s.cell? i := by
  simp [cells, CellTable.all, Store.cell?, CellTable.cell?]

theorem Registered.ages [DecidableEq V] {d : Depender} {epoch : Nat} {obs : List (Nat × Status E V)}
    (h : s.Registered d epoch obs r) (hd : ∀ j, d = .cell j → j < s.table.size) : s.Ages r := by
  have hface : ∀ {i f}, s.table.face? i = some f → r.table.face? i = some f :=
    fun hf => (h.face? _).trans hf
  cases h with
  | asleep hcurrent hr => exact .of_becomes hr (fun ht => ht.watch hcurrent hd) (hr.table ▸ hface)
  | stopped pre post p c hobs hpre hc hp hr =>
    split at hr
    · refine .of_becomes hr (fun ht => (ht.watch hpre hd).of_eases (.detach _ d _) fun i => ?_)
        (hr.table ▸ hface)
      exact CellTable.key?_of_face? (CellTable.face?_detach _ d _ i)
    · exact .of_becomes hr (fun ht => ht.watch hpre hd) (hr.table ▸ hface)

theorem Ages.keys (h : s.Ages r) : s.cells.map (·.key) <+: r.cells.map (·.key) := by
  refine List.prefix_iff_getElem?.2 fun i hi => ?_
  have hc := (getElem?_cells s i).symm.trans (List.getElem?_eq_getElem (by simpa using hi))
  obtain ⟨c', hc', hkey, -⟩ := h.cell? hc
  simp [getElem?_cells, hc', hkey]

variable [DecidableEq E]

theorem Resolves.ages {group : List Depender} {batch : List (Cell E V K × Final E V)}
    (h : s.Resolves group batch r) : s.Ages r := by
  have hinterim : ∀ p ∈ batch, ∃ iep, p.1.status = .interim iep := by
    intro p hp
    obtain ⟨-, iep, -, -, hst, -⟩ := h.members p hp
    exact ⟨iep, hst⟩
  refine ⟨h.becomes.config, fun hr => h.becomes.fault ▸ hr,
    fun ht => h.becomes.table ▸ ht.resolve h.fit fun p hp => ?_, ?_⟩
  · obtain ⟨iep, hst⟩ := hinterim p hp
    rw [hst]
    rfl
  intro i id key old hold
  rw [h.becomes.table]
  by_cases hi : ∃ p ∈ batch, p.1.id = i
  · obtain ⟨p, hp, rfl⟩ := hi
    obtain ⟨rfl, rfl, rfl⟩ : id = p.1.id ∧ key = p.1.key ∧ old = p.1.status := by
      simpa [Cell.face] using hold.symm.trans (h.shown hp)
    obtain ⟨iep, hst⟩ := hinterim p hp
    exact ⟨_, CellTable.face?_resolve_self h.fit hp, fun _ => rfl,
      fun hf => by simp [hst, Status.isFinal] at hf⟩
  · push Not at hi
    exact ⟨old, (CellTable.face?_resolve_of_ne hi).trans hold, fun h => h, fun _ => rfl⟩

theorem Sound.numbered_cells (hs : s.Sound) : s.cells.map (·.id) = List.range s.cells.length := by
  refine List.ext_getElem? fun i => ?_
  rw [List.getElem?_map, getElem?_cells]
  cases hc : s.cell? i with
  | none =>
    have hlen : s.cells.length ≤ i := by rw [← List.getElem?_eq_none_iff, getElem?_cells, hc]
    simp [hlen]
  | some c =>
    have hlen : i < s.cells.length :=
      (List.getElem?_eq_some_iff.1 ((getElem?_cells s i).trans hc)).1
    simp [hlen, hs.table.id_eq hc]

theorem Sound.distinct_cells (hs : s.Sound) :
    s.cells.Pairwise fun c e => c.key.same e.key = false := by
  refine List.pairwise_iff_getElem.2 fun i j hi hj hij => ?_
  have hci := (getElem?_cells s i).symm.trans (List.getElem?_eq_getElem hi)
  have hcj := (getElem?_cells s j).symm.trans (List.getElem?_eq_getElem hj)
  by_contra hsame
  have heq := hs.table.key_inj hci hcj (by simpa using hsame)
  omega

variable [DecidableEq V]

theorem Takes.ages {c : Cell E V K} {new : Status E V} (h : s.Takes c new r)
    (hc : s.table.cell? c.id = some c) (hfit : c.Fits new) : s.Ages r := by
  unfold Takes at h
  split at h
  · exact .of_cell h hc hfit.refinable hfit.value (CellTable.face?_install hc new)
      fun ht => ht.install hc hfit.value
  · exact .of_quiet h

theorem Makes.ages {pass : Pass} {st : Settlement E V C K} (h : s.Makes pass st) :
    st.before.Ages st.after := by
  cases h with
  | cell _ _ hc _ hfit _ hr => exact hr.ages hc hfit
  | group _ _ _ hr => exact hr.ages

theorem kept_ages : s.Kept s.Ages s.Ages where
  start := .of_quiet (.refl s)
  weaken h := h
  quiet_before h hr := h.trans (.of_quiet hr)
  quiet h hr := h.trans (.of_quiet hr)
  step h _ _ hst := h.trans hst.ages

variable [Property V] [ToString E]

theorem Served.ages {given : Option (Final E V)} {asked : Option (Key E)}
    (h : s.Served given asked r) : s.Ages r := by
  cases h with
  | steady h => exact .of_steady h
  | settled q c ep hq hc hkey hfit hcheck hr why =>
    exact (Ages.of_steady hq).trans (hr.ages hc hfit)

theorem FallsAsleep.ages {ep : Interim E V} {dependees : List (Status E V)} {k : K}
    {c : Cell E V K} {n : Nat} {obs : List (Nat × Status E V)}
    (h : s.FallsAsleep ep dependees k q c n obs r) : s.Ages r := by
  have hvalue : (c.replace (.interim ep)).2.status.isUnknown = false := by
    -- bounds that say nothing new are not written
    cases hch : (c.replace (.interim ep)).1.changed with
    | true =>
      rw [Cell.replace_of_changed hch]
      rfl
    | false =>
      obtain ⟨old, hold⟩ := CellTable.interim_of_unchanged hch
      rw [(Cell.replace_of_unchanged hch).1, hold]
      rfl
  exact (Ages.of_steady (.of_grows h.grows)).trans
    (.of_cell h.becomes h.cell h.fits.refinable hvalue (CellTable.face?_fallAsleep h.cell ep _)
      fun ht => ht.fallAsleep h.cell ep _)

variable [ToString V]

theorem perform_ages (hs : s.Sound) (a : Action E V C K) :
    Ends (perform a) s (fun _ r => s.Ages r) (s.Ages ·) := by
  have hgrow : ∀ {q}, s.Grows q → s.Ages q := fun h => .of_steady (.of_grows h)
  cases a with
  | install ep =>
    refine .unbroken ((installFinal_ends hs ep).mono ?_ fun _ h => hgrow h)
    rintro _ r ⟨q, c, hgrows, hc, -, hfit, -, htakes⟩
    exact (hgrow hgrows).trans (htakes.ages hc hfit)
  | contribute p =>
    refine (contribute_ends hs p).mono ?_ fun _ h => hgrow h
    rintro _ r ⟨q, c, hgrows, hc, -, hquiet | ⟨ep, hfit, -, htakes⟩⟩
    · exact (hgrow hgrows).trans (.of_quiet hquiet)
    · exact (hgrow hgrows).trans (htakes.ages hc hfit)
  | suspend ep dependees k =>
    have hown : ∀ {q c n obs q'}, s.FallsAsleep ep dependees k q c n obs q' →
        ∀ j, Depender.cell c.id = .cell j → j < q'.table.size := by
      rintro q c n obs q' h j ⟨⟩
      rw [h.becomes.table, CellTable.size_eq_of_key? (CellTable.key?_fallAsleep _ _ _ _)]
      exact CellTable.lt_size_of_cell? h.cell
    refine .unbroken ((suspend_ends hs ep dependees k).mono ?_ ?_)
    · rintro _ r ⟨q, c, n, obs, q', h, hreg⟩
      exact h.ages.trans (hreg.ages (hown h))
    · rintro r (hgrows | ⟨q, c, n, obs, q', pre, h, hpre, hr⟩)
      · exact hgrow hgrows
      · exact h.ages.trans (.of_becomes hr (fun ht => ht.watch hpre (hown h))
          fun hf => (CellTable.face?_watch _ _ _ _).trans hf)
  | collaborate dependees k =>
    refine .unbroken ((collaborate_ends hs dependees k).mono ?_ ?_)
    · rintro _ r ⟨q, n, obs, q', hgrows, -, hadd, -, hreg⟩
      have henlist : q.Ages q' := .of_becomes hadd (fun ht => ht.of_cells rfl) fun hf => hf
      exact ((hgrow hgrows).trans henlist).trans (hreg.ages (by simp))
    · intro r h
      obtain ⟨q, id, pre, hgrows, hpre, hcells⟩ := h.watched
      obtain ⟨t, ts, hb⟩ := h.becomes
      exact .of_face hb.config (fun hr => hb.fault ▸ hr)
        (fun ht => ((ht.grown hgrows.grown).watch hpre (by simp)).of_cells hcells) h.face
  | schedule c e =>
    have hr := schedule_becomes "incremental" s c e
    exact .unbroken (.write (.of_becomes hr (fun ht => ht) fun hf => hf))

theorem act_ages (hs : s.Sound) (a : Act E V C K) : s.Ages (s.act a) := by
  cases a with
  | call c =>
    rcases serve_cases hs c with ⟨rfl, hr⟩ | hr
    · change s.Ages (s.serve _).2
      rw [hr]
      exact .of_table rfl rfl id
    · exact hr.ages
  | start =>
    simp only [Store.act]
    split
    · exact .of_table rfl rfl id
    · split <;> exact .of_table rfl rfl id
  | perform a =>
    have hends := perform_ages hs a
    simp only [Store.act]
    cases hr : perform a s with
    | ok u r => exact hends.of_ok hr
    | error e r => exact (hends.of_error hr).trans (.fail r e)
  | crash c => exact .fail s _
  | round cycles fallbacks =>
    simp only [Store.act]
    split
    · exact .of_table rfl rfl id
    · next hguard =>
      simp only [Bool.or_eq_true, not_or, Bool.not_eq_true] at hguard
      have hround := kept_ages.onQuiescence hs hguard.2 cycles fallbacks
      split at hround
      · exact hround.2
      · exact .of_quiet hround.1
  | drop =>
    simp only [Store.act]
    split <;> exact .of_table rfl rfl id
  | tell n => exact .of_table rfl rfl id

theorem run_ages (h : s.Reachable) (acts : List (Act E V C K)) : s.Ages (s.run acts) := by
  induction acts generalizing s with
  | nil => exact .of_table rfl rfl id
  | cons a acts ih => exact (act_ages h.healthy.sound a).trans (ih (h.act a))

theorem Reachable.tidy (h : s.Reachable) : s.table.Tidy := by
  induction h with
  | create config tracer cores => exact .empty
  | act h a ih => exact (act_ages h.healthy.sound a).tidy ih

/-- The life of the cells of a store: as they are now, and whatever happens later. -/
structure CellLife (s : Store E V C K) : Prop where
  numbered : s.cells.map (·.id) = List.range s.cells.length
  distinct : s.cells.Pairwise fun c e => c.key.same e.key = false
  own_key : ∀ c ∈ s.cells, c.status.key.same c.key = true
  registered : ∀ c ∈ s.cells, (s.schema.find? c.key.kind).isSome = true
  refined : ∀ c ∈ s.cells, c.suspension ≠ none → ∃ ep, c.status = .interim ep
  final_alone : ∀ c ∈ s.cells, c.status.isFinal = true → c.suspension = none ∧ c.dependers = ∅
  marked : ∀ c ∈ s.cells, c.triggered = true ↔ c.status.hasValue = true
  dependees_exist : ∀ d susp, s.table.suspension? d = some susp → ∀ j ∈ susp.ids,
    (s.cell? j).isSome = true
  dependers_exist : ∀ c ∈ s.cells, ∀ j, .cell j ∈ c.dependers.members → (s.cell? j).isSome = true
  /-- New cells come after the old ones. -/
  keys_stay : ∀ later, s.cells.map (·.key) <+: (s.run later).cells.map (·.key)
  values_stay : ∀ later i c, s.cell? i = some c → c.status.hasValue = true →
    ∃ c', (s.run later).cell? i = some c' ∧ c'.status.hasValue = true
  finals_stay : ∀ later i c, s.cell? i = some c → c.status.isFinal = true →
    ∃ c', (s.run later).cell? i = some c' ∧ c'.status = c.status

/-- The life of cells in every reachable store, failed or not. -/
theorem cell_life (h : s.Reachable) : s.CellLife := by
  have hs := h.healthy.sound
  have htidy := h.tidy
  have hcell : ∀ c ∈ s.cells, ∃ i, s.table.cell? i = some c := fun c => CellTable.mem_all_iff.1
  have hexists : ∀ {j}, j < s.table.size → (s.cell? j).isSome = true := fun hj =>
    Option.isSome_iff_exists.2 (CellTable.cell?_of_lt hj)
  constructor
  case numbered => exact hs.numbered_cells
  case distinct => exact hs.distinct_cells
  case own_key =>
    intro c hc
    obtain ⟨i, hi⟩ := hcell c hc
    exact hs.table.own_key hi
  case registered =>
    intro c hc
    obtain ⟨i, hi⟩ := hcell c hc
    exact hs.registered hi
  case refined =>
    intro c hc
    obtain ⟨i, hi⟩ := hcell c hc
    exact hs.table.interim hi
  case final_alone =>
    intro c hc hfinal
    obtain ⟨i, hi⟩ := hcell c hc
    refine ⟨?_, (htidy i c hi).quiet hfinal⟩
    by_contra hsusp
    obtain ⟨ep, hep⟩ := hs.table.interim hi hsusp
    simp [hep, Status.isFinal] at hfinal
  case marked =>
    intro c hc
    obtain ⟨i, hi⟩ := hcell c hc
    rw [(htidy i c hi).marked]
  case dependees_exist => exact fun d susp hd j hj => hexists ((hs.table.awaits hd).2 j hj)
  case dependers_exist =>
    intro c hc j hj
    obtain ⟨i, hi⟩ := hcell c hc
    exact hexists ((htidy i c hi).told hj)
  case keys_stay => exact fun later => (run_ages h later).keys
  case values_stay =>
    intro later i c hc hvalue
    obtain ⟨c', hc', -, hvalue', -⟩ := (run_ages h later).cell? hc
    exact ⟨c', hc', hvalue' hvalue⟩
  case finals_stay =>
    intro later i c hc hfinal
    obtain ⟨c', hc', -, -, hfinal'⟩ := (run_ages h later).cell? hc
    exact ⟨c', hc', hfinal' hfinal⟩

def finalTwice : Store Element Fact Unit Nat :=
  twoMethods.run
    [.call (.setFinal ⟨⟨.method 1, FactSort.purity.kind⟩, ⟨2, .purity .pure⟩⟩), .start,
      .perform (.install ⟨⟨.method 1, FactSort.purity.kind⟩, ⟨3, .purity .impure⟩⟩)]

theorem finalTwice_cell_life :
    finalTwice.Reachable ∧ finalTwice.fault.isSome = true ∧
    (finalTwice.cell? 0).map (·.status) =
      some (.final ⟨⟨.method 1, FactSort.purity.kind⟩, ⟨2, .purity .pure⟩⟩) ∧
    finalTwice.CellLife :=
  have hr : finalTwice.Reachable := ((Reachable.create {} .none 1).run _).run _
  ⟨hr, by decide +kernel, by decide +kernel, cell_life hr⟩

end Store
end Blackboard
