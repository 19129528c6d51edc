import Blackboard.Proofs.Table

/-! What holds of every table: numbers and keys tell cells apart, a status speaks of its own cell,
only an interim value is still being refined, and whoever sleeps waits on something that exists. -/
namespace Blackboard.CellTable
variable {E V K : Type}

theorem face?_of_cell? {t : CellTable E V K} {i : Nat} {c : Cell E V K} (h : t.cell? i = some c) :
    t.face? i = some c.face := by
  simp [face?, h]

theorem cell?_of_face? {t : CellTable E V K} {i : Nat} {f : Nat × Key E × Status E V}
    (h : t.face? i = some f) : ∃ c, t.cell? i = some c ∧ c.face = f := by
  simpa [face?] using h

theorem cell?_of_shown {t : CellTable E V K} {i id : Nat} {key : Key E} {status : Status E V}
    (h : t.face? i = some (id, key, status)) :
    ∃ c, t.cell? i = some c ∧ c.id = id ∧ c.key = key ∧ c.status = status := by
  simpa [Cell.face] using cell?_of_face? h

theorem key?_of_face? {t u : CellTable E V K} {i : Nat} (h : u.face? i = t.face? i) :
    u.key? i = t.key? i := by
  have hkey : ∀ w : CellTable E V K, w.key? i = (w.face? i).map (·.2.1) := fun w => by
    simp [key?, face?, Cell.face, Function.comp_def]
  rw [hkey, hkey, h]

theorem lt_size_iff_key? {t : CellTable E V K} {i : Nat} : i < t.size ↔ (t.key? i).isSome := by
  simp [key?, cell?, size]

theorem size_eq_of_key? {t u : CellTable E V K} (h : ∀ i, u.key? i = t.key? i) :
    u.size = t.size := by
  have hlt : ∀ i, i < u.size ↔ i < t.size := fun i => by simp only [lt_size_iff_key?, h]
  have h1 := hlt t.size
  have h2 := hlt u.size
  omega

/-- The second table has some new cells more and is otherwise the same. -/
structure Grown (t u : CellTable E V K) : Prop where
  size_le : t.size ≤ u.size
  old : ∀ {i}, i < t.size → u.cell? i = t.cell? i
  new : ∀ {i c}, t.size ≤ i → u.cell? i = some c → ∃ key, c = .create i key
  collaborators : u.collaborators = t.collaborators
  nextCollaborator : u.nextCollaborator = t.nextCollaborator

namespace Grown

theorem refl (t : CellTable E V K) : t.Grown t where
  size_le := Nat.le_refl _
  old _ := rfl
  new hi hc := absurd (lt_size_of_cell? hc) (Nat.not_lt.2 hi)
  collaborators := rfl
  nextCollaborator := rfl

theorem trans {t u v : CellTable E V K} (h : t.Grown u) (h' : u.Grown v) : t.Grown v where
  size_le := Nat.le_trans h.size_le h'.size_le
  old hi := (h'.old (Nat.lt_of_lt_of_le hi h.size_le)).trans (h.old hi)
  new {i c} hi hc := by
    by_cases hu : i < u.size
    · exact h.new hi (h'.old hu ▸ hc)
    · exact h'.new (Nat.not_lt.1 hu) hc
  collaborators := h'.collaborators.trans h.collaborators
  nextCollaborator := h'.nextCollaborator.trans h.nextCollaborator

theorem grow (t : CellTable E V K) (key : Key E) : t.Grown (t.grow key) where
  size_le := by simp
  old {i} hi := by
    rw [cell?_grow]
    have : i ≠ t.size := by omega
    simp [this]
  new {i c} hi hc := by
    have hlt := lt_size_of_cell? hc
    rw [size_grow] at hlt
    obtain rfl : i = t.size := by omega
    rw [cell?_grow, if_pos rfl] at hc
    exact ⟨key, (Option.some.inj hc).symm⟩
  collaborators := rfl
  nextCollaborator := rfl

theorem cell? {t u : CellTable E V K} (h : t.Grown u) {i : Nat} {c : Cell E V K}
    (hc : t.cell? i = some c) : u.cell? i = some c :=
  (h.old (lt_size_of_cell? hc)).trans hc

theorem suspension? {t u : CellTable E V K} (h : t.Grown u) (d : Depender) :
    u.suspension? d = t.suspension? d := by
  cases d with
  | cell i =>
    rw [CellTable.suspension?, CellTable.suspension?]
    by_cases hi : i < t.size
    · rw [h.old hi]
    · have hnone : t.cell? i = none := by
        cases hc : t.cell? i with
        | none => rfl
        | some c => exact absurd (lt_size_of_cell? hc) hi
      rw [hnone]
      cases hc : u.cell? i with
      | none => rfl
      | some c =>
        obtain ⟨key, rfl⟩ := h.new (Nat.not_lt.1 hi) hc
        rfl
  | collaborator i =>
    rw [CellTable.suspension?, CellTable.suspension?, collaborator?, collaborator?, h.collaborators]

end Grown

variable [DecidableEq E]

structure Sound (t : CellTable E V K) : Prop where
  apart : t.Apart
  room : t.size ≤ collaboratorBit
  id_eq : ∀ {i c}, t.cell? i = some c → c.id = i
  key_inj : ∀ {i j c e}, t.cell? i = some c → t.cell? j = some e → c.key.same e.key = true → i = j
  own_key : ∀ {i c}, t.cell? i = some c → c.status.key.same c.key = true
  interim : ∀ {i c}, t.cell? i = some c → c.suspension ≠ none → ∃ ep, c.status = .interim ep
  awaits : ∀ {d susp}, t.suspension? d = some susp → susp.dependees ≠ [] ∧ ∀ i ∈ susp.ids,
    i < t.size
  numbered : ∀ c ∈ t.collaborators, c.id < t.nextCollaborator ∧ c.id < collaboratorBit
  asleep : ∀ c ∈ t.collaborators, c.suspension ≠ none

namespace Sound

theorem empty : (CellTable.empty : CellTable E V K).Sound where
  apart := List.Pairwise.nil
  room := Nat.zero_le _
  id_eq h := by simp [CellTable.empty, cell?] at h
  key_inj h := by simp [CellTable.empty, cell?] at h
  own_key h := by simp [CellTable.empty, cell?] at h
  interim h := by simp [CellTable.empty, cell?] at h
  awaits {d susp} h := by cases d <;> simp [suspension?, CellTable.empty, cell?, collaborator?] at h
  numbered c h := by simp [CellTable.empty] at h
  asleep c h := by simp [CellTable.empty] at h

theorem of_cells {t u : CellTable E V K} (h : t.Sound) (hsize : u.size = t.size)
    (hcell : ∀ {i c}, u.cell? i = some c → ∃ e, t.cell? i = some e ∧ c.id = e.id ∧ c.key = e.key ∧
      c.status.key.same e.key = true ∧ (c.suspension ≠ none → ∃ ep, c.status = .interim ep))
    (hs : ∀ {d susp}, u.suspension? d = some susp →
      susp.dependees ≠ [] ∧ ∀ i ∈ susp.ids, i < t.size)
    (hc : u.collaborators.Sublist t.collaborators) (hn : u.nextCollaborator = t.nextCollaborator) :
    u.Sound := by
  refine ⟨h.apart.sublist hc, hsize ▸ h.room, ?_, ?_, ?_, ?_, fun hd => hsize ▸ hs hd, ?_, ?_⟩
  · intro i c hi
    obtain ⟨e, he, hid, -⟩ := hcell hi
    exact hid.trans (h.id_eq he)
  · intro i j c c' hi hj hk
    obtain ⟨e, he, -, hkey, -⟩ := hcell hi
    obtain ⟨e', he', -, hkey', -⟩ := hcell hj
    exact h.key_inj he he' (by rw [← hkey, ← hkey']; exact hk)
  · intro i c hi
    obtain ⟨e, -, -, hkey, hown, -⟩ := hcell hi
    exact hkey ▸ hown
  · intro i c hi
    obtain ⟨e, -, -, -, -, hint⟩ := hcell hi
    exact hint
  · intro c hm
    rw [hn]
    exact h.numbered c (hc.subset hm)
  · intro c hm
    exact h.asleep c (hc.subset hm)

theorem of_face? {t u : CellTable E V K} (h : t.Sound) (hf : ∀ i, u.face? i = t.face? i)
    (hs : ∀ d susp, u.suspension? d = some susp → t.suspension? d = some susp)
    (hc : u.collaborators.Sublist t.collaborators) (hn : u.nextCollaborator = t.nextCollaborator) :
    u.Sound := by
  refine h.of_cells (size_eq_of_key? fun i => key?_of_face? (hf i)) ?_
    (fun hd => h.awaits (hs _ _ hd)) hc hn
  intro i c hi
  obtain ⟨e, he, hid, hkey, hst⟩ := cell?_of_shown ((hf i).symm.trans (face?_of_cell? hi))
  refine ⟨e, he, hid.symm, hkey.symm, hst ▸ h.own_key he, ?_⟩
  intro hsusp
  obtain ⟨susp, hsome⟩ := Option.ne_none_iff_exists'.1 hsusp
  have hold := hs (.cell i) susp (by simp [suspension?, hi, hsome])
  simp only [suspension?, he, Option.bind_some] at hold
  exact hst ▸ h.interim he (by simp [hold])

theorem depender_lt {t : CellTable E V K} (h : t.Sound) {d : Depender} {susp : Suspension E V K}
    (hd : t.suspension? d = some susp) : d.id < collaboratorBit := by
  cases d with
  | cell i =>
    obtain ⟨c, hc, -⟩ := Option.bind_eq_some_iff.1 hd
    exact Nat.lt_of_lt_of_le (lt_size_of_cell? hc) h.room
  | collaborator i =>
    obtain ⟨c, hc, -⟩ := Option.bind_eq_some_iff.1 hd
    have hid : c.id = i := by simpa using List.find?_some hc
    exact hid ▸ (h.numbered c (List.mem_of_find?_eq_some hc)).2

theorem detach {t : CellTable E V K} (h : t.Sound) (d : Depender) (susp : Suspension E V K) :
    (t.detach d susp).Sound := by
  refine h.of_face? (face?_detach t d susp) ?_ ?_ (nextCollaborator_detach t d susp)
  · intro e s hs
    rw [suspension?_detach] at hs
    by_cases he : e = d <;> simp_all
  · exact collaborators_detach t d susp ▸ others_sublist t d

theorem release {t : CellTable E V K} (h : t.Sound) (d : Depender) : (t.release d).Sound := by
  rw [CellTable.release]
  split
  · exact h.detach d _
  · exact h

theorem wake {t : CellTable E V K} (h : t.Sound) (id : Nat) (d : Depender) :
    (t.wake id d).Sound := by
  rw [CellTable.wake]
  split
  · exact h.detach d _
  · exact h

theorem modify {t : CellTable E V K} (h : t.Sound) (i : Nat) {f : Cell E V K → Cell E V K}
    (hf : ∀ c, (f c).face = c.face) (hs : ∀ c, (f c).suspension = c.suspension) :
    (t.modify i f).Sound := by
  refine h.of_face? ?_ ?_ (List.Sublist.refl _) rfl
  · intro j
    rw [face?, cell?_modify, face?]
    by_cases hij : i = j
    · cases t.cell? j <;> simp [hij, hf]
    · simp [hij]
  · intro d susp hd
    cases d with
    | cell j =>
      rw [suspension?, cell?_modify] at hd
      rw [suspension?]
      by_cases hij : i = j
      · cases hc : t.cell? j <;> simp_all
      · simpa [hij] using hd
    | collaborator j => exact hd

theorem put {t : CellTable E V K} (h : t.Sound) {i : Nat} {c : Cell E V K} {new : Status E V}
    (hc : t.cell? i = some c) (hk : new.key.same c.key = true)
    (hnew : c.suspension ≠ none → ∃ ep, new = .interim ep) : (t.put i new).Sound := by
  refine h.of_cells (size_put t i new) ?_ (fun hd => h.awaits (suspension?_put t i new _ ▸ hd))
    (List.Sublist.refl _) rfl
  intro j e he
  rw [cell?_put] at he
  obtain ⟨b, hb, rfl⟩ := Option.map_eq_some_iff.1 he
  refine ⟨b, hb, ?_⟩
  by_cases hij : i = j
  · subst hij
    obtain rfl : c = b := Option.some.inj (hc.symm.trans hb)
    exact ⟨by simp, by simp, by simpa using hk, by simpa using hnew⟩
  · rw [if_neg hij]
    exact ⟨rfl, rfl, h.own_key hb, h.interim hb⟩

theorem suspend {t : CellTable E V K} (h : t.Sound) {i : Nat} {c : Cell E V K} {ep : Interim E V}
    {susp : Suspension E V K} (hc : t.cell? i = some c) (hep : c.status = .interim ep)
    (hne : susp.dependees ≠ []) (hlt : ∀ j ∈ susp.ids, j < t.size) :
    (t.modify i (·.suspend susp)).Sound := by
  refine h.of_cells (size_modify t i _) ?_ ?_ (List.Sublist.refl _) rfl
  · intro j e he
    rw [cell?_modify] at he
    by_cases hij : i = j
    · subst hij
      obtain ⟨b, hb, rfl⟩ := Option.map_eq_some_iff.1 (by simpa using he)
      obtain rfl : c = b := Option.some.inj (hc.symm.trans hb)
      exact ⟨c, hc, rfl, rfl, (h.own_key hc :), fun _ => ⟨ep, hep⟩⟩
    · have hb : t.cell? j = some e := by simpa [hij] using he
      exact ⟨e, hb, rfl, rfl, h.own_key hb, h.interim hb⟩
  · intro d s hd
    rw [suspension?_modify_suspend hc] at hd
    by_cases hdi : d = .cell i
    · obtain rfl : susp = s := by simpa [hdi] using hd
      exact ⟨hne, hlt⟩
    · exact h.awaits (by simpa [hdi] using hd)

end Sound

/-! New cells and new collaborators. -/

theorem find?_eq_none_iff {t : CellTable E V K} {key : Key E} :
    t.find? key = none ↔ ∀ i c, t.cell? i = some c → ¬ c.key.same key = true := by
  rw [CellTable.find?, Array.find?_eq_none]
  constructor
  · intro h i c hc
    exact h c (Array.mem_of_getElem? hc)
  · intro h c hc
    obtain ⟨i, hi⟩ := Array.mem_iff_getElem?.1 hc
    exact h i c hi

theorem find?_eq_some {t : CellTable E V K} (h : t.Sound) {key : Key E} {c : Cell E V K}
    (hc : t.find? key = some c) : t.cell? c.id = some c ∧ c.key.same key = true := by
  obtain ⟨i, hi⟩ := Array.mem_iff_getElem?.1 (Array.mem_of_find?_eq_some hc)
  exact ⟨(h.id_eq hi).symm ▸ hi, by simpa using Array.find?_some hc⟩

theorem find?_of_key? {t : CellTable E V K} (h : t.Sound) {i : Nat} {own key : Key E}
    (hi : t.key? i = some own) (hsame : own.same key = true) :
    ∃ c, t.find? key = some c ∧ c.id = i := by
  obtain ⟨e, he, rfl⟩ := Option.map_eq_some_iff.1 hi
  cases hf : t.find? key with
  | none => exact absurd hsame (find?_eq_none_iff.1 hf i e he)
  | some c =>
    obtain ⟨hc, hkey⟩ := find?_eq_some h hf
    exact ⟨c, rfl, h.key_inj hc he (Key.same_trans hkey (Key.same_symm hsame))⟩

theorem find?_grow (t : CellTable E V K) (key k : Key E) :
    (t.grow key).find? k = (t.find? k).or
      (if key.same k = true then some (.create t.size key) else none) := by
  simp only [find?, grow, Array.find?_push]
  rfl

theorem getOrCreate_cases (t : CellTable E V K) (key : Key E) :
    (∃ c, t.find? key = some c ∧ t.getOrCreate key = .ok (c, false, t)) ∨
    (t.find? key = none ∧ t.size < collaboratorBit ∧
      t.getOrCreate key = .ok (.create t.size key, true, t.grow key)) ∨
    ∃ e, t.getOrCreate key = .error e := by
  rcases hf : t.find? key with _ | c
  · by_cases hroom : t.size < collaboratorBit
    · refine .inr (.inl ⟨rfl, hroom, ?_⟩)
      simp [getOrCreate, hf, cellId, hroom, grow, bind, Except.bind, pure, Except.pure]
    · refine .inr (.inr ⟨.invariant ("more than " ++ toString collaboratorBit ++ " states"), ?_⟩)
      simp [getOrCreate, hf, cellId, hroom, bind, Except.bind]
  · exact .inl ⟨c, rfl, by simp [getOrCreate, hf]⟩

theorem Sound.grow {t : CellTable E V K} (h : t.Sound) {key : Key E} (hnew : t.find? key = none)
    (hroom : t.size < collaboratorBit) : (t.grow key).Sound := by
  have hcell : ∀ {i c}, (t.grow key).cell? i = some c →
      t.cell? i = some c ∨ i = t.size ∧ c = .create t.size key := by
    intro i c hi
    rw [cell?_grow] at hi
    by_cases hs : i = t.size
    · exact .inr ⟨hs, by simpa [hs] using hi.symm⟩
    · exact .inl (by simpa [hs] using hi)
  refine ⟨h.apart, by rw [size_grow]; exact hroom, ?_, ?_, ?_, ?_, ?_, h.numbered, h.asleep⟩
  · intro i c hi
    rcases hcell hi with hc | ⟨rfl, rfl⟩
    · exact h.id_eq hc
    · rfl
  · intro i j c c' hi hj hk
    rcases hcell hi with hc | ⟨rfl, rfl⟩ <;> rcases hcell hj with hc' | ⟨rfl, rfl⟩
    · exact h.key_inj hc hc' hk
    · exact absurd hk (find?_eq_none_iff.1 hnew i c hc)
    · exact absurd (Key.same_symm hk) (find?_eq_none_iff.1 hnew j c' hc')
    · rfl
  · intro i c hi
    rcases hcell hi with hc | ⟨rfl, rfl⟩
    · exact h.own_key hc
    · simp [Cell.create, Status.key]
  · intro i c hi hsusp
    rcases hcell hi with hc | ⟨rfl, rfl⟩
    · exact h.interim hc hsusp
    · exact absurd rfl hsusp
  · intro d susp hd
    rw [suspension?_grow] at hd
    obtain ⟨hne, hlt⟩ := h.awaits hd
    refine ⟨hne, fun i hi => ?_⟩
    have := hlt i hi
    rw [size_grow]
    omega

def enlist (t : CellTable E V K) (susp : Suspension E V K) : CellTable E V K :=
  { t with
    collaborators := t.collaborators ++ [⟨t.nextCollaborator, some susp⟩]
    nextCollaborator := t.nextCollaborator + 1 }

/-- A number that is handed out to nobody. -/
def skip (t : CellTable E V K) : CellTable E V K :=
  { t with nextCollaborator := t.nextCollaborator + 1 }

theorem Sound.suspension?_enlist {t : CellTable E V K} (h : t.Sound) (susp : Suspension E V K)
    (d : Depender) :
    (t.enlist susp).suspension? d =
      if d = .collaborator t.nextCollaborator then some susp else t.suspension? d := by
  cases d with
  | cell i => rfl
  | collaborator i =>
    simp only [suspension?, collaborator?, enlist, List.find?_append, Depender.collaborator.injEq]
    by_cases hi : i = t.nextCollaborator
    · have hnone : t.collaborators.find? (·.id == i) = none := by
        rw [List.find?_eq_none]
        intro c hc hid
        have hlt := (h.numbered c hc).1
        have heq : c.id = i := by simpa using hid
        omega
      rw [hnone]
      simp [hi]
    · simp [hi, Ne.symm hi]

theorem Sound.enlist {t : CellTable E V K} (h : t.Sound) {susp : Suspension E V K}
    (hroom : t.nextCollaborator < collaboratorBit) (hne : susp.dependees ≠ [])
    (hlt : ∀ i ∈ susp.ids, i < t.size) : (t.enlist susp).Sound := by
  have hmem : ∀ c ∈ (t.enlist susp).collaborators,
      c ∈ t.collaborators ∨ c = ⟨t.nextCollaborator, some susp⟩ := by
    simp [CellTable.enlist]
  refine ⟨?_, h.room, h.id_eq, h.key_inj, h.own_key, h.interim, ?_, ?_, ?_⟩
  · refine List.pairwise_append.2 ⟨h.apart, List.pairwise_singleton _ _, ?_⟩
    intro a ha b hb
    obtain rfl : b = ⟨t.nextCollaborator, some susp⟩ := by simpa using hb
    exact Nat.ne_of_lt (h.numbered a ha).1
  · intro d s hd
    rw [h.suspension?_enlist] at hd
    by_cases hdn : d = .collaborator t.nextCollaborator
    · obtain rfl : susp = s := by simpa [hdn] using hd
      exact ⟨hne, hlt⟩
    · exact h.awaits (by simpa [hdn] using hd)
  · intro c hc
    rcases hmem c hc with hc | rfl
    · have hnum := h.numbered c hc
      exact ⟨Nat.lt_succ_of_lt hnum.1, hnum.2⟩
    · exact ⟨Nat.lt_succ_self _, hroom⟩
  · intro c hc
    rcases hmem c hc with hc | rfl
    · exact h.asleep c hc
    · simp

theorem Sound.skip {t : CellTable E V K} (h : t.Sound) : t.skip.Sound :=
  ⟨h.apart, h.room, h.id_eq, h.key_inj, h.own_key, h.interim, h.awaits,
    fun c hc => ⟨Nat.lt_succ_of_lt (h.numbered c hc).1, (h.numbered c hc).2⟩, h.asleep⟩

end Blackboard.CellTable
