import Blackboard.CellTable

/-! A table seen through three questions: which cell stands at a number, which suspension a depender
sleeps in, and who is told when a cell changes. The operations are described by their answers. -/
namespace Blackboard

namespace SortedSet
variable {α : Type} [Ord α]

theorem erase_erase [DecidableEq α] (s : SortedSet α) (x : α) :
    (s.erase x).erase x = s.erase x := by
  ext1
  simp [erase, List.filter_filter]

@[simp] theorem not_mem_empty (x : α) : x ∉ (∅ : SortedSet α) :=
  List.not_mem_nil

variable [Std.TransOrd α] [Std.LawfulEqOrd α] {s t : SortedSet α} {a : α}

theorem ext_mem (h : ∀ a, a ∈ s ↔ a ∈ t) : s = t := by
  have hnodup (u : SortedSet α) : u.toList.Nodup :=
    u.sorted.imp fun {a b} hlt heq => by simp [heq] at hlt
  have hperm := (List.perm_ext_iff_of_nodup (hnodup s) (hnodup t)).2 h
  refine SortedSet.ext (hperm.eq_of_pairwise ?_ s.sorted t.sorted)
  intro a b _ _ hab hba
  cases hab.symm.trans (Std.OrientedCmp.gt_iff_lt.2 hba)

theorem mem_union : a ∈ s.union t ↔ a ∈ t ∨ a ∈ s := mem_insertMany

theorem mem_ofList {l : List α} : a ∈ SortedSet.ofList l ↔ a ∈ l := by
  rw [ofList, mem_insertMany]
  exact or_iff_left (List.not_mem_nil)

end SortedSet

theorem Key.same_symm {E : Type} [DecidableEq E] {a b : Key E} (h : a.same b = true) :
    b.same a = true := by
  rw [same_iff] at h ⊢
  exact ⟨h.1.symm, h.2.symm⟩

theorem Key.same_trans {E : Type} [DecidableEq E] {a b c : Key E} (h : a.same b = true)
    (h' : b.same c = true) : a.same c = true := by
  rw [same_iff] at h h' ⊢
  exact ⟨h.1.trans h'.1, h.2.trans h'.2⟩

theorem Depender.encode_injective {d e : Depender} (hd : d.id < collaboratorBit)
    (he : e.id < collaboratorBit) (h : d.encode = e.encode) : d = e := by
  rw [← decode_encode hd, ← decode_encode he, h]

theorem DependerSet.mem_members {s : DependerSet} {d : Depender} (h : d.encode ∈ s)
    (hd : d.id < collaboratorBit) : d ∈ s.members :=
  List.mem_map.2 ⟨d.encode, h, Depender.decode_encode hd⟩

theorem Suspension.waitsOn_iff {E V K : Type} {s : Suspension E V K} {id : Nat} :
    s.waitsOn id = true ↔ id ∈ s.ids := by
  simp [waitsOn, ids]

/-- What a cell is, apart from who waits. -/
def Cell.face {E V K : Type} (c : Cell E V K) : Nat × Key E × Status E V := (c.id, c.key, c.status)

namespace CellTable
variable {E V K : Type}

/-- The suspension a depender sleeps in. -/
def suspension? (t : CellTable E V K) : Depender → Option (Suspension E V K)
  | .cell id => (t.cell? id).bind (·.suspension)
  | .collaborator id => (t.collaborator? id).bind (·.suspension)

/-- The depender is told when the cell changes. -/
def Tells (t : CellTable E V K) (id : Nat) (d : Depender) : Prop :=
  ∃ c, t.cell? id = some c ∧ d.encode ∈ c.dependers

def face? (t : CellTable E V K) (id : Nat) : Option (Nat × Key E × Status E V) :=
  (t.cell? id).map (·.face)

def key? (t : CellTable E V K) (id : Nat) : Option (Key E) := (t.cell? id).map (·.key)

/-- Gives a cell a new status; nobody is told any more. -/
def put (t : CellTable E V K) (id : Nat) (new : Status E V) : CellTable E V K :=
  t.modify id fun c => { c with status := new, dependers := ∅ }

def clear (t : CellTable E V K) : Depender → CellTable E V K
  | .cell id => t.modify id fun c => { c with suspension := none }
  | .collaborator id => t.modifyCollaborator id fun c => { c with suspension := none }

/-- Ends a suspension for good: it is taken out, and what it waited on forgets the depender. -/
def detach (t : CellTable E V K) (d : Depender) (susp : Suspension E V K) : CellTable E V K :=
  (t.clear d).unlink d susp

def wake (id : Nat) (t : CellTable E V K) (d : Depender) : CellTable E V K :=
  match (t.suspension? d).filter (·.waitsOn id) with
  | some susp => t.detach d susp
  | none => t

theorem cell?_modify (t : CellTable E V K) (i j : Nat) (f : Cell E V K → Cell E V K) :
    (t.modify i f).cell? j = if i = j then (t.cell? j).map f else t.cell? j :=
  Array.getElem?_modify

@[simp] theorem size_modify (t : CellTable E V K) (i : Nat) (f : Cell E V K → Cell E V K) :
    (t.modify i f).size = t.size := by
  simp [modify, size]

@[simp] theorem collaborators_modify (t : CellTable E V K) (i : Nat) (f : Cell E V K → Cell E V K) :
    (t.modify i f).collaborators = t.collaborators := rfl

@[simp] theorem nextCollaborator_modify (t : CellTable E V K) (i : Nat)
    (f : Cell E V K → Cell E V K) :
    (t.modify i f).nextCollaborator = t.nextCollaborator := rfl

theorem lt_size_of_cell? {t : CellTable E V K} {i : Nat} {c : Cell E V K} (h : t.cell? i = some c) :
    i < t.size :=
  (Array.getElem?_eq_some_iff.1 h).1

theorem cell?_of_lt {t : CellTable E V K} {i : Nat} (h : i < t.size) : ∃ c, t.cell? i = some c :=
  ⟨_, Array.getElem?_eq_getElem h⟩

theorem mem_all_iff {t : CellTable E V K} {c : Cell E V K} : c ∈ t.all ↔
    ∃ i, t.cell? i = some c := by
  simp [all, cell?, Array.mem_toList_iff, Array.mem_iff_getElem?]

/-! Taking a suspension out. -/

theorem cell?_clear (t : CellTable E V K) (d : Depender) (i : Nat) :
    (t.clear d).cell? i =
      (t.cell? i).map fun c =>
      { c with suspension := if d = .cell i then none else c.suspension } := by
  cases d with
  | cell j =>
    rw [clear, cell?_modify]
    by_cases h : j = i
    · simp [h]
    · cases hc : t.cell? i <;> simp [h]
  | collaborator j =>
    change t.cell? i = _
    cases hc : t.cell? i <;> simp

theorem cell?_forget (t : CellTable E V K) (d : Depender) (ids : List Nat) (i : Nat) :
    (ids.foldl (fun t id => t.modify id (·.removeDepender d)) t).cell? i =
      (t.cell? i).map fun c => if i ∈ ids then c.removeDepender d else c := by
  induction ids generalizing t with
  | nil => simp
  | cons j ids ih =>
    rw [List.foldl_cons, ih, cell?_modify]
    cases hc : t.cell? i with
    | none => simp
    | some c =>
      have twice : (c.removeDepender d).removeDepender d = c.removeDepender d := by
        simp [Cell.removeDepender, SortedSet.erase_erase]
      by_cases hj : j = i
      · by_cases hi : i ∈ ids <;> simp [hj, hi, twice]
      · have hi : i ≠ j := Ne.symm hj
        simp [hj, hi]

theorem collaborators_forget (t : CellTable E V K) (d : Depender) (ids : List Nat) :
    (ids.foldl (fun t id => t.modify id (·.removeDepender d)) t).collaborators =
      t.collaborators := by
  induction ids generalizing t with
  | nil => rfl
  | cons j ids ih => rw [List.foldl_cons, ih, collaborators_modify]

theorem nextCollaborator_forget (t : CellTable E V K) (d : Depender) (ids : List Nat) :
    (ids.foldl (fun t id => t.modify id (·.removeDepender d)) t).nextCollaborator =
      t.nextCollaborator := by
  induction ids generalizing t with
  | nil => rfl
  | cons j ids ih => rw [List.foldl_cons, ih, nextCollaborator_modify]

theorem cell?_unlink (t : CellTable E V K) (d : Depender) (susp : Suspension E V K) (i : Nat) :
    (t.unlink d susp).cell? i =
      (t.cell? i).map fun c => if i ∈ susp.ids then c.removeDepender d else c := by
  cases d <;> exact cell?_forget t _ susp.ids i

theorem cell?_detach (t : CellTable E V K) (d : Depender) (susp : Suspension E V K) (i : Nat) :
    (t.detach d susp).cell? i = (t.cell? i).map fun c =>
      { c with
        suspension := if d = .cell i then none else c.suspension
        dependers := if i ∈ susp.ids then c.dependers.erase d.encode else c.dependers } := by
  rw [detach, cell?_unlink, cell?_clear]
  cases hc : t.cell? i with
  | none => rfl
  | some c => by_cases hi : i ∈ susp.ids <;> simp [hi, Cell.removeDepender]

/-- The collaborators that are left once a depender's suspension ended. -/
def others (t : CellTable E V K) : Depender → List (Collaborator E V K)
  | .cell _ => t.collaborators
  | .collaborator id => t.collaborators.filter (·.id != id)

theorem collaborators_detach (t : CellTable E V K) (d : Depender) (susp : Suspension E V K) :
    (t.detach d susp).collaborators = t.others d := by
  cases d with
  | cell j => exact collaborators_forget _ _ _
  | collaborator j =>
    change ((susp.ids.foldl _ (t.clear (.collaborator j))).collaborators).filter (·.id != j) = _
    rw [collaborators_forget]
    change (t.collaborators.map _).filter (·.id != j) = t.collaborators.filter (·.id != j)
    induction t.collaborators with
    | nil => rfl
    | cons c rest ih =>
      by_cases h : c.id = j
      · simpa [h] using ih
      · simpa [h] using ih

@[simp] theorem nextCollaborator_detach (t : CellTable E V K) (d : Depender)
    (susp : Suspension E V K) : (t.detach d susp).nextCollaborator = t.nextCollaborator := by
  cases d <;> exact nextCollaborator_forget _ _ _

theorem face?_detach (t : CellTable E V K) (d : Depender) (susp : Suspension E V K) (i : Nat) :
    (t.detach d susp).face? i = t.face? i := by
  rw [face?, cell?_detach, face?]
  cases t.cell? i <;> rfl

theorem find?_filter_id (l : List (Collaborator E V K)) (i j : Nat) :
    (l.filter (·.id != j)).find? (·.id == i) = if i = j then none else l.find? (·.id == i) := by
  induction l with
  | nil => simp
  | cons c rest ih =>
    by_cases hj : c.id = j
    · by_cases hi : i = j
      · simp [hi]
      · have hc : ¬ j = i := Ne.symm hi
        simpa [hj, hi, hc] using ih
    · by_cases hi : c.id = i
      · subst hi
        simp [hj]
      · simpa [hj, hi] using ih

theorem suspension?_detach (t : CellTable E V K) (d e : Depender) (susp : Suspension E V K) :
    (t.detach d susp).suspension? e = if e = d then none else t.suspension? e := by
  cases e with
  | cell i =>
    rw [suspension?, cell?_detach, suspension?]
    by_cases h : d = .cell i
    · cases t.cell? i <;> simp [h]
    · cases t.cell? i <;> simp [h, Ne.symm h]
  | collaborator i =>
    rw [suspension?, collaborator?, collaborators_detach, suspension?, collaborator?]
    cases d with
    | cell j => simp [others]
    | collaborator j =>
      rw [others, find?_filter_id]
      by_cases h : i = j <;> simp [h]

theorem tells_detach {t : CellTable E V K} {d e : Depender} {susp : Suspension E V K} {i : Nat} :
    (t.detach d susp).Tells i e ↔ t.Tells i e ∧ ¬ (e.encode = d.encode ∧ i ∈ susp.ids) := by
  rw [Tells, cell?_detach, Tells]
  cases t.cell? i with
  | none => simp
  | some c => by_cases hi : i ∈ susp.ids <;> simp [hi]

/-! Ending the suspensions of those that a change concerns. -/

def release (t : CellTable E V K) (d : Depender) : CellTable E V K :=
  match t.suspension? d with
  | some susp => t.detach d susp
  | none => t

theorem suspension?_release (t : CellTable E V K) (d e : Depender) :
    (t.release d).suspension? e = if e = d then none else t.suspension? e := by
  rw [release]
  split
  · exact suspension?_detach t d e _
  · next h => by_cases he : e = d <;> simp [he, h]

theorem face?_release (t : CellTable E V K) (d : Depender) (i : Nat) :
    (t.release d).face? i = t.face? i := by
  rw [release]
  split
  · exact face?_detach t d _ i
  · rfl

theorem suspension?_wake (t : CellTable E V K) (id : Nat) (d e : Depender) :
    (t.wake id d).suspension? e =
      if e = d then (t.suspension? e).filter (!·.waitsOn id) else t.suspension? e := by
  rw [wake]
  split
  · next susp h =>
    obtain ⟨hs, hp⟩ := Option.filter_eq_some_iff.1 h
    rw [suspension?_detach]
    by_cases he : e = d
    · simp [he, hs, hp, Option.filter_some]
    · simp [he]
  · next h =>
    by_cases he : e = d
    · subst he
      cases hs : t.suspension? e with
      | none => simp
      | some susp =>
        have hp : susp.waitsOn id = false := by simpa [hs, Option.filter_some] using h
        simp [hp, Option.filter_some]
    · simp [he]

theorem face?_wake (t : CellTable E V K) (id : Nat) (d : Depender) (i : Nat) :
    (t.wake id d).face? i = t.face? i := by
  rw [wake]
  split
  · exact face?_detach t d _ i
  · rfl

theorem others_sublist (t : CellTable E V K) (d : Depender) :
    (t.others d).Sublist t.collaborators := by
  cases d with
  | cell i => exact List.Sublist.refl _
  | collaborator i => exact List.filter_sublist

theorem collaborators_wake_sublist (t : CellTable E V K) (id : Nat) (d : Depender) :
    (t.wake id d).collaborators.Sublist t.collaborators := by
  rw [wake]
  split
  · exact collaborators_detach t d _ ▸ others_sublist t d
  · exact List.Sublist.refl _

/-! Putting a status in place, and falling asleep. -/

theorem cell?_put (t : CellTable E V K) (i j : Nat) (new : Status E V) :
    (t.put i new).cell? j =
      (t.cell? j).map fun c => if i = j then { c with status := new, dependers := ∅ } else c := by
  rw [put, cell?_modify]
  by_cases h : i = j <;> cases t.cell? j <;> simp [h]

@[simp] theorem size_put (t : CellTable E V K) (i : Nat) (new : Status E V) :
    (t.put i new).size = t.size :=
  size_modify _ _ _

theorem suspension?_put (t : CellTable E V K) (i : Nat) (new : Status E V) (d : Depender) :
    (t.put i new).suspension? d = t.suspension? d := by
  cases d with
  | cell j =>
    rw [suspension?, cell?_put, suspension?]
    cases t.cell? j with
    | none => rfl
    | some c => by_cases h : i = j <;> simp [h]
  | collaborator j => rfl

theorem face?_put (t : CellTable E V K) (i j : Nat) (new : Status E V) :
    (t.put i new).face? j =
      if i = j then (t.face? j).map fun f => (f.1, f.2.1, new) else t.face? j := by
  rw [face?, cell?_put, face?]
  by_cases h : i = j <;> cases t.cell? j <;> simp [h, Cell.face]

theorem tells_put {t : CellTable E V K} {i j : Nat} {new : Status E V} {d : Depender} :
    (t.put i new).Tells j d ↔ i ≠ j ∧ t.Tells j d := by
  rw [Tells, cell?_put, Tells]
  cases t.cell? j with
  | none => simp
  | some c => by_cases h : i = j <;> simp [h]

theorem suspension?_modify_suspend {t : CellTable E V K} {i : Nat} {c : Cell E V K}
    (hc : t.cell? i = some c) (susp : Suspension E V K) (d : Depender) :
    (t.modify i (·.suspend susp)).suspension? d =
      if d = .cell i then some susp else t.suspension? d := by
  cases d with
  | cell j =>
    rw [suspension?, cell?_modify, suspension?]
    by_cases h : i = j
    · subst h
      simp [hc, Cell.suspend]
    · simp [h, Ne.symm h]
  | collaborator j => simp [suspension?, collaborator?]

theorem face?_modify_suspend (t : CellTable E V K) (id i : Nat) (susp : Suspension E V K) :
    (t.modify id (·.suspend susp)).face? i = t.face? i := by
  rw [face?, cell?_modify, face?]
  by_cases h : id = i
  · cases t.cell? i <;> simp [h, Cell.suspend, Cell.face]
  · simp [h]

/-! A new cell. -/

def grow (t : CellTable E V K) (key : Key E) : CellTable E V K :=
  { t with cells := t.cells.push (.create t.size key) }

theorem cell?_grow (t : CellTable E V K) (key : Key E) (i : Nat) :
    (t.grow key).cell? i = if i = t.size then some (.create t.size key) else t.cell? i := by
  rw [cell?, grow, Array.getElem?_push]
  rfl

@[simp] theorem size_grow (t : CellTable E V K) (key : Key E) : (t.grow key).size = t.size + 1 := by
  simp [grow, size]

theorem cell?_size (t : CellTable E V K) : t.cell? t.size = none := by
  simp [cell?, size]

theorem key?_grow (t : CellTable E V K) (key : Key E) (i : Nat) :
    (t.grow key).key? i = if i = t.size then some key else t.key? i := by
  rw [key?, cell?_grow, key?]
  split <;> rfl

theorem suspension?_grow (t : CellTable E V K) (key : Key E) (d : Depender) :
    (t.grow key).suspension? d = t.suspension? d := by
  cases d with
  | cell i =>
    rw [suspension?, cell?_grow, suspension?]
    by_cases hi : i = t.size
    · simp [hi, cell?_size, Cell.create]
    · simp [hi]
  | collaborator i => rfl

/-! Where a suspension is taken only if it is accepted, the table is left alone or cleared. -/

theorem modify_congr {t : CellTable E V K} {i : Nat} {f g : Cell E V K → Cell E V K}
    (h : ∀ c, t.cell? i = some c → f c = g c) : t.modify i f = t.modify i g := by
  have hcells : t.cells.modify i f = t.cells.modify i g := by
    apply Array.ext_getElem?
    intro j
    rw [Array.getElem?_modify, Array.getElem?_modify]
    by_cases hij : i = j
    · subst hij
      cases hc : t.cells[i]? with
      | none => simp
      | some c => simp [h c hc]
    · simp [hij]
  simp [modify, hcells]

theorem modify_eq_self {t : CellTable E V K} {i : Nat} {f : Cell E V K → Cell E V K}
    (h : ∀ c, t.cell? i = some c → f c = c) : t.modify i f = t := by
  have hcells : t.cells.modify i f = t.cells := by
    apply Array.ext_getElem?
    intro j
    rw [Array.getElem?_modify]
    by_cases hij : i = j
    · subst hij
      cases hc : t.cells[i]? with
      | none => simp
      | some c => simp [h c hc]
    · simp [hij]
  simp [modify, hcells]

theorem modifyCollaborator_congr {t : CellTable E V K} {i : Nat}
    {f g : Collaborator E V K → Collaborator E V K}
    (h : ∀ c ∈ t.collaborators, c.id = i → f c = g c) :
    t.modifyCollaborator i f = t.modifyCollaborator i g := by
  simp only [modifyCollaborator, mk.injEq, true_and, and_true]
  apply List.map_congr_left
  intro c hc
  by_cases hi : c.id = i
  · simp [hi, h c hc hi]
  · simp [hi]

theorem modifyCollaborator_eq_self {t : CellTable E V K} {i : Nat}
    {f : Collaborator E V K → Collaborator E V K} (h : ∀ c ∈ t.collaborators, c.id = i → f c = c) :
    t.modifyCollaborator i f = t := by
  rw [modifyCollaborator_congr (g := id) h]
  simp [modifyCollaborator]

def Apart (t : CellTable E V K) : Prop := t.collaborators.Pairwise fun a b => a.id ≠ b.id

theorem Apart.collaborator? {t : CellTable E V K} (h : t.Apart) {c : Collaborator E V K}
    (hc : c ∈ t.collaborators) : t.collaborator? c.id = some c := by
  rw [CellTable.collaborator?]
  rw [Apart] at h
  generalize t.collaborators = l at h hc ⊢
  induction l with
  | nil => simp at hc
  | cons b rest ih =>
    obtain ⟨hb, hrest⟩ := List.pairwise_cons.1 h
    rcases List.mem_cons.1 hc with rfl | hc
    · simp
    · have hne : b.id ≠ c.id := hb c hc
      simpa [hne] using ih hrest hc

theorem takeSuspensionIf_fst (t : CellTable E V K) (d : Depender) (p : Suspension E V K → Bool) :
    (t.takeSuspensionIf d p).1 = (t.suspension? d).filter p := by
  cases d with
  | cell i =>
    change (t.cell? i).bind _ = ((t.cell? i).bind _).filter p
    cases t.cell? i with
    | none => rfl
    | some c =>
      rcases hs : c.suspension with _ | susp
      · simp [Cell.takeSuspensionIf, hs]
      · by_cases hp : p susp <;> simp [Cell.takeSuspensionIf, hs, hp, Option.filter_some]
  | collaborator i =>
    change (t.collaborator? i).bind _ = ((t.collaborator? i).bind _).filter p
    cases t.collaborator? i with
    | none => rfl
    | some c =>
      rcases hs : c.suspension with _ | susp
      · simp [Collaborator.takeSuspensionIf, hs]
      · by_cases hp : p susp <;> simp [Collaborator.takeSuspensionIf, hs, hp, Option.filter_some]

theorem takeSuspensionIf_snd_of_none {t : CellTable E V K} {d : Depender}
    {p : Suspension E V K → Bool} (ht : t.Apart) (h : (t.suspension? d).filter p = none) :
    (t.takeSuspensionIf d p).2 = t := by
  cases d with
  | cell i =>
    apply modify_eq_self
    intro c hc
    rcases hs : c.suspension with _ | susp
    · simp [Cell.takeSuspensionIf, hs]
    · simp_all [suspension?, Cell.takeSuspensionIf]
  | collaborator i =>
    apply modifyCollaborator_eq_self
    intro c hc hi
    have hfound := ht.collaborator? hc
    rcases hs : c.suspension with _ | susp
    · simp [Collaborator.takeSuspensionIf, hs]
    · simp_all [suspension?, Collaborator.takeSuspensionIf]

theorem takeSuspensionIf_snd_of_some {t : CellTable E V K} {d : Depender}
    {p : Suspension E V K → Bool} {susp : Suspension E V K} (ht : t.Apart)
    (h : (t.suspension? d).filter p = some susp) : (t.takeSuspensionIf d p).2 = t.clear d := by
  obtain ⟨hs, hp⟩ := Option.filter_eq_some_iff.1 h
  cases d with
  | cell i =>
    apply modify_congr
    intro c hc
    simp_all [suspension?, Cell.takeSuspensionIf]
  | collaborator i =>
    apply modifyCollaborator_congr
    intro c hc hi
    have hfound := ht.collaborator? hc
    simp_all [suspension?, Collaborator.takeSuspensionIf]

end CellTable
end Blackboard
