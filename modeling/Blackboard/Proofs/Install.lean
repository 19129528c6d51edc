import Blackboard.Proofs.Waking

/-! Installing a status: what `Cell.update` accepts, and what becomes of a store in which a cell
takes a status that says something new. -/
namespace Blackboard

namespace Cell
variable {E V K : Type} [DecidableEq V]

theorem replace_of_changed {c : Cell E V K} {new : Status E V}
    (h : (c.replace new).1.changed = true) :
    c.replace new = (⟨c.status, new, true, c.dependers, if new.isFinal then c.suspension else none⟩,
      { c with
        status := new
        dependers := ∅
        suspension := if new.isFinal then none else c.suspension }) := by
  unfold replace at h ⊢
  split at h
  · simp [Update.unchanged] at h
  · next hn => rw [if_neg hn]

theorem replace_of_unchanged {c : Cell E V K} {new : Status E V}
    (h : (c.replace new).1.changed = false) :
    c.replace new = (.unchanged c.status, c) ∧ new.isFinal = false ∧
      c.status.sameValues new = true := by
  unfold replace at h ⊢
  split at h
  · next hn =>
    rw [if_pos hn]
    simpa using hn
  · simp at h

theorem changed_final (c : Cell E V K) (ep : Final E V) :
    (c.replace (.final ep)).1.changed = true := by
  simp [replace, Status.isFinal]

theorem changed_interim (c : Cell E V K) (ep : Interim E V) :
    (c.replace (.interim ep)).1.changed = !c.status.sameValues (.interim ep) := by
  cases h : c.status.sameValues (.interim ep) <;>
    simp [replace, Status.isFinal, h, Update.unchanged]

theorem id_replace (c : Cell E V K) (new : Status E V) : (c.replace new).2.id = c.id := by
  unfold replace
  split <;> rfl

theorem key_replace (c : Cell E V K) (new : Status E V) : (c.replace new).2.key = c.key := by
  unfold replace
  split <;> rfl

end Cell

/-- The cell takes the status: it is not final itself, and the status has a value for its own
key. -/
structure Cell.Fits {E V K : Type} [DecidableEq E] (c : Cell E V K) (new : Status E V) : Prop where
  refinable : c.status.isFinal = false
  key : new.key.same c.key = true
  value : new.isUnknown = false

namespace Cell
variable {E V K : Type} [DecidableEq E] [ToString E] [ToString V]

theorem checkFit_eq_ok_iff {c : Cell E V K} {new : Status E V} : c.checkFit new = .ok () ↔
    c.Fits new := by
  unfold checkFit
  constructor
  · intro h
    split at h
    · simp at h
    · split at h
      · simp at h
      · next hf hk =>
        simp only [Bool.or_eq_true, Bool.not_eq_eq_eq_not, Bool.not_true, not_or,
          Bool.not_eq_false, Bool.not_eq_true] at hf hk
        exact ⟨hf, hk.1, hk.2⟩
  · intro h
    simp [h.refinable, h.value, Key.same_iff.1 h.key]

variable [DecidableEq V] [Property V]

theorem update_eq_ok {c : Cell E V K} {new : Status E V} {validate : Bool}
    {r : Update E V K × Cell E V K} (h : c.update new validate = .ok r) :
    c.Fits new ∧ (validate = true → checkRefinement c.status new = .ok ()) ∧ r = c.replace new := by
  unfold update at h
  cases hfit : c.checkFit new with
  | error e => simp [hfit, bind, Except.bind] at h
  | ok =>
    refine ⟨checkFit_eq_ok_iff.1 hfit, ?_⟩
    cases validate with
    | false => simpa [hfit, bind, Except.bind, pure, Except.pure, eq_comm] using h
    | true =>
      cases href : checkRefinement c.status new with
      | error e => simp [hfit, href, bind, Except.bind] at h
      | ok => simpa [hfit, href, bind, Except.bind, pure, Except.pure, eq_comm] using h

theorem update_of_fits {c : Cell E V K} {new : Status E V} {validate : Bool} (h : c.Fits new)
    (hv : validate = true → checkRefinement c.status new = .ok ()) :
    c.update new validate = .ok (c.replace new) := by
  unfold update
  rw [checkFit_eq_ok_iff.2 h]
  cases validate with
  | false => rfl
  | true => simp [hv rfl, bind, Except.bind, pure, Except.pure]

end Cell

namespace CellTable
variable {E V C K : Type}

/-- A cell takes a status; a final one ends its own suspension. Nobody is woken yet. -/
def settleIn (t : CellTable E V K) (id : Nat) (new : Status E V) : CellTable E V K :=
  (if new.isFinal then t.release (.cell id) else t).put id new

theorem unlink_modify_eq_put_detach {t : CellTable E V K} {c : Cell E V K}
    (hc : t.cell? c.id = some c) (new : Status E V) (susp : Suspension E V K) :
    (t.modify c.id fun _ => { c with status := new, dependers := ∅, suspension := none }).unlink
      (.cell c.id) susp = (t.detach (.cell c.id) susp).put c.id new := by
  apply ext_cell?
  · intro i
    rw [cell?_unlink, cell?_modify, cell?_put, cell?_detach]
    by_cases hi : c.id = i
    · subst hi
      by_cases hm : c.id ∈ susp.ids <;> simp [hc, hm, Cell.removeDepender]
      rfl
    · have hne : ¬ (Depender.cell c.id = .cell i) := fun h => hi (Depender.cell.inj h)
      cases t.cell? i with
      | none => simp
      | some b => by_cases hm : i ∈ susp.ids <;> simp [hi, hne, hm, Cell.removeDepender]
  · exact (collaborators_forget _ _ _).trans (collaborators_detach t (.cell c.id) susp).symm
  · exact (nextCollaborator_forget _ _ _).trans (nextCollaborator_detach t (.cell c.id) susp).symm

theorem replace_eq_settleIn [DecidableEq V] {t : CellTable E V K} {c : Cell E V K}
    {new : Status E V} (hc : t.cell? c.id = some c) (hch : (c.replace new).1.changed = true) :
    (match (c.replace new).1.dropped with
      | some susp => (t.modify c.id fun _ => (c.replace new).2).unlink (.cell c.id) susp
      | none => t.modify c.id fun _ => (c.replace new).2) = t.settleIn c.id new := by
  have hown : t.suspension? (.cell c.id) = c.suspension := by simp [suspension?, hc]
  rw [Cell.replace_of_changed hch, settleIn, release, hown]
  by_cases hf : new.isFinal
  · cases hs : c.suspension with
    | some susp =>
      simp only [hf, if_true]
      exact unlink_modify_eq_put_detach hc new susp
    | none =>
      simp only [hf, if_true]
      apply modify_congr
      intro e he
      obtain rfl : c = e := Option.some.inj (hc.symm.trans he)
      rw [← hs]
  · simp only [hf, Bool.false_eq_true, if_false]
    apply modify_congr
    intro e he
    rw [Option.some.inj (hc.symm.trans he)]

def install (t : CellTable E V K) (c : Cell E V K) (new : Status E V) : CellTable E V K :=
  let t := (t.settleIn c.id new).wakeAll c.id c.dependers.members
  if c.status.isUnknown then t.mark c.id else t

def installTasks (t : CellTable E V K) (phase : Phase C) (c : Cell E V K) (new : Status E V) :
    List (Task E C K) :=
  c.dependers.members.filterMap ((t.settleIn c.id new).wakeTask? c.id) ++
    if c.status.isUnknown then
      Store.firstTasks phase ((t.settleIn c.id new).wakeAll c.id c.dependers.members) c
    else []

/-! Keys stay where they are. -/

theorem key?_modify {t : CellTable E V K} {i : Nat} {f : Cell E V K → Cell E V K}
    (hf : ∀ c, (f c).key = c.key) (j : Nat) : (t.modify i f).key? j = t.key? j := by
  rw [key?, cell?_modify, key?]
  by_cases h : i = j
  · cases t.cell? j <;> simp [h, hf]
  · simp [h]

theorem key?_put (t : CellTable E V K) (i j : Nat) (new : Status E V) :
    (t.put i new).key? j = t.key? j :=
  key?_modify (f := fun c => { c with status := new, dependers := ∅ }) (fun _ => rfl) j

theorem key?_mark (t : CellTable E V K) (i j : Nat) : (t.mark i).key? j = t.key? j :=
  key?_modify (f := fun c => { c with triggered := true }) (fun _ => rfl) j

theorem key?_suspend (t : CellTable E V K) (i j : Nat) (susp : Suspension E V K) :
    (t.modify i (·.suspend susp)).key? j = t.key? j :=
  key?_modify (f := (·.suspend susp)) (fun _ => rfl) j

theorem key?_settleIn (t : CellTable E V K) (i j : Nat) (new : Status E V) :
    (t.settleIn i new).key? j = t.key? j := by
  rw [settleIn, key?_put]
  split
  · exact key?_of_face? (face?_release t (.cell i) j)
  · rfl

theorem key?_install (t : CellTable E V K) (c : Cell E V K) (new : Status E V) (j : Nat) :
    (t.install c new).key? j = t.key? j := by
  have hw := (key?_of_face? (face?_wakeAll (t.settleIn c.id new) c.id c.dependers.members j)).trans
    (key?_settleIn t c.id j new)
  unfold install
  split
  · exact (key?_mark _ _ _).trans hw
  · exact hw

theorem face?_install {t : CellTable E V K} {c : Cell E V K} (hc : t.cell? c.id = some c)
    (new : Status E V) (j : Nat) :
    (t.install c new).face? j =
      if j = c.id then some (c.id, c.key, new) else t.face? j := by
  have hin : (t.settleIn c.id new).face? j =
      if j = c.id then some (c.id, c.key, new) else t.face? j := by
    rw [settleIn, face?_put]
    have hface : (if new.isFinal then t.release (.cell c.id) else t).face? j = t.face? j := by
      split
      · exact face?_release t (.cell c.id) j
      · rfl
    rw [hface]
    by_cases hj : j = c.id
    · simp [hj, face?_of_cell? hc, Cell.face]
    · simp [hj, Ne.symm hj]
  have hw := (face?_wakeAll (t.settleIn c.id new) c.id c.dependers.members j).trans hin
  unfold install
  split
  · exact (face?_mark _ _ _).trans hw
  · exact hw

/-! Taking interim bounds and falling asleep over them. -/

theorem put_interim [DecidableEq V] {t : CellTable E V K} {c : Cell E V K} {ep : Interim E V}
    (hc : t.cell? c.id = some c) (hch : (c.replace (.interim ep)).1.changed = true) :
    (t.modify c.id fun _ => (c.replace (.interim ep)).2) = t.put c.id (.interim ep) := by
  have h := replace_eq_settleIn hc hch
  rw [Cell.replace_of_changed hch] at h ⊢
  exact h

/-- The cell takes the bounds, falls asleep, and only then its dependers are woken. -/
def fallAsleep [DecidableEq V] (t : CellTable E V K) (c : Cell E V K) (ep : Interim E V)
    (susp : Suspension E V K) : CellTable E V K :=
  if (c.replace (.interim ep)).1.changed then
    let t :=
      ((t.put c.id (.interim ep)).modify c.id (·.suspend susp)).wakeAll c.id c.dependers.members
    if c.status.isUnknown then t.mark c.id else t
  else t.modify c.id (·.suspend susp)

theorem interim_of_unchanged [DecidableEq V] {c : Cell E V K} {ep : Interim E V}
    (h : (c.replace (.interim ep)).1.changed = false) : ∃ old, c.status = .interim old := by
  obtain ⟨-, -, hsame⟩ := Cell.replace_of_unchanged h
  cases hst : c.status with
  | unknown k => simp [hst, Status.sameValues] at hsame
  | interim old => exact ⟨old, rfl⟩
  | final old => simp [hst, Status.sameValues] at hsame

theorem key?_fallAsleep [DecidableEq V] (t : CellTable E V K) (c : Cell E V K) (ep : Interim E V)
    (susp : Suspension E V K) (j : Nat) : (t.fallAsleep c ep susp).key? j = t.key? j := by
  have hw := (key?_of_face? (face?_wakeAll ((t.put c.id (.interim ep)).modify c.id (·.suspend susp))
    c.id c.dependers.members j)).trans
      ((key?_suspend _ _ _ _).trans (key?_put t c.id j (.interim ep)))
  unfold fallAsleep
  split
  · split
    · exact (key?_mark _ _ _).trans hw
    · exact hw
  · exact key?_suspend t c.id j susp

theorem face?_fallAsleep [DecidableEq V] {t : CellTable E V K} {c : Cell E V K}
    (hc : t.cell? c.id = some c) (ep : Interim E V) (susp : Suspension E V K) (j : Nat) :
    (t.fallAsleep c ep susp).face? j =
      if j = c.id then some (c.id, c.key, (c.replace (.interim ep)).2.status) else t.face? j := by
  unfold fallAsleep
  cases hch : (c.replace (.interim ep)).1.changed with
  | true =>
    have hw : (((t.put c.id (.interim ep)).modify c.id (·.suspend susp)).wakeAll c.id
        c.dependers.members).face? j =
          if j = c.id then some (c.id, c.key, .interim ep) else t.face? j := by
      rw [face?_wakeAll, face?_modify_suspend, face?_put]
      by_cases hj : j = c.id
      · simp [hj, face?_of_cell? hc, Cell.face]
      · simp [hj, Ne.symm hj]
    rw [if_pos rfl, Cell.replace_of_changed hch]
    split
    · exact (face?_mark _ _ _).trans hw
    · exact hw
  | false =>
    rw [if_neg Bool.false_ne_true, (Cell.replace_of_unchanged hch).1, face?_modify_suspend]
    by_cases hj : j = c.id
    · simp [hj, face?_of_cell? hc, Cell.face]
    · simp [hj]

/-! Tables stay sound. -/

variable [DecidableEq E]

theorem Sound.settleIn {t : CellTable E V K} (h : t.Sound) {c : Cell E V K} {new : Status E V}
    (hc : t.cell? c.id = some c) (hfit : c.Fits new) : (t.settleIn c.id new).Sound := by
  rw [CellTable.settleIn]
  by_cases hf : new.isFinal
  · rw [if_pos hf]
    obtain ⟨e, he, -, hkey, -⟩ :=
      cell?_of_shown ((face?_release t (.cell c.id) c.id).trans (face?_of_cell? hc))
    refine (h.release _).put he (hkey ▸ hfit.key) ?_
    intro hs
    have hnone := suspension?_release t (.cell c.id) (.cell c.id)
    simp only [suspension?, he, Option.bind_some, if_true] at hnone
    exact absurd hnone hs
  · rw [if_neg hf]
    refine h.put hc hfit.key ?_
    intro _
    cases new with
    | unknown k => exact absurd hfit.value (by simp [Status.isUnknown])
    | interim ep => exact ⟨ep, rfl⟩
    | final ep => exact absurd rfl hf

theorem Sound.mark {t : CellTable E V K} (h : t.Sound) (id : Nat) : (t.mark id).Sound :=
  h.modify id (fun _ => rfl) (fun _ => rfl)

theorem Sound.install {t : CellTable E V K} (h : t.Sound) {c : Cell E V K} {new : Status E V}
    (hc : t.cell? c.id = some c) (hfit : c.Fits new) : (t.install c new).Sound := by
  have hw := (h.settleIn hc hfit).wakeAll c.id c.dependers.members
  rw [CellTable.install]
  split
  · exact hw.mark c.id
  · exact hw

def fallAsleepTasks [DecidableEq V] (t : CellTable E V K) (phase : Phase C) (c : Cell E V K)
    (ep : Interim E V) (susp : Suspension E V K) : List (Task E C K) :=
  if (c.replace (.interim ep)).1.changed then
    let t := (t.put c.id (.interim ep)).modify c.id (·.suspend susp)
    c.dependers.members.filterMap (t.wakeTask? c.id) ++
      if c.status.isUnknown then Store.firstTasks phase (t.wakeAll c.id c.dependers.members) c
      else []
  else []

theorem Sound.put_suspend {t : CellTable E V K} (h : t.Sound) {c : Cell E V K} {ep : Interim E V}
    {susp : Suspension E V K} (hc : t.cell? c.id = some c) (hfit : c.Fits (.interim ep))
    (hne : susp.dependees ≠ []) (hlt : ∀ j ∈ susp.ids, j < t.size) :
    ((t.put c.id (.interim ep)).modify c.id (·.suspend susp)).Sound := by
  have hput := h.put hc hfit.key (fun _ => ⟨ep, rfl⟩)
  have hcell := cell?_put t c.id c.id (.interim ep)
  rw [hc, Option.map_some, if_pos rfl] at hcell
  exact hput.suspend hcell rfl hne (by simpa using hlt)

theorem Sound.fallAsleep [DecidableEq V] {t : CellTable E V K} (h : t.Sound) {c : Cell E V K}
    {ep : Interim E V} {susp : Suspension E V K} (hc : t.cell? c.id = some c)
    (hfit : c.Fits (.interim ep)) (hne : susp.dependees ≠ []) (hlt : ∀ j ∈ susp.ids, j < t.size) :
    (t.fallAsleep c ep susp).Sound := by
  unfold CellTable.fallAsleep
  split
  · have hw := (h.put_suspend hc hfit hne hlt).wakeAll c.id c.dependers.members
    split
    · exact hw.mark c.id
    · exact hw
  · next hch =>
    obtain ⟨old, hold⟩ := interim_of_unchanged (by simpa using hch)
    exact h.suspend hc hold hne hlt

end CellTable
end Blackboard
