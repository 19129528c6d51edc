import Blackboard.Proofs.Links

/-! Resolving a group, as a change of the table: every member is released, then all become final,
and only then the others are woken. -/
namespace Blackboard

namespace CellTable
variable {E V C K : Type}

def releaseAll (t : CellTable E V K) (ds : List Depender) : CellTable E V K := ds.foldl release t

theorem suspension?_releaseAll (t : CellTable E V K) (ds : List Depender) (e : Depender) :
    (t.releaseAll ds).suspension? e = if e ∈ ds then none else t.suspension? e := by
  induction ds generalizing t with
  | nil => simp [releaseAll]
  | cons d ds ih =>
    change ((t.release d).releaseAll ds).suspension? e = _
    rw [ih, suspension?_release]
    by_cases hd : e = d <;> simp [hd]

theorem face?_releaseAll (t : CellTable E V K) (ds : List Depender) (i : Nat) :
    (t.releaseAll ds).face? i = t.face? i := by
  induction ds generalizing t with
  | nil => rfl
  | cons d ds ih => exact (ih (t.release d)).trans (face?_release t d i)

/-- All cells of a batch take their final values; nobody is woken yet. -/
def putAll (t : CellTable E V K) (batch : List (Cell E V K × Final E V)) : CellTable E V K :=
  batch.foldl (fun t p => t.put p.1.id (.final p.2)) t

theorem suspension?_putAll (t : CellTable E V K) (batch : List (Cell E V K × Final E V))
    (d : Depender) : (t.putAll batch).suspension? d = t.suspension? d := by
  induction batch generalizing t with
  | nil => rfl
  | cons p rest ih => exact (ih _).trans (suspension?_put t p.1.id _ d)

theorem key?_putAll (t : CellTable E V K) (batch : List (Cell E V K × Final E V)) (i : Nat) :
    (t.putAll batch).key? i = t.key? i := by
  induction batch generalizing t with
  | nil => rfl
  | cons p rest ih => exact (ih _).trans (key?_put t p.1.id i _)

theorem cell?_putAll_of_ne {t : CellTable E V K} {batch : List (Cell E V K × Final E V)} {i : Nat}
    (h : ∀ p ∈ batch, p.1.id ≠ i) : (t.putAll batch).cell? i = t.cell? i := by
  induction batch generalizing t with
  | nil => rfl
  | cons p rest ih =>
    refine (ih fun q hq => h q (List.mem_cons_of_mem _ hq)).trans ?_
    rw [cell?_put]
    simp [h p List.mem_cons_self]

def announce (t : CellTable E V K) (batch : List (Cell E V K × Final E V)) : CellTable E V K :=
  batch.foldl (fun t p => t.wakeAll p.1.id p.1.dependers.members) t

def announceTasks (t : CellTable E V K) : List (Cell E V K × Final E V) → List (Task E C K)
  | [] => []
  | p :: rest => p.1.dependers.members.filterMap (t.wakeTask? p.1.id) ++
      announceTasks (t.wakeAll p.1.id p.1.dependers.members) rest

theorem face?_announce (t : CellTable E V K) (batch : List (Cell E V K × Final E V)) (i : Nat) :
    (t.announce batch).face? i = t.face? i := by
  induction batch generalizing t with
  | nil => rfl
  | cons p rest ih => exact (ih _).trans (face?_wakeAll t p.1.id _ i)

theorem suspension?_release_le {t : CellTable E V K} {d e : Depender} {susp : Suspension E V K}
    (h : (t.release d).suspension? e = some susp) : t.suspension? e = some susp := by
  rw [suspension?_release] at h
  split at h
  · simp at h
  · exact h

theorem suspension?_install_le {t : CellTable E V K} {c : Cell E V K}
    {new : Status E V} {d : Depender} {susp : Suspension E V K}
    (h : (t.install c new).suspension? d = some susp) : t.suspension? d = some susp := by
  unfold install at h
  have hin : (t.settleIn c.id new).suspension? d = some susp := by
    split at h
    · rw [suspension?_mark] at h
      exact suspension?_wakeAll_le h
    · exact suspension?_wakeAll_le h
  rw [settleIn, suspension?_put] at hin
  split at hin
  · exact suspension?_release_le hin
  · exact hin

theorem suspension?_announce_le {t : CellTable E V K}
    {batch : List (Cell E V K × Final E V)} {d : Depender} {susp : Suspension E V K}
    (h : (t.announce batch).suspension? d = some susp) : t.suspension? d = some susp := by
  induction batch generalizing t with
  | nil => exact h
  | cons p rest ih => exact suspension?_wakeAll_le (ih h)

section
variable [DecidableEq E]

theorem Sound.releaseAll {t : CellTable E V K} (h : t.Sound) (ds : List Depender) :
    (t.releaseAll ds).Sound := by
  induction ds generalizing t with
  | nil => exact h
  | cons d ds ih => exact ih (h.release d)

theorem Sound.announce {t : CellTable E V K} (h : t.Sound) (batch : List (Cell E V K × Final E V)) :
    (t.announce batch).Sound := by
  induction batch generalizing t with
  | nil => exact h
  | cons p rest ih => exact ih (h.wakeAll p.1.id _)

/-- Cells of the table, none of them asleep, that may take final values together. -/
structure Batch (t : CellTable E V K) (batch : List (Cell E V K × Final E V)) : Prop where
  cell : ∀ p ∈ batch, t.cell? p.1.id = some p.1
  awake : ∀ p ∈ batch, p.1.suspension = none
  fits : ∀ p ∈ batch, p.1.Fits (.final p.2)
  distinct : batch.Pairwise fun p q => p.1.id ≠ q.1.id

theorem Batch.tail {t : CellTable E V K} {p : Cell E V K × Final E V}
    {rest : List (Cell E V K × Final E V)} (h : t.Batch (p :: rest)) :
    (t.put p.1.id (.final p.2)).Batch rest := by
  obtain ⟨hne, hrest⟩ := List.pairwise_cons.1 h.distinct
  refine ⟨?_, fun q hq => h.awake q (List.mem_cons_of_mem _ hq),
    fun q hq => h.fits q (List.mem_cons_of_mem _ hq), hrest⟩
  intro q hq
  rw [cell?_put, h.cell q (List.mem_cons_of_mem _ hq)]
  simp [hne q hq]

theorem Batch.cons {t : CellTable E V K} {c : Cell E V K} {ep : Final E V}
    {rest : List (Cell E V K × Final E V)} (hc : t.cell? c.id = some c)
    (hawake : c.suspension = none) (hfit : c.Fits (.final ep))
    (h : (t.put c.id (.final ep)).Batch rest) : t.Batch ((c, ep) :: rest) := by
  -- a cell that may still take a value is not the one that was just made final
  have hcell : ∀ q ∈ rest, c.id ≠ q.1.id ∧ t.cell? q.1.id = some q.1 := by
    intro q hq
    have hput := h.cell q hq
    rw [cell?_put] at hput
    by_cases heq : c.id = q.1.id
    · rw [← heq, hc] at hput
      have hfinal : q.1.status = .final ep := by
        simpa using congrArg (Option.map Cell.status) hput.symm
      have hopen := (h.fits q hq).refinable
      simp [hfinal, Status.isFinal] at hopen
    · exact ⟨heq, by simpa [heq] using hput⟩
  refine ⟨?_, ?_, ?_, List.pairwise_cons.2 ⟨fun q hq => (hcell q hq).1, h.distinct⟩⟩
  all_goals
    intro q hq
    rcases List.mem_cons.1 hq with rfl | hq
  · exact hc
  · exact (hcell q hq).2
  · exact hawake
  · exact h.awake q hq
  · exact hfit
  · exact h.fits q hq

theorem Sound.putAll {t : CellTable E V K} (h : t.Sound) {batch : List (Cell E V K × Final E V)}
    (hb : t.Batch batch) : (t.putAll batch).Sound := by
  induction batch generalizing t with
  | nil => exact h
  | cons p rest ih =>
    have hc := hb.cell p List.mem_cons_self
    refine ih (h.put hc (hb.fits p List.mem_cons_self).key ?_) hb.tail
    exact fun hs => absurd (hb.awake p List.mem_cons_self) hs

theorem Batch.status {t : CellTable E V K} {batch : List (Cell E V K × Final E V)}
    (hb : t.Batch batch) {p : Cell E V K × Final E V} (hp : p ∈ batch) :
    (t.putAll batch).face? p.1.id = some (p.1.id, p.1.key, .final p.2) := by
  induction batch generalizing t with
  | nil => simp at hp
  | cons q rest ih =>
    rcases List.mem_cons.1 hp with rfl | hp
    · have hne := (List.pairwise_cons.1 hb.distinct).1
      have hcell : ((t.put p.1.id (.final p.2)).putAll rest).cell? p.1.id =
          (t.put p.1.id (.final p.2)).cell? p.1.id :=
        cell?_putAll_of_ne fun q hq heq => hne q hq heq.symm
      change ((t.put p.1.id (.final p.2)).putAll rest).face? p.1.id = _
      rw [face?, hcell, cell?_put, hb.cell p List.mem_cons_self]
      simp [Cell.face]
    · exact ih hb.tail hp

variable [DecidableEq V] {owed : Depender → Nat → Prop}

theorem LinkedBut.releaseAll {t : CellTable E V K} (h : t.LinkedBut owed) (ht : t.Sound)
    (ds : List Depender) : (t.releaseAll ds).LinkedBut owed := by
  induction ds generalizing t with
  | nil => exact h
  | cons d ds ih => exact ih (h.release ht d) (ht.release d)

theorem LinkedBut.putAll {t : CellTable E V K} (h : t.LinkedBut owed) (ht : t.Sound)
    {batch : List (Cell E V K × Final E V)} (hb : t.Batch batch) :
    (t.putAll batch).LinkedBut fun d i =>
      owed d i ∨ ∃ p ∈ batch, i = p.1.id ∧ d ∈ p.1.dependers.members := by
  induction batch generalizing t owed with
  | nil => exact h.mono fun _ _ => .inl
  | cons p rest ih =>
    have hc := hb.cell p List.mem_cons_self
    have hput := h.put ht p.1.id (.final p.2) fun d => mem_members_of_tells hc
    have hsound : (t.put p.1.id (.final p.2)).Sound := ht.put hc (hb.fits p List.mem_cons_self).key
      fun hs => absurd (hb.awake p List.mem_cons_self) hs
    refine (ih hput hsound hb.tail).mono ?_
    rintro d i ((howed | hp) | ⟨q, hq, hi⟩)
    · exact .inl howed
    · exact .inr ⟨p, List.mem_cons_self, hp⟩
    · exact .inr ⟨q, List.mem_cons_of_mem _ hq, hi⟩

theorem LinkedBut.announce {t : CellTable E V K} (h : t.LinkedBut owed) (ht : t.Sound)
    (batch : List (Cell E V K × Final E V)) :
    (t.announce batch).LinkedBut fun d i =>
      owed d i ∧ ¬ ∃ p ∈ batch, i = p.1.id ∧ d ∈ p.1.dependers.members := by
  induction batch generalizing t owed with
  | nil => exact h.mono fun _ _ ho => ⟨ho, by simp⟩
  | cons p rest ih =>
    refine (ih (h.wakeAll ht p.1.id p.1.dependers.members) (ht.wakeAll p.1.id _)).mono ?_
    rintro d i ⟨⟨howed, hp⟩, hrest⟩
    refine ⟨howed, ?_⟩
    rintro ⟨q, hq, hi⟩
    rcases List.mem_cons.1 hq with rfl | hq
    · exact hp hi
    · exact hrest ⟨q, hq, hi⟩

end

/-- A group is resolved: its members are released, the batch becomes final and is announced. -/
def resolve (t : CellTable E V K) (group : List Depender) (batch : List (Cell E V K × Final E V)) :
    CellTable E V K :=
  ((t.releaseAll group).putAll batch).announce batch

theorem key?_resolve (t : CellTable E V K) (group : List Depender)
    (batch : List (Cell E V K × Final E V)) (i : Nat) : (t.resolve group batch).key? i = t.key? i :=
  (key?_of_face? (face?_announce _ batch i)).trans
    ((key?_putAll _ batch i).trans (key?_of_face? (face?_releaseAll t group i)))

theorem suspension?_resolve_le {t : CellTable E V K} {group : List Depender}
    {batch : List (Cell E V K × Final E V)} {d : Depender} {susp : Suspension E V K}
    (h : (t.resolve group batch).suspension? d = some susp) :
    d ∉ group ∧ t.suspension? d = some susp := by
  have h' := suspension?_announce_le h
  rw [suspension?_putAll, suspension?_releaseAll] at h'
  by_cases hd : d ∈ group
  · simp [hd] at h'
  · exact ⟨hd, by simpa [hd] using h'⟩

theorem face?_resolve_of_ne {t : CellTable E V K} {group : List Depender}
    {batch : List (Cell E V K × Final E V)} {i : Nat} (h : ∀ p ∈ batch, p.1.id ≠ i) :
    (t.resolve group batch).face? i = t.face? i := by
  refine (face?_announce _ batch i).trans ?_
  rw [face?, cell?_putAll_of_ne h]
  exact face?_releaseAll t group i

variable [DecidableEq E]

theorem face?_resolve_self {t : CellTable E V K} {group : List Depender}
    {batch : List (Cell E V K × Final E V)} (hb : (t.releaseAll group).Batch batch)
    {p : Cell E V K × Final E V} (hp : p ∈ batch) :
    (t.resolve group batch).face? p.1.id = some (p.1.id, p.1.key, .final p.2) :=
  (face?_announce _ batch _).trans (hb.status hp)

theorem Sound.resolve {t : CellTable E V K} (h : t.Sound) {group : List Depender}
    {batch : List (Cell E V K × Final E V)} (hb : (t.releaseAll group).Batch batch) :
    (t.resolve group batch).Sound :=
  ((h.releaseAll group).putAll hb).announce batch

theorem Linked.resolve [DecidableEq V] {t : CellTable E V K} (h : t.Linked) (ht : t.Sound)
    {group : List Depender} {batch : List (Cell E V K × Final E V)}
    (hb : (t.releaseAll group).Batch batch) : (t.resolve group batch).Linked := by
  have hreleased := (h.but fun _ _ => False).releaseAll ht group
  have hput := hreleased.putAll (ht.releaseAll group) hb
  refine (hput.announce ((ht.releaseAll group).putAll hb) batch).linked ?_
  rintro d susp - i - ⟨howed | hp, hnot⟩
  · exact howed
  · exact hnot hp

end CellTable
end Blackboard
