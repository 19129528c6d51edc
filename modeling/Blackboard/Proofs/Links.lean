import Blackboard.Proofs.Handling

/-! Who sleeps is linked to all it observed: told when it changes, and right about it until then.
While a change is being carried out some links are owed; waking the dependers of the changed cell
pays them. -/
namespace Blackboard

namespace CellTable
variable {E V K : Type} {t u : CellTable E V K}

theorem tells_mark {id i : Nat} {d : Depender} : (t.mark id).Tells i d ↔ t.Tells i d := by
  rw [Tells, mark, cell?_modify, Tells]
  by_cases h : id = i
  · cases t.cell? i <;> simp [h]
  · simp [h]

theorem suspension?_mark (t : CellTable E V K) (id : Nat) (d : Depender) :
    (t.mark id).suspension? d = t.suspension? d := by
  cases d with
  | cell i =>
    rw [suspension?, mark, cell?_modify, suspension?]
    by_cases h : id = i
    · cases t.cell? i <;> simp [h]
    · simp [h]
  | collaborator i => rfl

theorem tells_modify_suspend {id i : Nat} {susp : Suspension E V K} {d : Depender} :
    (t.modify id (·.suspend susp)).Tells i d ↔ t.Tells i d := by
  rw [Tells, cell?_modify, Tells]
  by_cases h : id = i
  · cases t.cell? i <;> simp [h, Cell.suspend]
  · simp [h]

theorem mem_members_of_tells {c : Cell E V K} {d : Depender} (hc : t.cell? c.id = some c)
    (h : t.Tells c.id d) (hd : d.id < collaboratorBit) : d ∈ c.dependers.members := by
  obtain ⟨e, he, hmem⟩ := h
  obtain rfl : c = e := Option.some.inj (hc.symm.trans he)
  exact DependerSet.mem_members hmem hd

variable [DecidableEq V] {owed : Depender → Nat → Prop}

/-- The depender is told when the cell changes, and what it observed of it is current. -/
def Holds (t : CellTable E V K) (d : Depender) (p : Nat × Status E V) : Prop :=
  t.Tells p.1 d ∧ t.IsCurrent p

/-- Whoever sleeps is linked to all it observed, except where the link is owed. -/
def LinkedBut (owed : Depender → Nat → Prop) (t : CellTable E V K) : Prop :=
  ∀ d susp, t.suspension? d = some susp → ∀ p ∈ susp.dependees, owed d p.1 ∨ t.Holds d p

def Linked (t : CellTable E V K) : Prop :=
  ∀ d susp, t.suspension? d = some susp → ∀ p ∈ susp.dependees, t.Holds d p

theorem Linked.but (h : t.Linked) (owed : Depender → Nat → Prop) : t.LinkedBut owed :=
  fun d susp hd p hp => .inr (h d susp hd p hp)

theorem LinkedBut.mono (h : t.LinkedBut owed) {rest : Depender → Nat → Prop}
    (ho : ∀ d i, owed d i → rest d i) : t.LinkedBut rest :=
  fun d susp hd p hp => (h d susp hd p hp).imp_left (ho _ _)

theorem LinkedBut.linked (h : t.LinkedBut owed)
    (ho : ∀ {d susp}, t.suspension? d = some susp → ∀ i ∈ susp.ids, ¬ owed d i) : t.Linked := by
  intro d susp hd p hp
  exact (h d susp hd p hp).resolve_left (ho hd p.1 (List.mem_map_of_mem hp))

theorem Linked.empty : (CellTable.empty : CellTable E V K).Linked := by
  intro d susp hd
  cases d <;> simp [suspension?, CellTable.empty, cell?, collaborator?] at hd

theorem LinkedBut.of_asleep (h : t.LinkedBut owed)
    (hs : ∀ {d susp}, u.suspension? d = some susp → t.suspension? d = some susp)
    (ht : ∀ {d susp}, u.suspension? d = some susp → ∀ i, t.Tells i d → u.Tells i d)
    (hf : ∀ i, u.face? i = t.face? i) : u.LinkedBut owed := by
  intro d susp hd p hp
  refine (h d susp (hs hd) p hp).imp_right ?_
  rintro ⟨htells, hcurrent⟩
  exact ⟨ht hd p.1 htells, (isCurrent_congr hf).2 hcurrent⟩

/-! Ending suspensions. -/

theorem LinkedBut.detach [DecidableEq E] (h : t.LinkedBut owed) (ht : t.Sound) {d : Depender}
    {susp : Suspension E V K} (hd : t.suspension? d = some susp) :
    (t.detach d susp).LinkedBut owed := by
  have hsleeps : ∀ {e s}, (t.detach d susp).suspension? e = some s →
      e ≠ d ∧ t.suspension? e = some s := by
    intro e s he
    rw [suspension?_detach] at he
    by_cases hed : e = d
    · simp [hed] at he
    · exact ⟨hed, by simpa [hed] using he⟩
  refine h.of_asleep (fun he => (hsleeps he).2) ?_ (face?_detach t d susp)
  intro e s he i htells
  obtain ⟨hne, hold⟩ := hsleeps he
  refine tells_detach.2 ⟨htells, fun hcode => hne ?_⟩
  exact Depender.encode_injective (ht.depender_lt hold) (ht.depender_lt hd) hcode.1

theorem LinkedBut.release [DecidableEq E] (h : t.LinkedBut owed) (ht : t.Sound) (d : Depender) :
    (t.release d).LinkedBut owed := by
  rw [CellTable.release]
  split
  · next hd => exact h.detach ht hd
  · exact h

theorem LinkedBut.wake [DecidableEq E] (h : t.LinkedBut owed) (ht : t.Sound) (id : Nat)
    (d : Depender) : (t.wake id d).LinkedBut owed := by
  rw [CellTable.wake]
  split
  · next hd => exact h.detach ht (Option.filter_eq_some_iff.1 hd).1
  · exact h

theorem LinkedBut.wakeAll [DecidableEq E] (h : t.LinkedBut owed) (ht : t.Sound) (id : Nat)
    (ds : List Depender) :
    (t.wakeAll id ds).LinkedBut fun d i => owed d i ∧ ¬ (i = id ∧ d ∈ ds) := by
  have hkeeps : (t.wakeAll id ds).LinkedBut owed := by
    induction ds generalizing t with
    | nil => exact h
    | cons d ds ih => exact ih (h.wake ht id d) (ht.wake id d)
  intro d susp hd p hp
  rcases hkeeps d susp hd p hp with howed | hholds
  · refine .inl ⟨howed, ?_⟩
    rintro ⟨hid, hmem⟩
    rw [suspension?_wakeAll, if_pos hmem] at hd
    have hnot := (Option.filter_eq_some_iff.1 hd).2
    have hwaits : susp.waitsOn id = true := Suspension.waitsOn_iff.2 (List.mem_map.2 ⟨p, hp, hid⟩)
    simp [hwaits] at hnot
  · exact .inr hholds

theorem LinkedBut.mark (h : t.LinkedBut owed) (id : Nat) : (t.mark id).LinkedBut owed :=
  h.of_asleep (fun hd => suspension?_mark t id _ ▸ hd) (fun _ _ => tells_mark.2) (face?_mark t id)

/-! Changing a cell. What its dependers observed is out of date, so links with them are owed. -/

theorem LinkedBut.put [DecidableEq E] (h : t.LinkedBut owed) (ht : t.Sound) (id : Nat)
    (new : Status E V) {ds : List Depender}
    (hds : ∀ d, t.Tells id d → d.id < collaboratorBit → d ∈ ds) :
    (t.put id new).LinkedBut fun d i => owed d i ∨ (i = id ∧ d ∈ ds) := by
  intro d susp hd p hp
  rw [suspension?_put] at hd
  rcases h d susp hd p hp with howed | ⟨htells, c, hc, hsame, hfinal⟩
  · exact .inl (.inl howed)
  · by_cases hi : id = p.1
    · exact .inl (.inr ⟨hi.symm, hds d (hi ▸ htells) (ht.depender_lt hd)⟩)
    · refine .inr ⟨tells_put.2 ⟨hi, htells⟩, c, ?_, hsame, hfinal⟩
      rw [cell?_put, hc]
      simp [hi]

theorem LinkedBut.settleIn [DecidableEq E] (h : t.LinkedBut owed) (ht : t.Sound) {c : Cell E V K}
    (hc : t.cell? c.id = some c) (new : Status E V) :
    (t.settleIn c.id new).LinkedBut fun d i => owed d i ∨ (i = c.id ∧ d ∈ c.dependers.members) := by
  rw [CellTable.settleIn]
  split
  · refine (h.release ht _).put (ht.release _) c.id new ?_
    intro d htells hd
    refine mem_members_of_tells hc ?_ hd
    rw [CellTable.release] at htells
    split at htells
    · exact (tells_detach.1 htells).1
    · exact htells
  · exact h.put ht c.id new fun d => mem_members_of_tells hc

theorem Linked.install [DecidableEq E] (h : t.Linked) (ht : t.Sound) {c : Cell E V K}
    {new : Status E V} (hc : t.cell? c.id = some c) (hfit : c.Fits new) :
    (t.install c new).Linked := by
  have hin : (t.settleIn c.id new).LinkedBut fun d i =>
      False ∨ (i = c.id ∧ d ∈ c.dependers.members) :=
    (h.but _).settleIn ht hc new
  have hwoken := hin.wakeAll (ht.settleIn hc hfit) c.id c.dependers.members
  have hall : (t.install c new).LinkedBut fun _ _ => False := by
    have hpaid : ∀ d i, (False ∨ i = c.id ∧ d ∈ c.dependers.members) ∧
        ¬ (i = c.id ∧ d ∈ c.dependers.members) → False := fun d i ho => ho.2 (ho.1.resolve_left id)
    unfold CellTable.install
    split
    · exact (hwoken.mark c.id).mono hpaid
    · exact hwoken.mono hpaid
  exact hall.linked fun _ _ _ ho => ho

/-! Falling asleep: the links of the depender itself are owed until it is registered. -/

theorem LinkedBut.suspend (h : t.LinkedBut owed) {id : Nat} {c : Cell E V K}
    (hc : t.cell? id = some c) (susp : Suspension E V K) :
    (t.modify id (·.suspend susp)).LinkedBut fun d i => owed d i ∨ d = .cell id := by
  intro d s hd p hp
  rw [suspension?_modify_suspend hc] at hd
  by_cases hdi : d = .cell id
  · exact .inl (.inr hdi)
  · rcases h d s (by simpa [hdi] using hd) p hp with howed | ⟨htells, hcurrent⟩
    · exact .inl (.inl howed)
    · exact .inr ⟨tells_modify_suspend.2 htells,
        (isCurrent_congr fun i => face?_modify_suspend t id i susp).2 hcurrent⟩

theorem Linked.fallAsleep [DecidableEq E] (h : t.Linked) (ht : t.Sound) {c : Cell E V K}
    {ep : Interim E V} {susp : Suspension E V K} (hc : t.cell? c.id = some c)
    (hfit : c.Fits (.interim ep)) (hne : susp.dependees ≠ []) (hlt : ∀ j ∈ susp.ids, j < t.size) :
    (t.fallAsleep c ep susp).LinkedBut fun d _ => d = .cell c.id := by
  unfold CellTable.fallAsleep
  split
  · have hput : (t.put c.id (.interim ep)).LinkedBut fun d i =>
        False ∨ (i = c.id ∧ d ∈ c.dependers.members) :=
      (h.but _).put ht c.id (.interim ep) fun d => mem_members_of_tells hc
    have hcell := cell?_put t c.id c.id (.interim ep)
    rw [hc, Option.map_some, if_pos rfl] at hcell
    have hwoken := (hput.suspend hcell susp).wakeAll (ht.put_suspend hc hfit hne hlt) c.id
      c.dependers.members
    have howed : ∀ d i, ((False ∨ i = c.id ∧ d ∈ c.dependers.members) ∨ d = .cell c.id) ∧
        ¬ (i = c.id ∧ d ∈ c.dependers.members) → d = .cell c.id :=
      fun d i ho => ho.1.resolve_left fun hold => ho.2 (hold.resolve_left id)
    split
    · exact (hwoken.mark c.id).mono howed
    · exact hwoken.mono howed
  · exact ((h.but fun _ _ => False).suspend hc susp).mono fun _ _ ho => ho.resolve_left id

theorem suspension?_fallAsleep_le {c : Cell E V K} {ep : Interim E V}
    {susp s : Suspension E V K} {d : Depender} (hc : t.cell? c.id = some c)
    (hs : (t.fallAsleep c ep susp).suspension? d = some s) :
    (if d = .cell c.id then some susp else t.suspension? d) = some s := by
  unfold CellTable.fallAsleep at hs
  split at hs
  · have hcell := cell?_put t c.id c.id (.interim ep)
    rw [hc, Option.map_some, if_pos rfl] at hcell
    have hwoken : (((t.put c.id (.interim ep)).modify c.id (·.suspend susp)).wakeAll c.id
        c.dependers.members).suspension? d = some s := by
      split at hs
      · exact suspension?_mark _ _ _ ▸ hs
      · exact hs
    rw [← suspension?_put t c.id (.interim ep), ← suspension?_modify_suspend hcell]
    exact suspension?_wakeAll_le hwoken
  · rw [← suspension?_modify_suspend hc]
    exact hs

theorem Linked.enlist [DecidableEq E] (h : t.Linked) (ht : t.Sound) (susp : Suspension E V K) :
    (t.enlist susp).LinkedBut fun d _ => d = .collaborator t.nextCollaborator := by
  intro d s hd p hp
  rw [ht.suspension?_enlist] at hd
  by_cases hdn : d = .collaborator t.nextCollaborator
  · exact .inl hdn
  · exact .inr (h d s (by simpa [hdn] using hd) p hp)

/-! Registering, and new cells. -/

theorem LinkedBut.watch (h : t.LinkedBut owed) (d : Depender) (obs : List (Nat × Status E V)) :
    (t.watch d obs).LinkedBut owed :=
  h.of_asleep (fun hd => suspension?_watch t d _ obs ▸ hd) (fun _ _ ht => tells_watch.2 (.inl ht))
    (face?_watch t d obs)

theorem Linked.grown (h : t.Linked) (hu : t.Grown u) : u.Linked := by
  intro d susp hd p hp
  rw [hu.suspension?] at hd
  obtain ⟨⟨c, hc, hmem⟩, e, he, hcurrent⟩ := h d susp hd p hp
  exact ⟨⟨c, hu.cell? hc, hmem⟩, e, hu.cell? he, hcurrent⟩

end CellTable

namespace Store
variable {E V C K : Type} [DecidableEq E] [DecidableEq V] {s r : Store E V C K}

theorem Takes.linked {c : Cell E V K} {new : Status E V} (h : s.Takes c new r) (hs : s.Sound)
    (hl : s.table.Linked) (hc : s.table.cell? c.id = some c) (hfit : c.Fits new) :
    r.table.Linked := by
  unfold Takes at h
  split at h
  · exact h.table ▸ hl.install hs.table hc hfit
  · exact h.table ▸ hl

/-- A depender that is registered with all it observed owes nothing any more; one that is resumed,
or was woken before, does not sleep. -/
theorem Registered.linked {d : Depender} {epoch : Nat} {obs : List (Nat × Status E V)}
    (h : s.Registered d epoch obs r) (hs : s.table.Sound) (hl : s.table.LinkedBut fun e _ => e = d)
    (hself : ∀ {susp}, s.table.suspension? d = some susp → susp.epoch = epoch ∧
      susp.dependees = obs) :
    r.table.Linked := by
  cases h with
  | asleep hcurrent hr =>
    rw [hr.table]
    intro e susp he p hp
    rcases hl.watch d obs e susp he p hp with rfl | hholds
    · rw [CellTable.suspension?_watch] at he
      obtain ⟨-, rfl⟩ := hself he
      have hcur := hcurrent p hp
      obtain ⟨c, hc, -⟩ := id hcur
      exact ⟨CellTable.tells_watch.2
        (.inr ⟨rfl, List.mem_map_of_mem hp, CellTable.lt_size_of_cell? hc⟩),
        (CellTable.isCurrent_congr (CellTable.face?_watch _ _ _)).2 hcur⟩
    · exact hholds
  | stopped pre post p c hobs hpre hc hp hr =>
    have hwatched := hl.watch d pre
    cases hf : (s.table.suspension? d).filter (·.epoch == epoch) with
    | some susp =>
      simp only [hf] at hr
      have hd := (Option.filter_eq_some_iff.1 hf).1
      rw [hr.table]
      refine (hwatched.detach (hs.watch d pre) (by rwa [CellTable.suspension?_watch])).linked ?_
      rintro e susp' he i - rfl
      simp [CellTable.suspension?_detach] at he
    | none =>
      simp only [hf] at hr
      rw [hr.table]
      refine hwatched.linked ?_
      rintro e susp' he i - rfl
      rw [CellTable.suspension?_watch] at he
      simp [he, hself he, Option.filter_some] at hf

theorem Registered.linked_of_fallAsleep {q : Store E V C K} {c : Cell E V K} {ep : Interim E V}
    {n : Nat} {k : K} {dependees : List (Status E V)} {obs : List (Nat × Status E V)}
    {ts : List (Task E C K)} (h : q.Registered (.cell c.id) n obs r) (hs : s.Sound)
    (hl : s.table.Linked) (hc : s.table.cell? c.id = some c) (hfit : c.Fits (.interim ep))
    (hobs : s.Observed dependees obs) (hq : s.Becomes (s.table.fallAsleep c ep ⟨n, k, obs⟩) ts q)
    (hqs : q.Sound) : r.table.Linked := by
  have howed := hl.fallAsleep hs.table hc hfit hobs.nonempty (hobs.ids_lt (n := n) (k := k))
  refine h.linked hqs.table (hq.table ▸ howed) ?_
  intro susp hsusp
  rw [hq.table] at hsusp
  have hself := CellTable.suspension?_fallAsleep_le hc hsusp
  rw [if_pos rfl, Option.some.injEq] at hself
  rw [← hself]
  exact ⟨rfl, rfl⟩

end Store
end Blackboard
