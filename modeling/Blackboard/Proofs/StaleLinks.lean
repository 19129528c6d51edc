import Blackboard.Proofs.Lifecycle

/-! Stale links. A round settles first what is waited on, and takes the dependers a cell tells for
those who wait on it. That is right until an interim result replaces the pending suspension of its
own cell and waits on less: the link to what it no longer waits on stays. Nothing else leaves a
stale link behind. -/
namespace Blackboard

namespace CellTable
variable {E V K : Type} {t u : CellTable E V K}

/-- Whoever is told about a cell sleeps and waits on it. -/
def Fresh (t : CellTable E V K) : Prop :=
  ∀ i c, t.cell? i = some c → ∀ n ∈ c.dependers, ∃ d susp,
    d.encode = n ∧ t.suspension? d = some susp ∧ i ∈ susp.ids

def Outward (t : CellTable E V K) : Prop :=
  ∀ i susp, t.suspension? (.cell i) = some susp → i ∉ susp.ids

theorem Outward.of_le (h : t.Outward)
    (hu : ∀ {d susp}, u.suspension? d = some susp → t.suspension? d = some susp) : u.Outward :=
  fun i susp hd => h i susp (hu hd)

namespace Fresh

theorem empty : (CellTable.empty : CellTable E V K).Fresh := by
  intro i c hc
  simp [CellTable.empty, cell?] at hc

theorem of_codes (h : t.Fresh)
    (hc : ∀ {i c n}, u.cell? i = some c → n ∈ c.dependers → ∃ e,
      t.cell? i = some e ∧ n ∈ e.dependers)
    (hs : ∀ {d susp i}, t.suspension? d = some susp → i ∈ susp.ids →
      ∃ susp', u.suspension? d = some susp' ∧ i ∈ susp'.ids) : u.Fresh := by
  intro i c hi n hn
  obtain ⟨e, he, hne⟩ := hc hi hn
  obtain ⟨d, susp, hcode, hd, hids⟩ := h i e he n hne
  obtain ⟨susp', hd', hids'⟩ := hs hd hids
  exact ⟨d, susp', hcode, hd', hids'⟩

theorem detach (h : t.Fresh) {d : Depender} {susp : Suspension E V K}
    (hd : t.suspension? d = some susp) : (t.detach d susp).Fresh := by
  intro i c hc n hn
  rw [cell?_detach] at hc
  obtain ⟨e, he, rfl⟩ := Option.map_eq_some_iff.1 hc
  have hold : n ∈ e.dependers ∧ ¬ (i ∈ susp.ids ∧ n = d.encode) := by
    by_cases hi : i ∈ susp.ids <;> simpa [hi] using hn
  obtain ⟨x, susp', hcode, hx, hi⟩ := h i e he n hold.1
  have hne : x ≠ d := by
    rintro rfl
    obtain rfl : susp = susp' := Option.some.inj (hd.symm.trans hx)
    exact hold.2 ⟨hi, hcode.symm⟩
  exact ⟨x, susp', hcode, by rw [suspension?_detach, if_neg hne, hx], hi⟩

theorem release (h : t.Fresh) (d : Depender) : (t.release d).Fresh := by
  rw [CellTable.release]
  split
  · next hd => exact h.detach hd
  · exact h

theorem releaseAll (h : t.Fresh) (ds : List Depender) : (t.releaseAll ds).Fresh := by
  induction ds generalizing t with
  | nil => exact h
  | cons d ds ih => exact ih (h.release d)

theorem wake (h : t.Fresh) (id : Nat) (d : Depender) : (t.wake id d).Fresh := by
  rw [CellTable.wake]
  split
  · next hd => exact h.detach (Option.filter_eq_some_iff.1 hd).1
  · exact h

theorem wakeAll (h : t.Fresh) (id : Nat) (ds : List Depender) : (t.wakeAll id ds).Fresh := by
  induction ds generalizing t with
  | nil => exact h
  | cons d ds ih => exact ih (h.wake id d)

theorem announce (h : t.Fresh) (batch : List (Cell E V K × Final E V)) :
    (t.announce batch).Fresh := by
  induction batch generalizing t with
  | nil => exact h
  | cons p rest ih => exact ih (h.wakeAll p.1.id _)

theorem put (h : t.Fresh) (id : Nat) (new : Status E V) : (t.put id new).Fresh := by
  refine h.of_codes ?_ fun hd hi => ⟨_, (suspension?_put t id new _).trans hd, hi⟩
  intro i c n hc hn
  rw [cell?_put] at hc
  obtain ⟨e, he, rfl⟩ := Option.map_eq_some_iff.1 hc
  by_cases hi : id = i
  · simp [hi] at hn
  · exact ⟨e, he, by simpa [hi] using hn⟩

theorem putAll (h : t.Fresh) (batch : List (Cell E V K × Final E V)) : (t.putAll batch).Fresh := by
  induction batch generalizing t with
  | nil => exact h
  | cons p rest ih => exact ih (h.put p.1.id _)

theorem mark (h : t.Fresh) (id : Nat) : (t.mark id).Fresh := by
  refine h.of_codes ?_ fun hd hi => ⟨_, (suspension?_mark t id _).trans hd, hi⟩
  intro i c n hc hn
  rw [CellTable.mark, cell?_modify] at hc
  split at hc
  · obtain ⟨e, he, rfl⟩ := Option.map_eq_some_iff.1 hc
    exact ⟨e, he, hn⟩
  · exact ⟨c, hc, hn⟩

theorem install (h : t.Fresh) (c : Cell E V K) (new : Status E V) : (t.install c new).Fresh := by
  have hin : (t.settleIn c.id new).Fresh := by
    rw [settleIn]
    split
    · exact (h.release _).put c.id new
    · exact h.put c.id new
  unfold CellTable.install
  split
  · exact (hin.wakeAll c.id _).mark c.id
  · exact hin.wakeAll c.id _

theorem resolve (h : t.Fresh) (group : List Depender) (batch : List (Cell E V K × Final E V)) :
    (t.resolve group batch).Fresh :=
  ((h.releaseAll group).putAll batch).announce batch

theorem grown (h : t.Fresh) (hu : t.Grown u) : u.Fresh := by
  refine h.of_codes ?_ fun hd hi => ⟨_, (hu.suspension? _).trans hd, hi⟩
  intro i c n hc hn
  by_cases hi : i < t.size
  · exact ⟨c, hu.old hi ▸ hc, hn⟩
  · obtain ⟨key, rfl⟩ := hu.new (Nat.not_lt.1 hi) hc
    exact absurd hn (SortedSet.not_mem_empty n)

theorem enlist [DecidableEq E] (h : t.Fresh) (ht : t.Sound) (susp : Suspension E V K) :
    (t.enlist susp).Fresh := by
  refine h.of_codes (fun hc hn => ⟨_, hc, hn⟩) ?_
  intro d susp' i hd hi
  have hne : d ≠ .collaborator t.nextCollaborator := by
    rintro rfl
    obtain ⟨c, hc, -⟩ := Option.bind_eq_some_iff.1 hd
    have hlt := (ht.numbered c (List.mem_of_find?_eq_some hc)).1
    have heq : c.id = t.nextCollaborator := by simpa using List.find?_some hc
    omega
  exact ⟨susp', by rw [ht.suspension?_enlist, if_neg hne, hd], hi⟩

theorem suspend (h : t.Fresh) {c : Cell E V K} {id : Nat} (hc : t.cell? id = some c)
    {susp : Suspension E V K} (hkeep : ∀ old, c.suspension = some old → ∀ i ∈ old.ids,
      i ∈ susp.ids) :
    (t.modify id (·.suspend susp)).Fresh := by
  refine h.of_codes ?_ ?_
  · intro i e n he hn
    rw [cell?_modify] at he
    split at he
    · obtain ⟨b, hb, rfl⟩ := Option.map_eq_some_iff.1 he
      exact ⟨b, hb, hn⟩
    · exact ⟨e, he, hn⟩
  · intro d old i hd hi
    rw [suspension?_modify_suspend hc]
    split
    · next hself =>
      subst hself
      refine ⟨susp, rfl, hkeep old ?_ i hi⟩
      simpa [suspension?, hc] using hd
    · exact ⟨old, hd, hi⟩

theorem fallAsleep [DecidableEq V] (h : t.Fresh) {c : Cell E V K} (hc : t.cell? c.id = some c)
    (ep : Interim E V) {susp : Suspension E V K}
    (hkeep : ∀ old, c.suspension = some old → ∀ i ∈ old.ids, i ∈ susp.ids) :
    (t.fallAsleep c ep susp).Fresh := by
  unfold CellTable.fallAsleep
  split
  · have hcell := cell?_put t c.id c.id (.interim ep)
    rw [hc, Option.map_some, if_pos rfl] at hcell
    have hasleep :=
      ((h.put c.id (.interim ep)).suspend hcell hkeep).wakeAll c.id c.dependers.members
    split
    · exact hasleep.mark c.id
    · exact hasleep
  · exact h.suspend hc hkeep

theorem link (h : t.Fresh) {d : Depender} {susp : Suspension E V K}
    (hd : t.suspension? d = some susp) {i : Nat} (hi : i ∈ susp.ids) : (t.link d i).Fresh := by
  intro j c hc n hn
  rw [CellTable.link, cell?_modify] at hc
  have hsame : ∀ e, (t.link d i).suspension? e = t.suspension? e :=
    fun e => suspension?_link t d e i
  by_cases hij : i = j
  · obtain ⟨b, hb, rfl⟩ : ∃ b, t.cell? j = some b ∧
        { b with dependers := b.dependers.insert d.encode } = c := by
      simpa [hij] using hc
    rcases SortedSet.mem_insert.1 hn with rfl | hn
    · exact ⟨d, susp, rfl, (hsame d).trans hd, hij ▸ hi⟩
    · obtain ⟨e, susp', hcode, he, hj⟩ := h j b hb n hn
      exact ⟨e, susp', hcode, (hsame e).trans he, hj⟩
  · obtain ⟨e, susp', hcode, he, hj⟩ := h j c (by simpa [hij] using hc) n hn
    exact ⟨e, susp', hcode, (hsame e).trans he, hj⟩

theorem watch (h : t.Fresh) {d : Depender} {susp : Suspension E V K}
    (hd : t.suspension? d = some susp) {ps : List (Nat × Status E V)}
    (hps : ∀ p ∈ ps, p.1 ∈ susp.ids) : (t.watch d ps).Fresh := by
  induction ps generalizing t with
  | nil => exact h
  | cons p ps ih =>
    obtain ⟨hp, hps⟩ := List.forall_mem_cons.1 hps
    exact ih (h.link hd hp) ((suspension?_link t d d p.1).trans hd) hps

end Fresh

theorem suspension?_fallAsleep_self [DecidableEq V] {c : Cell E V K} (hc : t.cell? c.id = some c)
    (ep : Interim E V) {susp : Suspension E V K} (hself : c.id ∉ susp.ids) :
    (t.fallAsleep c ep susp).suspension? (.cell c.id) = some susp := by
  unfold CellTable.fallAsleep
  split
  · have hcell := cell?_put t c.id c.id (.interim ep)
    rw [hc, Option.map_some, if_pos rfl] at hcell
    have hwaits : susp.waitsOn c.id = false := by
      rw [← Bool.not_eq_true, Suspension.waitsOn_iff]
      exact hself
    have hwoken : (((t.put c.id (.interim ep)).modify c.id (·.suspend susp)).wakeAll c.id
        c.dependers.members).suspension? (.cell c.id) = some susp := by
      rw [suspension?_wakeAll, suspension?_modify_suspend hcell, if_pos rfl]
      simp [hwaits]
    split
    · exact (suspension?_mark _ _ _).trans hwoken
    · exact hwoken
  · rw [suspension?_modify_suspend hc, if_pos rfl]

theorem Tells.wakeAll [DecidableEq E] {i id : Nat} {d : Depender} {susp : Suspension E V K}
    (h : t.Tells i d) (ht : t.Sound) (ds : List Depender)
    (hd : (t.wakeAll id ds).suspension? d = some susp) : (t.wakeAll id ds).Tells i d := by
  induction ds generalizing t with
  | nil => exact h
  | cons e ds ih =>
    refine ih ?_ (ht.wake id e) hd
    have hsleeps : (t.wake id e).suspension? d = some susp := suspension?_wakeAll_le hd
    rw [CellTable.wake] at hsleeps ⊢
    split at hsleeps
    · next susp' he =>
      rw [suspension?_detach] at hsleeps
      by_cases hde : d = e
      · simp [hde] at hsleeps
      · refine tells_detach.2 ⟨h, fun hcode => hde ?_⟩
        exact Depender.encode_injective (ht.depender_lt (by simpa [hde] using hsleeps))
          (ht.depender_lt (Option.filter_eq_some_iff.1 he).1) hcode.1
    · exact h

theorem Tells.fallAsleep [DecidableEq E] [DecidableEq V] {c : Cell E V K} {ep : Interim E V}
    {susp : Suspension E V K} {i : Nat} (h : t.Tells i (.cell c.id)) (ht : t.Sound)
    (hc : t.cell? c.id = some c) (hfit : c.Fits (.interim ep)) (hne : susp.dependees ≠ [])
    (hlt : ∀ j ∈ susp.ids, j < t.size) (hself : c.id ∉ susp.ids) (hi : i ≠ c.id) :
    (t.fallAsleep c ep susp).Tells i (.cell c.id) := by
  have hsleeps := suspension?_fallAsleep_self hc ep hself
  unfold CellTable.fallAsleep at hsleeps ⊢
  split at hsleeps
  · next hch =>
    rw [if_pos hch]
    have hput : ((t.put c.id (.interim ep)).modify c.id (·.suspend susp)).Tells i (.cell c.id) :=
      tells_modify_suspend.2 (tells_put.2 ⟨Ne.symm hi, h⟩)
    have hsound := ht.put_suspend hc hfit hne hlt
    split at hsleeps
    · next hu =>
      rw [if_pos hu, tells_mark]
      exact hput.wakeAll hsound _ (suspension?_mark _ _ _ ▸ hsleeps)
    · next hu =>
      rw [if_neg hu]
      exact hput.wakeAll hsound _ hsleeps
  · next hch =>
    rw [if_neg hch]
    exact tells_modify_suspend.2 h

end CellTable

namespace Store
variable {E V C K : Type} {s q r : Store E V C K}

theorem Registered.fresh [DecidableEq V] {d : Depender} {n : Nat} {k : K}
    {obs : List (Nat × Status E V)} (h : s.Registered d n obs r)
    (hd : s.table.suspension? d = some ⟨n, k, obs⟩) (hf : s.table.Fresh) :
    r.table.Fresh := by
  cases h with
  | asleep _ hr => exact hr.table ▸ hf.watch hd fun p hp => List.mem_map_of_mem hp
  | stopped pre post p c hobs hpre hc hp hr =>
    have hwatched : (s.table.watch d pre).Fresh := hf.watch hd fun p hp =>
      List.mem_map_of_mem (by rw [hobs]; exact List.mem_append_left _ hp)
    simp only [hd, Option.filter_some, beq_self_eq_true, if_true] at hr
    exact hr.table ▸ hwatched.detach ((CellTable.suspension?_watch _ _ _ _).trans hd)

theorem Registered.asleep_before [DecidableEq V] {e d : Depender} {n : Nat}
    {obs : List (Nat × Status E V)} {susp : Suspension E V K} (h : s.Registered e n obs r)
    (hd : r.table.suspension? d = some susp) : s.table.suspension? d = some susp := by
  cases h with
  | asleep _ hr =>
    rw [hr.table, CellTable.suspension?_watch] at hd
    exact hd
  | stopped pre post p c hobs hpre hc hp hr =>
    split at hr
    · rw [hr.table, CellTable.suspension?_detach, CellTable.suspension?_watch] at hd
      split at hd
      · cases hd
      · exact hd
    · rw [hr.table, CellTable.suspension?_watch] at hd
      exact hd

/-- For every cell: whoever it tells sleeps and waits on it, and it tells somebody exactly if
somebody does. -/
def LinksExact (s : Store E V C K) : Prop :=
  ∀ i c, s.cell? i = some c →
    (∀ d ∈ c.dependers.members, ∃ susp, s.table.suspension? d = some susp ∧ i ∈ susp.ids) ∧
    (c.hasDependers = true ↔ ∃ d susp, s.table.suspension? d = some susp ∧ i ∈ susp.ids)

theorem LinksExact.waits (h : s.LinksExact) {i : Nat} {d : Depender} (ht : s.table.Tells i d)
    (hd : d.id < collaboratorBit) : ∃ susp, s.table.suspension? d = some susp ∧ i ∈ susp.ids := by
  obtain ⟨c, hc, hmem⟩ := ht
  exact (h i c hc).1 d (DependerSet.mem_members hmem hd)

variable [DecidableEq E]

/-- An interim result that replaces the pending suspension of its own cell and no longer waits on
all that it waited on. -/
def Drops (s : Store E V C K) : Act E V C K → Prop
  | .perform (.suspend ep dependees _) =>
    ∃ c susp, s.table.find? ep.key = some c ∧ c.suspension = some susp ∧
      ∃ i ∈ susp.ids, ∀ d ∈ dependees, ∀ e, s.table.find? d.key = some e → e.id ≠ i
  | _ => False

theorem lasting_fresh : Lasting (CellTable.Fresh : CellTable E V K → Prop) where
  grown := CellTable.Fresh.grown
  install h _ _ := h.install _ _
  resolve h _ := h.resolve _ _

theorem lasting_outward : Lasting (CellTable.Outward : CellTable E V K → Prop) where
  grown h hu := h.of_le fun hd => hu.suspension? _ ▸ hd
  install h _ _ := h.of_le CellTable.suspension?_install_le
  resolve h _ := h.of_le fun hd => (CellTable.suspension?_resolve_le hd).2

variable [DecidableEq V]

section
variable [Property V] [ToString E]

variable {ep : Interim E V} {dependees : List (Status E V)} {k : K} {c : Cell E V K} {n : Nat}
  {obs : List (Nat × Status E V)}

theorem FallsAsleep.not_self (h : s.FallsAsleep ep dependees k q c n obs r)
    (hdebug : s.config.debug = true) : c.id ∉ (⟨n, k, obs⟩ : Suspension E V K).ids := by
  intro hmem
  obtain ⟨p, hp, hid⟩ := List.mem_map.1 hmem
  obtain ⟨e, he, hkey⟩ := h.observed.cells p hp
  obtain rfl : c = e := Option.some.inj (h.cell.symm.trans (hid ▸ he))
  have hforeign := h.foreign hdebug p.2 (h.observed.values ▸ List.mem_map_of_mem hp)
  simp [Key.same_trans (Key.same_symm h.key) hkey] at hforeign

theorem FallsAsleep.find? (h : s.FallsAsleep ep dependees k q c n obs r) (hs : s.Sound)
    {old : Suspension E V K} (hold : c.suspension = some old) : s.table.find? ep.key = some c := by
  have hd : s.table.suspension? (.cell c.id) = some old := by
    rw [← h.grows.grown.suspension?]
    simp [CellTable.suspension?, h.cell, hold]
  obtain ⟨e, he, -⟩ := Option.bind_eq_some_iff.1 hd
  obtain rfl : c = e := Option.some.inj (h.cell.symm.trans (h.grows.grown.cell? he))
  obtain ⟨e, hfind, hid⟩ :=
    CellTable.find?_of_key? hs.table (i := c.id) (by simp [CellTable.key?, he]) h.key
  have hcell := (CellTable.find?_eq_some hs.table hfind).1
  rw [hid, he] at hcell
  rw [hfind, ← hcell]

theorem FallsAsleep.mem_ids_iff (h : s.FallsAsleep ep dependees k q c n obs r)
    (hs : s.Sound) {i : Nat} (hi : i < s.table.size) :
    i ∈ (⟨n, k, obs⟩ : Suspension E V K).ids ↔
      ∃ d ∈ dependees, ∃ e, s.table.find? d.key = some e ∧ e.id = i := by
  constructor
  · intro hmem
    obtain ⟨p, hp, rfl⟩ := List.mem_map.1 hmem
    obtain ⟨e, he, hkey⟩ := h.observed.cells p hp
    rw [h.grows.grown.old hi] at he
    obtain ⟨e', hfind, hid⟩ :=
      CellTable.find?_of_key? hs.table (i := p.1) (by simp [CellTable.key?, he]) hkey
    exact ⟨p.2, h.observed.values ▸ List.mem_map_of_mem hp, e', hfind, hid⟩
  · rintro ⟨d, hd, e, hfind, rfl⟩
    rw [← h.observed.values] at hd
    obtain ⟨p, hp, rfl⟩ := List.mem_map.1 hd
    obtain ⟨e', he', hkey'⟩ := h.observed.cells p hp
    obtain ⟨he, hkey⟩ := CellTable.find?_eq_some hs.table hfind
    have heq := h.grows.sound.table.key_inj he' (h.grows.grown.cell? he)
      (Key.same_trans hkey' (Key.same_symm hkey))
    exact List.mem_map.2 ⟨p, hp, heq⟩

theorem FallsAsleep.keeps (h : s.FallsAsleep ep dependees k q c n obs r) (hs : s.Sound)
    (hdrop : ¬ s.Drops (.perform (.suspend ep dependees k))) {old : Suspension E V K}
    (hold : c.suspension = some old) : ∀ i ∈ old.ids, i ∈ (⟨n, k, obs⟩ : Suspension E V K).ids := by
  intro i hi
  have hfind := h.find? hs hold
  have hd : s.table.suspension? (.cell c.id) = some old := by
    simp [CellTable.suspension?, (CellTable.find?_eq_some hs.table hfind).1, hold]
  by_contra hnot
  rw [h.mem_ids_iff hs ((hs.table.awaits hd).2 i hi)] at hnot
  exact hdrop ⟨c, old, hfind, hold, i, hi, fun d hd e he hid => hnot ⟨d, hd, e, he, hid⟩⟩

end

theorem linksExact_of_fresh (hs : s.Sound) (hl : s.table.Linked) (hf : s.table.Fresh) :
    s.LinksExact := by
  intro i c hc
  refine ⟨?_, ?_, ?_⟩
  · intro d hd
    obtain ⟨n, hn, rfl⟩ := List.mem_map.1 hd
    obtain ⟨e, susp, rfl, he, hi⟩ := hf i c hc n hn
    exact ⟨susp, by rw [Depender.decode_encode (hs.table.depender_lt he), he], hi⟩
  · intro htold
    obtain ⟨n, hn⟩ : ∃ n, n ∈ c.dependers.toList := by
      refine List.exists_mem_of_ne_nil _ fun hnil => ?_
      simp [Cell.hasDependers, SortedSet.isEmpty, hnil] at htold
    obtain ⟨e, susp, -, he, hi⟩ := hf i c hc n hn
    exact ⟨e, susp, he, hi⟩
  · rintro ⟨d, susp, hd, hi⟩
    obtain ⟨p, hp, rfl⟩ := List.mem_map.1 hi
    obtain ⟨⟨e, he, hmem⟩, -⟩ := hl d susp hd p hp
    obtain rfl : c = e := Option.some.inj (hc.symm.trans he)
    have hne : c.dependers.toList ≠ [] := List.ne_nil_of_mem hmem
    simp [Cell.hasDependers, SortedSet.isEmpty, hne]

variable [Property V] [ToString E] [ToString V]

/-- Without a fault and without a dropped dependee no link becomes stale. -/
theorem act_fresh (hs : s.Sound) (hdebug : s.config.debug = true) (hf : s.table.Fresh)
    {a : Act E V C K} (hdrop : ¬ s.Drops a) (hfault : (s.act a).fault = none) :
    (s.act a).table.Fresh := by
  refine lasting_fresh.act hs hf hfault ?_ ?_
  · rintro ep dependees k q c n obs q' r rfl h hreg
    refine hreg.fresh (k := k) ?_ ?_ <;> rw [h.becomes.table]
    · exact CellTable.suspension?_fallAsleep_self h.cell ep (h.not_self hdebug)
    · exact (hf.grown h.grows.grown).fallAsleep h.cell ep fun old hold => h.keeps hs hdrop hold
  · rintro dependees k q n obs q' r rfl hgrows hadd hreg
    refine hreg.fresh (k := k) ?_ ?_ <;> rw [hadd.table]
    · rw [hgrows.sound.table.suspension?_enlist, if_pos rfl]
    · exact (hf.grown hgrows.grown).enlist hgrows.sound.table _

theorem act_outward (hs : s.Sound) (hdebug : s.config.debug = true) (ho : s.table.Outward)
    {a : Act E V C K} (hfault : (s.act a).fault = none) : (s.act a).table.Outward := by
  refine lasting_outward.act hs ho hfault ?_ ?_
  · rintro ep dependees k q c n obs q' r rfl h hreg i susp hd
    have hasleep := hreg.asleep_before hd
    rw [h.becomes.table] at hasleep
    have hcases := CellTable.suspension?_fallAsleep_le h.cell hasleep
    split at hcases
    · next hi =>
      obtain rfl : i = c.id := Depender.cell.inj hi
      rw [← Option.some.inj hcases]
      exact h.not_self hdebug
    · rw [h.grows.grown.suspension?] at hcases
      exact ho i susp hcases
  · rintro dependees k q n obs q' r rfl hgrows hadd hreg i susp hd
    have hasleep := hreg.asleep_before hd
    rw [hadd.table, hgrows.sound.table.suspension?_enlist, if_neg (by simp),
      hgrows.grown.suspension?] at hasleep
    exact ho i susp hasleep

/-- A dropped dependee goes on telling the cell that no longer waits on it. -/
theorem not_linksExact_of_drops (hs : s.Sound) (hl : s.table.Linked) (ho : s.table.Outward)
    (hdebug : s.config.debug = true) {a : Act E V C K} (hdrop : s.Drops a)
    (hfault : (s.act a).fault = none) : ¬ (s.act a).LinksExact := by
  obtain ⟨ep, dependees, k, rfl⟩ : ∃ ep dependees k, a = .perform (.suspend ep dependees k) := by
    unfold Drops at hdrop
    split at hdrop
    · exact ⟨_, _, _, rfl⟩
    · exact hdrop.elim
  obtain ⟨c, old, hfind, hold, i, hi, hnot⟩ := hdrop
  obtain ⟨hc, hckey⟩ := CellTable.find?_eq_some hs.table hfind
  have hd : s.table.suspension? (.cell c.id) = some old := by simp [CellTable.suspension?, hc, hold]
  have hbit : c.id < collaboratorBit := hs.table.depender_lt hd
  obtain ⟨p, hp, rfl⟩ := List.mem_map.1 hi
  obtain ⟨htells, -⟩ := hl _ old hd p hp
  simp only [Store.act] at hfault ⊢
  cases hr : perform (.suspend ep dependees k) s with
  | error e r =>
    rw [hr] at hfault
    cases hr' : r.fault <;> simp [Store.fail, notify, hr'] at hfault
  | ok u r =>
    obtain ⟨q, c', n, obs, q', h, hreg⟩ := (suspend_ends hs ep dependees k).of_ok (unbroken_ok hr)
    -- the cell of the result is the one that slept
    have hqc := h.grows.grown.cell? hc
    have hid : c'.id = c.id :=
      h.grows.sound.table.key_inj h.cell hqc (Key.same_trans h.key (Key.same_symm hckey))
    obtain rfl : c' = c := Option.some.inj (h.cell.symm.trans (hid ▸ hqc))
    have hdropped : p.1 ∉ (⟨n, k, obs⟩ : Suspension E V K).ids := by
      rw [h.mem_ids_iff hs ((hs.table.awaits hd).2 p.1 hi)]
      rintro ⟨d, hd, e, he, heq⟩
      exact hnot d hd e he heq
    have hself := h.not_self hdebug
    have hsleeps : q'.table.suspension? (.cell c'.id) = some ⟨n, k, obs⟩ :=
      h.becomes.table ▸ CellTable.suspension?_fallAsleep_self h.cell ep hself
    have hqtells : q.table.Tells p.1 (.cell c'.id) := by
      obtain ⟨e, he, hmem⟩ := htells
      exact ⟨e, h.grows.grown.cell? he, hmem⟩
    have hstill : q'.table.Tells p.1 (.cell c'.id) :=
      h.becomes.table ▸ hqtells.fallAsleep h.grows.sound.table h.cell h.fits h.observed.nonempty
        h.observed.ids_lt hself fun heq => ho c'.id old hd (heq ▸ hi)
    have hrtells : r.table.Tells p.1 (.cell c'.id) := by
      cases hreg with
      | asleep _ hr => exact hr.table ▸ CellTable.tells_watch.2 (.inl hstill)
      | stopped pre post p' e hobs hpre he hp' hr =>
        simp only [hsleeps, Option.filter_some, beq_self_eq_true, if_true] at hr
        exact hr.table ▸ CellTable.tells_detach.2
          ⟨CellTable.tells_watch.2 (.inl hstill), fun hids => hdropped hids.2⟩
    intro hexact
    obtain ⟨susp, hsusp, hmem⟩ := hexact.waits hrtells hbit
    have hsame := (hreg.asleep_before hsusp).symm.trans hsleeps
    rw [Option.some.inj hsame] at hmem
    exact hdropped hmem

/-! Whole runs. -/

theorem run_fresh (h : s.Reachable) (hdebug : s.config.debug = true) (hf : s.table.Fresh)
    {acts : List (Act E V C K)} (hfault : (s.run acts).fault = none)
    (hdrop : ∀ pre a, pre ++ [a] <+: acts → ¬ (s.run pre).Drops a) : (s.run acts).table.Fresh := by
  induction acts generalizing s with
  | nil => exact hf
  | cons a acts ih =>
    have hages := act_ages h.healthy.sound a
    have hnone : (s.act a).fault = none := (run_ages (h.act a) acts).fault hfault
    have hfirst : ¬ s.Drops a := hdrop [] a ((List.prefix_cons_inj a).2 List.nil_prefix)
    refine ih (h.act a) (hages.config ▸ hdebug)
      (act_fresh h.healthy.sound hdebug hf hfirst hnone) hfault ?_
    exact fun pre b hpre => hdrop (a :: pre) b ((List.prefix_cons_inj a).2 hpre)

theorem run_outward (h : s.Reachable) (hdebug : s.config.debug = true) (ho : s.table.Outward)
    {acts : List (Act E V C K)} (hfault : (s.run acts).fault = none) :
    (s.run acts).table.Outward := by
  induction acts generalizing s with
  | nil => exact ho
  | cons a acts ih =>
    have hages := act_ages h.healthy.sound a
    have hnone : (s.act a).fault = none := (run_ages (h.act a) acts).fault hfault
    exact ih (h.act a) (hages.config ▸ hdebug) (act_outward h.healthy.sound hdebug ho hnone) hfault

/-- In a store that validates, and as long as no fault is recorded, links are exact all the time if
and only if no interim result drops a dependee of the suspension it replaces. -/
theorem links_exact_iff (config : Config) (hdebug : config.debug = true)
    (tracer : Tracer E V) (cores : Nat) (acts : List (Act E V C K))
    (hfault : ((create config tracer cores).run acts).fault = none) :
    (∀ pre, pre <+: acts → ((create config tracer cores).run pre).LinksExact) ↔
      ∀ pre a, pre ++ [a] <+: acts → ¬ ((create config tracer cores).run pre).Drops a := by
  have hr : ∀ pre, ((create config tracer cores : Store E V C K).run pre).Reachable := fun pre =>
    (Reachable.create config tracer cores).run pre
  have hnone : ∀ {pre}, pre <+: acts → ((create config tracer cores).run pre).fault = none := by
    rintro pre ⟨rest, rfl⟩
    rw [run_append] at hfault
    exact (run_ages (hr pre) rest).fault hfault
  have hstart : (create config tracer cores : Store E V C K).Reachable :=
    .create config tracer cores
  constructor
  · intro hexact pre a hpre hdrop
    have hpre' : pre <+: acts := (List.prefix_append pre [a]).trans hpre
    have hact : (create config tracer cores).run (pre ++ [a]) =
        ((create config tracer cores).run pre).act a :=
      run_append _ pre [a]
    have ho := run_outward hstart hdebug (fun i susp hd => by
      simp [create, notify, CellTable.suspension?, CellTable.empty, CellTable.cell?] at hd)
        (hnone hpre')
    exact not_linksExact_of_drops (hr pre).healthy.sound ((hr pre).healthy.linked (hnone hpre')) ho
      ((run_ages hstart pre).config ▸ hdebug) hdrop (hact ▸ hnone hpre) (hact ▸ hexact _ hpre)
  · intro hdrop pre hpre
    exact linksExact_of_fresh (hr pre).healthy.sound ((hr pre).healthy.linked (hnone hpre))
      (run_fresh hstart hdebug .empty (hnone hpre) fun pre' a hpre' =>
        hdrop pre' a (hpre'.trans hpre))

section
open FactSort (purity types)

/-- The purity of a method waits on the types of the project. -/
def awaitTypes : List (Act Element Fact Unit Nat) :=
  [.call (.registerKind ((FallbackRule.fixed (.purity .impure)).info .lower)),
    .call (.registerKind ((FallbackRule.fixed (.types ∅)).info .lower)),
    .perform (.suspend ⟨⟨.method 1, purity.kind⟩, ⟨0, .purity .impure⟩, ⟨1, .purity .pure⟩⟩
      [.unknown ⟨.project, types.kind⟩] 7)]

def awaitInstead (dependees : List (Status Element Fact)) : Act Element Fact Unit Nat :=
  .perform (.suspend ⟨⟨.method 1, purity.kind⟩, ⟨2, .purity .impure⟩, ⟨3, .purity .pure⟩⟩
    dependees 8)

def awaitBoth : List (Act Element Fact Unit Nat) :=
  awaitTypes ++ [awaitInstead [.unknown ⟨.method 2, purity.kind⟩, .unknown ⟨.project, types.kind⟩]]

theorem awaitBoth_links_exact_iff :
    ({} : Config).debug = true ∧ ((create {} .none 1).run awaitBoth).fault = none ∧
    ((∀ pre, pre <+: awaitBoth → ((create {} .none 1).run pre).LinksExact) ↔
      ∀ pre a, pre ++ [a] <+: awaitBoth → ¬ ((create {} .none 1).run pre).Drops a) :=
  have hfault : ((create {} .none 1).run awaitBoth).fault = none :=
    Option.isNone_iff_eq_none.1 (by decide +kernel)
  ⟨rfl, hfault, links_exact_iff {} rfl .none 1 awaitBoth hfault⟩

def awaitOther : Store Element Fact Unit Nat :=
  (create {} .none 1).run (awaitTypes ++ [awaitInstead [.unknown ⟨.method 2, purity.kind⟩]])

/-- Nobody waits on the types any more, and still they count as waited on: they fall back together
with the method, before what was resumed for it can contribute to them. -/
theorem awaitOther_stale :
    awaitOther.Reachable ∧ awaitOther.config.debug = true ∧ awaitOther.fault = none ∧
      ¬ awaitOther.LinksExact ∧
    (awaitOther.cell? 0).map (fun c => (c.key, c.hasDependers)) =
      some (⟨.project, types.kind⟩, true) ∧
    (awaitOther.table.suspension? (.cell 1)).map (·.ids) = some [2] ∧
    awaitOther.table.collaborators.length = 0 ∧
    ((awaitOther.act (.round true true)).cell? 0).map (·.status.isFinal) = some true ∧
    (awaitOther.run [.round true true, .start, .perform (.contribute ⟨⟨.project, types.kind⟩,
      fun _ => .ok (some
        (.ofValue ⟨.project, types.kind⟩ ⟨9, .types (.ofList [5])⟩))⟩)]).fault.isSome = true := by
  have hids : (awaitOther.table.suspension? (.cell 1)).map (·.ids) = some [2] := by decide +kernel
  have hr : awaitOther.Reachable := (Reachable.create {} .none 1).run _
  have hfault : awaitOther.fault = none := Option.isNone_iff_eq_none.1 (by decide +kernel)
  refine ⟨hr, by decide +kernel, hfault, ?_, by decide +kernel,
    hids, by decide +kernel, by decide +kernel, by decide +kernel⟩
  intro hexact
  have htold : (awaitOther.cell? 0).any (fun c => decide (.cell 1 ∈ c.dependers.members)) =
      true := by decide +kernel
  obtain ⟨c, hc, hmem⟩ := (Option.any_eq_true _ _).1 htold
  obtain ⟨susp, hsusp, hzero⟩ := (hexact 0 c hc).1 (.cell 1) (by simpa using hmem)
  rw [hsusp] at hids
  have hother : susp.ids = [2] := Option.some.inj hids
  simp [hother] at hzero

end

end Store
end Blackboard
