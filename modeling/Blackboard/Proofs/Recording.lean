import Blackboard.Proofs.Keeping
import Blackboard.Proofs.Progress

/-! Events, counters and cells side by side: the updates that were told of a cell lead to what it
holds, statistics count events, and final cells are counted one by one. -/
namespace Blackboard

namespace Status
variable {E V : Type} [DecidableEq V] {first last : Status E V}
  {updates : List (Status E V × Status E V)}

/-- Updates, each from an old status to a new one, that lead from one state to another without a
gap. -/
def Leads : Status E V → List (Status E V × Status E V) → Status E V → Prop
  | first, [], last => first.sameState last = true
  | first, (old, new) :: rest, last => first.sameState old = true ∧ Leads new rest last

theorem Leads.snoc (h : first.Leads updates last) (new : Status E V) :
    first.Leads (updates ++ [(last, new)]) new := by
  induction updates generalizing first with
  | nil => exact ⟨h, sameState_self new⟩
  | cons u updates ih => exact ⟨h.1, ih h.2⟩

theorem Leads.isUnknown_eq_false (h : first.Leads updates last) (hfirst : first.isUnknown = false)
    (hknown : ∀ u ∈ updates, u.2.isUnknown = false) : last.isUnknown = false := by
  induction updates generalizing first with
  | nil =>
    by_contra hlast
    simp [isUnknown_of_sameState h (by simpa using hlast)] at hfirst
  | cons u updates ih =>
    obtain ⟨hu, hrest⟩ := List.forall_mem_cons.1 hknown
    exact ih h.2 hu hrest

theorem Leads.eq_nil_iff {key : Key E} (h : (unknown key).Leads updates last)
    (hknown : ∀ u ∈ updates, u.2.isUnknown = false) : updates = [] ↔ last.isUnknown = true := by
  cases updates with
  | nil =>
    cases last with
    | unknown k => simp [isUnknown]
    | interim ep => simp [Leads, sameState] at h
    | final ep => simp [Leads, sameState] at h
  | cons u updates =>
    obtain ⟨hu, hrest⟩ := List.forall_mem_cons.1 hknown
    simp [h.2.isUnknown_eq_false hu hrest]

end Status

namespace Event
variable {E V : Type}

def update? : Event E V → Option (Status E V × Status E V)
  | .update old new => some (old, new)
  | _ => none

def round? : Event E V → Option Nat
  | .quiescence round => some round
  | _ => none

def tasks : Event E V → Nat
  | .schedule _ _ | .notification _ _ => 1
  | _ => 0

def settlements : Event E V → Nat
  | .fallback _ _ | .cycleResolution _ _ => 1
  | _ => 0

def tellings (name : String) (events : List (Event E V)) : Nat := events.countP (·.name == name)

end Event

namespace Statistics
variable {E V : Type} {n : Statistics} {events : List (Event E V)}

def tally (n : Statistics) : Event E V → Statistics
  | .schedule _ _ => { n with scheduledTasks := n.scheduledTasks + 1 }
  | .update _ _ => { n with updates := n.updates + 1 }
  | .notification _ _ => { n with notifications := n.notifications + 1 }
  | .fallback _ _ => { n with fallbacks := n.fallbacks + 1 }
  | .cycleResolution _ _ => { n with resolvedCycles := n.resolvedCycles + 1 }
  | .quiescence _ => { n with quiescenceRounds := n.quiescenceRounds + 1 }
  | .force _ | .fault _ => n

structure Counts (n : Statistics) (events : List (Event E V)) : Prop where
  scheduledTasks : n.scheduledTasks = Event.tellings "schedule" events
  updates : n.updates = Event.tellings "update" events
  notifications : n.notifications = Event.tellings "notification" events
  fallbacks : n.fallbacks = Event.tellings "fallback" events
  resolvedCycles : n.resolvedCycles = Event.tellings "cycle_resolution" events
  quiescenceRounds : n.quiescenceRounds = Event.tellings "quiescence" events

theorem Counts.tally (h : n.Counts events) (e : Event E V) :
    (n.tally e).Counts (events ++ [e]) := by
  have htold (name : String) :
      Event.tellings name (events ++ [e]) = Event.tellings name events + if e.name ==
        name then 1 else 0 := by
    simp [Event.tellings]
  cases e <;> constructor <;>
    simp [Statistics.tally, htold, Event.name, h.scheduledTasks, h.updates, h.notifications,
      h.fallbacks, h.resolvedCycles, h.quiescenceRounds]

end Statistics

/-! What was told about updates, and what the cells hold. -/

namespace CellTable
variable {E V K : Type} {t u : CellTable E V K}

structure Puts (t : CellTable E V K) (c : Cell E V K) (new : Status E V)
    (u : CellTable E V K) : Prop where
  here : u.face? c.id = some (c.id, c.key, new)
  elsewhere : ∀ {i}, i ≠ c.id → u.face? i = t.face? i

theorem Puts.overwrite {c : Cell E V K} {new : Status E V} {c' : Cell E V K}
    (hc : t.cell? c.id = some c) (hface : c'.face = (c.id, c.key, new)) :
    t.Puts c new (t.modify c'.id fun _ => c') := by
  have hid : c'.id = c.id := congrArg Prod.fst hface
  constructor
  · simp [face?, cell?_modify, hid, hc, hface]
  · intro i hi
    simp [face?, cell?_modify, hid, Ne.symm hi]

theorem Puts.cases {c : Cell E V K} {new : Status E V} (h : t.Puts c new u) {i : Nat}
    {e : Cell E V K} (he : u.cell? i = some e) :
    (i = c.id ∧ e.id = c.id ∧ e.key = c.key ∧ e.status = new) ∨
      i ≠ c.id ∧ ∃ old, t.cell? i = some old ∧ e.id = old.id ∧ e.key = old.key ∧
        e.status = old.status := by
  by_cases hi : i = c.id
  · subst hi
    obtain ⟨e', he', hid, hkey, hstatus⟩ := cell?_of_shown h.here
    obtain rfl : e' = e := Option.some.inj (he'.symm.trans he)
    exact .inl ⟨rfl, hid, hkey, hstatus⟩
  · obtain ⟨old, hold, hid, hkey, hstatus⟩ :=
      cell?_of_shown ((h.elsewhere hi).symm.trans (face?_of_cell? he))
    exact .inr ⟨hi, old, hold, hid.symm, hkey.symm, hstatus.symm⟩

variable [DecidableEq E]

theorem Puts.labelled {c : Cell E V K} {new : Status E V} (h : t.Puts c new u) (ht : t.Labelled)
    (hc : t.cell? c.id = some c) (hfit : c.Fits new) : u.Labelled where
  id_eq {i e} he := by
    obtain ⟨hi, hid, -⟩ | ⟨-, old, hold, hid, -⟩ := h.cases he
    · rw [hid, hi]
    · rw [hid, ht.id_eq hold]
  key_inj {i j a b} ha hb hsame := by
    have hkey {k : Nat} {e : Cell E V K} (he : u.cell? k = some e) :
        ∃ old, t.cell? k = some old ∧ e.key = old.key := by
      obtain ⟨rfl, -, hk, -⟩ | ⟨-, old, hold, -, hk, -⟩ := h.cases he
      · exact ⟨c, hc, hk⟩
      · exact ⟨old, hold, hk⟩
    obtain ⟨a', ha', hka⟩ := hkey ha
    obtain ⟨b', hb', hkb⟩ := hkey hb
    exact ht.key_inj ha' hb' (hka ▸ hkb ▸ hsame)
  own_key {i e} he := by
    obtain ⟨-, -, hkey, hstatus⟩ | ⟨-, old, hold, -, hkey, hstatus⟩ := h.cases he
    · rw [hkey, hstatus]
      exact hfit.key
    · rw [hkey, hstatus]
      exact ht.own_key hold

variable [DecidableEq V] {updates : List (Status E V × Status E V)}

/-- The updates of each cell lead from nothing to what the cell holds, and there are no others. -/
structure History (t : CellTable E V K) (updates : List (Status E V × Status E V)) : Prop where
  leads : ∀ {i c}, t.cell? i = some c →
    (Status.unknown c.key).Leads (updates.filter (·.2.key.same c.key)) c.status
  known : ∀ u ∈ updates, u.2.isUnknown = false
  placed : ∀ u ∈ updates, ∃ i c, t.cell? i = some c ∧ u.1.key.same c.key = true ∧
    u.2.key.same c.key = true

theorem History.adds (h : t.History updates) (hu : t.Adds u) : u.History updates where
  leads {i c} hc := by
    cases hold : t.cell? i with
    | some e =>
      obtain ⟨c', hc', -, hkey, hstatus⟩ := cell?_of_shown (hu.kept (face?_of_cell? hold))
      obtain rfl : c' = c := Option.some.inj (hc'.symm.trans hc)
      rw [hkey, hstatus]
      exact h.leads hold
    | none =>
      have hnone : updates.filter (·.2.key.same c.key) = [] := by
        refine List.filter_eq_nil_iff.2 fun x hx hsame => ?_
        obtain ⟨j, e, he, -, hnew⟩ := h.placed x hx
        obtain ⟨e', he', -, hkey, -⟩ := cell?_of_shown (hu.kept (face?_of_cell? he))
        have hji : j = i :=
          hu.labelled.key_inj he' hc (hkey ▸ Key.same_trans (Key.same_symm hnew) hsame)
        simp [hji, hold] at he
      rw [hnone, hu.fresh hold hc]
      rfl
  known := h.known
  placed x hx := by
    obtain ⟨i, c, hc, hold, hnew⟩ := h.placed x hx
    obtain ⟨c', hc', -, hkey, -⟩ := cell?_of_shown (hu.kept (face?_of_cell? hc))
    exact ⟨i, c', hc', hkey ▸ hold, hkey ▸ hnew⟩

namespace Puts
variable {c : Cell E V K} {new : Status E V}

theorem history (h : t.Puts c new u) (ht : t.Labelled) (hc : t.cell? c.id = some c)
    (hfit : c.Fits new) (hist : t.History updates) : u.History (updates ++ [(c.status, new)]) where
  leads {i e} he := by
    obtain ⟨-, -, hkey, hstatus⟩ | ⟨hi, old, hold, -, hkey, hstatus⟩ := h.cases he
    · have hlast : [(c.status, new)].filter (·.2.key.same c.key) = [(c.status, new)] := by
        simp [hfit.key]
      rw [hkey, hstatus, List.filter_append, hlast]
      exact (hist.leads hc).snoc new
    · have hother : ¬ new.key.same old.key = true := fun hsame =>
        hi (ht.key_inj hold hc (Key.same_trans (Key.same_symm hsame) hfit.key))
      have hlast : [(c.status, new)].filter (·.2.key.same old.key) = [] := by simp [hother]
      rw [hkey, hstatus, List.filter_append, hlast, List.append_nil]
      exact hist.leads hold
  known := by
    simp only [List.forall_mem_append, List.forall_mem_singleton]
    exact ⟨hist.known, hfit.value⟩
  placed := by
    obtain ⟨c', hc', -, hkey, -⟩ := cell?_of_shown h.here
    simp only [List.forall_mem_append, List.forall_mem_singleton]
    refine ⟨fun x hx => ?_, c.id, c', hc', hkey ▸ ht.own_key hc, hkey ▸ hfit.key⟩
    obtain ⟨i, e, he, hold, hnew⟩ := hist.placed x hx
    by_cases hi : i = c.id
    · obtain rfl : e = c := Option.some.inj (he.symm.trans (hi ▸ hc))
      exact ⟨_, c', hc', hkey ▸ hold, hkey ▸ hnew⟩
    · obtain ⟨e', he', -, hkey', -⟩ := cell?_of_shown ((h.elsewhere hi).trans (face?_of_cell? he))
      exact ⟨i, e', he', hkey' ▸ hold, hkey' ▸ hnew⟩

end Puts
end CellTable

/-! Counting final cells. -/

theorem countP_range {α : Type} (p : α → Bool) (l : List α) {n : Nat} (h : l.length ≤ n) :
    (List.range n).countP (fun i => l[i]?.any p) = l.countP p := by
  induction l generalizing n with
  | nil => simp
  | cons a l ih =>
    obtain ⟨m, rfl⟩ : ∃ m, n = m + 1 := ⟨n - 1, by simp at h; omega⟩
    rw [List.range_succ_eq_map, List.countP_cons, List.countP_map, List.countP_cons]
    have htail := ih (n := m) (by simpa using h)
    simp only [Function.comp_def, List.getElem?_cons_succ, htail]
    simp

theorem countP_range_add_one {f g : Nat → Bool} {n i : Nat} (hi : i < n) (hf : f i = false)
    (hg : g i = true) (hother : ∀ j, j ≠ i → g j = f j) :
    (List.range n).countP g = (List.range n).countP f + 1 := by
  induction n with
  | zero => omega
  | succ n ih =>
    rw [List.range_succ, List.countP_append, List.countP_append, List.countP_singleton,
      List.countP_singleton]
    by_cases hn : i = n
    · subst hn
      have hsame : (List.range i).countP g = (List.range i).countP f :=
        List.countP_congr fun j hj => by rw [hother j (Nat.ne_of_lt (List.mem_range.1 hj))]
      simp [hsame, hf, hg]
    · rw [ih (by omega), hother n (Ne.symm hn)]
      omega

namespace Store
variable {E V C K : Type} {s q r : Store E V C K}

theorem finals_eq_range (s : Store E V C K) {n : Nat} (h : s.table.size ≤ n) :
    s.finals = (List.range n).countP s.isFinalAt := by
  have hcells (i : Nat) : s.isFinalAt i = s.cells[i]?.any (·.status.isFinal) := by
    simp [isFinalAt, cell?, cells, CellTable.cell?, CellTable.all]
  have hlength : s.cells.length ≤ n := by simpa [cells, CellTable.all, CellTable.size] using h
  rw [funext hcells, countP_range _ _ hlength]
  rfl

theorem finals_congr (h : ∀ i, r.isFinalAt i = s.isFinalAt i) : r.finals = s.finals := by
  rw [finals_eq_range r (Nat.le_max_left _ s.table.size),
    finals_eq_range s (Nat.le_max_right r.table.size _)]
  exact List.countP_congr fun i _ => by rw [h i]

theorem finals_add_one {i : Nat} (hs : s.isFinalAt i = false) (hr : r.isFinalAt i = true)
    (hother : ∀ j, j ≠ i → r.isFinalAt j = s.isFinalAt j) : r.finals = s.finals + 1 := by
  have hlt : i < r.table.size := by
    by_contra hge
    have hnone : r.cell? i = none := by simpa [cell?, CellTable.cell?, CellTable.size] using hge
    simp [isFinalAt, hnone] at hr
  rw [finals_eq_range r (Nat.le_max_left _ s.table.size),
    finals_eq_range s (Nat.le_max_right r.table.size _)]
  exact countP_range_add_one (lt_of_lt_of_le hlt (Nat.le_max_left _ _)) hs hr hother

theorem finals_of_puts {c : Cell E V K} {new : Status E V} (h : s.table.Puts c new r.table)
    (hc : s.table.cell? c.id = some c) (hopen : c.status.isFinal = false) :
    r.finals = s.finals + if new.isFinal then 1 else 0 := by
  have hbefore : s.isFinalAt c.id = false := by simp [isFinalAt, cell?, hc, hopen]
  have hafter : r.isFinalAt c.id = new.isFinal := by
    rw [isFinalAt_eq_face?, h.here]
    rfl
  have hother (j : Nat) (hj : j ≠ c.id) : r.isFinalAt j = s.isFinalAt j :=
    isFinalAt_congr (h.elsewhere hj)
  cases hfinal : new.isFinal with
  | true => exact finals_add_one hbefore (hafter.trans hfinal) hother
  | false =>
    refine finals_congr fun j => ?_
    by_cases hj : j = c.id
    · rw [hj, hafter, hfinal, hbefore]
    · exact hother j hj

variable [DecidableEq E]

theorem finals_of_adds (h : s.table.Adds r.table) : r.finals = s.finals := by
  refine finals_congr fun i => ?_
  cases hold : s.table.cell? i with
  | some c =>
    have hface := CellTable.face?_of_cell? hold
    exact isFinalAt_congr ((h.kept hface).trans hface.symm)
  | none =>
    cases hc : r.table.cell? i with
    | none => simp [isFinalAt, cell?, hold, hc]
    | some c => simp [isFinalAt, cell?, hold, hc, h.fresh hold hc, Status.isFinal]

end Store
end Blackboard
