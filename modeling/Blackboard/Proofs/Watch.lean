import Blackboard.Proofs.Outcome
import Blackboard.Proofs.Waking
import Blackboard.Store.Handling

/-! Registering a depender with what it observed: all of it is still current, or the first that is
not resumes the depender. -/
namespace Blackboard

namespace CellTable
variable {E V K : Type}

def link (t : CellTable E V K) (d : Depender) (id : Nat) : CellTable E V K :=
  t.modify id fun c => { c with dependers := c.dependers.insert d.encode }

def watch (t : CellTable E V K) (d : Depender) (observed : List (Nat × Status E V)) :
    CellTable E V K :=
  observed.foldl (fun t p => t.link d p.1) t

theorem face?_link (t : CellTable E V K) (d : Depender) (i j : Nat) :
    (t.link d i).face? j = t.face? j := by
  rw [face?, link, cell?_modify, face?]
  by_cases h : i = j
  · cases t.cell? j <;> simp [h, Cell.face]
  · simp [h]

theorem suspension?_link (t : CellTable E V K) (d e : Depender) (i : Nat) :
    (t.link d i).suspension? e = t.suspension? e := by
  cases e with
  | cell j =>
    rw [suspension?, link, cell?_modify, suspension?]
    by_cases h : i = j
    · cases t.cell? j <;> simp [h]
    · simp [h]
  | collaborator j => rfl

theorem tells_link {t : CellTable E V K} {d e : Depender} {i j : Nat} :
    (t.link d i).Tells j e ↔ t.Tells j e ∨ (i = j ∧ e.encode = d.encode ∧ j < t.size) := by
  rw [Tells, link, cell?_modify, Tells]
  by_cases h : i = j
  · subst h
    cases hc : t.cell? i with
    | none =>
      have hlt : ¬ i < t.size := by
        intro hlt
        obtain ⟨c, hc'⟩ := cell?_of_lt hlt
        simp [hc] at hc'
      simp [hlt]
    | some c =>
      have hlt := lt_size_of_cell? hc
      simp [hlt, or_comm]
  · simp [h]

theorem size_link (t : CellTable E V K) (d : Depender) (i : Nat) : (t.link d i).size = t.size :=
  size_modify _ _ _

theorem face?_watch (t : CellTable E V K) (d : Depender) (ps : List (Nat × Status E V)) (j : Nat) :
    (t.watch d ps).face? j = t.face? j := by
  induction ps generalizing t with
  | nil => rfl
  | cons p ps ih => exact (ih (t.link d p.1)).trans (face?_link t d p.1 j)

theorem suspension?_watch (t : CellTable E V K) (d e : Depender) (ps : List (Nat × Status E V)) :
    (t.watch d ps).suspension? e = t.suspension? e := by
  induction ps generalizing t with
  | nil => rfl
  | cons p ps ih => exact (ih (t.link d p.1)).trans (suspension?_link t d e p.1)

theorem tells_watch {t : CellTable E V K} {d e : Depender}
    {ps : List (Nat × Status E V)} {j : Nat} :
    (t.watch d ps).Tells j e ↔
      t.Tells j e ∨ (e.encode = d.encode ∧ j ∈ ps.map (·.1) ∧ j < t.size) := by
  induction ps generalizing t with
  | nil => simp [watch]
  | cons p ps ih =>
    change ((t.link d p.1).watch d ps).Tells j e ↔ _
    rw [ih, tells_link, size_link]
    simp only [List.map_cons, List.mem_cons]
    grind

theorem cells_watch_congr {t u : CellTable E V K} (h : u.cells = t.cells) (d : Depender)
    (ps : List (Nat × Status E V)) : (u.watch d ps).cells = (t.watch d ps).cells := by
  induction ps generalizing t u with
  | nil => exact h
  | cons p ps ih => exact ih (by simp [link, modify, h])

theorem Sound.link [DecidableEq E] {t : CellTable E V K} (h : t.Sound) (d : Depender) (i : Nat) :
    (t.link d i).Sound :=
  h.modify i (fun _ => rfl) (fun _ => rfl)

theorem Sound.watch [DecidableEq E] {t : CellTable E V K} (h : t.Sound) (d : Depender)
    (ps : List (Nat × Status E V)) : (t.watch d ps).Sound := by
  induction ps generalizing t with
  | nil => exact h
  | cons p ps ih => exact ih (h.link d p.1)

/-- The cell is in the state that was observed, and not final. -/
def IsCurrent [DecidableEq V] (t : CellTable E V K) (p : Nat × Status E V) : Prop :=
  ∃ c, t.cell? p.1 = some c ∧ c.status.sameState p.2 = true ∧ c.status.isFinal = false

theorem isCurrent_congr [DecidableEq V] {t u : CellTable E V K} (h : ∀ i, u.face? i = t.face? i)
    {p : Nat × Status E V} : u.IsCurrent p ↔ t.IsCurrent p := by
  have hf : ∀ w : CellTable E V K, w.IsCurrent p ↔
      ∃ f, w.face? p.1 = some f ∧ f.2.2.sameState p.2 = true ∧ f.2.2.isFinal = false := by
    intro w
    rw [IsCurrent, face?]
    cases w.cell? p.1 <;> simp [Cell.face]
  rw [hf, hf, h]

end CellTable

namespace Store
variable {E V C K : Type} [DecidableEq V]

/-- The depender is registered with all it observed, or with what stands before the first that
changed; it is resumed then if it still sleeps. -/
inductive Registered (s : Store E V C K) (d : Depender) (epoch : Nat)
    (obs : List (Nat × Status E V)) (r : Store E V C K) : Prop
  | asleep (h : ∀ p ∈ obs, s.table.IsCurrent p) (hr : s.Becomes (s.table.watch d obs) [] r)
  | stopped (pre post : List (Nat × Status E V)) (p : Nat × Status E V) (c : Cell E V K)
      (hobs : obs = pre ++ p :: post) (hpre : ∀ q ∈ pre, s.table.IsCurrent q)
      (hc : s.table.cell? p.1 = some c) (hp : c.status.sameState p.2 = false)
      (hr : match (s.table.suspension? d).filter (·.epoch == epoch) with
        | some susp =>
          s.Becomes ((s.table.watch d pre).detach d susp) [.resume d p.1 susp.continuation] r
        | none => s.Becomes (s.table.watch d pre) [] r)

theorem Registered.after_link {s q r : Store E V C K} {d : Depender} {epoch : Nat}
    {p : Nat × Status E V} {obs : List (Nat × Status E V)}
    (hq : s.Becomes (s.table.link d p.1) [] q) (hp : s.table.IsCurrent p)
    (h : q.Registered d epoch obs r) : s.Registered d epoch (p :: obs) r := by
  have hface : ∀ i, q.table.face? i = s.table.face? i := fun i => by
    rw [hq.table]
    exact CellTable.face?_link _ _ _ _
  have hwatch : ∀ ps, q.table.watch d ps = s.table.watch d (p :: ps) := fun ps => by
    rw [hq.table]
    rfl
  have hcur : ∀ {ps : List (Nat × Status E V)}, (∀ p' ∈ ps, q.table.IsCurrent p') →
      ∀ p' ∈ p :: ps, s.table.IsCurrent p' := by
    intro ps hps p' hp'
    rcases List.mem_cons.1 hp' with rfl | hp'
    · exact hp
    · exact (CellTable.isCurrent_congr hface).1 (hps p' hp')
  cases h with
  | asleep h hr => exact .asleep (hcur h) (hq.trans (hwatch obs ▸ hr))
  | stopped pre post p' c hobs hpre hc hp' hr =>
    obtain ⟨e, he, -, -, hstatus⟩ :=
      CellTable.cell?_of_shown ((hface p'.1).symm.trans (CellTable.face?_of_cell? hc))
    refine .stopped (p :: pre) post p' e (by simp [hobs]) (hcur hpre) he (hstatus ▸ hp') ?_
    have hsusp : q.table.suspension? d = s.table.suspension? d := by
      rw [hq.table]
      exact CellTable.suspension?_link _ _ _ _
    rw [hsusp, hwatch] at hr
    split at hr
    · exact hq.trans hr
    · exact hq.trans hr

variable [DecidableEq E] [ToString E]

theorem registerDependers_ends {s : Store E V C K} (hs : s.table.Sound) (d : Depender) (epoch : Nat)
    {obs : List (Nat × Status E V)} (hobs : ∀ p ∈ obs, p.1 < s.table.size) :
    Ends (registerDependers d epoch obs) s (fun _ r => s.Registered d epoch obs r)
      (fun r => ∃ pre, (∀ p ∈ pre, s.table.IsCurrent p) ∧
        s.Becomes (s.table.watch d pre) [] r) := by
  induction obs generalizing s with
  | nil => exact .answer (.asleep (by simp) (.refl s))
  | cons p obs ih =>
    obtain ⟨id, observed⟩ := p
    obtain ⟨c, hc⟩ := CellTable.cell?_of_lt (hobs (id, observed) (by simp))
    refine .read ?_
    have hcell : s.cell? id = some c := hc
    simp only [hcell]
    unfold Cell.addDepender
    by_cases hsame : c.status.sameState observed
    · by_cases hfinal : c.status.isFinal
      · simp only [hsame, hfinal, Bool.not_true, Bool.false_eq_true, if_false, if_true]
        exact .failure ⟨[], by simp, .refl s⟩
      · simp only [hsame, hfinal, Bool.not_true, Bool.false_eq_true, if_false]
        have hlink : s.Becomes (s.table.link d id) [] (s.writeCell _) :=
          writeCell_becomes (f := fun c => { c with dependers := c.dependers.insert d.encode }) hc
            (hs.id_eq (c := c) hc)
        refine .write_then ((ih (hlink.table ▸ hs.link d id) ?_).mono ?_ ?_)
        · intro p hp
          rw [hlink.table, CellTable.size_link]
          exact hobs p (List.mem_cons_of_mem _ hp)
        · intro _ r hr
          exact hr.after_link hlink ⟨c, hc, hsame, by simpa using hfinal⟩
        · rintro r ⟨pre, hpre, hr⟩
          have hcur : ∀ p ∈ pre, s.table.IsCurrent p := fun p hp =>
            (CellTable.isCurrent_congr fun i => hlink.table ▸ CellTable.face?_link _ _ _ _).1
              (hpre p hp)
          refine ⟨(id, observed) :: pre,
            List.forall_mem_cons.2 ⟨⟨c, hc, hsame, by simpa using hfinal⟩, hcur⟩, ?_⟩
          have := hlink.trans hr
          rw [hlink.table] at this
          exact this
    · simp only [hsame, Bool.not_false, if_true]
      refine .write ?_
      have hresume := resumeIf_becomes hs.apart d c (·.epoch == epoch)
      refine .stopped [] obs (id, observed) c rfl (by simp) hc (by simpa using hsame) ?_
      rw [hs.id_eq hc] at hresume
      cases hf : (s.table.suspension? d).filter (·.epoch == epoch) with
      | some susp =>
        simp only [hf] at hresume
        exact hresume
      | none =>
        simp only [hf] at hresume
        rw [hresume]
        exact .refl s

variable [Property V] [ToString V]

end Store
end Blackboard
