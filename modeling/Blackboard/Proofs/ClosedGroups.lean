import Blackboard.Proofs.Component
import Blackboard.Proofs.Waking

/-! The closed groups are exact. What is listed is told by who waits on whom alone: the listed
dependers are those from which only dependers are reached that wait on nothing else and lead back,
and each group is a class of dependers that reach each other. Every chain of dependers ends in such
a group or at something that does not wait. -/
namespace Blackboard.Waiting
variable {ws : List Waiting}

/-! ### Of dependers -/

def Numbered (ws : List Waiting) : Prop :=
  ∀ w ∈ ws, w.depender.id < collaboratorBit ∧ ∀ i ∈ w.dependees, i < collaboratorBit

instance (ws : List Waiting) : Decidable (Numbered ws) :=
  inferInstanceAs (Decidable (∀ w ∈ ws, w.depender.id < collaboratorBit ∧ ∀ i ∈ w.dependees,
    i < collaboratorBit))

def dependers (ws : List Waiting) : List Depender := ws.map (·.depender)

/-- Somewhere in the list, `x` has `y` among its dependees. -/
def WaitsOn (ws : List Waiting) (x y : Depender) : Prop :=
  ∃ w ∈ ws, w.depender = x ∧ ∃ i ∈ w.dependees, y = .cell i

/-- Waiting on something that does not wait itself. -/
def Open (ws : List Waiting) (x : Depender) : Prop := ∃ y, WaitsOn ws x y ∧ y ∉ dependers ws

abbrev LeadsTo (ws : List Waiting) : Depender → Depender → Prop :=
  Relation.ReflTransGen (WaitsOn ws)

theorem exists_depender_of_mem_nodes {code : Nat} (hc : code ∈ nodes ws) :
    ∃ x ∈ dependers ws, x.encode = code := by
  obtain ⟨w, hw, hcode⟩ := List.any_eq_true.1 (mem_nodes.1 hc)
  exact ⟨w.depender, List.mem_map_of_mem hw, beq_iff_eq.1 hcode⟩

section
variable (h : Numbered ws) {x y : Depender}
include h

theorem Numbered.id_lt (hx : x ∈ dependers ws) : x.id < collaboratorBit := by
  obtain ⟨w, hw, rfl⟩ := List.mem_map.1 hx
  exact (h w hw).1

theorem Numbered.decode_encode (hx : x ∈ dependers ws) : Depender.decode x.encode = x :=
  Depender.decode_encode (h.id_lt hx)

theorem Numbered.encode_eq_iff {w : Waiting} (hw : w ∈ ws) (hx : x.id < collaboratorBit) :
    w.code = x.encode ↔ w.depender = x :=
  ⟨Depender.encode_injective (h w hw).1 hx, fun he => congrArg Depender.encode he⟩

theorem Numbered.encode_mem_nodes (hx : x.id < collaboratorBit) : x.encode ∈ nodes ws ↔
    x ∈ dependers ws := by
  simp only [mem_nodes, isSuspended, List.any_eq_true, beq_iff_eq, dependers, List.mem_map]
  exact exists_congr fun w => and_congr_right fun hw => h.encode_eq_iff hw hx

theorem Numbered.mem_dependeesOf_encode (hx : x ∈ dependers ws) {i : Nat} :
    i ∈ dependeesOf ws x.encode ↔ WaitsOn ws x (.cell i) := by
  rw [mem_dependeesOf]
  refine exists_congr fun w => and_congr_right fun hw => ?_
  rw [h.encode_eq_iff hw (h.id_lt hx)]
  simp

theorem Numbered.waitsOn_cell (hxy : WaitsOn ws x y) : ∃ i, y = .cell i ∧ i < collaboratorBit := by
  obtain ⟨w, hw, -, i, hi, rfl⟩ := hxy
  exact ⟨i, rfl, (h w hw).2 i hi⟩

theorem Numbered.isOpen_encode (hx : x ∈ dependers ws) : isOpen ws x.encode = true ↔ Open ws x := by
  simp only [isOpen, List.any_eq_true, h.mem_dependeesOf_encode hx, Bool.not_eq_true',
    ← Bool.not_eq_true, ← mem_nodes]
  constructor
  · rintro ⟨i, hi, hnot⟩
    obtain ⟨j, hj, hlt⟩ := h.waitsOn_cell hi
    obtain rfl : i = j := Depender.cell.inj hj
    exact ⟨_, hi, mt (h.encode_mem_nodes (x := .cell i) hlt).2 hnot⟩
  · rintro ⟨y, hxy, hy⟩
    obtain ⟨i, rfl, hlt⟩ := h.waitsOn_cell hxy
    exact ⟨i, hxy, mt (h.encode_mem_nodes (x := .cell i) hlt).1 hy⟩

theorem Numbered.encode_mem_successors (hx : x ∈ dependers ws) (hy : y ∈ dependers ws) :
    y.encode ∈ successors ws x.encode ↔ WaitsOn ws x y := by
  rw [mem_successors, ← mem_nodes, h.encode_mem_nodes (h.id_lt hy), and_iff_left hy,
    h.mem_dependeesOf_encode hx]
  constructor
  · intro hwait
    obtain ⟨j, hj, hlt⟩ := h.waitsOn_cell hwait
    -- a code below the top bit is that of a cell
    have hcode : Depender.encode (.cell j) = y.encode := (Depender.cell.inj hj).symm
    rwa [← Depender.encode_injective (d := .cell j) hlt (h.id_lt hy) hcode, ← hj]
  · intro hwait
    obtain ⟨j, rfl, -⟩ := h.waitsOn_cell hwait
    exact hwait

theorem Numbered.waitsFor_encode (hx : x ∈ dependers ws) (hy : y ∈ dependers ws) :
    WaitsFor ws x.encode y.encode ↔ LeadsTo ws x y := by
  constructor
  · intro hwait
    have hcodes : ∀ {code}, WaitsFor ws x.encode code → ∃ z ∈ dependers ws,
        z.encode = code ∧ LeadsTo ws x z := by
      intro code hcode
      induction hcode with
      | refl => exact ⟨x, hx, rfl, .refl⟩
      | tail _ hstep ih =>
        obtain ⟨z, hz, rfl, hxz⟩ := ih
        obtain ⟨u, hu, rfl⟩ := exists_depender_of_mem_nodes (mem_nodes.2 (mem_successors.1 hstep).2)
        exact ⟨u, hu, rfl, hxz.tail ((h.encode_mem_successors hz hu).1 hstep)⟩
    obtain ⟨z, hz, hcode, hxz⟩ := hcodes hwait
    rwa [← Depender.encode_injective (h.id_lt hz) (h.id_lt hy) hcode]
  · intro hlead
    -- from the end: whatever waits on a depender is one itself
    induction hlead with
    | refl => exact .refl
    | tail _ hstep ih =>
      obtain ⟨w, hw, rfl, -⟩ := id hstep
      have hz : w.depender ∈ dependers ws := List.mem_map_of_mem hw
      exact (ih hz).tail ((h.encode_mem_successors hz hy).2 hstep)

theorem Numbered.mutual_encode (hx : x ∈ dependers ws) :
    Mutual ws x.encode ↔ ∀ y ∈ dependers ws, LeadsTo ws x y → ¬ Open ws y ∧ LeadsTo ws y x := by
  have hnode := (h.encode_mem_nodes (h.id_lt hx)).2 hx
  constructor
  · intro hmutual y hy hxy
    obtain ⟨hopen, hback⟩ := hmutual _ ((h.waitsFor_encode hx hy).2 hxy)
    exact ⟨by rw [← h.isOpen_encode hy, hopen]; simp, (h.waitsFor_encode hy hx).1 hback⟩
  · intro hall code hcode
    obtain ⟨y, hy, rfl⟩ := exists_depender_of_mem_nodes (waitsFor_mem hnode hcode)
    obtain ⟨hopen, hback⟩ := hall y hy ((h.waitsFor_encode hx hy).1 hcode)
    exact ⟨by rwa [← h.isOpen_encode hy, Bool.not_eq_true] at hopen,
      (h.waitsFor_encode hy hx).2 hback⟩

end

theorem flatten_closedComponents (ws : List Waiting) :
    (closedComponents ws).flatten = (groups ws).flatten.map Depender.decode := by
  rw [closedComponents_eq, List.map_flatten]

theorem Numbered.mem_decoded (h : Numbered ws) {codes : List Nat} (hcodes : codes ⊆ nodes ws)
    {x : Depender} : x ∈ codes.map Depender.decode ↔ x ∈ dependers ws ∧ x.encode ∈ codes := by
  rw [List.mem_map]
  constructor
  · rintro ⟨code, hc, rfl⟩
    obtain ⟨y, hy, rfl⟩ := exists_depender_of_mem_nodes (hcodes hc)
    rw [h.decode_encode hy]
    exact ⟨hy, hc⟩
  · exact fun ⟨hx, hc⟩ => ⟨x.encode, hc, h.decode_encode hx⟩

/-- The listed groups are not empty and have no members in common. Listed are the dependers from
which only such dependers are reached as wait on nothing but dependers and lead back, and two of
them are listed together if and only if each reaches the other. -/
theorem closedComponents_exact (ws : List Waiting) (h : Numbered ws) :
    (∀ g ∈ closedComponents ws, g ≠ []) ∧ (closedComponents ws).flatten.Nodup ∧
    (∀ x, x ∈ (closedComponents ws).flatten ↔
      x ∈ dependers ws ∧ ∀ y ∈ dependers ws, LeadsTo ws x y → ¬ Open ws y ∧ LeadsTo ws y x) ∧
    ∀ x ∈ (closedComponents ws).flatten, ∀ y ∈ (closedComponents ws).flatten,
      (∃ g ∈ closedComponents ws, x ∈ g ∧ y ∈ g) ↔ LeadsTo ws x y ∧ LeadsTo ws y x := by
  have hflat : (groups ws).flatten ⊆ nodes ws := fun _ hc => (mem_flatten_groups.1 hc).1
  refine ⟨?_, ?_, fun x => ?_, ?_⟩
  · rintro g hg rfl
    obtain ⟨codes, hcodes, hmap⟩ := List.mem_map.1 hg
    obtain ⟨r, -, hr, -⟩ := exists_mem_group hcodes
    simp [List.map_eq_nil_iff.1 hmap] at hr
  · rw [flatten_closedComponents]
    exact (nodup_flatten_groups ws).map Depender.decode_injective
  · rw [flatten_closedComponents, h.mem_decoded hflat]
    refine and_congr_right fun hx => ?_
    rw [mem_flatten_groups, and_iff_right ((h.encode_mem_nodes (h.id_lt hx)).2 hx),
      h.mutual_encode hx]
  · intro x hx y hy
    rw [flatten_closedComponents, h.mem_decoded hflat] at hx hy
    obtain ⟨codes, hcodes, hmem⟩ := List.mem_flatten.1 hx.2
    rw [← h.waitsFor_encode hx.1 hy.1, ← h.waitsFor_encode hy.1 hx.1]
    have hgroup {codes : List Nat} (hc : codes ∈ groups ws) : codes ⊆ nodes ws :=
      fun _ hcode => hflat (List.mem_flatten_of_mem hc hcode)
    constructor
    · rintro ⟨g, hg, hxg, hyg⟩
      obtain ⟨codes', hcodes', rfl⟩ := List.mem_map.1 hg
      rw [h.mem_decoded (hgroup hcodes')] at hxg hyg
      exact ⟨(mem_group_iff hcodes' hxg.2 _).1 hyg.2, (mem_group_iff hcodes' hyg.2 _).1 hxg.2⟩
    · rintro ⟨hxy, -⟩
      refine ⟨_, List.mem_map_of_mem hcodes, ?_, ?_⟩
      · exact (h.mem_decoded (hgroup hcodes)).2 ⟨hx.1, hmem⟩
      · exact (h.mem_decoded (hgroup hcodes)).2 ⟨hy.1, (mem_group_iff hcodes hmem _).2 hxy⟩

/-- Two cells wait on each other, one on itself; a collaborator waits on both groups, and a cell on
something that does not wait. One cell is listed twice. -/
def tangle : List Waiting :=
  [⟨.cell 0, [1]⟩, ⟨.cell 1, [0]⟩, ⟨.collaborator 0, [1, 5]⟩, ⟨.cell 2, [0, 3]⟩, ⟨.cell 5, [5]⟩,
    ⟨.cell 1, [0, 0]⟩]

theorem tangle_closedComponents_exact :
    Numbered tangle ∧ closedComponents tangle = [[.cell 1, .cell 0], [.cell 5]] ∧
    (LeadsTo tangle (.cell 0) (.cell 1) ∧ LeadsTo tangle (.cell 1) (.cell 0)) ∧
    ¬ (LeadsTo tangle (.cell 0) (.cell 5) ∧ LeadsTo tangle (.cell 5) (.cell 0)) ∧
    ¬ ∀ y ∈ dependers tangle, LeadsTo tangle (.collaborator 0) y →
      ¬ Open tangle y ∧ LeadsTo tangle y (.collaborator 0) := by
  have hnum : Numbered tangle := by decide
  have hgroups : closedComponents tangle = [[.cell 1, .cell 0], [.cell 5]] := by decide +kernel
  obtain ⟨-, -, hlisted, htogether⟩ := closedComponents_exact tangle hnum
  rw [hgroups] at hlisted htogether
  refine ⟨hnum, hgroups, ?_, ?_, ?_⟩
  · exact (htogether (.cell 0) (by decide) (.cell 1) (by decide)).1 (by decide)
  · exact fun hboth =>
      absurd ((htogether (.cell 0) (by decide) (.cell 5) (by decide)).2 hboth) (by decide)
  · intro hall
    have hmem := (hlisted (.collaborator 0)).2 ⟨by decide, hall⟩
    exact absurd hmem (by decide)

/-! ### Chains -/

section
variable (h : Numbered ws) {x : Depender}
include h

/-- Following dependees, one comes to something open or into a listed group. -/
theorem Numbered.chain_ends (hx : x ∈ dependers ws) :
    ∃ y ∈ dependers ws, LeadsTo ws x y ∧ (Open ws y ∨ ∃ g ∈ closedComponents ws, y ∈ g) := by
  have hnode := (h.encode_mem_nodes (h.id_lt hx)).2 hx
  by_cases hall : ∀ code, WaitsFor ws x.encode code → isOpen ws code = false
  · obtain ⟨codes, hcodes, hreach⟩ := exists_closedGroup hnode hall
    obtain ⟨code, hcode, hroot, -⟩ := exists_mem_group hcodes
    obtain ⟨y, hy, rfl⟩ := exists_depender_of_mem_nodes hcode
    have hlisted : y ∈ codes.map Depender.decode := List.mem_map.2 ⟨_, hroot, h.decode_encode hy⟩
    exact ⟨y, hy, (h.waitsFor_encode hx hy).1 (hreach _ hroot),
      .inr ⟨_, List.mem_map_of_mem hcodes, hlisted⟩⟩
  · push Not at hall
    obtain ⟨code, hcode, hopen⟩ := hall
    obtain ⟨y, hy, rfl⟩ := exists_depender_of_mem_nodes (waitsFor_mem hnode hcode)
    exact ⟨y, hy, (h.waitsFor_encode hx hy).1 hcode,
      .inl ((h.isOpen_encode hy).1 (by simpa using hopen))⟩

theorem Numbered.leads_back {g : List Depender} (hg : g ∈ closedComponents ws) (hx : x ∈ g) :
    x ∈ dependers ws ∧ ∀ y, WaitsOn ws x y → LeadsTo ws y x := by
  obtain ⟨codes, hcodes, rfl⟩ := List.mem_map.1 hg
  have hmutual {code : Nat} (hc : code ∈ codes) : code ∈ nodes ws ∧ Mutual ws code :=
    mem_flatten_groups.1 (List.mem_flatten_of_mem hcodes hc)
  obtain ⟨hdep, hcode⟩ := (h.mem_decoded fun _ hc => (hmutual hc).1).1 hx
  have hback := (h.mutual_encode hdep).1 (hmutual hcode).2
  refine ⟨hdep, fun y hxy => ?_⟩
  have hy : y ∈ dependers ws := by
    by_contra hnot
    exact (hback x hdep .refl).1 ⟨y, hxy, hnot⟩
  exact (hback y hy (.single hxy)).2

end

theorem not_leadsTo_collaborator {i j : Nat} : ¬ LeadsTo ws (.cell j) (.collaborator i) := by
  intro hlead
  cases hlead with
  | tail _ hstep =>
    obtain ⟨w, -, -, k, -, hcell⟩ := hstep
    cases hcell

/-- From every depender of the list one comes, along dependees, to a depender that waits on
something that does not wait itself, or into a listed group. If all wait on something, only cells
are listed. -/
theorem wait_chains_end (ws : List Waiting) (h : Numbered ws) :
    (∀ x ∈ dependers ws, ∃ y ∈ dependers ws,
      LeadsTo ws x y ∧ (Open ws y ∨ ∃ g ∈ closedComponents ws, y ∈ g)) ∧
    ((∀ w ∈ ws, w.dependees ≠ []) → ∀ g ∈ closedComponents ws, ∀ i, .collaborator i ∉ g) := by
  refine ⟨fun x hx => h.chain_ends hx, fun hwait g hg i hi => ?_⟩
  obtain ⟨hdep, hback⟩ := h.leads_back hg hi
  obtain ⟨w, hw, hself⟩ := List.mem_map.1 hdep
  obtain ⟨j, hj⟩ := List.exists_mem_of_ne_nil _ (hwait w hw)
  exact not_leadsTo_collaborator (hback (.cell j) ⟨w, hw, hself, j, hj, rfl⟩)

theorem tangle_wait_chains_end :
    Numbered tangle ∧ (∀ w ∈ tangle, w.dependees ≠ []) ∧
    (∃ y ∈ dependers tangle, LeadsTo tangle (.collaborator 0) y ∧
      (Open tangle y ∨ ∃ g ∈ closedComponents tangle, y ∈ g)) ∧
    ∀ g ∈ closedComponents tangle, ∀ i, .collaborator i ∉ g := by
  have hnum : Numbered tangle := by decide
  have hwait : ∀ w ∈ tangle, w.dependees ≠ [] := by decide
  obtain ⟨hends, hcells⟩ := wait_chains_end tangle hnum
  exact ⟨hnum, hwait, hends (.collaborator 0) (by decide), hcells hwait⟩

end Blackboard.Waiting
