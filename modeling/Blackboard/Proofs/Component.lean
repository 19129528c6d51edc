import Blackboard.Proofs.StrongComponents

/-! Of the strongly connected groups the closed ones are listed: those all of whose members wait
only on members. From whatever waits only on things that wait themselves, one of them can be
reached. -/
namespace Blackboard

namespace Waiting
variable {ws : List Waiting}

theorem mem_nodes {x : Nat} : x ∈ nodes ws ↔ isSuspended ws x = true := by
  rw [nodes, List.mem_eraseDups, List.mem_flatMap]
  constructor
  · rintro ⟨w, hw, hx⟩
    rcases List.mem_cons.1 hx with rfl | hx
    · exact List.any_eq_true.2 ⟨w, hw, by simp⟩
    · exact (List.mem_filter.1 hx).2
  · intro h
    obtain ⟨w, hw, hx⟩ := List.any_eq_true.1 h
    exact ⟨w, hw, by simp [← (beq_iff_eq.1 hx)]⟩

theorem mem_successors {x y : Nat} :
    y ∈ successors ws x ↔ y ∈ dependeesOf ws x ∧ isSuspended ws y = true := by
  rw [successors, List.mem_eraseDups, List.mem_filter]

theorem mem_dependeesOf {x y : Nat} :
    y ∈ dependeesOf ws x ↔ ∃ w ∈ ws, w.code = x ∧ y ∈ w.dependees := by
  simp [dependeesOf, and_assoc]

theorem mem_dependeesOf_of_not_open {x y : Nat} (hx : isOpen ws x = false)
    (hy : y ∈ dependeesOf ws x) : y ∈ successors ws x := by
  refine mem_successors.2 ⟨hy, ?_⟩
  have hall := List.any_eq_false.1 hx y hy
  simpa using hall

abbrev WaitsFor (ws : List Waiting) : Nat → Nat → Prop := Reaches (successors ws)

theorem next_ofWaiting (ws : List Waiting) : (WaitGraph.ofWaiting ws).next.get = successors ws := by
  funext x
  simp [WaitGraph.ofWaiting]

theorem isOpen_ofWaiting (ws : List Waiting) : (WaitGraph.ofWaiting ws).isOpen.get = isOpen ws := by
  funext x
  simp [WaitGraph.ofWaiting]

theorem complete_ofWaiting (ws : List Waiting) : (WaitGraph.ofWaiting ws).Complete := by
  intro x _ y hy
  rw [next_ofWaiting] at hy
  exact mem_nodes.2 (mem_successors.1 hy).2

theorem waitsFor_mem {x y : Nat} (hx : x ∈ nodes ws) (h : WaitsFor ws x y) : y ∈ nodes ws := by
  cases h with
  | refl => exact hx
  | tail _ hy => exact mem_nodes.2 (mem_successors.1 hy).2

/-- All that a computation waits for waits for it in turn, and on nothing else. -/
def Mutual (ws : List Waiting) (x : Nat) : Prop :=
  ∀ y, WaitsFor ws x y → isOpen ws y = false ∧ WaitsFor ws y x

theorem Mutual.of_waitsFor {x y : Nat} (h : Mutual ws x) (hxy : WaitsFor ws x y) : Mutual ws y :=
  fun z hyz => ⟨(h z (hxy.trans hyz)).1, (h z (hxy.trans hyz)).2.trans hxy⟩

def groups (ws : List Waiting) : List (List Nat) :=
  (WaitGraph.ofWaiting ws).components.filter (WaitGraph.ofWaiting ws).isClosed

theorem mem_component {g : List Nat} (hg : g ∈ (WaitGraph.ofWaiting ws).components) {x y : Nat}
    (hx : x ∈ g) : y ∈ g ↔ WaitsFor ws x y ∧ WaitsFor ws y x := by
  have hmem := (complete_ofWaiting ws).mem_component hg hx (y := y)
  rwa [next_ofWaiting] at hmem

theorem isClosed_iff {g : List Nat} (hg : g ∈ (WaitGraph.ofWaiting ws).components) :
    (WaitGraph.ofWaiting ws).isClosed g = true ↔ ∀ x ∈ g, Mutual ws x := by
  simp only [WaitGraph.isClosed, next_ofWaiting, isOpen_ofWaiting, List.all_eq_true,
    Bool.and_eq_true, Bool.not_eq_true', List.contains_iff_mem]
  constructor
  · intro hclosed x hx y hxy
    -- nothing leads out of the group
    have hy : y ∈ g := by
      induction hxy with
      | refl => exact hx
      | tail _ hz ih => exact (hclosed _ ih).2 _ hz
    exact ⟨(hclosed y hy).1, ((mem_component hg hx).1 hy).2⟩
  · intro hmutual x hx
    refine ⟨(hmutual x hx x .refl).1, fun y hy => ?_⟩
    exact (mem_component hg hx).2 ⟨.single hy, (hmutual x hx y (.single hy)).2⟩

theorem mem_groups {g : List Nat} :
    g ∈ groups ws ↔ g ∈ (WaitGraph.ofWaiting ws).components ∧ ∀ x ∈ g, Mutual ws x := by
  rw [groups, List.mem_filter]
  exact and_congr_right fun hg => isClosed_iff hg

theorem nodup_flatten_groups (ws : List Waiting) : (groups ws).flatten.Nodup := by
  obtain ⟨hnodup, hapart⟩ := List.nodup_flatten.1 (complete_ofWaiting ws).nodup_components
  exact List.nodup_flatten.2 ⟨fun g hg => hnodup g (List.mem_of_mem_filter hg), hapart.filter _⟩

theorem mem_group_iff {g : List Nat} (hg : g ∈ groups ws) {x : Nat} (hx : x ∈ g) (y : Nat) :
    y ∈ g ↔ WaitsFor ws x y := by
  obtain ⟨hcomponent, hmutual⟩ := mem_groups.1 hg
  rw [mem_component hcomponent hx]
  exact and_iff_left_of_imp fun hxy => (hmutual x hx y hxy).2

theorem mem_flatten_groups {x : Nat} : x ∈ (groups ws).flatten ↔ x ∈ nodes ws ∧ Mutual ws x := by
  have hnodes : x ∈ (WaitGraph.ofWaiting ws).components.flatten ↔ x ∈ nodes ws :=
    (complete_ofWaiting ws).mem_components
  rw [← hnodes, List.mem_flatten, List.mem_flatten]
  constructor
  · rintro ⟨g, hg, hx⟩
    obtain ⟨hcomponent, hmutual⟩ := mem_groups.1 hg
    exact ⟨⟨g, hcomponent, hx⟩, hmutual x hx⟩
  · rintro ⟨⟨g, hcomponent, hx⟩, hmutual⟩
    refine ⟨g, mem_groups.2 ⟨hcomponent, fun y hy => ?_⟩, hx⟩
    exact hmutual.of_waitsFor ((mem_component hcomponent hx).1 hy).1

theorem exists_mem_group {g : List Nat} (hg : g ∈ groups ws) :
    ∃ x ∈ nodes ws, x ∈ g ∧ Mutual ws x := by
  have hcomponent := (mem_groups.1 hg).1
  obtain ⟨x, hx⟩ :=
    List.exists_mem_of_ne_nil g ((complete_ofWaiting ws).component_ne_nil hcomponent)
  obtain ⟨hnode, hmutual⟩ := mem_flatten_groups.1 (List.mem_flatten_of_mem hg hx)
  exact ⟨x, hnode, hx, hmutual⟩

/-- From a computation that waits, over others, only on suspended ones, one is reached to which all
that it waits for leads back. -/
theorem exists_mutual {x : Nat} (hx : x ∈ nodes ws)
    (h : ∀ y, WaitsFor ws x y → isOpen ws y = false) :
    ∃ y, WaitsFor ws x y ∧ Mutual ws y := by
  classical
  -- on the number of nodes that are reached: one that does not lead back reaches fewer
  let reached (x : Nat) : Finset Nat := (nodes ws).toFinset.filter (WaitsFor ws x)
  induction hn : (reached x).card using Nat.strongRecOn generalizing x with
  | _ n ih =>
    by_cases hback : ∀ y, WaitsFor ws x y → WaitsFor ws y x
    · exact ⟨x, .refl, fun y hy => ⟨h y hy, hback y hy⟩⟩
    · push Not at hback
      obtain ⟨y, hxy, hyx⟩ := hback
      have hless : (reached y).card < n := by
        rw [← hn]
        apply Finset.card_lt_card
        refine ⟨fun z hz => ?_, fun hsub => hyx ?_⟩
        · obtain ⟨hmem, hyz⟩ := Finset.mem_filter.1 hz
          exact Finset.mem_filter.2 ⟨hmem, hxy.trans hyz⟩
        · have hself : x ∈ reached x := Finset.mem_filter.2 ⟨List.mem_toFinset.2 hx, .refl⟩
          exact (Finset.mem_filter.1 (hsub hself)).2
      obtain ⟨z, hyz, hmutual⟩ :=
        ih _ hless (waitsFor_mem hx hxy) (fun z hz => h z (hxy.trans hz)) rfl
      exact ⟨z, hxy.trans hyz, hmutual⟩

theorem exists_closedGroup {x : Nat} (hx : x ∈ nodes ws)
    (h : ∀ y, WaitsFor ws x y → isOpen ws y = false) :
    ∃ g ∈ groups ws, ∀ y ∈ g, WaitsFor ws x y := by
  obtain ⟨y, hxy, hmutual⟩ := exists_mutual hx h
  have hmem := mem_flatten_groups.2 ⟨waitsFor_mem hx hxy, hmutual⟩
  obtain ⟨g, hg, hy⟩ := List.mem_flatten.1 hmem
  exact ⟨g, hg, fun z hz => hxy.trans ((mem_group_iff hg hy z).1 hz)⟩

theorem closedComponents_eq (ws : List Waiting) :
    closedComponents ws = (groups ws).map (·.map Depender.decode) := rfl

theorem mem_closedComponents {group : List Depender} (h : group ∈ closedComponents ws) :
    ∃ x ∈ nodes ws, (∀ d, d ∈ group ↔ ∃ y, Depender.decode y = d ∧ WaitsFor ws x y) ∧
      ∀ y, WaitsFor ws x y → isOpen ws y = false ∧ WaitsFor ws y x := by
  obtain ⟨g, hg, rfl⟩ := List.mem_map.1 h
  obtain ⟨x, hnode, hx, hmutual⟩ := exists_mem_group hg
  refine ⟨x, hnode, fun d => ?_, hmutual⟩
  simp only [List.mem_map, mem_group_iff hg hx]
  exact ⟨fun ⟨y, hy, hd⟩ => ⟨y, hd, hy⟩, fun ⟨y, hd, hy⟩ => ⟨y, hy, hd⟩⟩

theorem exists_closedComponent {x : Nat} (hx : x ∈ nodes ws)
    (h : ∀ y, WaitsFor ws x y → isOpen ws y = false) :
    ∃ group ∈ closedComponents ws, ∀ d ∈ group, ∃ y, Depender.decode y = d ∧ WaitsFor ws x y := by
  obtain ⟨g, hg, hreach⟩ := exists_closedGroup hx h
  refine ⟨g.map Depender.decode, List.mem_map_of_mem hg, fun d hd => ?_⟩
  obtain ⟨y, hy, rfl⟩ := List.mem_map.1 hd
  exact ⟨y, rfl, hreach y hy⟩

end Waiting
end Blackboard
