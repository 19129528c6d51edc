import Blackboard.Analysis.Graph
import Blackboard.Proofs.Equations
import Mathlib.Data.Finset.Card

/-! The numbers that elements reach, as the least solution of the equations that an analysis solves,
and what bounds on the way to it are like. -/
namespace Blackboard

namespace Analysis

/-- Elements with their successors and their own numbers. Successors are elements of the graph, and
none succeeds itself; of several entries for an element the first counts. -/
structure ReachGraph where
  entries : List (Element × List Element × List Nat)
  closed : ∀ p ∈ entries, ∀ x ∈ p.2.1, x ≠ p.1 ∧ x ∈ entries.map (·.1)

def callersOf (e : Element) : Key Element := ⟨e, FactSort.callers.kind⟩

namespace ReachGraph
variable (g : ReachGraph)

def nodes : List Element := g.entries.map (·.1)

def succ (e : Element) : List Element := ((g.entries.lookup e).map (·.1)).getD []

def own (e : Element) : List Nat := ((g.entries.lookup e).map (·.2)).getD []

/-- Some element that can be reached has the number. -/
def Reaches (e : Element) (n : Nat) : Prop :=
  ∃ y, Relation.ReflTransGen (fun a b => b ∈ g.succ a) e y ∧ n ∈ g.own y

def numbers : Finset Nat := (g.entries.flatMap (·.2.2)).toFinset

variable {g} {e : Element}

theorem mem_of_lookup {p : List Element × List Nat} (h : g.entries.lookup e = some p) :
    (e, p) ∈ g.entries := by
  obtain ⟨l, l', hl, -⟩ := List.lookup_eq_some_iff.1 h
  rw [hl]
  simp

theorem lookup_of_mem (h : e ∈ g.nodes) : g.entries.lookup e = some (g.succ e, g.own e) := by
  obtain ⟨p, hp, rfl⟩ := List.mem_map.1 h
  have hsome : (g.entries.lookup p.1).isSome := List.lookup_isSome_iff.2 ⟨p, hp, by simp⟩
  obtain ⟨q, hq⟩ := Option.isSome_iff_exists.1 hsome
  simp [succ, own, hq]

theorem succ_closed {x : Element} (h : x ∈ g.succ e) : x ≠ e ∧ x ∈ g.nodes := by
  cases hp : g.entries.lookup e with
  | none => simp [succ, hp] at h
  | some p =>
    rw [succ, hp] at h
    exact g.closed (e, p) (mem_of_lookup hp) x h

theorem mem_numbers {n : Nat} (h : n ∈ g.own e) : n ∈ g.numbers := by
  cases hp : g.entries.lookup e with
  | none => simp [own, hp] at h
  | some p =>
    rw [own, hp] at h
    rw [numbers, List.mem_toFinset, List.mem_flatMap]
    exact ⟨(e, p), mem_of_lookup hp, h⟩

theorem reaches_iff {n : Nat} : g.Reaches e n ↔ n ∈ g.own e ∨ ∃ x ∈ g.succ e, g.Reaches x n :=
  exists_reached_iff

theorem Reaches.mem_numbers {n : Nat} (h : g.Reaches e n) : n ∈ g.numbers := by
  obtain ⟨y, -, hn⟩ := h
  exact g.mem_numbers hn

end ReachGraph

/-! What is known at one time about all elements. -/

def known (v : Element → Status Element Fact) (e : Element) : SortedSet Nat := lowerNumbers (v e)

def refinedTo (e : Element) (stamp : Nat) (s : SortedSet Nat) : Status Element Fact :=
  .interim (.ofValue (callersOf e) ⟨stamp, .callers s⟩)

def settledAt (e : Element) (stamp : Nat) (s : SortedSet Nat) : Status Element Fact :=
  .final ⟨callersOf e, ⟨stamp, .callers s⟩⟩

/-- The analysis leaves no other statuses. -/
inductive IsBound (e : Element) : Status Element Fact → Prop
  | unknown : IsBound e (.unknown (callersOf e))
  | refined (stamp : Nat) (s : SortedSet Nat) : IsBound e (refinedTo e stamp s)
  | settled (stamp : Nat) (s : SortedSet Nat) : IsBound e (settledAt e stamp s)

namespace IsBound
variable {e : Element} {s : Status Element Fact}

theorem key (h : IsBound e s) : s.key = callersOf e := by
  cases h <;> rfl

theorem sameValues_iff (h : IsBound e s) (stamp : Nat) {t : SortedSet Nat} :
    s.sameValues (refinedTo e stamp t) = true ↔ ∃ m, s = refinedTo e m t := by
  cases h <;> simp [refinedTo, settledAt, Status.sameValues, Interim.ofValue, Stamped.agrees]

end IsBound

namespace ReachGraph
variable {g : ReachGraph} {v v' : Element → Status Element Fact} {e : Element}

/-- The number belongs to the element, or is known of a successor. -/
def Derives (g : ReachGraph) (v : Element → Status Element Fact) (e : Element) (n : Nat) : Prop :=
  n ∈ g.own e ∨ ∃ x ∈ g.succ e, n ∈ known v x

def derived (g : ReachGraph) (v : Element → Status Element Fact) (e : Element) : SortedSet Nat :=
  ((g.succ e).map v).foldl (fun s r => s.union (lowerNumbers r)) (SortedSet.ofList (g.own e))

theorem mem_derived {n : Nat} : n ∈ g.derived v e ↔ g.Derives v e n := by
  have hfold : ∀ (l : List Element) (s : SortedSet Nat),
      n ∈ (l.map v).foldl (fun s r => s.union (lowerNumbers r)) s ↔
        n ∈ s ∨ ∃ x ∈ l, n ∈ known v x := by
    intro l
    induction l with
    | nil => simp
    | cons x l ih =>
      intro s
      rw [List.map_cons, List.foldl_cons, ih, SortedSet.mem_union]
      simp only [List.mem_cons, exists_eq_or_imp, known]
      tauto
  rw [derived, hfold, SortedSet.mem_ofList]
  rfl

/-- What an element may take from its successors: bounds, or a final value if they are all final. -/
inductive Derived (g : ReachGraph) (v : Element → Status Element Fact) (e : Element) :
    Status Element Fact → Prop
  | refined (stamp : Nat) : Derived g v e (refinedTo e stamp (g.derived v e))
  | settled (stamp : Nat) (h : ∀ x ∈ g.succ e, (v x).isFinal = true) :
      Derived g v e (settledAt e stamp (g.derived v e))

theorem Derived.form {s : Status Element Fact} (h : g.Derived v e s) : IsBound e s := by
  cases h with
  | refined stamp => exact .refined stamp _
  | settled stamp _ => exact .settled stamp _

theorem Derived.isUnknown {s : Status Element Fact} (h : g.Derived v e s) :
    s.isUnknown = false := by
  cases h <;> rfl

theorem Derived.numbers {s : Status Element Fact} (h : g.Derived v e s) :
    lowerNumbers s = g.derived v e := by
  cases h <;> rfl

theorem Derived.all_final {s : Status Element Fact} (h : g.Derived v e s) (hs : s.isFinal = true) :
    ∀ x ∈ g.succ e, (v x).isFinal = true := by
  cases h with
  | refined stamp => cases hs
  | settled stamp h => exact h

/-- Bounds on the way to the least solution: they never go beyond it, a final value is the solution,
and what is known of any other element could be derived again. -/
structure Bounds (g : ReachGraph) (v : Element → Status Element Fact) : Prop where
  form : ∀ e, IsBound e (v e)
  sound : ∀ e n, n ∈ known v e → g.Reaches e n
  exact : ∀ e, (v e).isFinal = true → ∀ n, g.Reaches e n → n ∈ known v e
  derivable : ∀ e, (v e).isFinal = false → ∀ n, n ∈ known v e → g.Derives v e n

namespace Bounds

theorem reaches_of_derives (h : g.Bounds v) {n : Nat} (hn : g.Derives v e n) : g.Reaches e n := by
  refine reaches_iff.2 (hn.imp_right ?_)
  intro hx
  obtain ⟨x, hx, hmem⟩ := hx
  exact ⟨x, hx, h.sound x n hmem⟩

/-- If the bounds of some elements change and none is lost, what could be derived can still be
derived. -/
theorem derives_mono (hmono : ∀ x n, n ∈ known v x → n ∈ known v' x) {n : Nat}
    (hn : g.Derives v e n) : g.Derives v' e n := by
  refine hn.imp_right ?_
  intro hx
  obtain ⟨x, hx, hmem⟩ := hx
  exact ⟨x, hx, hmono x n hmem⟩

theorem derive (h : g.Bounds v) (hopen : (v e).isFinal = false) (hrest : ∀ x ≠ e, v' x = v x)
    (hnew : g.Derived v e (v' e)) : g.Bounds v' := by
  have hknown : known v' e = g.derived v e := hnew.numbers
  have hmono : ∀ x n, n ∈ known v x → n ∈ known v' x := by
    intro x n hn
    by_cases hx : x = e
    · subst hx
      rw [hknown, mem_derived]
      exact h.derivable x hopen n hn
    · rwa [known, hrest x hx]
  refine ⟨?_, ?_, ?_, ?_⟩
  · intro x
    by_cases hx : x = e
    · exact hx ▸ hnew.form
    · exact hrest x hx ▸ h.form x
  · intro x n hn
    by_cases hx : x = e
    · subst hx
      rw [hknown, mem_derived] at hn
      exact h.reaches_of_derives hn
    · rw [known, hrest x hx] at hn
      exact h.sound x n hn
  · intro x hfinal n hn
    by_cases hx : x = e
    · subst hx
      rw [hknown, mem_derived]
      refine (reaches_iff.1 hn).imp_right ?_
      intro hy
      obtain ⟨y, hy, hreach⟩ := hy
      exact ⟨y, hy, h.exact y (hnew.all_final hfinal y hy) n hreach⟩
    · rw [known, hrest x hx]
      exact h.exact x (hrest x hx ▸ hfinal) n hn
  · intro x hx' n hn
    by_cases hx : x = e
    · subst hx
      rw [hknown, mem_derived] at hn
      exact derives_mono hmono hn
    · rw [known, hrest x hx] at hn
      exact derives_mono hmono (h.derivable x (hrest x hx ▸ hx') n hn)

/-- A group that solves its own equations, and depends on nothing else that is not final, has the
solution. -/
theorem reaches_known (h : g.Bounds v) {group : Element → Prop}
    (hsolved : ∀ e, group e → ∀ n, g.Derives v e n → n ∈ known v e)
    (hclosed : ∀ e, group e → ∀ x ∈ g.succ e, (v x).isFinal = true ∨ group x)
    {n : Nat} (he : group e) (hn : g.Reaches e n) : n ∈ known v e := by
  obtain ⟨y, hy, hown⟩ := hn
  induction hy using Relation.ReflTransGen.head_induction_on with
  | refl => exact hsolved y he n (.inl hown)
  | head hx hxy ih =>
    refine hsolved _ he n (.inr ⟨_, hx, ?_⟩)
    cases hclosed _ he _ hx with
    | inl hfinal => exact h.exact _ hfinal n ⟨y, hxy, hown⟩
    | inr hin => exact ih hin

theorem settle (h : g.Bounds v) {group : Element → Prop}
    (hsolved : ∀ e, group e → ∀ n, g.Derives v e n → n ∈ known v e)
    (hclosed : ∀ e, group e → ∀ x ∈ g.succ e, (v x).isFinal = true ∨ group x)
    (hrest : ∀ e, ¬ group e → v' e = v e)
    (hset : ∀ e, group e → ∃ stamp, v' e = settledAt e stamp (known v e)) :
    g.Bounds v' := by
  have hsame : ∀ e, known v' e = known v e := by
    intro e
    by_cases he : group e
    · obtain ⟨stamp, hstamp⟩ := hset e he
      rw [known, hstamp]
      rfl
    · rw [known, hrest e he, known]
  refine ⟨?_, ?_, ?_, ?_⟩
  · intro e
    by_cases he : group e
    · obtain ⟨stamp, hstamp⟩ := hset e he
      exact hstamp ▸ .settled stamp _
    · exact hrest e he ▸ h.form e
  · intro e n hn
    exact h.sound e n (hsame e ▸ hn)
  · intro e hfinal n hn
    rw [hsame]
    by_cases he : group e
    · exact h.reaches_known hsolved hclosed he hn
    · exact h.exact e (hrest e he ▸ hfinal) n hn
  · intro e hfinal n hn
    have he : ¬ group e := by
      intro he
      obtain ⟨stamp, hstamp⟩ := hset e he
      rw [hstamp] at hfinal
      cases hfinal
    rw [hsame] at hn
    exact derives_mono (fun x m hm => hsame x ▸ hm) (h.derivable e (hrest e he ▸ hfinal) n hn)

end Bounds

/-! How far an element is from its final value. -/

def level (g : ReachGraph) : Status Element Fact → Nat
  | .unknown _ => g.numbers.card + 2
  | .interim ep => (g.numbers.filter (· ∉ lowerNumbers (.interim ep))).card + 1
  | .final _ => 0

theorem level_pos {s : Status Element Fact} (h : s.isFinal = false) : 0 < g.level s := by
  cases s with
  | unknown k => simp [level]
  | interim ep => simp [level]
  | final ep => cases h

theorem level_of_isFinal {s : Status Element Fact} (h : s.isFinal = true) : g.level s = 0 := by
  cases s with
  | unknown k => cases h
  | interim ep => cases h
  | final ep => rfl

theorem level_refinedTo_lt {stamp : Nat} {s : SortedSet Nat} (hb : IsBound e (v e))
    (hopen : (v e).isFinal = false) (hsub : ∀ n, n ∈ known v e → n ∈ s)
    (hbound : ∀ n, n ∈ s → n ∈ g.numbers) (hnew : ∀ m, v e ≠ refinedTo e m s) :
    g.level (refinedTo e stamp s) < g.level (v e) := by
  have hnumbers : ∀ m t, lowerNumbers (refinedTo e m t) = t := fun _ _ => rfl
  cases hb' : v e with
  | unknown k =>
    have hle := Finset.card_filter_le g.numbers (· ∉ s)
    change (g.numbers.filter (· ∉ s)).card + 1 < g.numbers.card + 2
    omega
  | final ep => simp [hb', Status.isFinal] at hopen
  | interim ep =>
    rw [hb'] at hb
    cases hb with
    | refined m t =>
      have hmissing : ∃ n, n ∈ s ∧ n ∉ t := by
        by_contra hall
        push Not at hall
        have heq : t = s := SortedSet.ext_mem fun n =>
          ⟨fun hn => hsub n (by rw [known, hb']; exact hn), hall n⟩
        exact hnew m (by rw [hb', heq]; rfl)
      obtain ⟨n, hn, hnt⟩ := hmissing
      have hlt : (g.numbers.filter (· ∉ s)).card < (g.numbers.filter (· ∉ t)).card := by
        refine Finset.card_lt_card (Finset.ssubset_iff_of_subset ?_ |>.2 ⟨n, ?_, ?_⟩)
        · intro m' hm'
          rw [Finset.mem_filter] at hm' ⊢
          refine ⟨hm'.1, fun hin => hm'.2 (hsub m' ?_)⟩
          rw [known, hb']
          exact hin
        · exact Finset.mem_filter.2 ⟨hbound n hn, hnt⟩
        · exact fun hin => (Finset.mem_filter.1 hin).2 hn
      exact Nat.add_lt_add_right hlt 1

/-- Nothing known is lost, and nothing final is touched. -/
structure Improves (g : ReachGraph) (v v' : Element → Status Element Fact) : Prop where
  final : ∀ e, (v e).isFinal = true → v' e = v e
  keeps : ∀ e n, n ∈ known v e → n ∈ known v' e
  level : ∀ e, g.level (v' e) ≤ g.level (v e)

namespace Improves

theorem refl (g : ReachGraph) (v : Element → Status Element Fact) : g.Improves v v :=
  ⟨fun _ _ => rfl, fun _ _ h => h, fun _ => Nat.le_refl _⟩

theorem trans {v'' : Element → Status Element Fact} (h : g.Improves v v') (h' : g.Improves v' v'') :
    g.Improves v v'' := by
  refine ⟨?_, fun e n hn => h'.keeps e n (h.keeps e n hn),
    fun e => Nat.le_trans (h'.level e) (h.level e)⟩
  intro e he
  have hsame := h.final e he
  rw [h'.final e (hsame ▸ he), hsame]

theorem settle {group : Element → Prop} (hopen : ∀ e, group e → (v e).isFinal = false)
    (hrest : ∀ e, ¬ group e → v' e = v e)
    (hset : ∀ e, group e → ∃ stamp, v' e = settledAt e stamp (known v e)) :
    g.Improves v v' := by
  refine ⟨?_, ?_, ?_⟩
  · intro e he
    refine hrest e fun hin => ?_
    simp [hopen e hin] at he
  · intro e n hn
    by_cases he : group e
    · obtain ⟨stamp, hstamp⟩ := hset e he
      rw [known, hstamp]
      exact hn
    · rwa [known, hrest e he]
  · intro e
    by_cases he : group e
    · obtain ⟨stamp, hstamp⟩ := hset e he
      rw [hstamp]
      exact Nat.zero_le _
    · rw [hrest e he]

end Improves

theorem Bounds.level_derived (h : g.Bounds v) (hopen : (v e).isFinal = false)
    {s : Status Element Fact} (hnew : g.Derived v e s) :
    g.level s < g.level (v e) ∨
      (∃ stamp, v e = refinedTo e stamp (g.derived v e)) ∧ g.level s ≤ g.level (v e) := by
  cases hnew with
  | settled stamp _ => exact .inl (g.level_pos hopen)
  | refined stamp =>
    by_cases hold : ∃ m, v e = refinedTo e m (g.derived v e)
    · obtain ⟨m, hm⟩ := hold
      exact .inr ⟨⟨m, hm⟩, by rw [hm]; exact Nat.le_refl _⟩
    · push Not at hold
      refine .inl (level_refinedTo_lt (h.form e) hopen ?_ ?_ hold)
      · exact fun n hn => mem_derived.2 (h.derivable e hopen n hn)
      · exact fun n hn => (h.reaches_of_derives (mem_derived.1 hn)).mem_numbers

theorem Bounds.improves_derive (h : g.Bounds v) (hopen : (v e).isFinal = false)
    (hrest : ∀ x ≠ e, v' x = v x) (hnew : g.Derived v e (v' e)) : g.Improves v v' := by
  refine ⟨?_, ?_, ?_⟩
  · intro x hx
    refine hrest x fun heq => ?_
    rw [heq, hopen] at hx
    cases hx
  · intro x n hn
    by_cases hx : x = e
    · subst hx
      rw [known, hnew.numbers]
      exact mem_derived.2 (h.derivable x hopen n hn)
    · rwa [known, hrest x hx]
  · intro x
    by_cases hx : x = e
    · subst hx
      cases h.level_derived hopen hnew with
      | inl hlt => exact Nat.le_of_lt hlt
      | inr hle => exact hle.2
    · rw [hrest x hx]

end ReachGraph
end Analysis
end Blackboard
