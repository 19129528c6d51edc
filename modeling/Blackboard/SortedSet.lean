/-! Finite sets kept as strictly ascending lists, so that equal sets are equal values. -/
namespace Blackboard

structure SortedSet (α : Type) [Ord α] where
  toList : List α
  sorted : toList.Pairwise fun a b => compare a b = .lt

namespace SortedSet
variable {α : Type} [Ord α]

@[ext] theorem ext {s t : SortedSet α} (h : s.toList = t.toList) : s = t := by
  cases s; cases t; congr

instance [DecidableEq α] : DecidableEq (SortedSet α) := fun s t =>
  decidable_of_iff (s.toList = t.toList) ⟨ext, congrArg toList⟩

instance : Membership α (SortedSet α) := ⟨fun s a => a ∈ s.toList⟩

theorem mem_def {a : α} {s : SortedSet α} : a ∈ s ↔ a ∈ s.toList := Iff.rfl

instance [DecidableEq α] (a : α) (s : SortedSet α) : Decidable (a ∈ s) :=
  inferInstanceAs (Decidable (a ∈ s.toList))

def empty : SortedSet α := ⟨[], .nil⟩

instance : EmptyCollection (SortedSet α) := ⟨empty⟩
instance : Inhabited (SortedSet α) := ⟨empty⟩

def isEmpty (s : SortedSet α) : Bool := s.toList.isEmpty
def size (s : SortedSet α) : Nat := s.toList.length

def place (x : α) : List α → List α
  | [] => [x]
  | y :: r =>
    match compare x y with
    | .lt => x :: y :: r
    | .eq => y :: r
    | .gt => y :: place x r

theorem mem_place [Std.LawfulEqOrd α] {x a : α} {l : List α} : a ∈ place x l ↔ a = x ∨ a ∈ l := by
  induction l with
  | nil => simp [place]
  | cons y r ih =>
    simp only [place]
    split
    · simp
    · rename_i h
      rw [Std.LawfulEqOrd.compare_eq_iff_eq] at h
      simp [h]
    · simp only [List.mem_cons, ih]
      grind

theorem pairwise_place [Std.TransOrd α] [Std.LawfulEqOrd α] {x : α} {l : List α}
    (h : l.Pairwise fun a b => compare a b = .lt) :
    (place x l).Pairwise fun a b => compare a b = .lt := by
  induction l with
  | nil => simp [place]
  | cons y r ih =>
    obtain ⟨hy, hr⟩ := List.pairwise_cons.1 h
    simp only [place]
    split
    · rename_i hx
      refine List.pairwise_cons.2 ⟨fun b hb => ?_, h⟩
      rcases List.mem_cons.1 hb with rfl | hb
      · exact hx
      · exact Std.TransCmp.lt_trans hx (hy b hb)
    · exact h
    · rename_i hx
      refine List.pairwise_cons.2 ⟨fun b hb => ?_, ih hr⟩
      rcases mem_place.1 hb with rfl | hb
      · exact Std.OrientedCmp.gt_iff_lt.1 hx
      · exact hy b hb

section
variable [Std.TransOrd α] [Std.LawfulEqOrd α]

def insert (s : SortedSet α) (x : α) : SortedSet α := ⟨place x s.toList, pairwise_place s.sorted⟩

@[simp] theorem mem_insert {s : SortedSet α} {x a : α} : a ∈ s.insert x ↔ a = x ∨ a ∈ s := mem_place

def insertMany (s : SortedSet α) (xs : List α) : SortedSet α := xs.foldl insert s

@[simp] theorem mem_insertMany {s : SortedSet α} {xs : List α} {a : α} :
    a ∈ s.insertMany xs ↔ a ∈ xs ∨ a ∈ s := by
  induction xs generalizing s with
  | nil => simp [insertMany]
  | cons x r ih =>
    have h := @ih (s.insert x)
    simp only [insertMany, List.foldl_cons] at h ⊢
    rw [h]
    simp only [mem_insert, List.mem_cons]
    grind

def ofList (xs : List α) : SortedSet α := empty.insertMany xs
def union (s t : SortedSet α) : SortedSet α := s.insertMany t.toList

end

section
variable [DecidableEq α]

def subset (s t : SortedSet α) : Bool := s.toList.all fun a => decide (a ∈ t)

theorem subset_iff {s t : SortedSet α} : s.subset t = true ↔ ∀ a, a ∈ s → a ∈ t := by
  simp [subset, mem_def]

def erase (s : SortedSet α) (x : α) : SortedSet α := ⟨s.toList.filter (· ≠ x), s.sorted.filter _⟩

@[simp] theorem mem_erase {s : SortedSet α} {x a : α} : a ∈ s.erase x ↔ a ∈ s ∧ a ≠ x := by
  simp [erase, mem_def]

end

end SortedSet
end Blackboard
