import Blackboard.Component
import Mathlib.Data.Finset.Card
import Mathlib.Logic.Relation

/-! The search finds the strongly connected groups. A visit has a contract: what it sees is reached,
what stays on the stack leads back to something older, and the rest is in groups. Each edge that is
followed keeps what is known of the nodes seen so far, and the last one settles whether there is a
group. -/
namespace Blackboard

abbrev Reaches (next : Nat → List Nat) : Nat → Nat → Prop :=
  Relation.ReflTransGen fun x y => y ∈ next x

namespace Mark
variable {m : Mark} {r ρ : Nat}

theorem below_index : m.below (.index r) = true ↔ m = .unseen ∨ ∃ i < r, m = .index i := by
  cases m <;> simp [below]

theorem not_below_mono (h : ρ ≤ r) (hm : m.below (.index r) = false) :
    m.below (.index ρ) = false := by
  cases m with
  | unseen => cases hm
  | index i =>
    simp only [below, decide_eq_false_iff_not, not_lt] at hm ⊢
    omega
  | component n => rfl

theorem ne_unseen_of_not_below (hm : m.below (.index r) = false) : m ≠ .unseen := by
  rintro rfl
  cases hm

end Mark

namespace Search
variable {next : Nat → List Nat} {t u : Search} {v x y : Nat}

@[simp] theorem root_mark (t : Search) (x : Nat) (m : Mark) (y : Nat) :
    (t.mark x m).root y = if y = x then m else t.root y := by
  unfold root mark
  rw [List.lookup_cons]
  by_cases h : y = x
  · simp [h]
  · simp [h, beq_eq_false_iff_ne.2 h]

@[simp] theorem root_enter (t : Search) (x y : Nat) :
    (t.enter x).root y = if y = x then .index t.index else t.root y :=
  root_mark t x _ y

theorem root_close (t : Search) (x y : Nat) :
    (t.close x).root y =
      if y ∈ x :: t.above x then .component t.found.length else t.root y := by
  have hlookup (xs : List Nat) (m : Mark) :
      ((xs.map (·, m) ++ t.marks).lookup y).getD .unseen = if y ∈ xs then m else t.root y := by
    induction xs with
    | nil => rfl
    | cons z xs ih =>
      rw [List.map_cons, List.cons_append, List.lookup_cons]
      by_cases h : y = z
      · simp [h]
      · simp [h, beq_eq_false_iff_ne.2 h, ih]
  exact hlookup _ _

/-- What holds of a search between two steps. -/
structure Sound (next : Nat → List Nat) (t : Search) : Prop where
  indexed : ∀ {x i}, t.root x = .index i → i < t.index
  stacked : ∀ {x}, x ∈ t.stack → ∃ i, t.root x = .index i
  stack_nodup : t.stack.Nodup
  grouped : ∀ {x}, x ∈ t.found.flatten ↔ ∃ n, t.root x = .component n
  nodup : t.found.flatten.Nodup
  closed : ∀ {x y}, x ∈ t.found.flatten → y ∈ next x → y ∈ t.found.flatten
  nonempty : ∀ {g}, g ∈ t.found → g ≠ []
  classes : ∀ {g x y}, g ∈ t.found → x ∈ g → (y ∈ g ↔ Reaches next x y ∧ Reaches next y x)

theorem sound_start : Sound next .start where
  indexed h := by cases h
  stacked h := by cases h
  stack_nodup := List.nodup_nil
  grouped := ⟨by simp [start], fun ⟨_, h⟩ => by cases h⟩
  nodup := List.nodup_nil
  closed h := by simp [start] at h
  nonempty h := by cases h
  classes h := by cases h

theorem Sound.reaches (h : Sound next t) (hx : x ∈ t.found.flatten) (hxy : Reaches next x y) :
    y ∈ t.found.flatten := by
  induction hxy with
  | refl => exact hx
  | tail _ hz ih => exact h.closed ih hz

theorem Sound.not_grouped (h : Sound next t) {i : Nat} (hx : t.root x = .index i) :
    x ∉ t.found.flatten := by
  intro hmem
  obtain ⟨n, hn⟩ := h.grouped.1 hmem
  rw [hx] at hn
  cases hn

theorem Sound.mark_index (h : Sound next t) (hv : v ∉ t.found.flatten) {i n : Nat} (hi : i < n)
    (hn : t.index ≤ n) : Sound next { t.mark v (.index i) with index := n } where
  indexed {x j} hx := by
    replace hx : (t.mark v (.index i)).root x = .index j := hx
    rw [root_mark] at hx
    split at hx
    · obtain rfl := Mark.index.inj hx
      exact hi
    · exact Nat.lt_of_lt_of_le (h.indexed hx) hn
  stacked {x} hx := by
    change ∃ j, (t.mark v (.index i)).root x = .index j
    rw [root_mark]
    split
    · exact ⟨i, rfl⟩
    · exact h.stacked hx
  stack_nodup := h.stack_nodup
  grouped {x} := by
    change x ∈ t.found.flatten ↔ ∃ n, (t.mark v (.index i)).root x = .component n
    rw [root_mark]
    split
    · next hxv => exact iff_of_false (hxv ▸ hv) (by simp)
    · exact h.grouped
  nodup := h.nodup
  closed := h.closed
  nonempty := h.nonempty
  classes := h.classes

theorem Sound.enter (h : Sound next t) (hv : t.root v = .unseen) : Sound next (t.enter v) := by
  refine h.mark_index (fun hmem => ?_) (Nat.lt_succ_self _) (Nat.le_succ _)
  obtain ⟨n, hn⟩ := h.grouped.1 hmem
  rw [hv] at hn
  cases hn

theorem Sound.push (h : Sound next t) {i : Nat} (hv : t.root v = .index i) (hnot : v ∉ t.stack) :
    Sound next (t.push v) where
  indexed := h.indexed
  stacked {x} hx := by
    rcases List.mem_cons.1 hx with rfl | hx
    · exact ⟨i, hv⟩
    · exact h.stacked hx
  stack_nodup := List.nodup_cons.2 ⟨hnot, h.stack_nodup⟩
  grouped := h.grouped
  nodup := h.nodup
  closed := h.closed
  nonempty := h.nonempty
  classes := h.classes

/-- What was seen below `v` since `t`. `fresh` are the nodes that are in no group yet: they lead to
`v`, none of them to anything before `r`, and those with an index that was given out before lead
back to a node of that time. -/
structure Explores (next : Nat → List Nat) (t : Search) (v : Nat) (u : Search) (fresh : List Nat)
    (r : Nat) : Prop where
  sound : u.Sound next
  keeps : ∀ {x}, t.root x ≠ .unseen → u.root x = t.root x
  reached : ∀ {x}, t.root x = .unseen → u.root x ≠ .unseen → Reaches next v x
  index : u.index = t.index + fresh.length
  mem_fresh : ∀ {x}, x ∈ fresh ↔ t.root x = .unseen ∧ ∃ i, u.root x = .index i
  back : ∀ {x}, x ∈ fresh → Reaches next x v
  least : ∀ {x}, x ∈ fresh → (u.root x).below (.index r) = false
  anchored : ∀ {x i}, x ∈ fresh → u.root x = .index i → i < t.index →
    ∃ y j, t.root y = .index j ∧ j ≤ i ∧ Reaches next x y

/-- The edges of `v` to `ws` have been followed. `seg` was put on the stack meanwhile, `r` is the
index of `v`, and nothing seen leads to an index before `ρ`. -/
structure Scans (next : Nat → List Nat) (t : Search) (v : Nat) (ws : List Nat) (s : Search × Bool)
    (seg : List Nat) (r ρ : Nat) : Prop extends Explores next t v s.1 (v :: seg) ρ where
  self : s.1.root v = .index r
  first : s.2 = true ∧ r = t.index ∨ s.2 = false ∧ r < t.index
  stack : s.1.stack = seg ++ t.stack
  hidden : v ∉ s.1.stack
  edges : ∀ {x y}, t.root x = .unseen → s.1.root x ≠ .unseen → x ≠ v → y ∈ next x →
    (s.1.root y).below (.index ρ) = false
  looked : ∀ {y}, y ∈ ws → (s.1.root y).below (.index ρ) = false

/-- The contract of a visit. Either all that it saw is in groups, or `v` stays on the stack. -/
structure Visits (next : Nat → List Nat) (t : Search) (v : Nat) (u : Search) (fresh : List Nat)
    (r : Nat) : Prop extends Explores next t v u fresh r where
  seen : u.root v ≠ .unseen
  outcome : fresh = [] ∧ r = t.index ∨ u.root v = .index r ∧ r < t.index
  stack : u.stack = fresh ++ t.stack
  edges : ∀ {x y}, t.root x = .unseen → u.root x ≠ .unseen → y ∈ next x →
    (u.root y).below (.index r) = false

/-- What a visit may start from: all that is in no group yet leads to the node. -/
structure Ready (next : Nat → List Nat) (t : Search) (v : Nat) : Prop where
  sound : t.Sound next
  unseen : t.root v = .unseen
  leads : ∀ {x i}, t.root x = .index i → Reaches next x v

theorem Ready.hidden (h : Ready next t v) : v ∉ t.stack := by
  intro hv
  obtain ⟨i, hi⟩ := h.sound.stacked hv
  rw [h.unseen] at hi
  cases hi

theorem Ready.scans (h : Ready next t v) :
    Scans next t v [] (t.enter v, true) [] t.index t.index where
  sound := h.sound.enter h.unseen
  keeps {x} hx := by
    rw [root_enter, if_neg]
    rintro rfl
    exact hx h.unseen
  reached {x} hx hseen := by
    rw [root_enter] at hseen
    split at hseen
    · next hxv => exact hxv ▸ .refl
    · exact absurd hx hseen
  index := rfl
  mem_fresh {x} := by
    rw [List.mem_singleton, root_enter]
    split
    · next hxv => simp [hxv, h.unseen]
    · next hxv => simp +contextual [hxv]
  back {x} hx := by rw [List.mem_singleton.1 hx]
  least {x} hx := by simp [List.mem_singleton.1 hx, Mark.below]
  anchored {x i} hx hi hlt := by
    rw [List.mem_singleton.1 hx, root_enter, if_pos rfl] at hi
    obtain rfl := Mark.index.inj hi
    exact absurd hlt (Nat.lt_irrefl _)
  self := by simp
  first := .inl ⟨rfl, rfl⟩
  stack := rfl
  hidden := h.hidden
  edges {x y} hx hseen hne _ := by
    rw [root_enter, if_neg hne] at hseen
    exact absurd hx hseen
  looked h := by cases h

namespace Scans
variable {ws seg fresh : List Nat} {s : Search × Bool} {r ρ : Nat}

theorem weaken (h : Scans next t v ws s seg r ρ) {ρ' : Nat} (hle : ρ' ≤ ρ) :
    Scans next t v ws s seg r ρ' :=
  { h with
    least := fun hx => Mark.not_below_mono hle (h.least hx)
    edges := fun hx hseen hne hy => Mark.not_below_mono hle (h.edges hx hseen hne hy)
    looked := fun hy => Mark.not_below_mono hle (h.looked hy) }

theorem index_le (h : Scans next t v ws s seg r ρ) : r ≤ t.index := by
  rcases h.first with ⟨-, he⟩ | ⟨-, hlt⟩ <;> omega

theorem old_or_fresh (h : Scans next t v ws s seg r ρ) {i : Nat} (hx : s.1.root x = .index i) :
    t.root x = .index i ∨ x ∈ v :: seg := by
  by_cases ht : t.root x = .unseen
  · exact .inr (h.mem_fresh.2 ⟨ht, i, hx⟩)
  · exact .inl (h.keeps ht ▸ hx)

theorem leads (h : Scans next t v ws s seg r ρ) (hready : Ready next t v) {i : Nat}
    (hx : s.1.root x = .index i) : Reaches next x v :=
  (h.old_or_fresh hx).elim hready.leads h.back

theorem anchored_of_reaches (h : Scans next t v ws s seg r ρ) {i j : Nat} (hxy : Reaches next x y)
    (hy : s.1.root y = .index j) (hle : j ≤ i) (hlt : i < t.index) :
    ∃ z k, t.root z = .index k ∧ k ≤ i ∧ Reaches next x z := by
  rcases h.old_or_fresh hy with hold | hfresh
  · exact ⟨y, j, hold, hle, hxy⟩
  · obtain ⟨z, k, hz, hk, hyz⟩ := h.anchored hfresh hy (Nat.lt_of_le_of_lt hle hlt)
    exact ⟨z, k, hz, Nat.le_trans hk hle, hxy.trans hyz⟩

section
variable (h : Scans next t v ws s seg r ρ) {r' : Nat} (hv : Visits next s.1 y u fresh r')
include h hv

theorem mem_extended {x : Nat} :
    x ∈ v :: (fresh ++ seg) ↔ t.root x = .unseen ∧ ∃ i, u.root x = .index i := by
  have hsplit : x ∈ v :: (fresh ++ seg) ↔ x ∈ fresh ∨ x ∈ v :: seg := by
    simp only [List.mem_cons, List.mem_append]
    tauto
  rw [hsplit, hv.mem_fresh, h.mem_fresh]
  by_cases hs : s.1.root x = .unseen
  · have ht : t.root x = .unseen := by
      by_contra ht
      exact ht (h.keeps ht ▸ hs)
    simp [hs, ht]
  · simp [hs, hv.keeps hs]

/-- What the visit left on the stack leads back to something older than itself, and so to `v`. -/
theorem back_of_visit (hready : Ready next t v) (hunseen : s.1.root y = .unseen) (hx : x ∈ fresh) :
    Reaches next x v := by
  rcases hv.outcome with ⟨hnil, -⟩ | ⟨hroot, hlt⟩
  · rw [hnil] at hx
    cases hx
  · obtain ⟨z, j, hz, -, hyz⟩ := hv.anchored (hv.mem_fresh.2 ⟨hunseen, r', hroot⟩) hroot hlt
    exact (hv.back hx).trans (hyz.trans (h.leads hready hz))

end

theorem extend (h : Scans next t v ws s seg r ρ) (hready : Ready next t v) (hy : y ∈ next v)
    (hunseen : s.1.root y = .unseen) {r' : Nat} (hv : Visits next s.1 y u fresh r') (hle : ρ ≤ r') :
    Scans next t v ws (u, s.2) (fresh ++ seg) r ρ := by
  have hcases {x : Nat} (hx : x ∈ v :: (fresh ++ seg)) :
      x ∈ fresh ∨ x ∈ v :: seg ∧ u.root x = s.1.root x := by
    obtain ⟨ht, i, hi⟩ := (h.mem_extended hv).1 hx
    by_cases hs : s.1.root x = .unseen
    · exact .inl (hv.mem_fresh.2 ⟨hs, i, hi⟩)
    · exact .inr ⟨h.mem_fresh.2 ⟨ht, i, hv.keeps hs ▸ hi⟩, hv.keeps hs⟩
  have hnotBelow {z : Nat} (hz : (s.1.root z).below (.index ρ) = false) :
      (u.root z).below (.index ρ) = false := by
    rwa [hv.keeps (Mark.ne_unseen_of_not_below hz)]
  exact {
    sound := hv.sound
    keeps := fun hx => (hv.keeps (by rwa [h.keeps hx])).trans (h.keeps hx)
    reached := fun {x} hx hseen => by
      by_cases hs : s.1.root x = .unseen
      · exact .head hy (hv.reached hs hseen)
      · exact h.reached hx hs
    index := by
      rw [hv.index, h.index]
      simp only [List.length_cons, List.length_append]
      omega
    mem_fresh := h.mem_extended hv
    back := fun {x} hx => by
      rcases hcases hx with hx | ⟨hx, -⟩
      · exact h.back_of_visit hv hready hunseen hx
      · exact h.back hx
    least := fun {x} hx => by
      rcases hcases hx with hx | ⟨hx, -⟩
      · exact Mark.not_below_mono hle (hv.least hx)
      · exact hnotBelow (h.least hx)
    anchored := fun {x i} hx hi hlt => by
      rcases hcases hx with hx | ⟨hx, hkept⟩
      · have hindex := h.index
        obtain ⟨z, j, hz, hj, hxz⟩ := hv.anchored hx hi (by omega)
        exact h.anchored_of_reaches hxz hz hj hlt
      · exact h.anchored hx (hkept ▸ hi) hlt
    self := (hv.keeps (by simp [h.self])).trans h.self
    first := h.first
    stack := by rw [hv.stack, h.stack, List.append_assoc]
    hidden := by
      rw [hv.stack, List.mem_append]
      rintro (hmem | hmem)
      · have hs := (hv.mem_fresh.1 hmem).1
        rw [h.self] at hs
        cases hs
      · exact h.hidden hmem
    edges := fun {x z} hx hseen hne hz => by
      by_cases hs : s.1.root x = .unseen
      · exact Mark.not_below_mono hle (hv.edges hs hseen hz)
      · exact hnotBelow (h.edges hx hs hne hz)
    looked := fun hz => hnotBelow (h.looked hz) }

theorem lower_of_not_below (h : Scans next t v ws s seg r r)
    (hy : (s.1.root y).below (.index r) = false) :
    Scans next t v (ws ++ [y]) (lower v s y) seg r r := by
  rw [lower, h.self, hy]
  refine { h with looked := fun {z} hz => ?_ }
  rcases List.mem_append.1 hz with hz | hz
  · exact h.looked hz
  · rwa [List.mem_singleton.1 hz]

theorem lower_of_index (h : Scans next t v ws s seg r ρ) (hready : Ready next t v) (hy : y ∈ next v)
    (hroot : s.1.root y = .index ρ) (hlt : ρ < r) :
    Scans next t v (ws ++ [y]) (lower v s y) seg ρ ρ := by
  have hlower : lower v s y = (s.1.mark v (.index ρ), false) := by
    simp [lower, hroot, h.self, Mark.below, hlt]
  have hnotBelow {y : Nat} (hy : (s.1.root y).below (.index ρ) = false) :
      ((s.1.mark v (.index ρ)).root y).below (.index ρ) = false := by
    rw [root_mark]
    split
    · simp [Mark.below]
    · exact hy
  rw [hlower]
  exact {
    sound := h.sound.mark_index (h.sound.not_grouped h.self)
      (Nat.lt_trans hlt (h.sound.indexed h.self)) (Nat.le_refl _)
    keeps := fun {x} hx => by
      rw [root_mark, if_neg]
      · exact h.keeps hx
      · rintro rfl
        exact hx hready.unseen
    reached := fun {x} hx hseen => by
      rw [root_mark] at hseen
      split at hseen
      · next hxv => exact hxv ▸ .refl
      · exact h.reached hx hseen
    index := h.index
    mem_fresh := fun {x} => by
      rw [root_mark]
      split
      · next hxv => simp [hxv, hready.unseen]
      · exact h.mem_fresh
    back := h.back
    least := fun hx => hnotBelow (h.least hx)
    anchored := fun {x i} hx hi hi' => by
      rw [root_mark] at hi
      split at hi
      · next hxv =>
        obtain rfl := Mark.index.inj hi
        exact h.anchored_of_reaches (hxv ▸ .single hy) hroot (Nat.le_refl _) hi'
      · exact h.anchored hx hi hi'
    self := by simp
    first := .inr ⟨rfl, Nat.lt_of_lt_of_le hlt h.index_le⟩
    stack := h.stack
    hidden := h.hidden
    edges := fun {x y} hx hseen hne hy => by
      rw [root_mark, if_neg hne] at hseen
      exact hnotBelow (h.edges hx hseen hne hy)
    looked := fun {z} hz => by
      rcases List.mem_append.1 hz with hz | hz
      · exact hnotBelow (h.looked hz)
      · rw [List.mem_singleton.1 hz]
        exact hnotBelow (by simp [hroot, Mark.below]) }

theorem lower (hready : Ready next t v) (hy : y ∈ next v) (hseen : s.1.root y ≠ .unseen)
    (h : ∀ ρ ≤ r, (s.1.root y).below (.index ρ) = false → Scans next t v ws s seg r ρ) :
    ∃ r', Scans next t v (ws ++ [y]) (lower v s y) seg r' r' := by
  cases hbelow : (s.1.root y).below (.index r) with
  | false => exact ⟨r, (h r (Nat.le_refl r) hbelow).lower_of_not_below hbelow⟩
  | true =>
    obtain hno | ⟨i, hlt, hi⟩ := Mark.below_index.1 hbelow
    · exact absurd hno hseen
    · have hself : (s.1.root y).below (.index i) = false := by simp [hi, Mark.below]
      exact ⟨i, (h i (Nat.le_of_lt hlt) hself).lower_of_index hready hy hi hlt⟩

theorem follow (h : Scans next t v ws s seg r r) (hready : Ready next t v) (hy : y ∈ next v)
    {visit : Search → Nat → Search}
    (hvisit : s.1.root y = .unseen → ∃ fresh r', Visits next s.1 y (visit s.1 y) fresh r') :
    ∃ seg r, Scans next t v (ws ++ [y]) (follow visit v s y) seg r r := by
  unfold Search.follow
  by_cases hunseen : s.1.root y = .unseen
  · obtain ⟨fresh, r', hv⟩ := hvisit hunseen
    rw [if_pos hunseen]
    refine ⟨fresh ++ seg, lower (r := r) hready hy hv.seen fun ρ hρ hbelow => ?_⟩
    refine (h.weaken hρ).extend hready hy hunseen hv ?_
    rcases hv.outcome with ⟨-, hr'⟩ | ⟨hroot, -⟩
    · have hle := h.index_le
      have hindex := h.index
      omega
    · simpa [hroot, Mark.below] using hbelow
  · rw [if_neg hunseen]
    exact ⟨seg, lower hready hy hunseen fun ρ hρ _ => h.weaken hρ⟩

theorem foldl (h : Scans next t v ws s seg r r) {f : Search × Bool → Nat → Search × Bool}
    {ys : List Nat}
    (hf : ∀ {ws s seg r y}, Scans next t v ws s seg r r → y ∈ ys →
      ∃ seg r, Scans next t v (ws ++ [y]) (f s y) seg r r) :
    ∃ seg r, Scans next t v (ws ++ ys) (ys.foldl f s) seg r r := by
  induction ys generalizing ws s seg r with
  | nil => exact ⟨seg, r, by simpa using h⟩
  | cons y ys ih =>
    obtain ⟨seg, r, hstep⟩ := hf h List.mem_cons_self
    rw [List.append_cons, List.foldl_cons]
    exact ih hstep fun hs hy => hf hs (List.mem_cons_of_mem _ hy)

theorem push (h : Scans next t v (next v) s seg r r) (hlt : r < t.index) :
    Visits next t v (s.1.push v) (v :: seg) r :=
  { h with
    sound := h.sound.push h.self h.hidden
    seen := ne_of_eq_of_ne h.self (by simp)
    outcome := .inr ⟨h.self, hlt⟩
    stack := congrArg (v :: ·) h.stack
    edges := fun {x y} hx hseen hy => by
      by_cases hxv : x = v
      · exact h.looked (hxv ▸ hy)
      · exact h.edges hx hseen hxv hy }

theorem not_grouped (h : Scans next t v ws s seg r ρ) (hx : x ∈ v :: seg) :
    x ∉ s.1.found.flatten := by
  obtain ⟨-, i, hi⟩ := h.mem_fresh.1 hx
  exact h.sound.not_grouped hi

theorem nodup_fresh (h : Scans next t v ws s seg r ρ) : (v :: seg).Nodup := by
  have hnodup := h.sound.stack_nodup
  have hhidden := h.hidden
  rw [h.stack] at hnodup hhidden
  rw [List.nodup_cons]
  exact ⟨fun hv => hhidden (List.mem_append_left _ hv), hnodup.of_append_left⟩

theorem above_eq (h : Scans next t v ws s seg t.index t.index) (hready : Ready next t v) :
    s.1.above v = seg := by
  have hfresh : ∀ x ∈ seg, (!(s.1.root x).below (s.1.root v)) = true := by
    intro x hx
    rw [h.self, h.least (List.mem_cons_of_mem _ hx)]
    rfl
  rw [above, h.stack, List.takeWhile_append_of_pos hfresh]
  have hold : t.stack.takeWhile (fun x => !(s.1.root x).below (s.1.root v)) = [] := by
    cases hstack : t.stack with
    | nil => rfl
    | cons x xs =>
      obtain ⟨i, hi⟩ := hready.sound.stacked (hstack ▸ List.mem_cons_self)
      have hroot : s.1.root x = .index i := (h.keeps (by simp [hi])).trans hi
      have hlt := hready.sound.indexed hi
      simp [h.self, hroot, Mark.below, hlt]
  rw [hold, List.append_nil]

section
variable (h : Scans next t v (next v) s seg t.index t.index) (hready : Ready next t v)
include h hready

theorem root_closed (x : Nat) : (s.1.close v).root x =
    if x ∈ v :: seg then .component s.1.found.length else s.1.root x := by
  rw [root_close, h.above_eq hready]

theorem found_closed : (s.1.close v).found = (v :: seg).reverse :: s.1.found := by
  rw [← h.above_eq hready]
  rfl

theorem mem_flatten_closed :
    x ∈ (s.1.close v).found.flatten ↔ x ∈ v :: seg ∨ x ∈ s.1.found.flatten := by
  rw [h.found_closed hready, List.flatten_cons, List.mem_append, List.mem_reverse]

theorem stack_closed : (s.1.close v).stack = t.stack := by
  simp [Search.close, h.above_eq hready, h.stack]

theorem index_closed : (s.1.close v).index = t.index := by
  have hindex := h.index
  simp only [Search.close, h.above_eq hready]
  omega

theorem old_of_closed {i : Nat} (hx : (s.1.close v).root x = .index i) : t.root x = .index i := by
  rw [h.root_closed hready] at hx
  split at hx
  · cases hx
  · next hnot => exact (h.old_or_fresh hx).resolve_right hnot

theorem next_closed (hx : x ∈ (s.1.close v).found.flatten) (hy : y ∈ next x) :
    y ∈ (s.1.close v).found.flatten := by
  rw [h.mem_flatten_closed hready] at hx ⊢
  rcases hx with hx | hx
  swap
  · exact .inr (h.sound.closed hx hy)
  have hedge : (s.1.root y).below (.index t.index) = false := by
    by_cases hxv : x = v
    · exact h.looked (hxv ▸ hy)
    · obtain ⟨ht, i, hi⟩ := h.mem_fresh.1 hx
      exact h.edges ht (by simp [hi]) hxv hy
  cases hm : s.1.root y with
  | unseen => exact absurd hm (Mark.ne_unseen_of_not_below hedge)
  | component n => exact .inr (h.sound.grouped.2 ⟨n, hm⟩)
  | index i =>
    refine .inl ((h.old_or_fresh hm).resolve_left fun hold => ?_)
    have hlt := hready.sound.indexed hold
    simp [hm, Mark.below] at hedge
    omega

theorem mem_fresh_iff_mutual (hx : x ∈ v :: seg) :
    y ∈ v :: seg ↔ Reaches next x y ∧ Reaches next y x := by
  constructor
  · intro hy
    have hreach {z : Nat} (hz : z ∈ v :: seg) : Reaches next v z := by
      obtain ⟨ht, i, hi⟩ := h.mem_fresh.1 hz
      exact h.reached ht (by simp [hi])
    exact ⟨(h.back hx).trans (hreach hy), (h.back hy).trans (hreach hx)⟩
  · rintro ⟨hxy, hyx⟩
    have hy : y ∈ (s.1.close v).found.flatten := by
      clear hyx
      induction hxy with
      | refl => exact (h.mem_flatten_closed hready).2 (.inl hx)
      | tail _ hz ih => exact h.next_closed hready ih hz
    -- from an older group nothing leads here
    exact ((h.mem_flatten_closed hready).1 hy).resolve_right fun hold =>
      h.not_grouped hx (h.sound.reaches hold hyx)

theorem sound_close : Sound next (s.1.close v) where
  indexed hx := by
    rw [h.index_closed hready]
    exact hready.sound.indexed (h.old_of_closed hready hx)
  stacked {x} hx := by
    rw [h.stack_closed hready] at hx
    obtain ⟨i, hi⟩ := hready.sound.stacked hx
    have hnot : x ∉ v :: seg := fun hmem => by simp [(h.mem_fresh.1 hmem).1] at hi
    rw [h.root_closed hready, if_neg hnot, h.keeps (by simp [hi])]
    exact ⟨i, hi⟩
  stack_nodup := by
    rw [h.stack_closed hready]
    exact hready.sound.stack_nodup
  grouped {x} := by
    rw [h.mem_flatten_closed hready, h.root_closed hready, h.sound.grouped]
    split
    · next hx => simp [hx]
    · next hx => simp [hx]
  nodup := by
    rw [h.found_closed hready, List.flatten_cons, List.nodup_append', List.nodup_reverse]
    exact ⟨h.nodup_fresh, h.sound.nodup, fun x hx => h.not_grouped (List.mem_reverse.1 hx)⟩
  closed := h.next_closed hready
  nonempty {g} hg := by
    rw [h.found_closed hready, List.mem_cons] at hg
    rcases hg with rfl | hg
    · simp
    · exact h.sound.nonempty hg
  classes {g x y} hg hx := by
    rw [h.found_closed hready, List.mem_cons] at hg
    rcases hg with rfl | hg
    · rw [List.mem_reverse] at hx ⊢
      exact h.mem_fresh_iff_mutual hready hx
    · exact h.sound.classes hg hx

/-- `v` leads back to nothing older: with all that is fresh it is a group. -/
theorem close : Visits next t v (s.1.close v) [] t.index where
  sound := h.sound_close hready
  keeps {x} hx := by
    have hnot : x ∉ v :: seg := fun hmem => hx (h.mem_fresh.1 hmem).1
    rw [h.root_closed hready, if_neg hnot, h.keeps hx]
  reached {x} hx hseen := by
    rw [h.root_closed hready] at hseen
    split at hseen
    · next hmem =>
      obtain ⟨-, i, hi⟩ := h.mem_fresh.1 hmem
      exact h.reached hx (by simp [hi])
    · exact h.reached hx hseen
  index := h.index_closed hready
  mem_fresh {x} := by
    refine iff_of_false List.not_mem_nil ?_
    rintro ⟨ht, i, hi⟩
    simp [h.old_of_closed hready hi] at ht
  back hx := by cases hx
  least hx := by cases hx
  anchored hx := by cases hx
  seen := by simp [h.root_closed hready]
  outcome := .inl ⟨rfl, rfl⟩
  stack := h.stack_closed hready
  edges {x y} hx hseen hy := by
    have hsound := h.sound_close hready
    have hgrouped : x ∈ (s.1.close v).found.flatten := by
      cases hm : (s.1.close v).root x with
      | unseen => exact absurd hm hseen
      | index i => simp [h.old_of_closed hready hm] at hx
      | component n => exact hsound.grouped.2 ⟨n, hm⟩
    obtain ⟨n, hn⟩ := hsound.grouped.1 (hsound.closed hgrouped hy)
    simp [hn, Mark.below]

end

end Scans

def unseenOf (nodes : List Nat) (t : Search) : Finset Nat :=
  nodes.toFinset.filter (t.root · = .unseen)

theorem card_unseenOf_lt {nodes : List Nat} (hv : v ∈ nodes) (ht : t.root v = .unseen)
    (hu : u.root v ≠ .unseen) (hkeeps : ∀ {x}, t.root x ≠ .unseen → u.root x = t.root x) :
    (unseenOf nodes u).card < (unseenOf nodes t).card := by
  apply Finset.card_lt_card
  refine ⟨fun x hx => ?_, fun hsub => hu ?_⟩
  · simp only [unseenOf, Finset.mem_filter] at hx ⊢
    refine ⟨hx.1, ?_⟩
    by_contra hseen
    exact hseen (hkeeps hseen ▸ hx.2)
  · have hmem : v ∈ unseenOf nodes t := by simp [unseenOf, hv, ht]
    exact (Finset.mem_filter.1 (hsub hmem)).2

/-- A visit goes as deep as there are nodes not seen yet, so it never stops short. -/
theorem visit_visits {nodes : List Nat} (hnext : ∀ x ∈ nodes, next x ⊆ nodes) (depth : Nat)
    (hready : Ready next t v) (hv : v ∈ nodes) (hdepth : (unseenOf nodes t).card ≤ depth) :
    ∃ fresh r, Visits next t v (visit next depth t v) fresh r := by
  induction depth generalizing t v with
  | zero =>
    have hmem : v ∈ unseenOf nodes t := by simp [unseenOf, hv, hready.unseen]
    simp [Finset.card_eq_zero.1 (Nat.le_zero.1 hdepth)] at hmem
  | succ depth ih =>
    have hfollow {ws seg : List Nat} {s : Search × Bool} {r y : Nat}
        (hs : Scans next t v ws s seg r r) (hy : y ∈ next v) :
        ∃ seg r, Scans next t v (ws ++ [y]) (follow (visit next depth) v s y) seg r r := by
      refine hs.follow hready hy fun hunseen => ?_
      have hless := card_unseenOf_lt hv hready.unseen (by simp [hs.self]) hs.keeps
      have hready' : Ready next s.1 y :=
        ⟨hs.sound, hunseen, fun hx => (hs.leads hready hx).tail hy⟩
      exact ih hready' (hnext v hv hy) (by omega)
    obtain ⟨seg, r, hscan⟩ := hready.scans.foldl hfollow
    rw [List.nil_append] at hscan
    unfold visit
    dsimp only
    rcases hscan.first with ⟨hfirst, rfl⟩ | ⟨hfirst, hlt⟩
    · rw [if_pos hfirst]
      exact ⟨[], t.index, hscan.close hready⟩
    · rw [if_neg (by simp [hfirst])]
      exact ⟨_, r, hscan.push hlt⟩

def Settled (t : Search) : Prop := ∀ x i, t.root x ≠ .index i

theorem Visits.settled {fresh : List Nat} {r : Nat} (h : Visits next t v u fresh r)
    (ht : t.Settled) : u.Settled := by
  intro x i hx
  have hnone : fresh = [] := by
    rcases h.outcome with ⟨hnil, -⟩ | ⟨hroot, hlt⟩
    · exact hnil
    · by_cases hv : t.root v = .unseen
      · obtain ⟨y, j, hy, -, -⟩ := h.anchored (h.mem_fresh.2 ⟨hv, r, hroot⟩) hroot hlt
        exact absurd hy (ht y j)
      · exact absurd (h.keeps hv ▸ hroot) (ht v r)
  by_cases hseen : t.root x = .unseen
  · have hmem := h.mem_fresh.2 ⟨hseen, i, hx⟩
    rw [hnone] at hmem
    cases hmem
  · exact ht x i (h.keeps hseen ▸ hx)

end Search

namespace WaitGraph
variable {g : WaitGraph}

def Complete (g : WaitGraph) : Prop := ∀ x ∈ g.nodes, g.next.get x ⊆ g.nodes

theorem Complete.reaches (h : g.Complete) {x y : Nat} (hx : x ∈ g.nodes)
    (hxy : Reaches g.next.get x y) : y ∈ g.nodes := by
  induction hxy with
  | refl => exact hx
  | tail _ hz ih => exact h _ ih hz

/-- Between two visits from outside. -/
structure Between (g : WaitGraph) (xs : List Nat) (t : Search) : Prop where
  sound : t.Sound g.next.get
  settled : t.Settled
  inside : ∀ {x}, t.root x ≠ .unseen → x ∈ g.nodes
  visited : ∀ {x}, x ∈ xs → t.root x ≠ .unseen

theorem Between.visit (h : g.Complete) {xs : List Nat} {t : Search} {x : Nat} (ht : Between g xs t)
    (hx : x ∈ g.nodes) : Between g (xs ++ [x])
      (if t.root x = .unseen then Search.visit g.next.get g.nodes.length t x else t) := by
  by_cases hunseen : t.root x = .unseen
  · have hcard : (Search.unseenOf g.nodes t).card ≤ g.nodes.length :=
      (Finset.card_filter_le _ _).trans (List.toFinset_card_le _)
    obtain ⟨fresh, r, hv⟩ := Search.visit_visits h g.nodes.length
      ⟨ht.sound, hunseen, fun hi => absurd hi (ht.settled _ _)⟩ hx hcard
    rw [if_pos hunseen]
    refine ⟨hv.sound, hv.settled ht.settled, fun {y} hy => ?_, fun {y} hy => ?_⟩
    · by_cases hold : t.root y = .unseen
      · exact h.reaches hx (hv.reached hold hy)
      · exact ht.inside hold
    · rcases List.mem_append.1 hy with hy | hy
      · rw [hv.keeps (ht.visited hy)]
        exact ht.visited hy
      · rw [List.mem_singleton.1 hy]
        exact hv.seen
  · rw [if_neg hunseen]
    refine ⟨ht.sound, ht.settled, ht.inside, fun {y} hy => ?_⟩
    rcases List.mem_append.1 hy with hy | hy
    · exact ht.visited hy
    · rwa [List.mem_singleton.1 hy]

theorem Complete.search (h : g.Complete) : Between g g.nodes g.search := by
  have hstart : Between g [] .start :=
    { sound := Search.sound_start
      settled := fun _ _ hi => by simp [Search.root, Search.start] at hi
      inside := fun hx => absurd rfl hx
      visited := fun hx => by cases hx }
  have hall (ys : List Nat) (hys : ys ⊆ g.nodes) (xs : List Nat) (t : Search)
      (ht : Between g xs t) : Between g (xs ++ ys) (ys.foldl (fun t x =>
        if t.root x = .unseen then Search.visit g.next.get g.nodes.length t x else t) t) := by
    induction ys generalizing xs t with
    | nil => simpa using ht
    | cons y ys ih =>
      obtain ⟨hy, hys⟩ := List.cons_subset.1 hys
      rw [List.append_cons]
      exact ih hys _ _ (ht.visit h hy)
  exact hall g.nodes (fun _ hx => hx) [] .start hstart

theorem perm_flatten_components (g : WaitGraph) :
    g.components.flatten.Perm g.search.found.flatten :=
  (List.reverse_perm _).flatten

section
variable (h : g.Complete)
include h

theorem Complete.nodup_components : g.components.flatten.Nodup :=
  g.perm_flatten_components.nodup_iff.2 h.search.sound.nodup

theorem Complete.mem_components {x : Nat} : x ∈ g.components.flatten ↔ x ∈ g.nodes := by
  rw [g.perm_flatten_components.mem_iff, h.search.sound.grouped]
  constructor
  · rintro ⟨n, hn⟩
    exact h.search.inside (by simp [hn])
  · intro hx
    cases hm : g.search.root x with
    | unseen => exact absurd hm (h.search.visited hx)
    | index i => exact absurd hm (h.search.settled x i)
    | component n => exact ⟨n, rfl⟩

theorem Complete.component_ne_nil {members : List Nat} (hg : members ∈ g.components) :
    members ≠ [] :=
  h.search.sound.nonempty (List.mem_reverse.1 hg)

theorem Complete.mem_component {members : List Nat} (hg : members ∈ g.components) {x y : Nat}
    (hx : x ∈ members) : y ∈ members ↔ Reaches g.next.get x y ∧ Reaches g.next.get y x :=
  h.search.sound.classes (List.mem_reverse.1 hg) hx

end

end WaitGraph
end Blackboard
