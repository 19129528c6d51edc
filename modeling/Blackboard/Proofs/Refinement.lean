import Blackboard.Proofs.Install
import Blackboard.Analysis.Fact

/-! Checked updates of one cell. Lower bounds only rise. Upper bounds only fall as long as bounds
that coincide are left alone; a value whose bounds coincide may move on past any upper bound there
was before. -/
namespace Blackboard

namespace Property
variable {V : Type} [Property V]

def Follows (new old : V) : Prop := refusal? new old = none

instance (new old : V) : Decidable (Follows new old) :=
  inferInstanceAs (Decidable (refusal? new old = none))

variable (V) in
/-- What may follow what is a preorder. -/
structure Lawful : Prop where
  refl : ∀ v : V, Follows v v
  trans : ∀ {a b c : V}, Follows c b → Follows b a → Follows c a

end Property

open Property (Follows Lawful)

namespace Fact

theorem follows_iff {new old : Fact} :
    Follows new old ↔ match new, old with
      | purity p, purity q => p.rank ≤ q.rank
      | callers ns, callers ms => ∀ n ∈ ms, n ∈ ns
      | types ns, types ms => ∀ n ∈ ms, n ∈ ns
      | answer _, answer _ => True
      | level n, level m => m ≤ n
      | shadow _, shadow _ => True
      | label s, label t => t.toList <+: s.toList
      | _, _ => False := by
  cases new <;> cases old <;> simp [Follows, Property.refusal?, refusal?, SortedSet.subset_iff]

theorem lawful : Lawful Fact where
  refl v := by
    cases v <;> simp [follows_iff]
  trans {a b c} hcb hba := by
    rw [follows_iff] at *
    cases b with
    | purity =>
      cases a <;> cases c <;> first | exact hcb.elim | exact hba.elim | exact Nat.le_trans hcb hba
    | callers =>
      cases a <;> cases c <;>
        first | exact hcb.elim | exact hba.elim | exact fun n hn => hcb n (hba n hn)
    | types =>
      cases a <;> cases c <;>
        first | exact hcb.elim | exact hba.elim | exact fun n hn => hcb n (hba n hn)
    | answer => cases a <;> cases c <;> first | exact hcb.elim | exact hba.elim | trivial
    | level =>
      cases a <;> cases c <;> first | exact hcb.elim | exact hba.elim | exact Int64.le_trans hba hcb
    | shadow => cases a <;> cases c <;> first | exact hcb.elim | exact hba.elim | trivial
    | label =>
      cases a <;> cases c <;>
        first | exact hcb.elim | exact hba.elim | exact List.IsPrefix.trans hba hcb

end Fact

variable {E V K : Type}

def Status.bounds? : Status E V → Option (V × V)
  | .unknown _ => none
  | .interim ep => some (ep.lower.value, ep.upper.value)
  | .final ep => some (ep.value.value, ep.value.value)

def Status.isPoint [DecidableEq V] (s : Status E V) : Bool := s.bounds?.any fun b => b.1 = b.2

theorem Status.stamped_of_bounds? {s : Status E V} {l u : V} (h : s.bounds? = some (l, u)) :
    ∃ sl su, s.lower? = some sl ∧ s.upper? = some su ∧ sl.value = l ∧ su.value = u := by
  cases s with
  | unknown k => simp [bounds?] at h
  | interim ep => exact ⟨ep.lower, ep.upper, rfl, rfl, by simpa [bounds?] using h⟩
  | final ep => exact ⟨ep.value, ep.value, rfl, rfl, by simpa [bounds?] using h⟩

theorem Status.bounds?_of_lower? {s : Status E V} {l : Stamped V} (h : s.lower? = some l) :
    ∃ u, s.bounds? = some (l.value, u) := by
  cases s with
  | unknown k => simp [lower?] at h
  | interim ep =>
    exact ⟨ep.upper.value, by simpa [lower?, bounds?] using congrArg (·.map (·.value)) h⟩
  | final ep =>
    exact ⟨ep.value.value, by simpa [lower?, bounds?] using congrArg (·.map (·.value)) h⟩

namespace Cell
variable [DecidableEq V] [Property V]

/-- Bounds follow others: the lower bound rises, and the upper bound falls or, where the bounds
coincide, rises. -/
theorem checkRefinement_eq_ok [ToString E] {old new : Status E V} {l u l' u' : V}
    (h : checkRefinement old new = .ok ()) (hold : old.bounds? = some (l, u))
    (hnew : new.bounds? = some (l', u')) :
    Follows l' l ∧ if l = u then Follows u' u else Follows u u' := by
  obtain ⟨ol, ou, hol, hou, rfl, rfl⟩ := Status.stamped_of_bounds? hold
  obtain ⟨nl, nu, hnl, hnu, rfl, rfl⟩ := Status.stamped_of_bounds? hnew
  unfold checkRefinement at h
  simp only [hol, hou, hnl, hnu] at h
  have hnone : objection? ol ou nl nu = none := by
    cases hobj : objection? ol ou nl nu with
    | none => rfl
    | some why => simp [hobj] at h
  rw [objection?, Option.orElse_eq_orElse, Option.orElse_eq_or, Option.or_eq_none_iff] at hnone
  obtain ⟨hlower, hupper⟩ := hnone
  refine ⟨hlower, ?_⟩
  by_cases heq : ol.value = ou.value
  · rw [if_pos heq]
    simpa [Stamped.agrees, heq, Follows] using hupper
  · rw [if_neg heq]
    simpa [Stamped.agrees, heq, Follows] using hupper

variable [DecidableEq E] [ToString E] [ToString V]

/-- A checked update; a refused one leaves the cell as it is. -/
def offer (c : Cell E V K) (new : Status E V) : Cell E V K :=
  match c.update new true with
  | .ok (_, c) => c
  | .error _ => c

def offerAll (c : Cell E V K) (news : List (Status E V)) : Cell E V K := news.foldl offer c

/-- What is offered to a cell is refused, or confirms what the cell has, or follows it. -/
theorem offer_cases (c : Cell E V K) (new : Status E V) :
    (c.offer new).status = c.status ∨
      (c.offer new).status = new ∧ new.isUnknown = false ∧
        checkRefinement c.status new = .ok () := by
  unfold offer
  cases hr : c.update new true with
  | error e => exact .inl rfl
  | ok r =>
    obtain ⟨hfit, hcheck, rfl⟩ := update_eq_ok hr
    cases hch : (c.replace new).1.changed with
    | false =>
      rw [(replace_of_unchanged hch).1]
      exact .inl rfl
    | true =>
      rw [replace_of_changed hch]
      exact .inr ⟨rfl, hfit.value, hcheck rfl⟩

theorem bounds?_offer (hV : Lawful V) {c : Cell E V K} {l u : V}
    (hc : c.status.bounds? = some (l, u)) (new : Status E V) :
    ∃ l' u', (c.offer new).status.bounds? = some (l', u') ∧ Follows l' l ∧
      if l = u then Follows u' u else Follows u u' := by
  rcases c.offer_cases new with heq | ⟨heq, hvalue, hcheck⟩
  · refine ⟨l, u, heq ▸ hc, hV.refl l, ?_⟩
    split <;> exact hV.refl u
  · obtain ⟨⟨l', u'⟩, hnew⟩ : ∃ b, new.bounds? = some b := by
      cases new <;> simp [Status.bounds?, Status.isUnknown] at hvalue ⊢
    exact ⟨l', u', by rw [heq, hnew], checkRefinement_eq_ok hcheck hc hnew⟩

/-- Bounds that coincide are not replaced by others along the way. -/
def KeepsPoints (c : Cell E V K) : List (Status E V) → Prop
  | [] => True
  | new :: news => (c.status.isPoint = true → (c.offer new).status.bounds? = c.status.bounds?) ∧
      (c.offer new).KeepsPoints news

instance : (c : Cell E V K) → (news : List (Status E V)) → Decidable (c.KeepsPoints news)
  | _, [] => inferInstanceAs (Decidable True)
  | c, new :: news =>
    have := instDecidableKeepsPoints (c.offer new) news
    inferInstanceAs (Decidable (_ ∧ _))

/-- Along checked updates the lower bound follows every lower bound before it. An upper bound
follows every later one as long as bounds that coincide are kept. -/
theorem bounds_narrow (hV : Lawful V) {c : Cell E V K} {l u : V}
    (hc : c.status.bounds? = some (l, u)) (news : List (Status E V)) :
    ∃ l' u', (c.offerAll news).status.bounds? = some (l', u') ∧ Follows l' l ∧
      (c.KeepsPoints news → Follows u u') := by
  induction news generalizing c l u with
  | nil => exact ⟨l, u, hc, hV.refl l, fun _ => hV.refl u⟩
  | cons new news ih =>
    obtain ⟨l₁, u₁, h₁, hl, hu⟩ := bounds?_offer hV hc new
    obtain ⟨l₂, u₂, h₂, hl', hu'⟩ := ih h₁
    refine ⟨l₂, u₂, h₂, hV.trans hl' hl, ?_⟩
    rintro ⟨hpoint, hrest⟩
    by_cases heq : l = u
    · have hsame := hpoint (by simp [Status.isPoint, hc, heq])
      obtain ⟨-, rfl⟩ : l₁ = l ∧ u₁ = u := by simpa [h₁, hc] using hsame
      exact hu' hrest
    · rw [if_neg heq] at hu
      exact hV.trans hu (hu' hrest)

def levelKey : Key Element := ⟨.method 1, FactSort.level.kind⟩

def upToTen : Cell Element Fact Unit :=
  (create 0 levelKey).offer (.interim ⟨levelKey, ⟨0, .level 0⟩, ⟨1, .level 10⟩⟩)

def downToFive : List (Status Element Fact) :=
  [.interim ⟨levelKey, ⟨2, .level 2⟩, ⟨3, .level 8⟩⟩, .final ⟨levelKey, ⟨4, .level 5⟩⟩]

theorem upToTen_bounds_narrow :
    Lawful Fact ∧ upToTen.status.bounds? = some (.level 0, .level 10) ∧
      upToTen.KeepsPoints downToFive ∧
    ∃ l' u', (upToTen.offerAll downToFive).status.bounds? = some (l', u') ∧ Follows l' (.level 0) ∧
      (upToTen.KeepsPoints downToFive → Follows (.level 10) u') :=
  ⟨Fact.lawful, rfl, by decide, bounds_narrow Fact.lawful rfl _⟩

/-- A level that is known to be 5 moves on to 20, although it was announced to be at most 10. -/
theorem level_passes_upper_bound :
    Lawful Fact ∧ upToTen.status.bounds? = some (.level 0, .level 10) ∧ Fact.level 0 ≠ .level 10 ∧
    Follows (Fact.level 10) (.level 0) ∧
    ∃ u c u' c',
      upToTen.update (.interim ⟨levelKey, ⟨2, .level 5⟩, ⟨3, .level 5⟩⟩) true = .ok (u, c) ∧
      c.update (.final ⟨levelKey, ⟨4, .level 20⟩⟩) true = .ok (u', c') ∧
      c'.status.bounds? = some (.level 20, .level 20) ∧ ¬ Follows (Fact.level 10) (.level 20) :=
  ⟨Fact.lawful, rfl, by decide, by decide, _, _, _, _, rfl, rfl, rfl, by decide⟩

end Cell

end Blackboard
