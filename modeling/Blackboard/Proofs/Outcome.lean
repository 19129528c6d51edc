import Blackboard.Store.Basic

/-! Operations by how they end: with an answer, or failing, and in either case with a store. -/
namespace Blackboard.Store
variable {E V C K α β : Type}

/-- The operation answers as `ok` says, or fails and leaves a store as `bad` says. -/
def Ends (op : Op E V C K α) (s : Store E V C K) (ok : α → Store E V C K → Prop)
    (bad : Store E V C K → Prop) : Prop :=
  match op s with
  | .ok a r => ok a r
  | .error _ r => bad r

namespace Ends
variable {s : Store E V C K} {ok : α → Store E V C K → Prop} {bad bad' : Store E V C K → Prop}

theorem of_ok {op : Op E V C K α} {a : α} {r : Store E V C K} (h : Ends op s ok bad)
    (hr : op s = .ok a r) : ok a r := by
  simpa [Ends, hr] using h

theorem of_error {op : Op E V C K α} {e : Error} {r : Store E V C K} (h : Ends op s ok bad)
    (hr : op s = .error e r) : bad r := by
  simpa [Ends, hr] using h

theorem exists_ok {op : Op E V C K α} (h : Ends op s ok fun _ => False) :
    ∃ a r, op s = .ok a r ∧ ok a r := by
  cases hr : op s with
  | ok a r => exact ⟨a, r, rfl, h.of_ok hr⟩
  | error e r => exact (h.of_error hr).elim

theorem bind {x : Op E V C K β} {f : β → Op E V C K α} {mid : β → Store E V C K → Prop}
    (hx : Ends x s mid bad) (hf : ∀ b r, mid b r → Ends (f b) r ok bad) :
    Ends (x >>= f) s ok bad := by
  cases h : x s with
  | ok b r =>
    have hbind : (x >>= f) s = f b r := by
      change EStateM.bind x f s = f b r
      simp [EStateM.bind, h]
    have hrest := hf b r (hx.of_ok h)
    unfold Ends at hrest ⊢
    rwa [hbind]
  | error e r =>
    have hbind : (x >>= f) s = .error e r := by
      change EStateM.bind x f s = .error e r
      simp [EStateM.bind, h]
    have hbad := hx.of_error h
    unfold Ends
    rwa [hbind]

theorem mono {op : Op E V C K α} {ok' : α → Store E V C K → Prop} (h : Ends op s ok bad)
    (hok : ∀ a r, ok a r → ok' a r) (hbad : ∀ r, bad r → bad' r) : Ends op s ok' bad' := by
  unfold Ends at h ⊢
  split at h
  · exact hok _ _ h
  · exact hbad _ h

theorem and {op : Op E V C K α} {ok' : α → Store E V C K → Prop} (h : Ends op s ok bad)
    (h' : Ends op s ok' bad') : Ends op s (fun a r => ok a r ∧ ok' a r)
    (fun r => bad r ∧ bad' r) := by
  cases hr : op s with
  | ok a r => simpa [Ends, hr] using ⟨h.of_ok hr, h'.of_ok hr⟩
  | error e r => simpa [Ends, hr] using ⟨h.of_error hr, h'.of_error hr⟩

theorem somehow (op : Op E V C K α) (s : Store E V C K) :
    Ends op s (fun _ _ => True) (fun _ => True) := by
  unfold Ends
  split <;> trivial

theorem answer {a : α} (h : ok a s) : Ends (pure a) s ok bad := h

theorem map {x : Op E V C K β} {f : β → α} (h : Ends x s (fun b r => ok (f b) r) bad) :
    Ends (f <$> x) s ok bad := by
  rw [map_eq_pure_bind]
  exact .bind h fun _ _ hr => .answer hr

theorem unbroken {op : Op E V C K Unit} {ok : Store E V C K → Prop}
    (h : Ends op s (fun _ => ok) bad) : Ends (unbroken op) s (fun _ => ok) bad :=
  .bind h fun _ _ hr => .answer hr

theorem of_unbroken {op : Op E V C K Unit} {ok : Store E V C K → Prop}
    (h : Ends (Store.unbroken op) s (fun _ => ok) bad) : Ends op s (fun _ => ok) bad := by
  unfold Ends Store.unbroken at *
  simp only [Bind.bind, EStateM.bind] at h
  cases hr : op s <;> rw [hr] at h <;> exact h

theorem failure {e : Error} (h : bad s) : Ends (throw e) s ok bad := h

theorem read {f : Store E V C K → Op E V C K α} (h : Ends (f s) s ok bad) :
    Ends (get >>= f) s ok bad := h

theorem write {f : Store E V C K → Store E V C K} {ok : PUnit → Store E V C K → Prop}
    (h : ok ⟨⟩ (f s)) : Ends (modify f) s ok bad := h

theorem write_then {f : Store E V C K → Store E V C K} {k : PUnit → Op E V C K α}
    (h : Ends (k ⟨⟩) (f s) ok bad) : Ends (modify f >>= k) s ok bad := h

end Ends

theorem unbroken_ok {op : Op E V C K Unit} {s r : Store E V C K} {lost : Option Crash}
    (h : unbroken op s = .ok lost r) : op s = .ok () r := by
  change EStateM.bind op (fun _ => pure none) s = .ok lost r at h
  unfold EStateM.bind at h
  split at h
  · next hop =>
    cases h
    exact hop
  · cases h

theorem map_ok {op : Op E V C K α} {s r : Store E V C K} {a : α} (h : op s = .ok a r) (f : α → β) :
    (f <$> op) s = .ok (f a) r := by
  change EStateM.map f op s = .ok (f a) r
  simp [EStateM.map, h]

end Blackboard.Store
