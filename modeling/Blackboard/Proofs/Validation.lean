import Blackboard.Proofs.Progress
import Blackboard.Proofs.Twins

/-! Validation only rejects. As long as a store that validates has nothing to object to, one that
does not validate is the same in every respect: same answers, same cells, same tasks, same
events. -/
namespace Blackboard

namespace Store
variable {E V C K : Type} {s r : Store E V C K}

/-- `s` validates, and `r` is `s` as it would be had it been created without validation. The first
notice of a store says whether it validates; all others are the same. -/
def Unvalidated (s r : Store E V C K) : Prop :=
  s.config.debug = true ∧ ∃ workers traced notices,
    s.notices = #[.creating workers true traced] ++ notices ∧
    r = { s with
      config := { s.config with debug := false }
      notices := #[.creating workers false traced] ++ notices }

theorem unvalidated_create (config : Config) (tracer : Tracer E V) (cores : Nat) :
    (create { config with debug := true } tracer cores : Store E V C K).Unvalidated
      (create { config with debug := false } tracer cores) :=
  ⟨rfl, _, _, #[], rfl, rfl⟩

namespace Unvalidated

theorem notify (h : s.Unvalidated r) (n : Notice E V) : (s.notify n).Unvalidated (r.notify n) := by
  obtain ⟨hdebug, workers, traced, notices, hs, rfl⟩ := h
  refine ⟨hdebug, workers, traced, notices.push n, ?_, ?_⟩
  · rw [Array.append_push, ← hs]
    rfl
  · rw [Array.append_push]
    rfl

theorem tracer (h : s.Unvalidated r) : r.tracer = s.tracer := by
  obtain ⟨-, -, -, -, -, rfl⟩ := h
  rfl

theorem setTracer (h : s.Unvalidated r) (tracer : Tracer E V) :
    ({ s with tracer } : Store E V C K).Unvalidated { r with tracer } := by
  obtain ⟨hdebug, workers, traced, notices, hs, rfl⟩ := h
  exact ⟨hdebug, workers, traced, notices, hs, rfl⟩

theorem trace (h : s.Unvalidated r) (e : Event E V) : (s.trace e).Unvalidated (r.trace e) := by
  unfold Store.trace
  rw [h.tracer]
  split
  · exact h
  · exact h
  · exact h.setTracer _
  · exact h.notify _

theorem drain (h : s.Unvalidated r) :
    r.drainRecords.1 = s.drainRecords.1 ∧ s.drainRecords.2.Unvalidated r.drainRecords.2 := by
  unfold drainRecords
  rw [h.tracer]
  split
  · exact ⟨rfl, h.setTracer _⟩
  · exact ⟨rfl, h⟩

end Unvalidated

theorem unvalidated_alike : Alike (Unvalidated : Store E V C K → Store E V C K → Prop) where
  schema := fun ⟨_, _, _, _, _, hr⟩ => by rw [hr]
  phase := fun ⟨_, _, _, _, _, hr⟩ => by rw [hr]
  table := fun ⟨_, _, _, _, _, hr⟩ => by rw [hr]
  queue := fun ⟨_, _, _, _, _, hr⟩ => by rw [hr]
  epoch := fun ⟨_, _, _, _, _, hr⟩ => by rw [hr]
  nextStamp := fun ⟨_, _, _, _, _, hr⟩ => by rw [hr]
  stats := fun ⟨_, _, _, _, _, hr⟩ => by rw [hr]
  fault := fun ⟨_, _, _, _, _, hr⟩ => by rw [hr]
  setSchema _ := fun ⟨hdebug, w, t, n, hs, hr⟩ => ⟨hdebug, w, t, n, hs, by rw [hr]⟩
  setTable _ := fun ⟨hdebug, w, t, n, hs, hr⟩ => ⟨hdebug, w, t, n, hs, by rw [hr]⟩
  setQueue _ := fun ⟨hdebug, w, t, n, hs, hr⟩ => ⟨hdebug, w, t, n, hs, by rw [hr]⟩
  setEpoch _ := fun ⟨hdebug, w, t, n, hs, hr⟩ => ⟨hdebug, w, t, n, hs, by rw [hr]⟩
  setStamp _ := fun ⟨hdebug, w, t, n, hs, hr⟩ => ⟨hdebug, w, t, n, hs, by rw [hr]⟩
  setFault _ := fun ⟨hdebug, w, t, n, hs, hr⟩ => ⟨hdebug, w, t, n, hs, by rw [hr]⟩
  count _ _ := fun ⟨hdebug, w, t, n, hs, hr⟩ =>
    ⟨hdebug, w, t, n, hs, by rw [hr, Store.count, Store.count]⟩
  notify n h := h.notify n
  trace e h := h.trace e
  drain h := h.drain.2

variable [DecidableEq E] [DecidableEq V] [Property V] [ToString E] [ToString V]

theorem unvalidated_twins : Twins (· = .config) (·.isObjection = true)
    (Unvalidated : Store E V C K → Store E V C K → Prop) where
  toAlike := unvalidated_alike
  lenient h := .inr ⟨h.1, fun _ hobjection => hobjection⟩
  setPhase _ := fun ⟨hdebug, w, t, n, hs, hr⟩ => ⟨hdebug, w, t, n, hs, by rw [hr]⟩
  counts _ := fun ⟨hdebug, w, t, n, hs, hr⟩ =>
    ⟨hdebug, w, t, n, hs, by rw [hr, Store.count, Store.count]⟩
  workers := fun ⟨_, _, _, _, _, hr⟩ => by rw [hr]
  answers c hc hlook h := by
    cases c with
    | config => exact absurd rfl hc
    | isTraced => simp only [serve, isTraced, h.tracer]
    | events => simp only [serve, records, h.tracer]
    | drainEvents => exact h.drain.1
    | _ => cases hlook

end Store

open Store
variable {E V C K σ : Type} [DecidableEq E] [DecidableEq V] [Property V] [ToString E] [ToString V]

/-- If a store that validates never objects to anything, in the course it takes with a client that
does not look at its options, then without validation the store takes the same course: the same is
done to it, and at every point it is the same store, and calls, waits and turns have the same
answers. -/
theorem Course.validation_only_rejects (client : Client E V C K σ) (config : Config)
    (tracer : Tracer E V) (cores : Nat) (memory : σ) (moves : List (Move E V C))
    (hclient : client.Avoids (· = .config)) (hmoves : ∀ m ∈ moves, m.Avoids (· = .config)) :
    let strict : Course E V C K σ := fresh { config with debug := true } tracer cores memory
    let lax : Course E V C K σ := fresh { config with debug := false } tracer cores memory
    Along (Unexcused (·.isObjection = true)) strict.world.store (strict.history client moves) →
      lax.history client moves = strict.history client moves ∧
      (∀ acts, acts <+: strict.history client moves →
        (strict.world.store.run acts).Unvalidated (lax.world.store.run acts)) ∧
      (∀ acts c, acts ++ [.call c] <+: strict.history client moves →
        ((lax.world.store.run acts).serve c).1 = ((strict.world.store.run acts).serve c).1) ∧
      (∀ ms, ms <+: moves → (strict.after client ms).Beside Unvalidated (lax.after client ms)) ∧
      ∀ ms m, ms ++ [m] <+: moves →
        ((lax.after client ms).move client m).1 = ((strict.after client ms).move client m).1 := by
  intro strict lax hun
  have hstart : strict.Beside Unvalidated lax :=
    ⟨unvalidated_create config tracer cores, rfl, rfl, rfl⟩
  exact hstart.throughout unvalidated_twins hclient hmoves hun

theorem eachOther_avoids_of {barred : Call Element Fact Unit → Prop}
    (h : ∀ key, ¬ barred (.query key)) : eachOther.Avoids barred where
  start c e memory := by
    refine ⟨h _, fun a => ?_⟩
    cases a <;> trivial
  resume k status memory := trivial

theorem eachOther_avoids : eachOther.Avoids (· = .config) := eachOther_avoids_of (by simp)

def eachOtherStrict : Course Element Fact Unit Element Unit :=
  Course.fresh { debug := true } .silent 1 ()

def eachOtherLax : Course Element Fact Unit Element Unit :=
  Course.fresh { debug := false } .silent 1 ()

theorem eachOther_validation_only_rejects :
    (∀ m ∈ eachOtherMoves, m.Avoids (· = .config)) ∧
    Along (Unexcused (·.isObjection = true)) eachOtherStrict.world.store
      (eachOtherStrict.history eachOther eachOtherMoves) ∧
    (eachOtherStrict.after eachOther eachOtherMoves).world.store.stats.executedTasks = 3 ∧
    eachOtherLax.history eachOther eachOtherMoves =
      eachOtherStrict.history eachOther eachOtherMoves ∧
    (eachOtherStrict.after eachOther eachOtherMoves).Beside Unvalidated
      (eachOtherLax.after eachOther eachOtherMoves) := by
  have hmoves : ∀ m ∈ eachOtherMoves, m.Avoids (· = .config) := by
    simp [eachOtherMoves, Move.Avoids]
  have hclean : Along (Unexcused (·.isObjection = true)) eachOtherStrict.world.store
      (eachOtherStrict.history eachOther eachOtherMoves) := by decide +kernel
  have htasks :
      (eachOtherStrict.after eachOther eachOtherMoves).world.store.stats.executedTasks = 3 := by
    decide +kernel
  unfold eachOtherStrict eachOtherLax at *
  obtain ⟨hhistory, -, -, hbeside, -⟩ :=
    Course.validation_only_rejects eachOther {} .silent 1 () eachOtherMoves
      eachOther_avoids hmoves hclean
  exact ⟨hmoves, hclean, htasks, hhistory, hbeside _ (List.prefix_refl _)⟩

end Blackboard
