import Blackboard.Proofs.Observers
import Blackboard.Proofs.Validation

/-! Tracers only observe. A client that does not ask for the tracer cannot tell whether its store
has one, or which: the course that a store takes is the same with every tracer. -/
namespace Blackboard

/-- The call asks whether there is a tracer, or for what it recorded. -/
def Call.readsTracer {E V C : Type} : Call E V C → Bool
  | isTraced | events | drainEvents => true
  | _ => false

variable {E V C K σ : Type}

namespace Store

theorem agreesWith_create (config : Config) (tracer tracer' : Tracer E V) (cores : Nat) :
    (create config tracer cores : Store E V C K).AgreesWith (create config tracer' cores) := by
  constructor <;> rfl

variable [DecidableEq E] [DecidableEq V] [Property V] [ToString E] [ToString V]

theorem agreesWith_twins :
    Twins (·.readsTracer = true) (fun _ => False)
    (AgreesWith : Store E V C K → Store E V C K → Prop) where
  toAlike := agreesWith_alike
  lenient h := .inl (by rw [h.config])
  setPhase _ h := { h with phase := rfl }
  counts f h := { h with stats := congrArg f h.stats }
  workers h := h.workers
  answers c hc hlook h := by
    cases c with
    | config => exact h.config
    | isTraced | events | drainEvents => exact absurd rfl hc
    | _ => cases hlook

end Store

open Store
variable [DecidableEq E] [DecidableEq V] [Property V] [ToString E] [ToString V]

theorem Store.along_unexcused (s : Store E V C K) (acts : List (Act E V C K)) :
    Along (Unexcused fun _ => False) s acts := by
  induction acts generalizing s with
  | nil => trivial
  | cons a acts ih => exact ⟨fun _ _ => id, ih _⟩

/-- With a client that does not ask for the tracer, a store takes the same course whatever its
tracer is: the same is done to it, and at every point it is the same store but for the tracer and
what was told, and calls, waits and turns have the same answers. -/
theorem Course.tracers_only_observe (client : Client E V C K σ) (config : Config)
    (tracer tracer' : Tracer E V) (cores : Nat) (memory : σ) (moves : List (Move E V C))
    (hclient : client.Avoids (·.readsTracer = true))
    (hmoves : ∀ m ∈ moves, m.Avoids (·.readsTracer = true)) :
    let one : Course E V C K σ := fresh config tracer cores memory
    let other : Course E V C K σ := fresh config tracer' cores memory
    other.history client moves = one.history client moves ∧
    (∀ acts, acts <+: one.history client moves →
      (one.world.store.run acts).AgreesWith (other.world.store.run acts)) ∧
    (∀ acts c, acts ++ [.call c] <+: one.history client moves →
      ((other.world.store.run acts).serve c).1 = ((one.world.store.run acts).serve c).1) ∧
    (∀ ms, ms <+: moves → (one.after client ms).Beside AgreesWith (other.after client ms)) ∧
    ∀ ms m, ms ++ [m] <+: moves →
      ((other.after client ms).move client m).1 = ((one.after client ms).move client m).1 := by
  intro one other
  have hstart : one.Beside AgreesWith other :=
    ⟨agreesWith_create config tracer tracer' cores, rfl, rfl, rfl⟩
  exact hstart.throughout agreesWith_twins hclient hmoves (along_unexcused _ _)

def eachOtherUntraced : Course Element Fact Unit Element Unit := Course.fresh {} .none 1 ()

def eachOtherTraced : Course Element Fact Unit Element Unit := Course.fresh {} (.events .empty) 1 ()

theorem eachOther_tracers_only_observe :
    eachOther.Avoids (·.readsTracer = true) ∧
      (∀ m ∈ eachOtherMoves, m.Avoids (·.readsTracer = true)) ∧
    (eachOtherUntraced.after eachOther eachOtherMoves).world.store.records.length = 0 ∧
    (eachOtherTraced.after eachOther eachOtherMoves).world.store.records.length = 5 ∧
    eachOtherTraced.history eachOther eachOtherMoves =
      eachOtherUntraced.history eachOther eachOtherMoves ∧
    (eachOtherUntraced.after eachOther eachOtherMoves).Beside AgreesWith
      (eachOtherTraced.after eachOther eachOtherMoves) := by
  have hclient : eachOther.Avoids (·.readsTracer = true) :=
    eachOther_avoids_of (by simp [Call.readsTracer])
  have hmoves : ∀ m ∈ eachOtherMoves, m.Avoids (·.readsTracer = true) := by
    simp [eachOtherMoves, Move.Avoids, Call.readsTracer]
  have hnone :
      (eachOtherUntraced.after eachOther eachOtherMoves).world.store.records.length = 0 := by
    decide +kernel
  have hsome : (eachOtherTraced.after eachOther eachOtherMoves).world.store.records.length = 5 := by
    decide +kernel
  unfold eachOtherUntraced eachOtherTraced at *
  obtain ⟨hhistory, -, -, hbeside, -⟩ :=
    Course.tracers_only_observe eachOther {} .none (.events .empty) 1
      () eachOtherMoves hclient hmoves
  exact ⟨hclient, hmoves, hnone, hsome, hhistory, hbeside _ (List.prefix_refl _)⟩

end Blackboard
