import Blackboard.Proofs.Asking
import Blackboard.Proofs.Observers

/-! Failed calls. A call that answers an error has done nothing but tell the observers of the store:
all that may go wrong is found out before the first cell is made, and a new cell takes whatever
value it is given first. -/
namespace Blackboard.Store
variable {E V C K : Type}

theorem registerKind_failure (info : KindInfo E V) (s : Store E V C K) :
    Ends (registerKind info) s (fun _ _ => True) (s.AgreesWith ·) := by
  refine .bind ((checkRunning_ends s).mono (fun _ _ h => h) fun _ h => .of_eq h) ?_
  intro _ r hr
  subst hr
  refine .write_then (.read ?_)
  split
  · exact .write trivial
  · exact .failure (.notify r _)

variable {s : Store E V C K}

theorem Ends.answer_failure {α : Type} {op : Op E V C K α} {ok : α → Store E V C K → Prop}
    {bad : Store E V C K → Prop} (h : Ends op s ok bad) {e : Error}
    (he : failureOf (s.answer op).1 = some e) : bad (s.answer op).2 := by
  rcases h.answer_cases with ⟨a, hanswer, -⟩ | ⟨e', -, hbad⟩
  · rw [hanswer] at he
    cases he
  · exact hbad

variable [DecidableEq E] [DecidableEq V] [Property V] [ToString E] [ToString V]

theorem installFinal_failure (ep : Final E V) (s : Store E V C K) :
    Ends (installFinal ep) s (fun _ _ => True) (· = s) := by
  refine .bind (cellOf_effect ep.key s) ?_
  intro c q hcell
  cases hcell.2 with
  | inl hfound =>
    obtain ⟨-, rfl⟩ := hfound
    exact .read (.bind (carryOut_ends _ q) fun _ _ _ => .write trivial)
  | inr hnew =>
    obtain ⟨-, -, rfl, -⟩ := hnew
    have hfit : (Cell.create s.table.size ep.key : Cell E V K).Fits (.final ep) :=
      create_fits _ (by simp)
    refine .read ?_
    rw [Cell.update_of_fits hfit fun _ => rfl]
    exact .bind ((carryOut_succeeds _ _ q).mono (fun _ _ h => h) fun _ h => h.elim) fun _ _ _ =>
      .write trivial

theorem setFinal_failure (ep : Final E V) (s : Store E V C K) :
    Ends (setFinal ep) s (fun _ _ => True) (· = s) := by
  refine .bind (checkRunning_ends s) ?_
  intro _ r hr
  subst hr
  exact installFinal_failure ep r

theorem force_failure (hs : s.Sound) (key : Key E) :
    Ends (force key) s (fun _ _ => True) (s.AgreesWith ·) := by
  have hsound : (s.trace (.force key)).Sound := (Steady.of_quiet hs (trace_becomes _ _)).sound
  refine .write_then (.bind ((query_effect hsound key).mono (fun _ _ h => h) ?_) fun _ _ _ =>
    .answer trivial)
  intro r hr
  exact hr ▸ .trace s _

/-- A call that fails leaves the store alone, whatever the call and whatever its arguments: the
kinds, the phase with its computations, the cells and collaborators, the queue and the statistics
are as they were before. -/
theorem failed_call_agrees (h : s.Reachable) (c : Call E V C) (e : Error)
    (he : c.failure? (s.serve c).1 = some e) : s.AgreesWith (s.serve c).2 := by
  have hs := h.healthy.sound
  cases c with
  | registerKind info => exact (registerKind_failure info s).answer_failure he
  | setupPhase computed delayed =>
    exact .of_eq ((setupPhase_effect computed delayed s).answer_failure he)
  | registerLazy kind c => exact .of_eq ((registerLazy_effect kind c s).answer_failure he)
  | registerTriggered kind c => exact .of_eq ((registerTriggered_effect kind c s).answer_failure he)
  | scheduleEager entities c => exact .of_eq ((scheduleEager_effect entities c s).answer_failure he)
  | setFinal ep => exact .of_eq ((setFinal_failure ep s).answer_failure he)
  | query key => exact .of_eq ((query_effect hs key).answer_failure he)
  | force key => exact (force_failure hs key).answer_failure he
  | hasProperty | isKnown | ofKind | finalsOfKind | entitiesWith | properties | stamp | shutdown
    | isShutdown
    | statistics | config | isTraced | events | drainEvents => cases he

def askedAndKnown : Store Element Fact Unit Nat :=
  (create {} (.events .empty) 1).run
    [registerPurity, .call (.registerLazy FactSort.purity.kind ()), .call (.query (purityOf 1)),
      .call (.setFinal ⟨purityOf 2, ⟨0, .purity .pure⟩⟩)]

def refusedCalls : List (Call Element Fact Unit) :=
  [.registerKind ((FallbackRule.fixed (.purity .pure)).info .lower),
    .setupPhase [FactSort.purity.kind] [FactSort.callers.kind],
    .registerLazy FactSort.purity.kind (),
    .registerTriggered FactSort.callers.kind (),
    .setFinal ⟨purityOf 2, ⟨1, .purity .impure⟩⟩,
    .setFinal ⟨⟨.method 1, FactSort.callers.kind⟩, ⟨2, .purity .impure⟩⟩,
    .query ⟨.method 1, FactSort.callers.kind⟩,
    .force ⟨.method 1, FactSort.callers.kind⟩]

theorem askedAndKnown_failed_call_agrees :
    askedAndKnown.Reachable ∧ ∀ c ∈ refusedCalls,
      (c.failure? (askedAndKnown.serve c).1).isSome = true ∧
      askedAndKnown.AgreesWith (askedAndKnown.serve c).2 := by
  have hr : askedAndKnown.Reachable := (Reachable.create {} (.events .empty) 1).run _
  have hfail : ∀ c ∈ refusedCalls, (c.failure? (askedAndKnown.serve c).1).isSome = true := by
    decide +kernel
  refine ⟨hr, fun c hc => ⟨hfail c hc, ?_⟩⟩
  obtain ⟨e, he⟩ := Option.isSome_iff_exists.1 (hfail c hc)
  exact failed_call_agrees hr c e he

end Blackboard.Store
