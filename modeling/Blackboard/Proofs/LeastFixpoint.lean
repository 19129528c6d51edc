import Blackboard.Proofs.Reaching
import Blackboard.Proofs.SolvingPhase

/-! The numbers that elements reach, computed by a store. Whatever is asked for, and in whatever
order, the phase completes, and what it leaves is the least solution. -/
namespace Blackboard.Analysis

section
variable {C K α β : Type} {s q : Store Element Fact C K}

theorem run_bind {x : Run C α} {f : α → Run C β} {a : α} (hx : x.run.run s = (.ok a, q)) :
    (x >>= f).run.run s = (f a).run.run q := by
  rw [ExceptT.run_bind, Script.run_bind, hx]

theorem run_ask {c : Call Element Fact C} {a : c.Answer} (h : s.serve c = (a, q)) :
    (ask c : Run C c.Answer).run.run s = (.ok a, q) := by
  change (Except.ok (s.serve c).1, (s.serve c).2) = _
  rw [h]

theorem run_liftExcept (a : α) : (liftExcept (.ok a) : Run C α).run.run s = (.ok a, s) := rfl

theorem find?_ok (e : Element) (entries : List (Element × α)) :
    find? .ok e entries = .ok (entries.lookup e) := by
  induction entries with
  | nil => rfl
  | cons p rest ih =>
    obtain ⟨x, a⟩ := p
    by_cases hx : x = e
    · simp [find?, hx, bind, Except.bind, pure, Except.pure]
    · have hne : (e == x) = false := by simp [Ne.symm hx]
      simp [find?, hx, bind, Except.bind, ih, List.lookup_cons, hne]

end

namespace ReachGraph
variable {g : ReachGraph} {v : Element → Status Element Fact}
  {s r : Store Element Fact Unit Element} {running : Multiset Element} {e : Element}

theorem lowerNumbers_of_sameState {a b : Status Element Fact} (h : a.sameState b = true) :
    lowerNumbers a = lowerNumbers b := by
  cases a <;> cases b <;> simp_all [Status.sameState, lowerNumbers, Status.lower?]

theorem lowerNumbers_of_sameValues {status : Status Element Fact} {ep : Interim Element Fact}
    (h : status.sameValues (.interim ep) = true) :
    lowerNumbers status = lowerNumbers (.interim ep) := by
  cases status <;> simp_all [Status.sameValues, Stamped.agrees, lowerNumbers, Status.lower?]

theorem Bounds.unknown (g : ReachGraph) : g.Bounds fun e => .unknown (callersOf e) where
  form _ := .unknown
  sound _ _ hn := (SortedSet.not_mem_empty _ hn).elim
  exact _ h := by cases h
  derivable _ _ _ hn := (SortedSet.not_mem_empty _ hn).elim

theorem Bounds.resolved (h : g.Bounds v) {ep : Interim Element Fact} (he : v e = .interim ep) :
    ∃ stamp, .final ⟨ep.key, ep.lower⟩ = settledAt e stamp (known v e) := by
  have hform := h.form e
  rw [he] at hform
  rw [known, he]
  cases hform with
  | refined stamp t => exact ⟨stamp, rfl⟩

def equations (g : ReachGraph) : Equations Element Fact Unit Element where
  kind := FactSort.callers.kind
  resolution := .lower
  computation := ()
  entity e := e
  nodes := g.nodes
  succ := g.succ
  Bounds := g.Bounds
  Solved v e := ∀ n, g.Derives v e n → n ∈ known v e
  Improves := g.Improves
  level := g.level
  succ_closed := succ_closed
  bounds_unknown := .unknown g
  bounds_key h e := (h.form e).key
  level_pos := level_pos
  level_of_isFinal := level_of_isFinal
  improves_refl := .refl g
  improves_trans := .trans
  improves_final h := h.final
  improves_level h := h.level
  solved_mono := by
    intro v v' e hi hsolved hseen n hn
    refine hi.keeps e n (hsolved n (hn.imp_right ?_))
    intro hx
    obtain ⟨x, hx, hmem⟩ := hx
    obtain ⟨seen, hold, hnew⟩ := hseen x hx
    exact ⟨x, hx, by rwa [known, lowerNumbers_of_sameState hold, ← lowerNumbers_of_sameState hnew]⟩
  settle := by
    intro v v' group hv hsolved hclosed hrest hset
    have hset' : ∀ e, group e → ∃ stamp, v' e = settledAt e stamp (known v e) := by
      intro e he
      obtain ⟨n, ep, hold, hnew⟩ := hset e he
      obtain ⟨stamp, hstamp⟩ := hv.resolved hold
      exact ⟨stamp, hnew.trans hstamp⟩
    have hopen : ∀ e, group e → (v e).isFinal = false := by
      intro e he
      obtain ⟨n, ep, hold, -⟩ := hset e he
      rw [hold]
      rfl
    exact ⟨hv.settle hsolved hclosed hrest hset', .settle hopen hrest hset'⟩

abbrev Solving (g : ReachGraph) (running : Multiset Element)
    (s : Store Element Fact Unit Element) : Prop :=
  g.equations.Solving running s

theorem Bounds.checkRefinement_derived {v : Element → Status Element Fact} {e : Element}
    {new : Status Element Fact} (h : g.Bounds v) (hopen : (v e).isFinal = false)
    (hnew : g.Derived v e new) : Cell.checkRefinement (v e) new = .ok () := by
  have hsub := fun n hn => mem_derived.2 (h.derivable e hopen n hn)
  have hform := h.form e
  unfold known at hsub
  generalize v e = old at hform hsub hopen
  cases hform with
  | unknown => rfl
  | settled stamp t => cases hopen
  | refined stamp t =>
    have hle : t.subset (g.derived v e) = true := SortedSet.subset_iff.2 hsub
    cases hnew <;>
      simp [Cell.checkRefinement, refinedTo, settledAt, Interim.ofValue,
        Status.lower?, Status.upper?,
        Cell.objection?, Property.refusal?, Fact.refusal?, Stamped.agrees, hle]

theorem Bounds.offers (h : g.Bounds v) (hopen : (v e).isFinal = false) {new : Status Element Fact}
    (hnew : g.Derived v e new) : g.equations.Offers v e new := by
  have hrest : ∀ x ≠ e, Function.update v e new x = v x := fun x hx => Function.update_of_ne hx _ _
  have hself : g.Derived v e (Function.update v e new e) := by rwa [Function.update_self]
  exact ⟨hnew.form.key, hnew.isUnknown, h.checkRefinement_derived hopen hnew,
    h.derive hopen hrest hself, h.improves_derive hopen hrest hself⟩

theorem Bounds.solves (h : g.Bounds v) (hopen : (v e).isFinal = false) (stamp : Nat) :
    g.equations.Solves v e (.ofValue (callersOf e) ⟨stamp, .callers (g.derived v e)⟩) := by
  refine ⟨h.offers hopen (.refined stamp), ?_, ?_⟩
  · intro hdiffers
    refine (h.level_derived hopen (.refined stamp)).resolve_right fun hold => ?_
    have hsame := ((h.form e).sameValues_iff stamp).2 hold.1
    exact Bool.false_ne_true (hdiffers.symm.trans hsame)
  · intro status hsame n hn
    rw [known, Function.update_self, lowerNumbers_of_sameValues hsame]
    refine mem_derived.2 (hn.imp_right ?_)
    intro hx
    obtain ⟨x, hx, hmem⟩ := hx
    exact ⟨x, hx, by rwa [known, Function.update_of_ne (succ_closed hx).1] at hmem⟩

def result (g : ReachGraph) (v : Element → Status Element Fact) (e : Element) (stamp : Nat) :
    Result Element Fact Unit Element :=
  let dependees := ((g.succ e).map v).filter (·.isRefinable)
  let value : Stamped Fact := ⟨stamp, .callers (g.derived v e)⟩
  if dependees.isEmpty then .final ⟨callersOf e, value⟩
  else .interim (.ofValue (callersOf e) value) dependees e

namespace Solving

theorem returns_result (h : g.Solving {e} s)
    (hknown : ∀ x ∈ g.succ e, s.isKnown (callersOf x) = true) (stamp : Nat) :
    g.equations.Returns s e (g.result (g.equations.view s) e stamp) := by
  obtain ⟨-, hopen⟩ := (h.mem_due e).1 (by simp)
  have hbounds : g.Bounds (g.equations.view s) := h.bounds
  unfold result
  by_cases hnone : ((g.succ e).map (g.equations.view s)).filter (·.isRefinable) = []
  · rw [if_pos (by rw [hnone]; rfl)]
    exact .final (hbounds.offers hopen (.settled stamp (Equations.succ_final hnone)))
  · rw [if_neg (by simpa using hnone)]
    exact .interim (hbounds.solves hopen stamp) (Equations.awaits_succ hknown hnone) rfl

theorem run_read (h : g.Solving running s)
    (hroom : g.nodes.toFinset.card ≤ collaboratorBit) {x : Element} (hx : x ∈ g.nodes) :
    ∃ r, (read .callers x).run.run s = (.ok (g.equations.view s x), r) ∧ g.Solving running r ∧
      g.equations.Advances s r ∧ g.equations.view r = g.equations.view s ∧
        r.isKnown (callersOf x) = true := by
  obtain ⟨r, hserve, hr⟩ := h.query hroom hx
  exact ⟨r, run_bind (run_ask hserve), hr⟩

theorem run_readAll (h : g.Solving running s) (hroom : g.nodes.toFinset.card ≤ collaboratorBit)
    {xs : List Element} (hxs : ∀ x ∈ xs, x ∈ g.nodes) :
    ∃ r, (readAll .ok .callers xs).run.run s = (.ok (xs.map (g.equations.view s)), r) ∧
      g.Solving running r ∧ g.equations.Advances s r ∧ g.equations.view r = g.equations.view s ∧
      ∀ x ∈ xs, r.isKnown (callersOf x) = true := by
  induction xs generalizing s with
  | nil => exact ⟨s, rfl, h, .refl _ s, rfl, by simp⟩
  | cons x xs ih =>
    obtain ⟨q, hread, hq, hadvances, hview, hknown⟩ := h.run_read hroom (hxs x List.mem_cons_self)
    obtain ⟨r, hrest, hr, hadvances', hview', hknown'⟩ := ih hq fun y hy =>
      hxs y (List.mem_cons_of_mem _ hy)
    refine ⟨r, ?_, hr, hadvances.trans hadvances', hview'.trans hview, ?_⟩
    · rw [readAll, run_bind (run_liftExcept x), run_bind hread, run_bind hrest, hview]
      rfl
    · intro y hy
      cases List.mem_cons.1 hy with
      | inl heq => exact heq ▸ hadvances'.known x hknown
      | inr hy => exact hknown' y hy

theorem run_reach (h : g.Solving running s) (hroom : g.nodes.toFinset.card ≤ collaboratorBit)
    (he : e ∈ g.nodes) :
    ∃ r stamp, (reach .ok g.entries e e).run.run s =
      (.ok (g.result (g.equations.view r) e stamp), r) ∧
      g.Solving running r ∧ g.equations.Advances s r ∧ ∀ x ∈ g.succ e,
        r.isKnown (callersOf x) = true := by
  have hsucc : ∀ x ∈ g.succ e, x ∈ g.nodes := fun x hx => (succ_closed hx).2
  obtain ⟨q, hread, hq, hadvances, hview, hknown⟩ := h.run_readAll hroom hsucc
  obtain ⟨r, hstamp, hr, hadvances', htable⟩ := hq.stamp
  refine ⟨r, q.nextStamp, ?_, hr, hadvances.trans hadvances',
    fun x hx => hadvances'.known x (hknown x hx)⟩
  have hfind : find? .ok e g.entries = .ok (some (g.succ e, g.own e)) := by
    rw [find?_ok, lookup_of_mem he]
  rw [reach, hfind, run_bind (run_liftExcept _)]
  dsimp only
  rw [run_bind hread, run_bind (run_ask hstamp), g.equations.view_congr htable, hview, result]
  by_cases hnone : (((g.succ e).map (g.equations.view s)).filter (·.isRefinable)).isEmpty = true
  · rw [if_pos hnone, if_pos hnone]
    rfl
  · rw [if_neg hnone, if_neg hnone]
    rfl

end Solving
end ReachGraph

def reachClient (g : ReachGraph) : Client Element Fact Unit Element Unit where
  start _ e _ := do return (← (reach .ok g.entries e e).run, ())
  resume e _ _ := do return (← (reach .ok g.entries e e).run, ())

namespace ReachGraph
variable {g : ReachGraph} {s : Store Element Fact Unit Element}
  {w : World Element Fact Unit Element Unit}

theorem serves_reachClient (g : ReachGraph) (hroom : g.nodes.toFinset.card ≤ collaboratorBit) :
    g.equations.Serves (reachClient g) := by
  have hcomputes : ∀ e ∈ g.nodes,
      g.equations.Computes e (do return (← (reach .ok g.entries e e).run, ())) := by
    intro e he s h
    obtain ⟨r, stamp, hrun, hr, hadvances, hknown⟩ := ReachGraph.Solving.run_reach h hroom he
    refine ⟨_, (), r, ?_, hr, hadvances, ReachGraph.Solving.returns_result hr hknown stamp⟩
    rw [Script.run_bind, hrun]
    rfl
  exact ⟨fun e he _ => hcomputes e he, fun e he _ _ => hcomputes e he⟩

theorem Solving.wait (h : g.Solving 0 w.store) (hlost : w.lost = none)
    (hroom : g.nodes.toFinset.card ≤ collaboratorBit) :
    ∃ bound w', (∀ fuel ≥ bound, w.wait (reachClient g) fuel true true = some (.ok (), w')) ∧
      g.Solving 0 w'.store ∧
        (∀ e, w.store.isKnown (callersOf e) = true → w'.store.isKnown (callersOf e) = true) ∧
      w'.store.Idle true true :=
  Equations.Solving.wait (g.serves_reachClient hroom) hlost h

theorem Solving.solution (h : g.Solving 0 s) (hidle : s.Idle true true)
    {c : Cell Element Fact Element} (hc : c ∈ s.cells) :
    ∃ e stamp numbers, c.key = callersOf e ∧ c.status = settledAt e stamp numbers ∧
      ∀ n, n ∈ numbers ↔ g.Reaches e n := by
  obtain ⟨e, -, hkey, hstatus, hfinal⟩ := h.all_final hidle hc
  have hbounds : g.Bounds (g.equations.view s) := h.bounds
  have hsound := hbounds.sound e
  have hexact := hbounds.exact e (hstatus ▸ hfinal)
  have hform := hbounds.form e
  unfold known at hsound hexact
  rw [← hstatus] at hsound hexact hform
  generalize c.status = status at hsound hexact hform hfinal ⊢
  cases hform with
  | unknown => cases hfinal
  | refined stamp t => cases hfinal
  | settled stamp t => exact ⟨e, stamp, t, hkey, rfl, fun n => ⟨hsound n, hexact n⟩⟩

end ReachGraph

/-- A new store in which what elements reach is computed lazily, and cycles are resolved to lower
bounds. The phase may be set up or not. -/
def reachStore (config : Config) (tracer : Tracer Element Fact) (cores : Nat)
    (fallback : Reason → Element → Fact) (setUp : Bool) : Store Element Fact Unit Element :=
  (Store.create config tracer cores).run
    ([.call (.registerKind ⟨FactSort.callers.kind, fallback, .lower⟩)] ++
      (if setUp then [.call (.setupPhase [FactSort.callers.kind] [])] else []) ++
      [.call (.registerLazy FactSort.callers.kind ())])

theorem ReachGraph.solving_reachStore (g : ReachGraph) (config : Config)
    (tracer : Tracer Element Fact) (cores : Nat) (fallback : Reason → Element → Fact)
    (setUp : Bool) : g.Solving 0 (reachStore config tracer cores fallback setUp) := by
  have htable : (reachStore config tracer cores fallback setUp).table = .empty := by
    cases setUp <;> rfl
  have hqueue : (reachStore config tracer cores fallback setUp).queue = .empty := by
    cases setUp <;> rfl
  have hsetting : g.equations.Setting (reachStore config tracer cores fallback setUp) := by
    cases setUp <;> exact ⟨⟨_, rfl, rfl⟩, rfl, rfl, rfl, rfl, rfl, rfl, rfl⟩
  exact .of_empty hsetting htable hqueue

/-- Whatever elements of a graph are forced, and in whatever order, the phase completes, with each
of them final. All that it leaves are final values: the numbers of all elements that can be reached,
whether over cycles or not. -/
theorem ReachGraph.wait_least_solution (g : ReachGraph)
    (hroom : g.nodes.toFinset.card ≤ collaboratorBit) (config : Config)
    (tracer : Tracer Element Fact) (cores : Nat) (fallback : Reason → Element → Fact) (setUp : Bool)
    (forced : List Element) (hforced : ∀ e ∈ forced, e ∈ g.nodes) :
    let s := (reachStore config tracer cores fallback setUp).run
      (forced.map fun e => .call (.force (callersOf e)))
    ∃ bound w', (∀ fuel ≥ bound, World.wait (reachClient g) fuel true true ⟨s, (), none⟩ =
      some (.ok (), w')) ∧
      (∀ e ∈ forced, ∃ c ∈ w'.store.cells, c.key = callersOf e) ∧
      ∀ c ∈ w'.store.cells, ∃ e stamp numbers, c.key = callersOf e ∧
        c.status = .final ⟨callersOf e, ⟨stamp, .callers numbers⟩⟩ ∧ ∀ n, n ∈ numbers ↔
          g.Reaches e n := by
  intro s
  obtain ⟨hsolving, -, hknown⟩ :=
    (g.solving_reachStore config tracer cores fallback setUp).forces hroom hforced
  obtain ⟨bound, w', hwait, hw', hstays, hidle⟩ :=
    Solving.wait (w := ⟨s, (), none⟩) hsolving rfl hroom
  refine ⟨bound, w', hwait, ?_, fun c hc => hw'.solution hidle hc⟩
  intro e he
  obtain ⟨c, hc⟩ := Option.isSome_iff_exists.1 (hstays e (hknown e he))
  obtain ⟨hcell, -⟩ := CellTable.find?_eq_some hw'.sound.table hc
  exact ⟨c, CellTable.mem_all_iff.2 ⟨c.id, hcell⟩, (hw'.key_of_find? hc).1⟩

def cycleWithExit : ReachGraph where
  entries := [(.method 0, [.method 1], [10]), (.method 1, [.method 2], [11]),
    (.method 2, [.method 0, .method 3], [12]), (.method 3, [], [13, 10])]
  closed := by decide

theorem cycleWithExit_wait_least_solution :
    cycleWithExit.nodes.toFinset.card ≤ collaboratorBit ∧
    (∀ e ∈ [Element.method 2, .method 3, .method 2], e ∈ cycleWithExit.nodes) ∧
    let s := (reachStore { debug := true } .none 1 (fun _ _ => .callers ∅) true).run
      ([Element.method 2, .method 3, .method 2].map fun e => .call (.force (callersOf e)))
    ∃ bound w', (∀ fuel ≥ bound, World.wait (reachClient cycleWithExit) fuel true true
      ⟨s, (), none⟩ = some (.ok (), w')) ∧
      (∀ e ∈ [Element.method 2, .method 3, .method 2], ∃ c ∈ w'.store.cells, c.key = callersOf e) ∧
      ∀ c ∈ w'.store.cells, ∃ e stamp numbers, c.key = callersOf e ∧
        c.status = .final ⟨callersOf e, ⟨stamp, .callers numbers⟩⟩ ∧
        ∀ n, n ∈ numbers ↔ cycleWithExit.Reaches e n :=
  ⟨by decide, by decide, cycleWithExit.wait_least_solution (by decide) { debug := true } .none 1
    (fun _ _ => .callers ∅) true [.method 2, .method 3, .method 2] (by decide)⟩

end Blackboard.Analysis
