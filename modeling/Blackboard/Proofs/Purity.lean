import Blackboard.Demo.Report
import Blackboard.Proofs.SolvingPhase

/-! The purity of methods, computed by a store. An analysis stops at the first impure callee, rests
on bounds that say nothing, and takes cycles to be pure; still what it finds is exact, since a cycle
is resolved only when no method that it leads to can make it impure any more. -/
namespace Blackboard.Demo

/-! Call graphs. -/

namespace Program
variable (program : Program)

def callees (m : Nat) : List Nat := (program[m]?.map (·.calls)).getD []

def writes (m : Nat) : Bool := program[m]?.any (·.writesGlobal)

/-- Methods call methods of the program, and none calls itself. -/
def Closed : Prop := ∀ m < program.length, ∀ n ∈ program.callees m, n < program.length ∧ n ≠ m

instance : Decidable program.Closed := by unfold Closed; infer_instance

/-- Some method that can be reached through calls writes a global variable. -/
def Tainted (m : Nat) : Prop :=
  ∃ n, Relation.ReflTransGen (fun a b => b ∈ program.callees a) m n ∧ program.writes n = true

variable {program} {m : Nat}

theorem tainted_iff :
    program.Tainted m ↔ program.writes m = true ∨ ∃ n ∈ program.callees m, program.Tainted n :=
  exists_reached_iff

theorem Closed.callee (h : program.Closed) {n : Nat} (hn : n ∈ program.callees m) :
    n < program.length ∧ n ≠ m := by
  by_cases hm : m < program.length
  · exact h m hm n hn
  · simp [callees, List.getElem?_eq_none (Nat.le_of_not_lt hm)] at hn

end Program

/-! What is known at one time about all methods. -/

/-- The analysis leaves no other statuses. -/
inductive IsPurity (e : Element) : Known → Prop
  | unknown : IsPurity e (.unknown ⟨e, purityKind⟩)
  | bounded (a b : Nat) : IsPurity e
      (.interim ⟨⟨e, purityKind⟩, ⟨a, .purity .impure⟩, ⟨b, .purity .pure⟩⟩)
  | settled (stamp : Nat) (v : Verdict) : IsPurity e (.final ⟨⟨e, purityKind⟩, ⟨stamp, .purity v⟩⟩)

variable {program : Program} {v v' : Element → Known} {e : Element} {m : Nat}

theorem IsPurity.key {status : Known} (h : IsPurity e status) : status.key = ⟨e, purityKind⟩ := by
  cases h <;> rfl

theorem IsPurity.upperPurity? {status : Known} (h : IsPurity e status)
    (hopen : finalPurity? status = none) : upperPurity? status ≠ some .impure := by
  cases h with
  | unknown => simp [Demo.upperPurity?, Status.upper?]
  | bounded a b => simp [Demo.upperPurity?, Status.upper?, Finding.purity?]
  | settled stamp v => simp [finalPurity?, Status.final?, Finding.purity?] at hopen

theorem IsPurity.finalPurity?_eq_none_iff {status : Known} (h : IsPurity e status) :
    finalPurity? status = none ↔ status.isFinal = false := by
  cases h <;> simp [finalPurity?, Status.final?, Finding.purity?, Status.isFinal]

theorem finalPurity?_of_sameState {a b : Known} (h : a.sameState b = true) :
    finalPurity? a = finalPurity? b := by
  cases a <;> cases b <;> simp_all [Status.sameState, finalPurity?, Status.final?]

structure Exact (program : Program) (v : Element → Known) : Prop where
  form : ∀ e, IsPurity e (v e)
  verdict : ∀ m verdict, finalPurity? (v (.method m)) = some verdict →
    (verdict = .impure ↔ program.Tainted m)

def openness : Known → Nat
  | .unknown _ => 2
  | .interim _ => 1
  | .final _ => 0

theorem openness_pos {status : Known} (h : status.isFinal = false) : 0 < openness status := by
  cases status <;> simp_all [openness, Status.isFinal]

theorem openness_of_isFinal {status : Known} (h : status.isFinal = true) : openness status = 0 := by
  cases status <;> simp_all [openness, Status.isFinal]

/-- Nothing final is touched, and nothing gets farther from being final. -/
structure Closer (v v' : Element → Known) : Prop where
  final : ∀ e, (v e).isFinal = true → v' e = v e
  openness : ∀ e, openness (v' e) ≤ openness (v e)

theorem Closer.trans {v'' : Element → Known} (h : Closer v v') (h' : Closer v' v'') :
    Closer v v'' := by
  refine ⟨?_, fun e => (h'.openness e).trans (h.openness e)⟩
  intro e he
  have hsame := h.final e he
  rw [h'.final e (hsame ▸ he), hsame]

namespace Program

def succ (program : Program) : Element → List Element
  | .method m => (program.callees m).map .method
  | _ => []

def nodes (program : Program) : List Element := (List.range program.length).map .method

/-- Neither the method itself nor a callee is a reason to take it for impure. -/
def Blameless (program : Program) (v : Element → Known) : Element → Prop
  | .method m =>
    program.writes m = false ∧ ∀ n ∈ program.callees m, finalPurity? (v (.method n)) ≠ some .impure
  | _ => True

theorem mem_nodes : e ∈ program.nodes ↔ ∃ m < program.length, e = .method m := by
  simp [nodes, eq_comm]

theorem succ_closed (h : program.Closed) {x : Element} (hx : x ∈ program.succ e) :
    x ≠ e ∧ x ∈ program.nodes := by
  cases e with
  | method m =>
    obtain ⟨n, hn, rfl⟩ := List.mem_map.1 hx
    obtain ⟨hlt, hne⟩ := h.callee hn
    exact ⟨by simpa using hne, mem_nodes.2 ⟨n, hlt, rfl⟩⟩
  | _ => cases hx

theorem Blameless.mono (h : program.Blameless v e)
    (hseen : ∀ x ∈ program.succ e, finalPurity? (v' x) = finalPurity? (v x)) :
    program.Blameless v' e := by
  cases e with
  | method m =>
    refine ⟨h.1, ?_⟩
    intro n hn
    rw [hseen _ (List.mem_map_of_mem hn)]
    exact h.2 n hn
  | _ => trivial

end Program

namespace Exact

theorem unknown (program : Program) : Exact program fun e => .unknown ⟨e, purityKind⟩ where
  form _ := .unknown
  verdict _ _ h := by cases h

theorem update (h : Exact program v) {status : Known} (hform : IsPurity (.method m) status)
    (hverdict : ∀ verdict, finalPurity? status = some verdict →
      (verdict = .impure ↔ program.Tainted m)) :
    Exact program (Function.update v (.method m) status) := by
  refine ⟨?_, ?_⟩
  · intro e
    by_cases he : e = .method m
    · subst he
      rwa [Function.update_self]
    · rw [Function.update_of_ne he]
      exact h.form e
  · intro n verdict hn
    by_cases heq : n = m
    · subst heq
      rw [Function.update_self] at hn
      exact hverdict verdict hn
    · rw [Function.update_of_ne (by simpa using heq)] at hn
      exact h.verdict n verdict hn

/-- A group without a reason to be impure, which depends on nothing else that is not final, leads to
no writes. -/
theorem not_tainted (h : Exact program v) {group : Element → Prop}
    (hsolved : ∀ e, group e → program.Blameless v e)
    (hclosed : ∀ e, group e → ∀ x ∈ program.succ e, (v x).isFinal = true ∨ group x)
    (hm : group (.method m)) : ¬ program.Tainted m := by
  intro htainted
  obtain ⟨y, hy, hwrites⟩ := htainted
  induction hy using Relation.ReflTransGen.head_induction_on with
  | refl => exact Bool.false_ne_true ((hsolved _ hm).1.symm.trans hwrites)
  | @head m n hn hny ih =>
    cases hclosed _ hm (.method n) (List.mem_map_of_mem hn) with
    | inr hin => exact ih hin
    | inl hfinal =>
      have hnone := mt (h.form (.method n)).finalPurity?_eq_none_iff.1 (by simp [hfinal])
      obtain ⟨verdict, hverdict⟩ := Option.ne_none_iff_exists'.1 hnone
      have himpure := (h.verdict n verdict hverdict).2 ⟨y, hny, hwrites⟩
      exact (hsolved _ hm).2 n hn (himpure ▸ hverdict)

theorem settle (h : Exact program v) {group : Element → Prop}
    (hsolved : ∀ e, group e → program.Blameless v e)
    (hclosed : ∀ e, group e → ∀ x ∈ program.succ e, (v x).isFinal = true ∨ group x)
    (hrest : ∀ e, ¬ group e → v' e = v e)
    (hset : ∀ e, group e → ∃ ep, v e = .interim ep ∧ v' e = .final ⟨ep.key, ep.upper⟩) :
    Exact program v' ∧ Closer v v' := by
  have hpure : ∀ e, group e → ∃ stamp, v' e = .final ⟨⟨e, purityKind⟩, ⟨stamp, .purity .pure⟩⟩ := by
    intro e he
    obtain ⟨ep, hold, hnew⟩ := hset e he
    have hform := h.form e
    rw [hold] at hform
    cases hform with
    | bounded a b => exact ⟨b, hnew⟩
  refine ⟨⟨?_, ?_⟩, ⟨?_, ?_⟩⟩
  · intro e
    by_cases he : group e
    · obtain ⟨stamp, hstamp⟩ := hpure e he
      exact hstamp ▸ .settled stamp .pure
    · exact hrest e he ▸ h.form e
  · intro m verdict hm
    by_cases he : group (.method m)
    · obtain ⟨stamp, hstamp⟩ := hpure _ he
      have hverdict : Verdict.pure = verdict := by
        simpa [hstamp, finalPurity?, Status.final?, Finding.purity?] using hm
      exact iff_of_false (by simp [← hverdict]) (h.not_tainted hsolved hclosed he)
    · rw [hrest _ he] at hm
      exact h.verdict m verdict hm
  · intro e he
    refine hrest e fun hin => ?_
    obtain ⟨ep, hold, -⟩ := hset e hin
    rw [hold] at he
    cases he
  · intro e
    by_cases he : group e
    · obtain ⟨stamp, hstamp⟩ := hpure e he
      rw [hstamp]
      exact Nat.zero_le _
    · rw [hrest e he]

end Exact

def Program.Closed.equations (h : program.Closed) :
    Equations Element Finding Computation Again where
  kind := purityKind
  resolution := .upper
  computation := .purity
  entity k := k.entity
  nodes := program.nodes
  succ := program.succ
  Bounds := Exact program
  Solved := program.Blameless
  Improves := Closer
  level := openness
  succ_closed := Program.succ_closed h
  bounds_unknown := .unknown program
  bounds_key hv e := (hv.form e).key
  level_pos := openness_pos
  level_of_isFinal := openness_of_isFinal
  improves_refl _ := ⟨fun _ _ => rfl, fun _ => Nat.le_refl _⟩
  improves_trans := .trans
  improves_final h := h.final
  improves_level h := h.openness
  solved_mono := by
    intro v v' e _ hsolved hseen
    refine hsolved.mono ?_
    intro x hx
    obtain ⟨seen, hold, hnew⟩ := hseen x hx
    rw [finalPurity?_of_sameState hold, finalPurity?_of_sameState hnew]
  settle := by
    intro v v' group hv hsolved hclosed hrest hset
    refine hv.settle hsolved hclosed hrest ?_
    intro e he
    obtain ⟨n, ep, hold, hnew⟩ := hset e he
    exact ⟨ep, hold, hnew⟩

namespace Exact
variable {hclosed : program.Closed}

theorem checkRefinement (h : Exact program v) (hopen : (v e).isFinal = false) {new : Known}
    (hnew : IsPurity e new) : Cell.checkRefinement (v e) new = .ok () := by
  have hform := h.form e
  generalize v e = old at hform hopen
  cases hform with
  | unknown => rfl
  | settled stamp v => cases hopen
  | bounded a b =>
    cases hnew with
    | unknown => rfl
    | bounded a' b' => rfl
    | settled stamp v => cases v <;> rfl

theorem offers (h : Exact program v) (hopen : (v (.method m)).isFinal = false) {new : Known}
    (hform : IsPurity (.method m) new) (hvalue : new.isUnknown = false)
    (hverdict : ∀ verdict, finalPurity? new = some verdict →
      (verdict = .impure ↔ program.Tainted m)) :
    hclosed.equations.Offers v (.method m) new := by
  refine ⟨hform.key, hvalue, h.checkRefinement hopen hform, h.update hform hverdict, ?_, ?_⟩
  · intro e he
    refine Function.update_of_ne (fun heq => ?_) _ _
    rw [heq, hopen] at he
    cases he
  · intro e
    by_cases he : e = .method m
    · subst he
      rw [Function.update_self]
      cases hv : v (.method m) <;> cases hform <;> simp_all
        [openness, Status.isUnknown, Status.isFinal]
    · rw [Function.update_of_ne he]

theorem offers_verdict (h : Exact program v) (hopen : (v (.method m)).isFinal = false) (stamp : Nat)
    {verdict : Verdict} (hverdict : verdict = .impure ↔ program.Tainted m) :
    hclosed.equations.Offers v (.method m) (.final ⟨purityKey m, ⟨stamp, .purity verdict⟩⟩) := by
  refine h.offers hopen (.settled stamp verdict) rfl ?_
  intro verdict' hv
  obtain rfl : verdict = verdict' := by
    simpa [finalPurity?, Status.final?, Finding.purity?] using hv
  exact hverdict

theorem solves (h : Exact program v) (hopen : (v (.method m)).isFinal = false)
    (hblameless : program.Blameless v (.method m)) (a b : Nat) :
    hclosed.equations.Solves v (.method m)
      ⟨purityKey m, ⟨a, .purity .impure⟩, ⟨b, .purity .pure⟩⟩ := by
  refine ⟨h.offers hopen (.bounded a b) rfl (fun _ hv => by cases hv), ?_, ?_⟩
  · intro hdiffers
    have hform := h.form (.method m)
    generalize v (.method m) = old at hform hopen hdiffers
    cases hform with
    | unknown => exact Nat.lt_succ_self 1
    | bounded a' b' => cases hdiffers
    | settled stamp v => cases hopen
  · intro status hsame
    refine hblameless.mono ?_
    intro x hx
    rw [Function.update_of_ne (Program.succ_closed hclosed hx).1]

end Exact

/-! What the computation of a method returns. -/

/-- What callees say: that one of them is impure, or else which ones are not final, after those from
before. -/
inductive Hears (v : Element → Known) (ms : List Nat) (before : List Known) :
    Option (List Known) → Prop
  | impure {n : Nat} (hn : n ∈ ms) (h : finalPurity? (v (.method n)) = some .impure) :
      Hears v ms before none
  | unsettled (h : ∀ n ∈ ms, finalPurity? (v (.method n)) ≠ some .impure) :
      Hears v ms before
        (some (before.reverse ++ (ms.map fun n => v (.method n)).filter (·.isRefinable)))

namespace Hears
variable {ms : List Nat} {before : List Known} {answer : Option (List Known)}

theorem nil : Hears v [] before (some before.reverse) := by
  simpa using @unsettled v [] before (by simp)

theorem cons_final (h : Hears v ms before answer) (hfinal : (v (.method m)).isFinal = true)
    (hpure : finalPurity? (v (.method m)) ≠ some .impure) : Hears v (m :: ms) before answer := by
  cases h with
  | impure hn h => exact .impure (List.mem_cons_of_mem m hn) h
  | unsettled h =>
    have hall := @unsettled v (m :: ms) before (List.forall_mem_cons.2 ⟨hpure, h⟩)
    rwa [List.map_cons, List.filter_cons_of_neg (by simp [Status.isRefinable, hfinal])] at hall

theorem cons_open (h : Hears v ms (v (.method m) :: before) answer)
    (hopen : (v (.method m)).isFinal = false)
    (hpure : finalPurity? (v (.method m)) ≠ some .impure) : Hears v (m :: ms) before answer := by
  cases h with
  | impure hn h => exact .impure (List.mem_cons_of_mem m hn) h
  | unsettled h =>
    have hall := @unsettled v (m :: ms) before (List.forall_mem_cons.2 ⟨hpure, h⟩)
    rw [List.map_cons, List.filter_cons_of_pos (by simp [Status.isRefinable, hopen])] at hall
    rwa [List.reverse_cons, List.append_assoc, List.singleton_append]

end Hears

variable {hclosed : program.Closed} {s : DemoStore} {running : Multiset Element}

theorem Program.card_nodes_le (h : program.length ≤ collaboratorBit) :
    program.nodes.toFinset.card ≤ collaboratorBit := by
  refine (List.toFinset_card_le _).trans ?_
  simpa [nodes] using h

theorem run_askCallees_cons {status : Known} {q : DemoStore}
    (h : s.serve (.query (purityKey m)) = (.ok status, q)) (rest : List Nat) (before : List Known) :
    (askCallees (m :: rest) before).run s =
      (match finalPurity? status with
        | some .impure => return some none
        | some .pure => askCallees rest before
        | none =>
          if upperPurity? status = some .impure then return some none
          else askCallees rest (status :: before) : Run _).run q := by
  rw [askCallees]
  exact Script.run_ask_bind h _

theorem run_askCallees (h : hclosed.equations.Solving running s)
    (hroom : program.length ≤ collaboratorBit) {ms : List Nat} (hms : ∀ n ∈ ms, n < program.length)
    (before : List Known) :
    ∃ answer r, (askCallees ms before).run s = (some answer, r) ∧
      hclosed.equations.Solving running r ∧
      hclosed.equations.Advances s r ∧ hclosed.equations.view r = hclosed.equations.view s ∧
      Hears (hclosed.equations.view s) ms before answer ∧
      (answer ≠ none → ∀ n ∈ ms, r.isKnown (purityKey n) = true) := by
  induction ms generalizing s before with
  | nil => exact ⟨_, s, rfl, h, .refl _ s, rfl, .nil, by simp⟩
  | cons m rest ih =>
    have hm : .method m ∈ program.nodes := Program.mem_nodes.2 ⟨m, hms m List.mem_cons_self, rfl⟩
    obtain ⟨q, hserve, hq, hadvances, hview, hknown⟩ := h.query (Program.card_nodes_le hroom) hm
    have hform : IsPurity (.method m) (hclosed.equations.view s (.method m)) :=
      h.bounds.form (.method m)
    have hrun := run_askCallees_cons hserve rest before
    -- the others are asked in the store that the first answer left
    have hothers : ∀ before', ∃ answer r, (askCallees rest before').run q = (some answer, r) ∧
        hclosed.equations.Solving running r ∧ hclosed.equations.Advances s r ∧
        hclosed.equations.view r = hclosed.equations.view s ∧
        Hears (hclosed.equations.view s) rest before' answer ∧
        (answer ≠ none → ∀ n ∈ m :: rest, r.isKnown (purityKey n) = true) := by
      intro before'
      obtain ⟨answer, r, hrest, hr, hadvances', hview', hhears, hknown'⟩ :=
        ih hq (fun n hn => hms n (List.mem_cons_of_mem m hn)) before'
      exact ⟨answer, r, hrest, hr, hadvances.trans hadvances', hview'.trans hview, hview ▸ hhears,
        fun hsome => List.forall_mem_cons.2 ⟨hadvances'.known _ hknown, hknown' hsome⟩⟩
    cases hfinal : finalPurity? (hclosed.equations.view s (.method m)) with
    | some verdict =>
      simp only [hfinal] at hrun
      cases verdict with
      | impure =>
        exact ⟨none, q, hrun, hq, hadvances, hview, .impure List.mem_cons_self hfinal, by simp⟩
      | pure =>
        obtain ⟨answer, r, hrest, hr, hadvances', hview', hhears, hknown'⟩ := hothers before
        have hsettled : (hclosed.equations.view s (.method m)).isFinal = true := by
          by_contra hopen
          simp [hform.finalPurity?_eq_none_iff.2 (by simpa using hopen)] at hfinal
        exact ⟨answer, r, hrun.trans hrest, hr, hadvances', hview',
          hhears.cons_final hsettled (by simp [hfinal]), hknown'⟩
    | none =>
      simp only [hfinal, if_neg (hform.upperPurity? hfinal)] at hrun
      obtain ⟨answer, r, hrest, hr, hadvances', hview', hhears, hknown'⟩ :=
        hothers (hclosed.equations.view s (.method m) :: before)
      have hopen := hform.finalPurity?_eq_none_iff.1 hfinal
      exact ⟨answer, r, hrun.trans hrest, hr, hadvances', hview',
        hhears.cons_open hopen (by simp [hfinal]), hknown'⟩

theorem run_stamped {q : DemoStore} {stamp : Nat} (h : s.serve .stamp = (stamp, q)) (f : Finding) :
    (stamped f).run s = (⟨stamp, f⟩, q) :=
  Script.run_ask_bind h _

theorem yields_verdict (h : hclosed.equations.Solving {.method m} s) {verdict : Verdict}
    (hverdict : verdict = .impure ↔ program.Tainted m) :
    hclosed.equations.Yields (.method m) s (Demo.verdict m verdict) := by
  obtain ⟨r, hserve, hr, hadvances, -⟩ := h.stamp
  obtain ⟨-, hopen⟩ := (hr.mem_due (.method m)).1 (by simp)
  exact .bind (run_stamped hserve _) hadvances
    ⟨_, r, rfl, hr, .refl _ r, .final (hr.bounds.offers_verdict hopen s.nextStamp hverdict)⟩

theorem yields_bounds (h : hclosed.equations.Solving {.method m} s)
    (hblameless : program.Blameless (hclosed.equations.view s) (.method m)) {dependees : List Known}
    (hawaits : hclosed.equations.Awaits s (.method m) dependees) :
    hclosed.equations.Yields (.method m) s (do
      let lower ← stamped (.purity .impure)
      let upper ← stamped (.purity .pure)
      return .interim ⟨purityKey m, lower, upper⟩ dependees ⟨.method m⟩) := by
  obtain ⟨q, hlower, hq, hadvances, htable⟩ := h.stamp
  obtain ⟨r, hupper, hr, hadvances', htable'⟩ := hq.stamp
  obtain ⟨-, hopen⟩ := (hr.mem_due (.method m)).1 (by simp)
  have hsame : r.table = s.table := htable'.trans htable
  have hview : hclosed.equations.view r = hclosed.equations.view s :=
    hclosed.equations.view_congr hsame
  refine .bind (run_stamped hlower _) hadvances
    (.bind (run_stamped hupper _) hadvances' ⟨_, r, rfl, hr, .refl _ r, ?_⟩)
  exact .interim (hr.bounds.solves hopen (hview ▸ hblameless) s.nextStamp q.nextStamp)
    (hawaits.congr hsame) rfl

/-- The computation of a method asks its callees, and returns what follows from their answers. -/
theorem yields_purity (h : hclosed.equations.Solving {.method m} s)
    (hroom : program.length ≤ collaboratorBit) {method : Method}
    (hmethod : program[m]? = some method) :
    hclosed.equations.Yields (.method m) s (purity m method) := by
  have hcallees : program.callees m = method.calls := by simp [Program.callees, hmethod]
  have hwrites : program.writes m = method.writesGlobal := by simp [Program.writes, hmethod]
  rw [purity]
  cases hw : method.writesGlobal with
  | true =>
    have htainted : program.Tainted m := Program.tainted_iff.2 (.inl (hwrites.trans hw))
    rw [if_pos rfl]
    exact yields_verdict h (iff_of_true rfl htainted)
  | false =>
    have hms : ∀ n ∈ method.calls, n < program.length := fun n hn =>
      (hclosed.callee (hcallees ▸ hn)).1
    obtain ⟨answer, q, hrun, hq, hadvances, hview, hhears, hknown⟩ := run_askCallees h hroom hms []
    rw [if_neg Bool.false_ne_true]
    refine .bind hrun hadvances ?_
    cases hhears with
    | impure hn himpure =>
      have htainted : program.Tainted m :=
        Program.tainted_iff.2 (.inr ⟨_, hcallees ▸ hn, (h.bounds.verdict _ _ himpure).1 rfl⟩)
      exact yields_verdict hq (iff_of_true rfl htainted)
    | unsettled hall =>
      rw [← hcallees] at hall hknown ⊢
      have hlist : ((program.callees m).map fun n => hclosed.equations.view s (.method n)) =
          (hclosed.equations.succ (.method m)).map (hclosed.equations.view q) := by
        have hsucc : hclosed.equations.succ (.method m) = (program.callees m).map .method := rfl
        rw [hview, hsucc, List.map_map]
        rfl
      have hblameless : program.Blameless (hclosed.equations.view q) (.method m) :=
        ⟨hwrites.trans hw, hview ▸ hall⟩
      rw [List.reverse_nil, List.nil_append, hlist]
      cases hds : ((hclosed.equations.succ (.method m)).map (hclosed.equations.view q)).filter
          (·.isRefinable) with
      | nil =>
        have hpure : ¬ program.Tainted m :=
          hq.bounds.not_tainted (fun e (he : e = .method m) => he ▸ hblameless)
            (fun e he x hx => .inl (Equations.succ_final hds x (he ▸ hx))) rfl
        exact yields_verdict hq (iff_of_false Verdict.noConfusion hpure)
      | cons d ds =>
        have hsuccKnown : ∀ x ∈ hclosed.equations.succ (.method m),
            q.isKnown (hclosed.equations.keyOf x) = true := by
          intro x hx
          obtain ⟨n, hn, rfl⟩ := List.mem_map.1 hx
          exact hknown (by simp) n hn
        have hawaits := Equations.awaits_succ hsuccKnown (by rw [hds]; exact List.cons_ne_nil d ds)
        exact yields_bounds hq hblameless (hds ▸ hawaits)

theorem serves_client (hclosed : program.Closed) (hroom : program.length ≤ collaboratorBit) :
    hclosed.equations.Serves (client program) := by
  have hcomputes : ∀ e ∈ program.nodes,
      hclosed.equations.Computes e (do return (← analyse program purity e, ())) := by
    intro e he s h
    obtain ⟨m, hm, rfl⟩ := Program.mem_nodes.1 he
    have hmethod : program[m]? = some program[m] := List.getElem?_eq_getElem hm
    obtain ⟨result, r, hrun, hr⟩ := yields_purity h hroom hmethod
    refine ⟨result, (), r, ?_, hr⟩
    rw [analyse, hmethod]
    simp only [Script.run_bind, hrun]
    rfl
  exact ⟨fun e he _ => hcomputes e he, fun k hk _ _ => hcomputes k.entity hk⟩

/-- A new store with the kinds of the demonstration, in which purity is computed lazily. -/
def purityStore (config : Config) (tracer : Tracer Element Finding) (cores : Nat) : DemoStore :=
  ((Store.create config tracer cores : DemoStore).answer (do
    registerKinds
    Store.registerLazy purityKind .purity)).2

theorem solving_purityStore (hclosed : program.Closed) (config : Config)
    (tracer : Tracer Element Finding) (cores : Nat) :
    hclosed.equations.Solving 0 (purityStore config tracer cores) :=
  .of_empty ⟨⟨_, rfl, rfl⟩, rfl, rfl, rfl, rfl, rfl, rfl, rfl⟩ rfl rfl

theorem right_verdict (h : hclosed.equations.Solving 0 s) (hidle : s.Idle true true)
    {c : Cell Element Finding Again} (hc : c ∈ s.cells) :
    ∃ m < program.length, ∃ stamp verdict, c.key = purityKey m ∧
      c.status = .final ⟨purityKey m, ⟨stamp, .purity verdict⟩⟩ ∧
        (verdict = .impure ↔ program.Tainted m) := by
  obtain ⟨e, he, hkey, hstatus, hfinal⟩ := h.all_final hidle hc
  obtain ⟨m, hm, rfl⟩ := Program.mem_nodes.1 he
  have hform : IsPurity (.method m) c.status := hstatus ▸ h.bounds.form (.method m)
  have hverdict := h.bounds.verdict m
  rw [← hstatus] at hverdict
  generalize c.status = status at hform hverdict hfinal ⊢
  cases hform with
  | unknown => cases hfinal
  | bounded a b => cases hfinal
  | settled stamp verdict => exact ⟨m, hm, stamp, verdict, hkey, rfl, hverdict verdict rfl⟩

/-- Whatever methods of a program are forced, and in whatever order, the phase completes, with each
of them final. All that it leaves are final verdicts: impure where a method that can be reached
through calls, over cycles or not, writes a global variable, and pure elsewhere. -/
theorem wait_exact_purity (program : Program) (hclosed : program.Closed)
    (hroom : program.length ≤ collaboratorBit) (config : Config) (tracer : Tracer Element Finding)
    (cores : Nat) (forced : List Nat) (hforced : ∀ m ∈ forced, m < program.length) :
    let s := (purityStore config tracer cores).run
      (forced.map fun m => .call (.force (purityKey m)))
    ∃ bound w', (∀ fuel ≥ bound, World.wait (client program) fuel true true ⟨s, (), none⟩ =
      some (.ok (), w')) ∧
      (∀ m ∈ forced, ∃ c ∈ w'.store.cells, c.key = purityKey m) ∧
      ∀ c ∈ w'.store.cells, ∃ m < program.length, ∃ stamp verdict, c.key = purityKey m ∧
        c.status = .final ⟨purityKey m, ⟨stamp, .purity verdict⟩⟩ ∧
          (verdict = .impure ↔ program.Tainted m) := by
  intro s
  have hnodes : ∀ e ∈ forced.map Element.method, e ∈ program.nodes := by
    intro e he
    obtain ⟨m, hm, rfl⟩ := List.mem_map.1 he
    exact Program.mem_nodes.2 ⟨m, hforced m hm, rfl⟩
  have hacts : (forced.map Element.method).map
      (fun e => Act.call (.force (hclosed.equations.keyOf e))) = forced.map fun m =>
        (.call (.force (purityKey m)) : Act Element Finding Computation Again) :=
    List.map_map ..
  obtain ⟨hsolving, -, hknown⟩ := (solving_purityStore hclosed config tracer cores).forces
    (Program.card_nodes_le hroom) hnodes
  rw [hacts] at hsolving hknown
  obtain ⟨bound, w', hwait, hw', hstays, hidle⟩ :=
    Equations.Solving.wait (w := ⟨s, (), none⟩) (serves_client hclosed hroom) rfl hsolving
  refine ⟨bound, w', hwait, ?_, fun c hc => right_verdict hw' hidle hc⟩
  intro m hm
  obtain ⟨c, hc⟩ :=
    Option.isSome_iff_exists.1 (hstays (.method m) (hknown _ (List.mem_map_of_mem hm)))
  obtain ⟨hcell, -⟩ := CellTable.find?_eq_some hw'.sound.table hc
  exact ⟨c, CellTable.mem_all_iff.2 ⟨c.id, hcell⟩, (hw'.key_of_find? hc).1⟩

theorem sample_wait_exact_purity :
    Program.Closed sample ∧ sample.length ≤ collaboratorBit ∧
      (∀ m ∈ [3, 0, 6, 3], m < sample.length) ∧
    let s := (purityStore { debug := true } .none 1).run
      ([3, 0, 6, 3].map fun m => .call (.force (purityKey m)))
    ∃ bound w',
      (∀ fuel ≥ bound, World.wait (client sample) fuel true true ⟨s, (), none⟩ =
        some (.ok (), w')) ∧
      (∀ m ∈ [3, 0, 6, 3], ∃ c ∈ w'.store.cells, c.key = purityKey m) ∧
      ∀ c ∈ w'.store.cells, ∃ m < sample.length, ∃ stamp verdict, c.key = purityKey m ∧
        c.status = .final ⟨purityKey m, ⟨stamp, .purity verdict⟩⟩ ∧
          (verdict = .impure ↔ Program.Tainted sample m) :=
  ⟨by decide, by decide, by decide,
    wait_exact_purity sample (by decide) (by decide) { debug := true } .none 1
      [3, 0, 6, 3] (by decide)⟩

end Blackboard.Demo
