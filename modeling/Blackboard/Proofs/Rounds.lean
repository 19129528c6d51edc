import Blackboard.Proofs.Passes

/-! A round as a whole. What one settling step keeps, a round keeps; and a round that reports no
change found nothing to settle and left the store as it was. -/
namespace Blackboard.Store
variable {E V C K : Type}

/-- Nothing is left to settle in the current phase. -/
structure Idle (s : Store E V C K) (cycles fallbacks : Bool) : Prop where
  known : fallbacks = true → ∀ c ∈ s.cells, c.status.isUnknown = true →
    s.phase.isDelayed c.key.kind = true
  blocked : cycles = true → ∀ group ∈ closedComponents s.waiting,
    group.any (s.delayedDependers.contains ·) = true
  refined : cycles = true → ∀ c ∈ s.cells, c.suspension = none → (∃ ep, c.status = .interim ep) →
    s.phase.isDelayed c.key.kind = true

variable {s : Store E V C K}

theorem mem_settleable {c : Cell E V K} (hc : c ∈ s.cells)
    (hd : s.phase.isDelayed c.key.kind = false) : c ∈ s.settleable c.hasDependers :=
  List.mem_filter.2 ⟨hc, by simp [hd]⟩

theorem Idle.of_exhausted {cycles fallbacks : Bool}
    (h : ∀ pass ∈ passes cycles fallbacks, s.Exhausted pass) :
    s.Idle cycles fallbacks where
  known := by
    rintro rfl c hc hu
    by_contra hd
    exact h (.fallbacks c.hasDependers) (by cases c.hasDependers <;> simp [passes]) c
      (List.mem_filter.2 ⟨mem_settleable hc (by simpa using hd), hu⟩)
  blocked := by
    rintro rfl
    exact h .groups (by simp [passes])
  refined := by
    rintro rfl c hc hnone ⟨ep, hep⟩
    by_contra hd
    exact h (.interims c.hasDependers) (by cases c.hasDependers <;> simp [passes]) c
      (List.mem_filter.2 ⟨mem_settleable hc (by simpa using hd), by simp [hnone]⟩) ep hep

theorem waiting_congr {r : Store E V C K} (h : r.table = s.table) : r.waiting = s.waiting := by
  simp only [waiting, cells, h]

theorem delayedDependers_congr {r : Store E V C K} (h : r.table = s.table)
    (hp : r.phase = s.phase) : r.delayedDependers = s.delayedDependers := by
  have hd : r.isDelayedDepender = s.isDelayedDepender := by
    funext d
    cases d <;> simp [isDelayedDepender, cell?, h, hp]
  rw [delayedDependers, delayedDependers, waiting_congr h, hd]

theorem Idle.congr {r : Store E V C K} {cycles fallbacks : Bool} (h : r.Idle cycles fallbacks)
    (ht : r.table = s.table) (hp : r.phase = s.phase) : s.Idle cycles fallbacks := by
  have hc : r.cells = s.cells := by simp only [cells, ht]
  refine ⟨?_, ?_, ?_⟩
  · rw [← hc, ← hp]
    exact h.known
  · rw [← waiting_congr ht, ← delayedDependers_congr ht hp]
    exact h.blocked
  · rw [← hc, ← hp]
    exact h.refined

variable [DecidableEq E] [DecidableEq V]

/-- A property of stores, before and after something was settled, that every step of a round from
`s` keeps. -/
structure Kept (s : Store E V C K) (before after : Store E V C K → Prop) : Prop where
  start : before s
  weaken : ∀ {q}, after q → before q
  quiet_before : ∀ {q r}, before q → q.Becomes q.table [] r → before r
  quiet : ∀ {q r}, after q → q.Becomes q.table [] r → after r
  step : ∀ {pass st}, before st.before → s.Settles st.before → st.before.inFlight = false →
    s.Makes pass st → after st.after

variable {before after : Store E V C K → Prop}

theorem Kept.proceeds (h : s.Kept before after) (hs : s.Sound)
    (hidle : s.inFlight = false) {pass : Pass} {log : List (Settlement E V C K)} {r : Store E V C K}
    (hr : s.Proceeds pass s log r) (hlog : log ≠ []) : s.Settles r ∧ after r := by
  have hbefore := hr.idle hidle
  obtain ⟨hset, -, hall⟩ := hr.keeps (.refl hs) h.start h.quiet_before fun st hst hmakes hset hq =>
    h.weaken (h.step hq hset (hbefore st hst) hmakes)
  obtain ⟨st, hst, hquiet⟩ := hr.ends hlog
  obtain ⟨hset', hq⟩ := hall st hst
  exact ⟨hset, h.quiet (h.step hq hset' (hbefore st hst) (hr.makes st hst)) hquiet⟩

theorem Makes.congr {r : Store E V C K} {pass : Pass} {st : Settlement E V C K}
    (h : r.Makes pass st) (ht : r.table = s.table) (hp : r.phase = s.phase) : s.Makes pass st := by
  have hsettleable : r.settleable = s.settleable := by
    funext waitedOn
    simp only [settleable, cells, ht, hp]
  have hcandidates : r.candidates pass = s.candidates pass := by
    cases pass <;> simp [candidates, hsettleable]
  cases h with
  | cell hcell hid hc hawake hfit hep hr =>
    exact .cell (hcandidates ▸ hcell) hid hc hawake hfit hep hr
  | group hpass hmem hfree hr =>
    exact .group hpass (waiting_congr ht ▸ hmem) (delayedDependers_congr ht hp ▸ hfree) hr

theorem Kept.of_quiet {q : Store E V C K} (h : s.Kept before after) (hs : s.Sound)
    (hq : s.Becomes s.table [] q) : q.Kept before after where
  start := h.quiet_before h.start hq
  weaken := h.weaken
  quiet_before := h.quiet_before
  quiet := h.quiet
  step hb hset hidle hst :=
    h.step hb ((Settles.of_quiet hs hq).trans hset) hidle (hst.congr hq.table hq.phase)

variable [Property V] [ToString E] [ToString V]

/-- A round does not fail. It reports no change only if nothing was left to settle, and then the
store is as it was. -/
theorem Kept.settle (h : s.Kept before after) (hs : s.Sound) (hidle : s.inFlight = false)
    (cycles fallbacks : Bool) :
    Ends (settle cycles fallbacks) s
      (fun b r => if b then s.Settles r ∧ after r else r = s ∧ s.Idle cycles fallbacks)
      (fun _ => False) := by
  rw [settle_eq_settlements]
  refine .map ((logPasses_ends hs (passes cycles fallbacks)).mono ?_ fun _ h => h)
  rintro log r (⟨rfl, rfl, hall⟩ | ⟨hlog, pre, pass, post, -, -, hr⟩)
  · exact ⟨rfl, .of_exhausted hall⟩
  · simpa [hlog] using h.proceeds hs hidle hr hlog

theorem onQuiescence_eq (s : Store E V C K) (cycles fallbacks : Bool) :
    ∃ q n, s.Becomes s.table [] q ∧ s.onQuiescence cycles fallbacks =
      match Store.settle cycles fallbacks q with
      | .ok changed r => (changed, r.notify (.quiescent n changed))
      | .error e r => (false, r.fail e) :=
  ⟨_, _, (count_becomes s _).then_quiet (trace_becomes _ _), rfl⟩

/-- A round is counted and told before anything is settled. -/
def beginRound (s : Store E V C K) : Store E V C K :=
  (s.count fun n => { n with quiescenceRounds := n.quiescenceRounds + 1 }).trace
    (.quiescence (s.stats.quiescenceRounds + 1))

theorem onQuiescence_of_ok {r : Store E V C K} {cycles fallbacks changed : Bool}
    (h : Store.settle cycles fallbacks s.beginRound = .ok changed r) :
    s.onQuiescence cycles fallbacks =
      (changed, r.notify (.quiescent (s.stats.quiescenceRounds + 1) changed)) := by
  rw [beginRound, count] at h
  unfold Store.onQuiescence
  dsimp only [count]
  rw [h]

theorem Kept.onQuiescence (h : s.Kept before after) (hs : s.Sound) (hidle : s.inFlight = false)
    (cycles fallbacks : Bool) :
    if (s.onQuiescence cycles fallbacks).1 then
      s.Settles (s.onQuiescence cycles fallbacks).2 ∧ after (s.onQuiescence cycles fallbacks).2
    else s.Becomes s.table [] (s.onQuiescence cycles fallbacks).2 ∧ s.Idle cycles fallbacks := by
  obtain ⟨q, n, hquiet, heq⟩ := s.onQuiescence_eq cycles fallbacks
  rw [heq]
  have hset := Settles.of_quiet hs hquiet
  have hends := (h.of_quiet hs hquiet).settle hset.sound ((inFlight_of_quiet hquiet).trans hidle)
    cycles fallbacks
  cases hr : Store.settle cycles fallbacks q with
  | error e r => exact (hends.of_error hr).elim
  | ok changed r =>
    have hok := hends.of_ok hr
    have htold := notify_becomes r (.quiescent n changed)
    cases changed with
    | true => exact ⟨(hset.trans hok.1).trans (.of_quiet hok.1.sound htold), h.quiet hok.2 htold⟩
    | false =>
      obtain ⟨rfl, hdone⟩ := hok
      exact ⟨hquiet.then_quiet htold, hdone.congr hquiet.table hquiet.phase⟩

end Blackboard.Store
