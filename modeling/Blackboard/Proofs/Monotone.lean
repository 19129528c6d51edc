import Blackboard.Proofs.Refinement
import Blackboard.Proofs.Invariants

/-! Lower bounds over a whole history. A store that validates, and whose kinds settle for the lower
bound, never takes a lower bound back: checked updates and what a round settles on only ever raise
it. -/
namespace Blackboard

open Property (Follows Lawful)

section
variable {E V : Type}

theorem KindInfo.lower?_resolve {info : KindInfo E V} (h : info.resolution = .lower) (stamp : Nat)
    (ep : Interim E V) : (Status.final (info.resolve stamp ep)).lower? = some ep.lower := by
  simp [Status.lower?, resolve, h, Resolution.resolve]

def Schema.SettlesLow (schema : Schema E V) : Prop :=
  ∀ {kind info}, schema.find? kind = some info → info.resolution = .lower

variable [Property V]

/-- A lower bound stays one, and only moves on. -/
def Status.Rises (old new : Status E V) : Prop :=
  ∀ l, old.lower? = some l → ∃ l', new.lower? = some l' ∧ Follows l'.value l.value

namespace Status.Rises
variable {a b c : Status E V}

theorem refl (hV : Lawful V) (a : Status E V) : a.Rises a := fun _ h => ⟨_, h, hV.refl _⟩

theorem trans (hV : Lawful V) (h : a.Rises b) (h' : b.Rises c) : a.Rises c := by
  intro l hl
  obtain ⟨l₁, hl₁, hf⟩ := h l hl
  obtain ⟨l₂, hl₂, hf'⟩ := h' l₁ hl₁
  exact ⟨l₂, hl₂, hV.trans hf' hf⟩

theorem of_unknown (ha : a.isUnknown = true) : a.Rises b := by
  intro l hl
  cases a <;> simp [isUnknown, lower?] at ha hl

theorem of_lower? (hV : Lawful V) (h : b.lower? = a.lower?) : a.Rises b :=
  fun _ hl => ⟨_, h.trans hl, hV.refl _⟩

theorem of_check [DecidableEq V] [ToString E] (hb : b.isUnknown = false)
    (h : Cell.checkRefinement a b = .ok ()) : a.Rises b := by
  intro l hl
  obtain ⟨l', hl'⟩ : ∃ l', b.lower? = some l' := by
    cases b <;> simp [lower?, isUnknown] at hb ⊢
  obtain ⟨u, hu⟩ := bounds?_of_lower? hl
  obtain ⟨u', hu'⟩ := bounds?_of_lower? hl'
  exact ⟨l', hl', (Cell.checkRefinement_eq_ok h hu hu').1⟩

end Status.Rises

end

namespace Store
variable {E V C K : Type} [Property V] {s q r : Store E V C K}

/-- What happens between two moments: options and kinds stay, and if the store validates and its
kinds settle for the lower bound, no cell's lower bound is taken back. -/
structure Ascends (s r : Store E V C K) : Prop where
  config : r.config = s.config
  kinds : ∀ {kind info}, s.schema.find? kind = some info → r.schema.find? kind = some info
  raises : s.config.debug = true → r.schema.SettlesLow → ∀ {i id key old},
    s.table.face? i = some (id, key, old) →
      ∃ new, r.table.face? i = some (id, key, new) ∧ old.Rises new

namespace Ascends
variable (hV : Lawful V)
include hV

theorem trans (h : s.Ascends q) (h' : q.Ascends r) : s.Ascends r := by
  refine ⟨h'.config.trans h.config, fun hk => h'.kinds (h.kinds hk), ?_⟩
  intro hdebug hlow i id key old hold
  obtain ⟨mid, hmid, hrise⟩ := h.raises hdebug (fun hk => hlow (h'.kinds hk)) hold
  obtain ⟨new, hnew, hrise'⟩ := h'.raises (h.config ▸ hdebug) hlow hmid
  exact ⟨new, hnew, hrise.trans hV hrise'⟩

theorem of_face (hc : r.config = s.config)
    (hk : ∀ {kind info}, s.schema.find? kind = some info → r.schema.find? kind = some info)
    (hf : ∀ {i f}, s.table.face? i = some f → r.table.face? i = some f) : s.Ascends r :=
  ⟨hc, hk, fun _ _ {_ _ _ old} hold => ⟨old, hf hold, .refl hV old⟩⟩

theorem of_table (hc : r.config = s.config) (hk : r.schema = s.schema)
    (ht : r.table = s.table) : s.Ascends r :=
  of_face hV hc (fun h => hk ▸ h) fun h => ht ▸ h

theorem of_quiet (h : s.Becomes s.table [] r) : s.Ascends r := of_table hV h.config h.schema h.table

theorem of_retains [DecidableEq E] (h : s.Retains r) : s.Ascends r := by
  obtain ⟨t, ts, hb⟩ := h.becomes
  exact of_face hV hb.config (fun hk => hb.schema ▸ hk) h.face

theorem of_steady [DecidableEq E] (h : s.Steady r) : s.Ascends r := by
  refine of_face hV h.config h.kinds ?_
  intro i f hf
  obtain ⟨c, hc, rfl⟩ := CellTable.cell?_of_face? hf
  exact CellTable.face?_of_cell? (h.grown.cell? hc)

theorem fail (e : Error) : s.Ascends (s.fail e) :=
  of_table hV (by simp [Store.fail, notify]) (by simp [Store.fail, notify])
    (by simp [Store.fail, notify])

theorem of_cell {t : CellTable E V K} {ts : List (Task E C K)} {c : Cell E V K} {new : Status E V}
    (h : s.Becomes t ts r) (hc : s.table.cell? c.id = some c)
    (hf : ∀ i, t.face? i = if i = c.id then some (c.id, c.key, new) else s.table.face? i)
    (hrise : s.config.debug = true → s.schema.SettlesLow → c.status.Rises new) : s.Ascends r := by
  refine ⟨h.config, fun hk => h.schema ▸ hk, ?_⟩
  intro hdebug hlow i id key old hold
  rw [h.table, hf i]
  by_cases hi : i = c.id
  · subst hi
    rw [CellTable.face?_of_cell? hc] at hold
    obtain ⟨rfl, rfl, rfl⟩ : c.id = id ∧ c.key = key ∧ c.status = old := by
      simpa [Cell.face] using hold
    exact ⟨new, by simp, hrise hdebug (h.schema ▸ hlow)⟩
  · rw [if_neg hi]
    exact ⟨old, hold, .refl hV old⟩

end Ascends

theorem Takes.ascends [DecidableEq V] {c : Cell E V K} {new : Status E V} (hV : Lawful V)
    (h : s.Takes c new r) (hc : s.table.cell? c.id = some c)
    (hrise : s.config.debug = true → s.schema.SettlesLow → c.status.Rises new) : s.Ascends r := by
  unfold Takes at h
  split at h
  · exact .of_cell hV h hc (CellTable.face?_install hc new) hrise
  · exact .of_quiet hV h

theorem SettlesTo.rises {c : Cell E V K} {ep : Final E V} (hV : Lawful V) (h : s.SettlesTo c ep)
    (hlow : s.schema.SettlesLow) : c.status.Rises (.final ep) := by
  obtain ⟨info, n, hinfo, hep⟩ := h
  cases hst : c.status with
  | unknown key => exact .of_unknown rfl
  | interim old =>
    rw [hst] at hep
    obtain ⟨iep, hlower, -, rfl⟩ := hep
    refine .of_lower? hV ?_
    rw [KindInfo.lower?_resolve (hlow hinfo), hlower]
    rfl
  | final old =>
    rw [hst] at hep
    exact hep.elim

variable [DecidableEq E]

theorem Resolves.ascends {group : List Depender} {batch : List (Cell E V K × Final E V)}
    (hV : Lawful V) (h : s.Resolves group batch r) : s.Ascends r := by
  refine ⟨h.becomes.config, fun hk => h.becomes.schema ▸ hk, ?_⟩
  intro hdebug hlow i id key old hold
  rw [h.becomes.table]
  by_cases hi : ∃ p ∈ batch, p.1.id = i
  · obtain ⟨p, hp, rfl⟩ := hi
    obtain ⟨rfl, rfl, rfl⟩ : id = p.1.id ∧ key = p.1.key ∧ old = p.1.status := by
      simpa [Cell.face] using hold.symm.trans (h.shown hp)
    refine ⟨_, CellTable.face?_resolve_self h.fit hp, ?_⟩
    obtain ⟨iep, info, n, hst, hinfo, hep⟩ := (h.members p hp).2
    refine .of_lower? hV ?_
    rw [hst, hep, KindInfo.lower?_resolve (hlow (h.becomes.schema ▸ hinfo))]
    rfl
  · push Not at hi
    exact ⟨old, (CellTable.face?_resolve_of_ne hi).trans hold, .refl hV old⟩

variable [DecidableEq V]

theorem Makes.ascends {pass : Pass} {st : Settlement E V C K} (hV : Lawful V)
    (h : s.Makes pass st) : st.before.Ascends st.after := by
  cases h with
  | cell _ _ hc _ _ hep hr => exact hr.ascends hV hc fun _ hlow => hep.rises hV hlow
  | group _ _ _ hr => exact hr.ascends hV

theorem kept_ascends (hV : Lawful V) : s.Kept s.Ascends s.Ascends where
  start := .of_quiet hV (.refl s)
  weaken h := h
  quiet_before h hr := h.trans hV (.of_quiet hV hr)
  quiet h hr := h.trans hV (.of_quiet hV hr)
  step h _ _ hst := h.trans hV (hst.ascends hV)

variable [ToString E]

theorem Takes.ascends_of_checks {c : Cell E V K} {new : Status E V} (hV : Lawful V)
    (h : s.Takes c new r) (hc : s.table.cell? c.id = some c) (hfit : c.Fits new)
    (hcheck : s.Checks c new) : s.Ascends r :=
  h.ascends hV hc fun hdebug _ => .of_check hfit.value (hcheck hdebug)

theorem Served.ascends {given : Option (Final E V)} {asked : Option (Key E)} (hV : Lawful V)
    (h : s.Served given asked r) : s.Ascends r := by
  cases h with
  | steady h => exact .of_steady hV h
  | settled q c ep hq hc hkey hfit hcheck hr why =>
    exact .trans hV (.of_steady hV hq) (hr.ascends_of_checks hV hc hfit hcheck)

theorem FallsAsleep.ascends {ep : Interim E V} {dependees : List (Status E V)} {k : K}
    {c : Cell E V K} {n : Nat} {obs : List (Nat × Status E V)} (hV : Lawful V)
    (h : s.FallsAsleep ep dependees k q c n obs r) : s.Ascends r := by
  refine .trans hV (.of_retains hV h.grows.retains) ?_
  refine .of_cell hV h.becomes h.cell (CellTable.face?_fallAsleep h.cell ep _) fun hdebug _ => ?_
  -- bounds that say nothing new are not written
  cases hch : (c.replace (.interim ep)).1.changed with
  | true =>
    rw [Cell.replace_of_changed hch]
    exact .of_check h.fits.value (h.checks hdebug)
  | false =>
    rw [(Cell.replace_of_unchanged hch).1]
    exact .refl hV _

variable [ToString V]

theorem perform_ascends (hV : Lawful V) (hs : s.Sound) (a : Action E V C K) :
    Ends (perform a) s (fun _ r => s.Ascends r) (s.Ascends ·) := by
  have hgrow : ∀ {q}, s.Grows q → s.Ascends q := fun h => .of_retains hV h.retains
  cases a with
  | install ep =>
    refine .unbroken ((installFinal_ends hs ep).mono ?_ fun _ h => hgrow h)
    rintro _ r ⟨q, c, hgrows, hc, -, hfit, hcheck, htakes⟩
    exact (hgrow hgrows).trans hV (htakes.ascends_of_checks hV hc hfit hcheck)
  | contribute p =>
    refine (contribute_ends hs p).mono ?_ fun _ h => hgrow h
    rintro _ r ⟨q, c, hgrows, hc, -, hquiet | ⟨ep, hfit, hcheck, htakes⟩⟩
    · exact (hgrow hgrows).trans hV (.of_quiet hV hquiet)
    · exact (hgrow hgrows).trans hV (htakes.ascends_of_checks hV hc hfit hcheck)
  | suspend ep dependees k =>
    refine .unbroken ((suspend_ends hs ep dependees k).mono ?_ ?_)
    · rintro _ r ⟨q, c, n, obs, q', h, hreg⟩
      exact (h.ascends hV).trans hV (.of_retains hV (hreg.retains h.sound))
    · rintro r (hgrows | ⟨q, c, n, obs, q', pre, h, -, hr⟩)
      · exact hgrow hgrows
      · exact (h.ascends hV).trans hV (.of_retains hV (watch_retains h.sound hr))
  | collaborate dependees k =>
    refine .unbroken ((collaborate_ends hs dependees k).mono ?_ fun _ h =>
      .of_retains hV h.toRetains)
    rintro _ r ⟨q, n, obs, q', hgrows, -, hadd, hsound, hreg⟩
    have hface : ∀ {i f}, q.table.face? i = some f → q'.table.face? i = some f :=
      fun hf => hadd.table ▸ hf
    have henlist : q.Ascends q' := .of_face hV hadd.config (fun hk => hadd.schema ▸ hk) hface
    exact ((hgrow hgrows).trans hV henlist).trans hV (.of_retains hV (hreg.retains hsound))
  | schedule c e =>
    have hr := schedule_becomes "incremental" s c e
    exact .unbroken (.write (.of_table hV hr.config hr.schema hr.table))

theorem act_ascends (hV : Lawful V) (hs : s.Sound) (a : Act E V C K) : s.Ascends (s.act a) := by
  cases a with
  | call c =>
    rcases serve_cases hs c with ⟨rfl, hr⟩ | hr
    · change s.Ascends (s.serve _).2
      rw [hr]
      exact .of_table hV rfl rfl rfl
    · exact hr.ascends hV
  | start =>
    simp only [Store.act]
    split
    · exact .of_table hV rfl rfl rfl
    · split
      · exact .of_table hV rfl rfl rfl
      · exact .of_table hV rfl rfl rfl
  | perform a =>
    have hends := perform_ascends hV hs a
    simp only [Store.act]
    cases hr : perform a s with
    | ok u r => exact hends.of_ok hr
    | error e r => exact (hends.of_error hr).trans hV (.fail hV e)
  | crash c => exact .fail hV _
  | round cycles fallbacks =>
    simp only [Store.act]
    split
    · exact .of_table hV rfl rfl rfl
    · next hguard =>
      simp only [Bool.or_eq_true, not_or, Bool.not_eq_true] at hguard
      have hround := (kept_ascends hV).onQuiescence hs hguard.2 cycles fallbacks
      split at hround
      · exact hround.2
      · exact .of_quiet hV hround.1
  | drop =>
    simp only [Store.act]
    split <;> exact .of_table hV rfl rfl rfl
  | tell n => exact .of_table hV rfl rfl rfl

theorem run_ascends (hV : Lawful V) (h : s.Reachable) (acts : List (Act E V C K)) :
    s.Ascends (s.run acts) := by
  induction acts generalizing s with
  | nil => exact .of_table hV rfl rfl rfl
  | cons a acts ih => exact (act_ascends hV h.healthy.sound a).trans hV (ih (h.act a))

/-- In a store that validates and whose kinds all settle for the lower bound, a cell that has a
value keeps having one, and whatever happens its lower bound follows every lower bound it had
before. -/
theorem lower_bounds_rise (hV : Lawful V) (h : s.Reachable) (hdebug : s.config.debug = true)
    (later : List (Act E V C K))
    (hlow : ∀ info ∈ (s.run later).schema.infos, info.resolution = .lower) {i : Nat}
    {c : Cell E V K} (hc : s.cell? i = some c) {l : Stamped V} (hl : c.status.lower? = some l) :
    ∃ c' l', (s.run later).cell? i = some c' ∧ c'.key = c.key ∧ c'.status.lower? = some l' ∧
      Follows l'.value l.value := by
  have hlow' : (s.run later).schema.SettlesLow := fun hk => hlow _ (List.mem_of_find?_eq_some hk)
  obtain ⟨new, hnew, hrise⟩ :=
    (run_ascends hV h later).raises hdebug hlow' (CellTable.face?_of_cell? hc)
  obtain ⟨c', hc', hface⟩ := CellTable.cell?_of_face? hnew
  obtain ⟨-, hkey, rfl⟩ : c'.id = c.id ∧ c'.key = c.key ∧ c'.status = new := by
    simpa [Cell.face] using hface
  obtain ⟨l', hl', hfollows⟩ := hrise l hl
  exact ⟨c', l', hc', hkey, hl', hfollows⟩

def levelOpen : Store Element Fact Unit Nat :=
  (create {} .none 1).run
    [.call (.registerKind ((FallbackRule.fixed (.level 0)).info .lower)),
      .perform (.suspend ⟨⟨.method 0, FactSort.level.kind⟩, ⟨0, .level 0⟩, ⟨1, .level 10⟩⟩
        [.unknown ⟨.method 1, FactSort.level.kind⟩] 7)]

def levelSettled : List (Act Element Fact Unit Nat) :=
  [.call (.setFinal ⟨⟨.method 1, FactSort.level.kind⟩, ⟨2, .level 3⟩⟩), .start,
    .perform (.suspend ⟨⟨.method 0, FactSort.level.kind⟩, ⟨3, .level 2⟩, ⟨4, .level 8⟩⟩
      [.unknown ⟨.method 2, FactSort.level.kind⟩] 8),
    .round true true, .start, .round true true]

theorem levelOpen_lower_bounds_rise :
    Lawful Fact ∧ levelOpen.Reachable ∧ levelOpen.config.debug = true ∧
    (∀ info ∈ (levelOpen.run levelSettled).schema.infos, info.resolution = .lower) ∧
    ((levelOpen.run levelSettled).cell? 1).map (·.status) =
      some (.final ⟨⟨.method 0, FactSort.level.kind⟩, ⟨3, .level 2⟩⟩) ∧
    ∃ c l, levelOpen.cell? 1 = some c ∧ c.status.lower? = some l ∧ l.value = .level 0 ∧
      ∃ c' l', (levelOpen.run levelSettled).cell? 1 = some c' ∧ c'.key = c.key ∧
        c'.status.lower? = some l' ∧ Follows l'.value l.value := by
  have hr : levelOpen.Reachable := (Reachable.create {} .none 1).run _
  have hdebug : levelOpen.config.debug = true := by decide +kernel
  have hlow : ∀ info ∈ (levelOpen.run levelSettled).schema.infos, info.resolution = .lower := by
    have hall :
        ((levelOpen.run levelSettled).schema.infos.all (·.resolution matches .lower)) = true := by
      decide +kernel
    intro info hinfo
    have hlower := List.all_eq_true.1 hall info hinfo
    cases h : info.resolution <;> simp [h] at hlower ⊢
  have hopen : (levelOpen.cell? 1).bind (·.status.lower?) = some ⟨0, .level 0⟩ := by decide +kernel
  obtain ⟨c, hc, hl⟩ := Option.bind_eq_some_iff.1 hopen
  exact ⟨Fact.lawful, hr, hdebug, hlow, by decide +kernel, c, _, hc, hl, rfl,
    lower_bounds_rise Fact.lawful hr hdebug levelSettled hlow hc hl⟩

end Store
end Blackboard
