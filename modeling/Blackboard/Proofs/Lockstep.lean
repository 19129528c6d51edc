import Blackboard.Proofs.History

/-! Two stores worked on in lockstep. Operations look at the cells, the queue, the phase and the
counters, and not at who observes the store. So stores that agree in what operations look at, and go
on agreeing under what they write, cannot be told apart: whatever is done ends in both the same way.
One exception is made, for errors that only a store that validates reports. -/
namespace Blackboard

/-- The errors that only a store that validates reports. -/
def Error.isObjection : Error → Bool
  | nonMonotonic _ _ | selfDependency _ | finalDependee _ _ => true
  | _ => false

def failureOf {α : Type} : Except Error α → Option Error
  | .error e => some e
  | .ok _ => none

namespace Call
variable {E V C : Type}

def failure? : (c : Call E V C) → c.Answer → Option Error
  | registerKind _, a | setupPhase _ _, a | registerLazy _ _, a | registerTriggered _ _, a
  | scheduleEager _ _, a
  | setFinal _, a | query _, a | force _, a => failureOf a
  | hasProperty _, _ | isKnown _, _ | ofKind _, _ | finalsOfKind _, _ | entitiesWith _, _
  | properties _, _
  | stamp, _ | shutdown, _ | isShutdown, _ | statistics, _ | config, _ | isTraced, _ | events, _
  | drainEvents, _ => none

def setsPhase : Call E V C → Bool
  | setupPhase _ _ | registerLazy _ _ | registerTriggered _ _ => true
  | _ => false

def isInspection : Call E V C → Bool
  | config | isTraced | events | drainEvents => true
  | _ => false

end Call

namespace Cell
variable {E V K : Type} [DecidableEq V] [Property V] [ToString E]

theorem isObjection_of_checkRefinement {old new : Status E V} {e : Error}
    (h : checkRefinement old new = .error e) : e.isObjection = true := by
  unfold checkRefinement at h
  split at h
  · split at h
    · cases h
      rfl
    · cases h
  · cases h

variable [DecidableEq E] [ToString V]

/-- Without validation a cell takes what it takes with validation, and refuses what it refuses,
objections aside. -/
theorem update_validated (c : Cell E V K) (new : Status E V) (validate : Bool) :
    (∃ e, c.update new true = .error e ∧ e.isObjection = true) ∨
      c.update new validate = c.update new true := by
  cases hfit : c.checkFit new with
  | error e => exact .inr (by simp [Cell.update, hfit, bind, Except.bind])
  | ok u =>
    cases hcheck : checkRefinement c.status new with
    | error e =>
      exact .inl ⟨e, by simp [Cell.update, hfit, hcheck, bind, Except.bind],
        isObjection_of_checkRefinement hcheck⟩
    | ok u =>
      right
      cases validate <;> simp [Cell.update, hfit, hcheck, bind, Except.bind, pure, Except.pure]

theorem updateWith_validated (c : Cell E V K) (f : Status E V → Option (Status E V))
    (validate : Bool) :
    (∃ e, c.updateWith f true = .error e ∧ e.isObjection = true) ∨
      c.updateWith f validate = c.updateWith f true := by
  unfold Cell.updateWith
  split
  · exact .inr rfl
  · split
    · exact c.update_validated _ validate
    · exact .inr rfl

end Cell

namespace Store
variable {E V C K α β : Type} {excused : Error → Prop} {R : Store E V C K → Store E V C K → Prop}
  {s r : Store E V C K}

def clock (s : Store E V C K) : Nat × Nat := (s.stats.executedTasks, s.stats.quiescenceRounds)

theorem clock_trace (s : Store E V C K) (e : Event E V) : (s.trace e).clock = s.clock := by
  cases ht : s.tracer <;> simp [Store.trace, ht, clock, Store.notify]

theorem clock_fail (s : Store E V C K) (e : Error) : (s.fail e).clock = s.clock := clock_trace _ _

/-- A relation between stores that no operation breaks: they agree in what operations look at, and
go on doing so under what operations write. -/
structure Alike (R : Store E V C K → Store E V C K → Prop) : Prop where
  schema : ∀ {s r}, R s r → r.schema = s.schema
  phase : ∀ {s r}, R s r → r.phase = s.phase
  table : ∀ {s r}, R s r → r.table = s.table
  queue : ∀ {s r}, R s r → r.queue = s.queue
  epoch : ∀ {s r}, R s r → r.epoch = s.epoch
  nextStamp : ∀ {s r}, R s r → r.nextStamp = s.nextStamp
  stats : ∀ {s r}, R s r → r.stats = s.stats
  fault : ∀ {s r}, R s r → r.fault = s.fault
  setSchema : ∀ {s r} k, R s r → R { s with schema := k } { r with schema := k }
  setTable : ∀ {s r} t, R s r → R { s with table := t } { r with table := t }
  setQueue : ∀ {s r} q, R s r → R { s with queue := q } { r with queue := q }
  setEpoch : ∀ {s r} n, R s r → R { s with epoch := n } { r with epoch := n }
  setStamp : ∀ {s r} n, R s r → R { s with nextStamp := n } { r with nextStamp := n }
  setFault : ∀ {s r} e, R s r → R { s with fault := e } { r with fault := e }
  count : ∀ {s r} f, (∀ s : Store E V C K, (s.count f).clock = s.clock) → R s r →
    R (s.count f) (r.count f)
  notify : ∀ {s r} n, R s r → R (s.notify n) (r.notify n)
  trace : ∀ {s r} e, R s r → R (s.trace e) (r.trace e)
  drain : ∀ {s r}, R s r → R s.drainRecords.2 r.drainRecords.2

/-- The second store validates as the first does, or it does not while the first does, and what
validation objects to is excused. -/
def Lenient (excused : Error → Prop) (R : Store E V C K → Store E V C K → Prop) : Prop :=
  ∀ {s r}, R s r → r.config.debug = s.config.debug ∨
    s.config.debug = true ∧ ∀ e : Error, e.isObjection = true → excused e

/-- An operation ends the same way twice, unless the first failure is excused. -/
inductive Matches (excused : Error → Prop) (R : Store E V C K → Store E V C K → Prop) :
    EStateM.Result Error (Store E V C K) α → EStateM.Result Error (Store E V C K) α → Prop
  | ok {s r : Store E V C K} (a : α) (h : R s r) : Matches excused R (.ok a s) (.ok a r)
  | error {s r : Store E V C K} (e : Error) (h : R s r) :
      Matches excused R (.error e s) (.error e r)
  | excuse {e : Error} {s : Store E V C K} {y : EStateM.Result Error (Store E V C K) α}
      (h : excused e) :
      Matches excused R (.error e s) y

namespace Matches
variable {f f' : Store E V C K → Store E V C K}

theorem bind {x x' : Op E V C K β} {k k' : β → Op E V C K α} (hx : Matches excused R (x s) (x' r))
    (hk : ∀ b {s r}, R s r → Matches excused R (k b s) (k' b r)) :
    Matches excused R ((x >>= k) s) ((x' >>= k') r) := by
  change Matches excused R (EStateM.bind x k s) (EStateM.bind x' k' r)
  unfold EStateM.bind
  generalize x s = a at hx
  generalize x' r = b at hx
  cases hx with
  | ok a h => exact hk a h
  | error e h => exact .error e h
  | excuse h => exact .excuse h

theorem answer (a : α) (h : R s r) :
    Matches excused R ((pure a : Op E V C K α) s) ((pure a : Op E V C K α) r) :=
  .ok a h

theorem failure (e : Error) (h : R s r) :
    Matches excused R ((throw e : Op E V C K α) s) ((throw e : Op E V C K α) r) :=
  .error e h

theorem read {k k' : Store E V C K → Op E V C K α} (h : Matches excused R (k s s) (k' r r)) :
    Matches excused R ((get >>= k) s) ((get >>= k') r) := h

theorem write (h : R (f s) (f' r)) :
    Matches excused R ((modify f : Op E V C K PUnit) s) ((modify f' : Op E V C K PUnit) r) :=
  .ok PUnit.unit h

theorem write_then {k k' : PUnit → Op E V C K α}
    (h : Matches excused R (k ⟨⟩ (f s)) (k' ⟨⟩ (f' r))) :
    Matches excused R ((modify f >>= k) s) ((modify f' >>= k') r) := h

theorem unbroken {op : Op E V C K Unit} (h : Matches excused R (op s) (op r)) :
    Matches excused R (Store.unbroken op s) (Store.unbroken op r) :=
  .bind h fun _ _ _ hR => .answer none hR

end Matches

theorem isObjection_of_checkDependees [DecidableEq E] [ToString E] [ToString V] {depender : String}
    {own : Option (Key E)} {dependees : List (Status E V)} {e : Error}
    (h : checkDependees depender own dependees = .error e) : e.isObjection = true := by
  induction dependees with
  | nil => cases h
  | cons d ds ih =>
    unfold checkDependees at h
    split at h
    · cases h
      rfl
    · split at h
      · cases h
        rfl
      · exact ih h

theorem Lenient.checkSuspension [DecidableEq E] [ToString E] [ToString V]
    (hv : Lenient excused R) (hR : R s r) (depender : String) (own : Option (Key E))
    (dependees : List (Status E V)) :
    Matches excused R (Store.checkSuspension depender own dependees s)
      (Store.checkSuspension depender own dependees r) := by
  unfold Store.checkSuspension
  cases dependees with
  | nil => exact .error _ hR
  | cons d ds =>
    refine .read ?_
    rcases hv hR with hsame | ⟨hdebug, hexcused⟩
    · rw [hsame]
      split
      · cases Store.checkDependees depender own (d :: ds) with
        | ok u => exact .answer _ hR
        | error e => exact .failure _ hR
      · exact .answer _ hR
    · rw [hdebug, if_pos rfl]
      cases hcheck : Store.checkDependees depender own (d :: ds) with
      | ok u =>
        by_cases hr : r.config.debug = true
        · rw [if_pos hr]
          exact .answer _ hR
        · rw [if_neg hr]
          exact .answer _ hR
      | error e => exact .excuse (hexcused e (isObjection_of_checkDependees hcheck))

theorem answer_of_matches {op : Op E V C K α} (hop : Matches excused R (op s) (op r)) :
    (∃ e, failureOf (s.answer op).1 = some e ∧ excused e) ∨
      (r.answer op).1 = (s.answer op).1 ∧ R (s.answer op).2 (r.answer op).2 := by
  unfold Store.answer
  generalize op s = x at hop
  generalize op r = y at hop
  cases hop with
  | ok a h => exact .inr ⟨rfl, h⟩
  | error e h => exact .inr ⟨rfl, h⟩
  | excuse h => exact .inl ⟨_, rfl, h⟩

namespace Alike

theorem foldl {γ : Type} (hR : R s r) {f : Store E V C K → γ → Store E V C K}
    (hf : ∀ {s r} a, R s r → R (f s a) (f r a)) (l : List γ) : R (l.foldl f s) (l.foldl f r) := by
  induction l generalizing s r with
  | nil => exact hR
  | cons a l ih => exact ih (hf a hR)

variable (h : Alike R) (hR : R s r)
include h hR

theorem isShutdown : r.isShutdown = s.isShutdown := by
  rw [Store.isShutdown, Store.isShutdown, h.queue hR]

theorem cells : r.cells = s.cells := by
  rw [Store.cells, Store.cells, h.table hR]

theorem cell? (id : Nat) : r.cell? id = s.cell? id := by
  rw [Store.cell?, Store.cell?, h.table hR]

theorem inFlight : r.inFlight = s.inFlight := by
  rw [Store.inFlight, Store.inFlight, h.queue hR]

theorem push (task : Task E C K) : R (s.push task) (r.push task) := by
  have hpush := h.setQueue (s.queue.push task) hR
  rwa [Store.push, Store.push, h.queue hR]

theorem schedule (origin : String) (c : C) (e : E) :
    R (s.schedule origin c e) (r.schedule origin c e) :=
  h.push (h.trace _ (h.count _ (fun _ => rfl) hR)) _

theorem modifyCell (id : Nat) (f : Cell E V K → Cell E V K) :
    R (s.modifyCell id f) (r.modifyCell id f) := by
  rw [Store.modifyCell, Store.modifyCell, h.table hR]
  exact h.setTable _ hR

theorem writeCell (c : Cell E V K) : R (s.writeCell c) (r.writeCell c) := h.modifyCell hR c.id _

theorem unlink (d : Depender) (susp : Suspension E V K) :
    R (s.unlink d susp) (r.unlink d susp) := by
  rw [Store.unlink, Store.unlink, h.table hR]
  exact h.setTable _ hR

theorem takeSuspensionIf (d : Depender) (p : Suspension E V K → Bool) :
    (r.takeSuspensionIf d p).1 = (s.takeSuspensionIf d p).1 ∧
      R (s.takeSuspensionIf d p).2 (r.takeSuspensionIf d p).2 := by
  simp only [Store.takeSuspensionIf, h.table hR]
  exact ⟨trivial, h.setTable _ hR⟩

theorem dependerKey (d : Depender) : r.dependerKey d = s.dependerKey d := by
  cases d with
  | cell id => simp only [Store.dependerKey, h.cell? hR]
  | collaborator id => rfl

theorem resume (d : Depender) (dependee : Cell E V K) (susp : Suspension E V K) :
    R (s.resume d dependee susp) (r.resume d dependee susp) := by
  unfold Store.resume
  dsimp only
  have hcount :=
    h.count (fun n => { n with notifications := n.notifications + 1 }) (fun _ => rfl) hR
  rw [h.dependerKey hcount]
  generalize Store.dependerKey _ d = key
  have hunlinked := h.unlink (h.trace (.notification dependee.key key) hcount) d susp
  rw [h.isShutdown hunlinked]
  split
  · exact h.notify _ hunlinked
  · exact h.push hunlinked _

theorem resumeIf (d : Depender) (dependee : Cell E V K) (p : Suspension E V K → Bool) :
    R (s.resumeIf d dependee p) (r.resumeIf d dependee p) := by
  obtain ⟨hsame, hR'⟩ := h.takeSuspensionIf hR d p
  unfold Store.resumeIf
  generalize s.takeSuspensionIf d p = x at hsame hR'
  generalize r.takeSuspensionIf d p = y at hsame hR'
  obtain ⟨taken, s'⟩ := x
  obtain ⟨taken', r'⟩ := y
  obtain rfl : taken' = taken := hsame
  cases taken' with
  | some susp => exact h.resume hR' d dependee susp
  | none => exact hR'

theorem wake (dependee : Cell E V K) (d : Depender) : R (s.wake dependee d) (r.wake dependee d) :=
  h.resumeIf hR d dependee _

theorem trigger (cell : Cell E V K) : R (s.trigger cell) (r.trigger cell) := by
  unfold Store.trigger
  rw [h.cell? hR, h.phase hR]
  split
  · next c _ =>
    dsimp only
    split
    · exact foldl (h.writeCell hR _) (fun c hR => h.schedule hR "triggered" c _) _
    · exact hR
  · exact hR

theorem afterUpdate (cell : Cell E V K) (u : Update E V K) :
    R (s.afterUpdate cell u) (r.afterUpdate cell u) := by
  unfold Store.afterUpdate
  split
  · exact hR
  · dsimp only
    have htold := h.trace (.update u.old u.new)
      (h.notify (.updated cell.key u.new u.dependers.size)
        (h.count (fun n => { n with updates := n.updates + 1 }) (fun _ => rfl) hR))
    have hrest : ∀ {s r}, R s r → R
        (if u.old.isUnknown then (u.dependers.members.foldl (Store.wake cell) s).trigger cell
          else u.dependers.members.foldl (Store.wake cell) s)
        (if u.old.isUnknown then (u.dependers.members.foldl (Store.wake cell) r).trigger cell
          else u.dependers.members.foldl (Store.wake cell) r) := by
      intro s r hR
      have hwoken := foldl hR (fun d hR => h.wake hR cell d) u.dependers.members
      split
      · exact h.trigger hwoken cell
      · exact hwoken
    cases u.dropped with
    | some susp => exact hrest (h.unlink htold _ _)
    | none => exact hrest htold

/-! Operations. -/

theorem freshStamp : Matches excused R (Store.freshStamp s) (Store.freshStamp r) := by
  change Matches excused R (.ok s.nextStamp { s with nextStamp := s.nextStamp + 1 })
    (.ok r.nextStamp { r with nextStamp := r.nextStamp + 1 })
  rw [h.nextStamp hR]
  exact .ok _ (h.setStamp _ hR)

theorem nextEpoch : Matches excused R (Store.nextEpoch s) (Store.nextEpoch r) := by
  change Matches excused R (.ok s.epoch { s with epoch := s.epoch + 1 })
    (.ok r.epoch { r with epoch := r.epoch + 1 })
  rw [h.epoch hR]
  exact .ok _ (h.setEpoch _ hR)

theorem checkRunning : Matches excused R (Store.checkRunning s) (Store.checkRunning r) := by
  refine .read ?_
  rw [h.isShutdown hR]
  split
  · exact .failure _ hR
  · exact .answer _ hR

theorem infoOf (kind : Kind) : Matches excused R (Store.infoOf kind s) (Store.infoOf kind r) := by
  refine .read ?_
  rw [h.schema hR]
  cases s.schema.get kind with
  | ok info => exact .answer _ hR
  | error e => exact .failure _ hR

theorem carryOut (change : Except Error (Update E V K × Cell E V K)) :
    Matches excused R (Store.carryOut change s) (Store.carryOut change r) := by
  unfold Store.carryOut
  split
  · exact .write_then (.answer _ (h.writeCell hR _))
  · exact .failure _ hR

theorem addCollaborator (susp : Suspension E V K) :
    Matches excused R (Store.addCollaborator susp s) (Store.addCollaborator susp r) := by
  refine .read ?_
  rw [h.table hR]
  obtain ⟨added, t⟩ := s.table.addCollaborator susp
  refine .write_then ?_
  cases added with
  | ok id => exact .answer _ (h.setTable t hR)
  | error e => exact .failure _ (h.setTable t hR)

theorem registerDependers [DecidableEq V] [ToString E] (d : Depender) (epoch : Nat)
    (obs : List (Nat × Status E V)) :
    Matches excused R (Store.registerDependers d epoch obs s)
      (Store.registerDependers d epoch obs r) := by
  induction obs generalizing s r with
  | nil => exact .answer _ hR
  | cons p obs ih =>
    refine .read ?_
    rw [h.cell? hR]
    cases s.cell? p.1 with
    | none => exact ih hR
    | some c =>
      dsimp only
      rcases c.addDepender d p.2 with e | ⟨_ | _, c'⟩
      · exact .failure _ hR
      · exact .write (h.resumeIf hR _ _ _)
      · exact .write_then (ih (h.writeCell hR _))

theorem carryOut_checked (hv : Lenient excused R)
    {change : Bool → Except Error (Update E V K × Cell E V K)}
    (hchange : ∀ validate, (∃ e, change true = .error e ∧ e.isObjection = true) ∨
      change validate = change true) :
    Matches excused R (Store.carryOut (change s.config.debug) s)
      (Store.carryOut (change r.config.debug) r) := by
  rcases hv hR with hsame | ⟨hdebug, hexcused⟩
  · rw [hsame]
    exact h.carryOut hR _
  · rw [hdebug]
    rcases hchange r.config.debug with ⟨e, herror, hobjection⟩ | hsame
    · rw [herror]
      exact .excuse (hexcused e hobjection)
    · rw [hsame]
      exact h.carryOut hR _

theorem settleable (waitedOn : Bool) : r.settleable waitedOn = s.settleable waitedOn := by
  simp only [Store.settleable, h.cells hR, h.phase hR]

theorem release (d : Depender) : R (s.release d) (r.release d) := by
  obtain ⟨hsame, hR'⟩ := h.takeSuspensionIf hR d fun _ => true
  unfold Store.release
  generalize s.takeSuspensionIf d _ = x at hsame hR'
  generalize r.takeSuspensionIf d _ = y at hsame hR'
  obtain ⟨taken, s'⟩ := x
  obtain ⟨taken', r'⟩ := y
  obtain rfl : taken' = taken := hsame
  cases taken' with
  | some susp => exact h.unlink hR' d susp
  | none => exact hR'

theorem announceResolved (size : Nat) (m : Cell E V K × Final E V × Update E V K) :
    R (s.announceResolved size m) (r.announceResolved size m) :=
  h.afterUpdate (h.trace _ (h.count _ (fun _ => rfl) (h.notify _ hR))) m.1 m.2.2

theorem fail (e : Error) : R (s.fail e) (r.fail e) := by
  have htold := h.trace (.fault e) (h.notify (.fault e) hR)
  unfold Store.fail
  dsimp only
  generalize (s.notify (.fault e)).trace (.fault e) = q at htold
  rw [h.fault htold, h.queue htold]
  exact h.setQueue q.queue.halt (h.setFault (q.fault.or (some e)) htold)

theorem settleEach {γ : Type} {settle : γ → Op E V C K Bool}
    (hs : ∀ a {s r}, R s r → Matches excused R (settle a s) (settle a r)) (l : List γ) :
    Matches excused R (Store.settleEach settle l s) (Store.settleEach settle l r) := by
  induction l generalizing s r with
  | nil => exact .answer _ hR
  | cons a rest ih =>
    refine .bind (hs a hR) fun changed s r hR => .read ?_
    rw [h.inFlight hR]
    split
    · exact .answer _ hR
    · exact .bind (ih hR) fun _ _ _ hR => .answer _ hR

theorem registerKind (info : KindInfo E V) :
    Matches excused R (Store.registerKind info s) (Store.registerKind info r) := by
  refine .bind (h.checkRunning hR) fun _ s r hR => .write_then (.read ?_)
  have htold := h.notify (.registeringKind info.kind) hR
  rw [h.schema htold]
  cases (s.notify (.registeringKind info.kind)).schema.register info with
  | ok schema => exact .write (h.setSchema schema htold)
  | error e => exact .failure _ htold

theorem infosOf (kinds : List Kind) :
    Matches excused R (kinds.forM (fun kind => discard (Store.infoOf kind)) s)
      (kinds.forM (fun kind => discard (Store.infoOf kind)) r) := by
  induction kinds generalizing s r with
  | nil => exact .answer _ hR
  | cons kind kinds ih =>
    exact .bind (.bind (h.infoOf hR kind) fun _ _ _ hR => .answer _ hR) fun _ _ _ hR => ih hR

theorem scheduleEager (entities : List E) (c : C) :
    Matches excused R (Store.scheduleEager entities c s) (Store.scheduleEager entities c r) :=
  .bind (h.checkRunning hR) fun _ _ _ hR =>
    .write (foldl hR (fun e hR => h.schedule hR "eager" c e) entities)

theorem shutdown : R s.shutdown r.shutdown := by
  unfold Store.shutdown
  dsimp only
  have htold := h.notify .shuttingDown hR
  rw [h.queue htold]
  exact h.setQueue _ htold

section
variable (hphase : ∀ {s r} p, R s r → R { s with phase := p } { r with phase := p })
include hphase

theorem setupPhase (computed delayed : List Kind) :
    Matches excused R (Store.setupPhase computed delayed s) (Store.setupPhase computed delayed r) :=
  .bind (h.checkRunning hR) fun _ _ _ hR =>
    .bind (h.infosOf hR (computed ++ delayed)) fun _ _ _ hR =>
    .write_then (.write (hphase _ (h.notify _ hR)))

theorem registerLazy (kind : Kind) (c : C) :
    Matches excused R (Store.registerLazy kind c s) (Store.registerLazy kind c r) := by
  refine .bind (h.checkRunning hR) fun _ s r hR => .bind (h.infoOf hR kind) fun _ s r hR => .read ?_
  rw [h.phase hR]
  cases s.phase.registerLazy kind c with
  | error e => exact .failure _ hR
  | ok phase =>
    have hset := h.notify (.registeredLazy kind) (hphase phase hR)
    refine .write_then (.write_then (.write ?_))
    rw [h.cells hset]
    exact foldl hset (fun cell hR => h.schedule hR "lazy" c cell.key.entity) _

theorem registerTriggered (kind : Kind) (c : C) :
    Matches excused R (Store.registerTriggered kind c s) (Store.registerTriggered kind c r) := by
  refine .bind (h.checkRunning hR) fun _ s r hR => .bind (h.infoOf hR kind) fun _ s r hR => ?_
  refine .write_then (.write_then (.write ?_))
  have hset := h.notify (.registeredTriggered kind) (hphase (s.phase.registerTriggered kind c) hR)
  rw [h.phase hR, h.cells hset]
  exact foldl hset (fun cell hR => h.schedule hR "triggered" c cell.key.entity) _

end

variable [DecidableEq E]

theorem getOrCreate (key : Key E) :
    Matches excused R (Store.getOrCreate key s) (Store.getOrCreate key r) := by
  refine .read ?_
  rw [h.table hR]
  cases s.table.getOrCreate key with
  | ok made => exact .write_then (.answer _ (h.setTable _ hR))
  | error e => exact .failure _ hR

theorem cellOf (key : Key E) : Matches excused R (Store.cellOf key s) (Store.cellOf key r) :=
  .bind (h.infoOf hR _) fun _ _ _ hR => .bind (h.getOrCreate hR key) fun _ _ _ hR => .answer _ hR

theorem observe (dependees : List (Status E V)) :
    Matches excused R (Store.observe dependees s) (Store.observe dependees r) := by
  induction dependees generalizing s r with
  | nil => exact .answer _ hR
  | cons d ds ih =>
    exact .bind (h.cellOf hR d.key) fun _ _ _ hR => .bind (ih hR) fun _ _ _ hR => .answer _ hR

theorem askFor (key : Key E) : Matches excused R (Store.askFor key s) (Store.askFor key r) := by
  refine .bind (h.getOrCreate hR key) fun made s r hR => ?_
  obtain ⟨c, created⟩ := made
  cases created with
  | false => exact .answer _ hR
  | true =>
    refine .read ?_
    rw [h.phase hR]
    cases s.phase.lazyFor key.kind with
    | some c => exact .write (h.schedule hR _ c _)
    | none => exact .answer _ hR

variable [DecidableEq V] [ToString E] [ToString V]

theorem collaborate (hv : Lenient excused R) (dependees : List (Status E V)) (k : K) :
    Matches excused R (Store.collaborate dependees k s) (Store.collaborate dependees k r) :=
  .bind (hv.checkSuspension hR _ _ _) fun _ _ _ hR =>
    .bind (h.observe hR dependees) fun obs _ _ hR =>
    .bind (h.nextEpoch hR) fun n _ _ hR => .bind (h.addCollaborator hR _) fun _ _ _ hR =>
      h.registerDependers hR _ n obs

variable [Property V]

theorem installFinal (hv : Lenient excused R) (ep : Final E V) :
    Matches excused R (Store.installFinal ep s) (Store.installFinal ep r) := by
  refine .bind (h.cellOf hR ep.key) fun c s r hR =>
    .read (.bind ?_ fun u s r hR => .write (h.afterUpdate hR c u))
  exact h.carryOut_checked hR hv fun validate => c.update_validated (.final ep) validate

theorem contributeTo (hv : Lenient excused R) (c : Cell E V K) (p : Contribution E V) :
    Matches excused R (Store.contributeTo c p s) (Store.contributeTo c p r) := by
  unfold Store.contributeTo
  cases p.applied c.status with
  | error crash => exact .answer _ hR
  | ok new =>
    refine .read (.bind ?_ fun u s r hR => .write_then (.answer none (h.afterUpdate hR c u)))
    exact h.carryOut_checked hR hv fun validate => c.updateWith_validated _ validate

theorem contribute (hv : Lenient excused R) (p : Contribution E V) :
    Matches excused R (Store.contribute p s) (Store.contribute p r) := by
  refine .read ?_
  rw [h.phase hR]
  split
  · exact .failure _ hR
  · exact .bind (h.cellOf hR p.key) fun c s r hR => h.contributeTo hR hv c p

theorem suspend (hv : Lenient excused R) (ep : Interim E V)
    (dependees : List (Status E V)) (k : K) :
    Matches excused R (Store.suspend ep dependees k s) (Store.suspend ep dependees k r) := by
  refine .bind (hv.checkSuspension hR _ _ _) fun _ s r hR =>
    .bind (h.observe hR dependees) fun obs s r hR =>
    .bind (h.cellOf hR ep.key) fun c s r hR => .read (.bind
      (h.carryOut_checked hR hv fun validate => c.update_validated (.interim ep) validate)
      fun u s r hR => ?_)
  refine .bind (h.nextEpoch hR) fun n s r hR => .write_then (.write_then ?_)
  exact h.registerDependers (h.afterUpdate (h.modifyCell hR _ _) c u) _ n obs

theorem perform (hv : Lenient excused R) (a : Action E V C K) :
    Matches excused R (Store.perform a s) (Store.perform a r) := by
  cases a with
  | install ep => exact .unbroken (h.installFinal hR hv ep)
  | suspend ep dependees k => exact .unbroken (h.suspend hR hv ep dependees k)
  | contribute p => exact h.contribute hR hv p
  | collaborate dependees k => exact .unbroken (h.collaborate hR hv dependees k)
  | schedule c e => exact .unbroken (.write (h.schedule hR _ c e))

/-! Giving and asking for values. -/

theorem setFinal (hv : Lenient excused R) (ep : Final E V) :
    Matches excused R (Store.setFinal ep s) (Store.setFinal ep r) :=
  .bind (h.checkRunning hR) fun _ _ _ hR => h.installFinal hR hv ep

theorem fallBackNow (info : KindInfo E V) (key : Key E) :
    Matches excused R (Store.fallBackNow info key s) (Store.fallBackNow info key r) := by
  refine .read ?_
  rw [h.phase hR]
  refine .bind (h.getOrCreate hR key) fun made s' r' hR => ?_
  obtain ⟨c, created⟩ := made
  cases created with
  | false => exact .answer _ hR
  | true =>
    refine .bind (h.freshStamp hR) fun stamp s' r' hR =>
      .write_then (.write_then (.bind ?_ fun u _ _ hR => ?_))
    · exact h.carryOut (h.trace _ (h.count _ (fun _ => rfl) hR)) _
    · exact .write (h.afterUpdate hR c u)

theorem query (key : Key E) : Matches excused R (Store.query key s) (Store.query key r) := by
  have hstatus : ∀ {s r}, R s r →
      Matches excused R ((do return (← get).statusOf key : Op E V C K _) s)
        ((do return (← get).statusOf key : Op E V C K _) r) := by
    intro s r hR
    refine .read ?_
    rw [statusOf, statusOf, h.table hR]
    exact .answer _ hR
  refine .bind (h.checkRunning hR) fun _ s r hR => .read ?_
  rw [h.table hR]
  split
  · refine .bind (h.infoOf hR key.kind) fun info s r hR => .read ?_
    rw [h.phase hR]
    dsimp only
    split
    · exact .bind (h.askFor hR key) fun _ _ _ hR => hstatus hR
    · exact .bind (h.fallBackNow hR info key) fun _ _ _ hR => hstatus hR
  · exact hstatus hR

theorem force (key : Key E) : Matches excused R (Store.force key s) (Store.force key r) :=
  .write_then (.bind (h.query (h.trace _ hR) key) fun _ _ _ hR => .answer _ hR)

/-! Rounds. -/

theorem finalizeIf (id : Nat) (observed : Status E V) (ep : Final E V) :
    Matches excused R (Store.finalizeIf id observed ep s) (Store.finalizeIf id observed ep r) := by
  refine .read ?_
  rw [h.cell? hR]
  cases s.cell? id with
  | none => exact .answer _ hR
  | some c =>
    dsimp only
    rcases c.updateIf observed (.final ep) with e | _ | ⟨u, c'⟩
    · exact .failure _ hR
    · exact .answer _ hR
    · exact .write_then (.answer _ (h.writeCell hR c'))

theorem fallBack (cell : Cell E V K) :
    Matches excused R (Store.fallBack cell s) (Store.fallBack cell r) := by
  refine .read ?_
  rw [h.phase hR]
  refine .bind (h.infoOf hR _) fun info _ _ hR => .bind (h.freshStamp hR) fun stamp _ _ hR =>
    .bind (h.finalizeIf hR _ _ _) fun done s' r' hR => ?_
  cases done with
  | none => exact .answer _ hR
  | some cu =>
    refine .write_then (.write_then (.write_then (.write_then (.answer _ ?_))))
    exact h.afterUpdate (h.trace _ (h.count _ (fun _ => rfl) (h.notify _ hR))) cu.1 cu.2

theorem applyFallbacks (waitedOn : Bool) :
    Matches excused R (Store.applyFallbacks waitedOn s) (Store.applyFallbacks waitedOn r) := by
  refine .read ?_
  rw [h.settleable hR]
  exact h.settleEach hR (fun cell _ _ hR => h.fallBack hR cell) _

theorem finalize (cell : Cell E V K) :
    Matches excused R (Store.finalize cell s) (Store.finalize cell r) := by
  unfold Store.finalize
  generalize cell.status = status
  cases status with
  | unknown key => exact .answer _ hR
  | interim ep =>
    refine .bind (h.infoOf hR _) fun info _ _ hR => .bind (h.freshStamp hR) fun stamp _ _ hR =>
      .bind (h.finalizeIf hR _ _ _) fun done s' r' hR => ?_
    cases done with
    | none => exact .answer _ hR
    | some cu =>
      refine .write_then (.write_then (.write_then (.answer _ ?_)))
      exact h.afterUpdate (h.count _ (fun _ => rfl) (h.notify _ hR)) cu.1 cu.2
  | final ep => exact .answer _ hR

theorem finalizeInterims (waitedOn : Bool) :
    Matches excused R (Store.finalizeInterims waitedOn s) (Store.finalizeInterims waitedOn r) := by
  refine .read ?_
  rw [h.settleable hR]
  exact h.settleEach hR (fun cell _ _ hR => h.finalize hR cell) _

theorem resolveMember (d : Depender) :
    Matches excused R (Store.resolveMember d s) (Store.resolveMember d r) := by
  cases d with
  | collaborator id => exact .answer _ hR
  | cell id =>
    refine .read ?_
    have hstatus : r.status? id = s.status? id := by rw [status?, status?, h.cell? hR]
    rw [hstatus]
    generalize s.status? id = status
    rcases status with _ | _ | ep | _
    · exact .answer _ hR
    · exact .answer _ hR
    · exact .bind (h.infoOf hR _) fun info _ _ hR => .bind (h.freshStamp hR) fun stamp _ _ hR =>
        .bind (h.finalizeIf hR _ _ _) fun _ _ _ hR => .answer _ hR
    · exact .answer _ hR

theorem resolveMembers (group : List Depender) :
    Matches excused R (Store.resolveMembers group s) (Store.resolveMembers group r) := by
  induction group generalizing s r with
  | nil => exact .answer _ hR
  | cons d group ih =>
    exact .bind (h.resolveMember hR d) fun _ _ _ hR => .bind (ih hR) fun _ _ _ hR => .answer _ hR

theorem resolveGroup (delayed group : List Depender) :
    Matches excused R (Store.resolveGroup delayed group s)
      (Store.resolveGroup delayed group r) := by
  unfold Store.resolveGroup
  split
  · exact .answer _ hR
  · refine .write_then
      (.bind (h.resolveMembers (foldl hR (fun d hR => h.release hR d) group) group) ?_)
    intro resolved s r hR
    exact .write_then (.answer _
      (foldl hR (fun m hR => h.announceResolved hR group.length m) resolved))

theorem resolveClosedGroups :
    Matches excused R (Store.resolveClosedGroups s) (Store.resolveClosedGroups r) := by
  refine .read ?_
  have hwaiting : r.waiting = s.waiting := waiting_congr (h.table hR)
  have hdelayed : r.delayedDependers = s.delayedDependers :=
    delayedDependers_congr (h.table hR) (h.phase hR)
  unfold delayedDependers at hdelayed
  rw [hdelayed, hwaiting]
  exact h.settleEach hR (fun group _ _ hR => h.resolveGroup hR _ group) _

theorem settle (cycles fallbacks : Bool) :
    Matches excused R (Store.settle cycles fallbacks s) (Store.settle cycles fallbacks r) := by
  have hthen {x y : Op E V C K Bool} (hx : ∀ {s r}, R s r → Matches excused R (x s) (x r))
      (hy : ∀ {s r}, R s r → Matches excused R (y s) (y r)) {s r : Store E V C K} (hR : R s r) :
      Matches excused R ((x >>= fun done => if done then pure true else y) s)
        ((x >>= fun done => if done then pure true else y) r) := by
    refine .bind (hx hR) fun done s r hR => ?_
    cases done with
    | true => exact .answer _ hR
    | false => exact hy hR
  have hfall (waitedOn : Bool) {s r : Store E V C K} (hR : R s r) :
      Matches excused R (Store.applyFallbacks waitedOn s) (Store.applyFallbacks waitedOn r) :=
    h.applyFallbacks hR waitedOn
  have hgroups {s r : Store E V C K} (hR : R s r) :
      Matches excused R (Store.resolveClosedGroups s) (Store.resolveClosedGroups r) :=
        h.resolveClosedGroups hR
  have hinterims (waitedOn : Bool) {s r : Store E V C K} (hR : R s r) :
      Matches excused R (Store.finalizeInterims waitedOn s) (Store.finalizeInterims waitedOn r) :=
    h.finalizeInterims hR waitedOn
  cases fallbacks <;> cases cycles
  · exact .answer _ hR
  · exact hthen hgroups (hthen (hinterims true) (hinterims false)) hR
  · exact hthen (hfall true) (hthen (hfall false) fun hR => .answer _ hR) hR
  · exact hthen (hfall true)
      (hthen hgroups (hthen (hinterims true) (hthen (hfall false) (hinterims false)))) hR

/-! Calls and acts. -/

theorem serve (hv : Lenient excused R) (c : Call E V C)
    (hphase : c.setsPhase = true → ∀ {s r} p, R s r → R { s with phase := p } { r with phase := p })
    (hlook : c.isInspection = true → (r.serve c).1 = (s.serve c).1) :
    (∃ e, c.failure? (s.serve c).1 = some e ∧ excused e) ∨
      (r.serve c).1 = (s.serve c).1 ∧ R (s.serve c).2 (r.serve c).2 := by
  have hfind (key : Key E) : r.table.find? key = s.table.find? key := by rw [h.table hR]
  cases c with
  | registerKind info => exact answer_of_matches (h.registerKind hR info)
  | setupPhase computed delayed =>
    exact answer_of_matches (h.setupPhase hR (hphase rfl) computed delayed)
  | registerLazy kind c => exact answer_of_matches (h.registerLazy hR (hphase rfl) kind c)
  | registerTriggered kind c => exact answer_of_matches (h.registerTriggered hR (hphase rfl) kind c)
  | scheduleEager entities c => exact answer_of_matches (h.scheduleEager hR entities c)
  | setFinal ep => exact answer_of_matches (h.setFinal hR hv ep)
  | query key => exact answer_of_matches (h.query hR key)
  | force key => exact answer_of_matches (h.force hR key)
  | hasProperty key => exact .inr ⟨congrArg (Option.any _) (hfind key), hR⟩
  | isKnown key => exact .inr ⟨congrArg Option.isSome (hfind key), hR⟩
  | ofKind kind => exact .inr ⟨by simp only [Store.serve, Store.ofKind, h.cells hR], hR⟩
  | finalsOfKind kind =>
    exact .inr ⟨by simp only [Store.serve, Store.finalsOfKind, Store.ofKind, h.cells hR], hR⟩
  | entitiesWith v =>
    exact .inr ⟨by simp only [Store.serve, Store.entitiesWith, Store.finalsOfKind, Store.ofKind,
      h.cells hR], hR⟩
  | properties e => exact .inr ⟨by simp only [Store.serve, Store.properties, h.cells hR], hR⟩
  | stamp =>
    refine .inr ⟨h.nextStamp hR, ?_⟩
    simp only [Store.serve, h.nextStamp hR]
    exact h.setStamp _ hR
  | shutdown => exact .inr ⟨rfl, h.shutdown hR⟩
  | isShutdown => exact .inr ⟨h.isShutdown hR, hR⟩
  | statistics => exact .inr ⟨h.stats hR, hR⟩
  | config => exact .inr ⟨hlook rfl, hR⟩
  | isTraced => exact .inr ⟨hlook rfl, hR⟩
  | events => exact .inr ⟨hlook rfl, hR⟩
  | drainEvents => exact .inr ⟨hlook rfl, h.drain hR⟩

theorem onQuiescence (hcount : ∀ {s r} f, R s r → R (s.count f) (r.count f))
    (cycles fallbacks : Bool) :
    (r.onQuiescence cycles fallbacks).1 = (s.onQuiescence cycles fallbacks).1 ∧
      R (s.onQuiescence cycles fallbacks).2 (r.onQuiescence cycles fallbacks).2 := by
  unfold Store.onQuiescence
  dsimp only
  have hcounted := hcount (fun n => { n with quiescenceRounds := n.quiescenceRounds + 1 }) hR
  rw [h.stats hcounted]
  generalize (s.count fun n => { n with quiescenceRounds :=
    n.quiescenceRounds + 1 }).stats.quiescenceRounds = n
  have htold := h.trace (.quiescence n) hcounted
  have hsettle : Matches (fun _ => False) R _ _ := h.settle htold cycles fallbacks
  generalize Store.settle cycles fallbacks (Store.trace (s.count _) _) = x at hsettle
  generalize Store.settle cycles fallbacks (Store.trace (r.count _) _) = y at hsettle
  cases hsettle with
  | ok changed hR => exact ⟨rfl, h.notify _ hR⟩
  | error e hR => exact ⟨rfl, h.fail hR e⟩
  | excuse h => exact h.elim

end Alike

theorem alike_self {P : Store E V C K → Prop}
    (hP : ∀ {s r}, P s → r.clock = s.clock → r.phase = s.phase → P r) :
    Alike fun s r => r = s ∧ P s where
  schema h := by rw [h.1]
  phase h := by rw [h.1]
  table h := by rw [h.1]
  queue h := by rw [h.1]
  epoch h := by rw [h.1]
  nextStamp h := by rw [h.1]
  stats h := by rw [h.1]
  fault h := by rw [h.1]
  setSchema k h := ⟨by rw [h.1], hP h.2 rfl rfl⟩
  setTable t h := ⟨by rw [h.1], hP h.2 rfl rfl⟩
  setQueue q h := ⟨by rw [h.1], hP h.2 rfl rfl⟩
  setEpoch n h := ⟨by rw [h.1], hP h.2 rfl rfl⟩
  setStamp n h := ⟨by rw [h.1], hP h.2 rfl rfl⟩
  setFault e h := ⟨by rw [h.1], hP h.2 rfl rfl⟩
  count f hf h := ⟨by rw [h.1], hP h.2 (hf _) rfl⟩
  notify n h := ⟨by rw [h.1], hP h.2 rfl rfl⟩
  trace {s _} e h := ⟨by rw [h.1], hP h.2 (clock_trace s e) (trace_phase s e)⟩
  drain {s _} h := by
    refine ⟨by rw [h.1], hP h.2 ?_ ?_⟩ <;> cases ht : s.tracer <;> simp [drainRecords, ht, clock]

variable [DecidableEq E] [DecidableEq V] [ToString E] [ToString V] [Property V]

/-- The fault that an act raises. -/
def raised? (s : Store E V C K) : Act E V C K → Option Error
  | .perform a => failureOf (s.answer (perform a)).1
  | .crash c => some (.computationFailed c.message)
  | .round cycles fallbacks =>
    if s.queue.halted || s.inFlight then none else failureOf (s.answer (settle cycles fallbacks)).1
  | .call _ | .start | .drop | .tell _ => none

/-- The error that an act reports, as the answer of a call or as a fault. -/
def report? (s : Store E V C K) : Act E V C K → Option Error
  | .call c => c.failure? (s.serve c).1
  | a => s.raised? a

/-- What acts do twice is the same, unless the first time reports an error that is excused. -/
theorem Alike.act (h : Alike R) (hR : R s r) (hv : Lenient excused R) (a : Act E V C K)
    (hphase : ∀ c, a = .call c → c.setsPhase = true → ∀ {s r} p,
      R s r → R { s with phase := p } { r with phase := p })
    (hlook : ∀ c, a = .call c → c.isInspection = true → (r.serve c).1 = (s.serve c).1)
    (hcount : a.IsWithin ∨ ∀ {s r} f, R s r → R (s.count f) (r.count f)) :
    (∃ e, s.report? a = some e ∧ excused e) ∨ R (s.act a) (r.act a) := by
  cases a with
  | call c => exact (h.serve hR hv c (hphase c rfl) (hlook c rfl)).imp_right And.right
  | start =>
    obtain hwithin | hcount := hcount
    · exact hwithin.elim
    right
    simp only [Store.act]
    rw [h.queue hR]
    split
    · exact hR
    · cases s.queue.waiting with
      | nil => exact hR
      | cons task rest => exact hcount _ (h.setQueue _ hR)
  | perform a =>
    have hperform := h.perform hR hv a
    simp only [Store.act, report?, raised?, Store.answer]
    generalize Store.perform a s = x at hperform
    generalize Store.perform a r = y at hperform
    cases hperform with
    | ok u hR => exact .inr hR
    | error e hR => exact .inr (h.fail hR e)
    | excuse he => exact .inl ⟨_, rfl, he⟩
  | crash c => exact .inr (h.fail hR _)
  | round cycles fallbacks =>
    obtain hwithin | hcount := hcount
    · exact hwithin.elim
    right
    simp only [Store.act]
    rw [h.queue hR, h.inFlight hR]
    split
    · exact hR
    · exact (h.onQuiescence hR hcount cycles fallbacks).2
  | drop =>
    right
    simp only [Store.act]
    rw [h.queue hR]
    split
    · exact h.setQueue _ hR
    · exact hR
  | tell n => exact .inr (h.notify n hR)

/-! What no operation touches. A store in lockstep with itself goes on showing what it showed. -/

section
variable {P : Store E V C K → Prop}
  (hP : ∀ {s r}, P s → r.clock = s.clock → r.phase = s.phase → P r)
include hP

theorem keeps_act (hs : P s) (a : Act E V C K)
    (hphase : ∀ c, a = .call c → c.setsPhase = true → ∀ {s} p, P s → P { s with phase := p })
    (hcount : a.IsWithin ∨ ∀ {s} f, P s → P (s.count f)) : P (s.act a) := by
  have hv : Lenient (fun _ => False) fun s r => r = s ∧ P s := fun h => .inl (by rw [h.1])
  have hact := (alike_self hP).act ⟨rfl, hs⟩ hv a
    (fun c hc hset s r p h => ⟨by rw [h.1], hphase c hc hset p h.2⟩) (fun _ _ _ => rfl)
    (hcount.imp_right fun hcount s r f h => ⟨by rw [h.1], hcount f h.2⟩)
  simpa using hact

end

theorem act_clock (s : Store E V C K) {a : Act E V C K} (h : a.IsWithin) :
    (s.act a).clock = s.clock := by
  have hP : ∀ {q r : Store E V C K}, q.clock = s.clock → r.clock = q.clock → r.phase = q.phase →
      r.clock = s.clock :=
    fun hq hr _ => hr.trans hq
  exact keeps_act hP rfl a (fun _ _ _ _ _ hq => hq) (.inl h)

theorem act_phase (s : Store E V C K) {a : Act E V C K}
    (h : ∀ c, a = .call c → c.setsPhase = false) : (s.act a).phase = s.phase := by
  have hP : ∀ {q r : Store E V C K}, q.phase = s.phase → r.clock = q.clock → r.phase = q.phase →
      r.phase = s.phase :=
    fun hq _ hr => hr.trans hq
  exact keeps_act hP rfl a (fun c hc hset => by simp [h c hc] at hset) (.inr fun _ hq => hq)

end Store
end Blackboard
