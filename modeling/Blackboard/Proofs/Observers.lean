import Blackboard.Proofs.Lockstep

/-! Observers. Who observes a store, and what observers were told before, has no part in what
becomes of the store. -/
namespace Blackboard.Store
variable {E V C K : Type} {s q r : Store E V C K}

/-- The stores are the same, except for who observes them and what was told. -/
structure AgreesWith (s r : Store E V C K) : Prop where
  config : r.config = s.config
  workers : r.workers = s.workers
  schema : r.schema = s.schema
  phase : r.phase = s.phase
  /-- The cells and the collaborators. -/
  table : r.table = s.table
  queue : r.queue = s.queue
  stats : r.stats = s.stats
  fault : r.fault = s.fault
  epoch : r.epoch = s.epoch
  nextStamp : r.nextStamp = s.nextStamp

namespace AgreesWith

theorem refl (s : Store E V C K) : s.AgreesWith s := by constructor <;> rfl

theorem of_eq (h : r = s) : s.AgreesWith r := h ▸ .refl s

theorem symm (h : s.AgreesWith r) : r.AgreesWith s :=
  ⟨h.config.symm, h.workers.symm, h.schema.symm, h.phase.symm, h.table.symm,
    h.queue.symm, h.stats.symm, h.fault.symm, h.epoch.symm, h.nextStamp.symm⟩

theorem trans (h : s.AgreesWith q) (h' : q.AgreesWith r) : s.AgreesWith r :=
  ⟨h'.config.trans h.config, h'.workers.trans h.workers, h'.schema.trans h.schema,
    h'.phase.trans h.phase,
    h'.table.trans h.table, h'.queue.trans h.queue, h'.stats.trans h.stats, h'.fault.trans h.fault,
    h'.epoch.trans h.epoch, h'.nextStamp.trans h.nextStamp⟩

theorem notify (s : Store E V C K) (n : Notice E V) : s.AgreesWith (s.notify n) := by
  constructor <;> rfl

theorem trace (s : Store E V C K) (e : Event E V) : s.AgreesWith (s.trace e) := by
  unfold Store.trace
  split
  · exact .refl s
  · exact .refl s
  · constructor <;> rfl
  · exact .notify s _

theorem drain (s : Store E V C K) : s.AgreesWith s.drainRecords.2 := by
  unfold drainRecords
  split
  · constructor <;> rfl
  · exact .refl s

end AgreesWith

theorem agreesWith_alike : Alike (AgreesWith : Store E V C K → Store E V C K → Prop) where
  schema h := h.schema
  phase h := h.phase
  table h := h.table
  queue h := h.queue
  epoch h := h.epoch
  nextStamp h := h.nextStamp
  stats h := h.stats
  fault h := h.fault
  setSchema _ h := { h with schema := rfl }
  setTable _ h := { h with table := rfl }
  setQueue _ h := { h with queue := rfl }
  setEpoch _ h := { h with epoch := rfl }
  setStamp _ h := { h with nextStamp := rfl }
  setFault _ h := { h with fault := rfl }
  count f _ h := { h with stats := congrArg f h.stats }
  notify n h := ((AgreesWith.notify _ n).symm.trans h).trans (.notify _ n)
  trace e h := ((AgreesWith.trace _ e).symm.trans h).trans (.trace _ e)
  drain h := ((AgreesWith.drain _).symm.trans h).trans (.drain _)

variable [DecidableEq E] [DecidableEq V] [Property V] [ToString E] [ToString V]

theorem AgreesWith.act (h : s.AgreesWith r) (a : Act E V C K) : (s.act a).AgreesWith (r.act a) := by
  by_cases hlook : ∃ c, a = .call c ∧ c.isInspection = true
  · -- an inspection may take what was told, and leaves the rest
    have hseen (q : Store E V C K) {c : Call E V C} (hc : c.isInspection = true) :
        q.AgreesWith (q.serve c).2 := by
      cases c with
      | config | isTraced | events => exact .refl q
      | drainEvents => exact .drain q
      | _ => cases hc
    obtain ⟨c, rfl, hc⟩ := hlook
    exact ((hseen s hc).symm.trans h).trans (hseen r hc)
  · have hlenient : Lenient (fun _ => False) (AgreesWith : Store E V C K → Store E V C K → Prop) :=
      fun h => .inl (by rw [h.config])
    have hact := agreesWith_alike.act h hlenient a (fun _ _ _ _ _ _ h => { h with phase := rfl })
      (fun c hc hi => absurd ⟨c, hc, hi⟩ hlook)
      (.inr fun f h => { h with stats := congrArg f h.stats })
    exact hact.resolve_left fun he => he.elim fun _ h => h.2

end Blackboard.Store
