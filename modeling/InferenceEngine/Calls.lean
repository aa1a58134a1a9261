import InferenceEngine.Steps

/-!
# The calls of a handler

For each call, its reply and the state after it: with any fate, and when it succeeds.
-/

namespace InferenceEngine

set_option autoImplicit false

/-- No process dies and every call succeeds. -/
def Act.NoFault : Act → Prop
  | .resume _ c => c.fate = .ok
  | .crash _ => False
  | _ => True

def Sys.passAt (s : Sys) (name : ConsumerName) : Option PassPoint :=
  match s.stageOf name with
  | some (.looping p) => some p
  | _ => none

theorem Sys.stageOf_of_passAt {s : Sys} {name : ConsumerName} {p : PassPoint}
    (h : s.passAt name = some p) : s.stageOf name = some (.looping p) := by
  unfold passAt at h
  split at h
  · rename_i hstage
    rw [hstage, Option.some.inj h]
  · cases h

def PassPoint.asksToRead : PassPoint → Bool
  | readCapacity => true
  | _ => false

/-- The id of the entry, and of its job, that the pass dead-letters next. -/
def PassPoint.judged : PassPoint → Option (Nat × UUID)
  | poison e m _ _ => some (e.id, m.jobId)
  | _ => none

theorem Sys.asksToRead_of_passAt {s : Sys} {name : ConsumerName}
    (h : (s.passAt name).any PassPoint.asksToRead = true) :
    s.stageOf name = some (.looping .readCapacity) := by
  obtain ⟨p, hp, hasks⟩ := (Option.any_eq_true _ _).mp h
  cases p with
  | readCapacity => exact stageOf_of_passAt hp
  | _ => cases hasks

theorem Sys.judged_of_passAt {s : Sys} {name : ConsumerName} {x : Nat × UUID}
    (h : (s.passAt name).bind PassPoint.judged = some x) :
    ∃ e m n rest, s.stageOf name = some (.looping (.poison e m n rest)) ∧ e.id = x.1 ∧
      m.jobId = x.2 := by
  obtain ⟨p, hp, hjudged⟩ := Option.bind_eq_some_iff.mp h
  cases p with
  | poison e m n rest =>
    cases hjudged
    exact ⟨e, m, n, rest, stageOf_of_passAt hp, rfl, rfl⟩
  | _ => cases hjudged

def HasStatus (s : Sys) (j : UUID) (status : JobStatus) : Prop :=
  ∃ row, s.rows j = some row ∧ row.status = status

namespace Sys

variable {cfg : Settings} {who : Actor} {c : Choice} {s s' : Sys}

theorem perform_run {t : Nat} {job : InferenceJob} {r : Effect.Reply (.run job)}
    (h : s.perform cfg (.task t) c (.run job) = some (r, s')) :
    r = (c.outcome.map fun (ref, ms) => (ref, ms, c.now)) ∧
      s' = s.record [.ran t job.id c.outcome] :=
  let hpair := Prod.mk.inj (Option.some.inj h)
  ⟨hpair.1.symm, hpair.2.symm⟩

theorem perform_xaddDlq {fields : Fields} {r : Effect.Reply (.xadd .dlq fields)}
    (h : s.perform cfg who c (.xadd .dlq fields) = some (r, s')) :
    (c.fate = .ok ∧ r = .ok (s.redis.dlq.lastId + 1) ∧ s' = s.appendDlq who fields c.trim) ∨
      (c.fate = .failed ∧ r = .error (.redis c.redisError) ∧ s' = s) ∨
      (c.fate = .lost ∧ r = .error (.redis c.redisError) ∧
        s' = s.appendDlq who fields c.trim) := by
  simp only [perform] at h
  split at h
  · exact Choice.reply_eq (Option.some.inj h)
  · cases h

theorem perform_xack {id : Nat} {r : Effect.Reply (.xack id)}
    (h : s.perform cfg who c (.xack id) = some (r, s')) :
    (c.fate = .ok ∧ r = .ok () ∧ s' = s.ackEntry who id) ∨
      (c.fate = .failed ∧ r = .error (.redis c.redisError) ∧ s' = s) ∨
      (c.fate = .lost ∧ r = .error (.redis c.redisError) ∧ s' = s.ackEntry who id) :=
  Choice.reply_eq (Option.some.inj h)

theorem perform_discard {t id : Nat} {τ : Task} {r : Effect.Reply (.discard id)}
    (htask : s.tasks t = some τ)
    (h : s.perform cfg (.task t) c (.discard id) = some (r, s')) :
    s' = s.discardId τ.consumer id := by
  simp only [perform, consumer, htask, Option.map_some] at h
  exact (congrArg Prod.snd (Option.some.inj h)).symm

/-! ### Calls that succeed -/

section
variable {j : UUID} {status : JobStatus} (hc : c.fate = .ok)
include hc

theorem perform_get_ok {row : InferenceJob} {r : Effect.Reply (.get j)}
    (h : s.perform cfg who c (.get j) = some (r, s')) (hrow : s.rows j = some row) :
    r = .ok (row, c.now) ∧ s' = s := by
  obtain ⟨hs, ⟨_, row', hrow', hr⟩ | ⟨_, hnone, _⟩ | ⟨hne, _⟩⟩ := perform_get h
  · obtain rfl : row' = row := Option.some.inj (hrow'.symm.trans hrow)
    exact ⟨hr, hs⟩
  · cases hnone.symm.trans hrow
  · exact absurd hc hne

theorem perform_update_ok {job row : InferenceJob} {r : Effect.Reply (.update job)}
    (h : s.perform cfg who c (.update job) = some (r, s')) (hid : job.id = j)
    (hrow : s.rows j = some row) :
    r = .ok () ∧ s' = { s with rows := Function.update s.rows j (some job),
                               log := s.log ++ [.wrote who job] } := by
  subst hid
  rcases perform_update h with ⟨_, ⟨_, hr⟩ | ⟨hlost, _⟩, _, _, hs⟩ | ⟨_, ⟨hne, _⟩ | ⟨hnone, _⟩⟩
  · exact ⟨hr, hs⟩
  · cases hlost.symm.trans hc
  · exact absurd hc hne
  · cases hnone.symm.trans hrow

theorem perform_xaddWork_ok {fields : Fields} {r : Effect.Reply (.xadd .work fields)}
    (h : s.perform cfg who c (.xadd .work fields) = some (r, s')) :
    r = .ok (s.redis.work.lastId + 1) ∧ s' = s.appendWork (some who) fields c.trim := by
  rcases (perform_xaddWork h).2 with ⟨_, hout⟩ | ⟨hf, _⟩ | ⟨hf, _⟩
  · exact hout
  · cases hf.symm.trans hc
  · cases hf.symm.trans hc

theorem perform_xaddDlq_ok {fields : Fields} {r : Effect.Reply (.xadd .dlq fields)}
    (h : s.perform cfg who c (.xadd .dlq fields) = some (r, s')) :
    r = .ok (s.redis.dlq.lastId + 1) ∧ s' = s.appendDlq who fields c.trim := by
  rcases perform_xaddDlq h with ⟨_, hout⟩ | ⟨hf, _⟩ | ⟨hf, _⟩
  · exact hout
  · cases hf.symm.trans hc
  · cases hf.symm.trans hc

theorem perform_xack_ok {id : Nat} {r : Effect.Reply (.xack id)}
    (h : s.perform cfg who c (.xack id) = some (r, s')) :
    r = .ok () ∧ s' = s.ackEntry who id := by
  rcases perform_xack h with ⟨_, hout⟩ | ⟨hf, _⟩ | ⟨hf, _⟩
  · exact hout
  · cases hf.symm.trans hc
  · cases hf.symm.trans hc

end

end Sys

end InferenceEngine
