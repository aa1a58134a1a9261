import InferenceEngine.Custody

/-!
# A run as one job sees it

In a run without crash, fault, trimming and takeover, what concerns a job are its submission, its
row, the entries with its id and their handlers, the outcomes of its pipeline and its dead
letters. Every step of the system is a move of the job or changes none of these.
-/

namespace InferenceEngine

set_option autoImplicit false

structure Handling where
  entry : Nat
  message : JobMessage
  point : TaskPoint
  acked : Bool

structure JobRecord where
  row : Option InferenceJob
  outcomes : List (Except Exn (Text × Int))
  deadLetters : List JobMessage

structure JobView extends JobRecord where
  submission : Option (InferenceJob × SubmitPoint)
  messages : List (Nat × JobMessage)
  handlings : Nat → Option Handling

def messageFor (id : UUID) (fields : Fields) : Option JobMessage :=
  match JobMessage.fromFields fields with
  | .ok m => if m.jobId = id then some m else none
  | .error _ => none

def messagesFor (id : UUID) (entries : List StreamEntry) : List (Nat × JobMessage) :=
  entries.filterMap fun e => (messageFor id e.fields).map fun m => (e.id, m)

def Event.outcomeFor (id : UUID) : Event → Option (Except Exn (Text × Int))
  | .ran _ id' outcome => if id' = id then some outcome else none
  | _ => none

namespace Sys

def handlingOf (s : Sys) (id : UUID) (t : Nat) : Option Handling :=
  match s.tasks t with
  | some { entry, body := .handling m p, .. } =>
    if m.jobId = id then some ⟨entry, m, p, s.ackedBy t entry⟩ else none
  | _ => none

def jobView (s : Sys) (id : UUID) : JobView where
  submission := s.submissions id
  row := s.rows id
  messages := messagesFor id s.redis.work.entries
  handlings := s.handlingOf id
  outcomes := s.log.filterMap (Event.outcomeFor id)
  deadLetters := s.redis.dlq.entries.filterMap fun e => messageFor id e.fields

end Sys

def JobView.setHandling (v : JobView) (t : Nat) (h : Handling) : JobView :=
  { v with handlings := Function.update v.handlings t (some h) }

/-- The await acknowledges the handled entry. -/
def Effect.isXack : Effect → Bool
  | .xack _ => true
  | _ => false

/-- One await of a handler of the job, without fault: its reply and what it changes. -/
inductive JobView.Served (id : UUID) (c : Choice) (v : JobView) :
    (e : Effect) → e.Reply → JobView → Prop
  | found (row : InferenceJob) (h : v.row = some row) : Served id c v (.get id) (.ok (row, c.now)) v
  | missing (h : v.row = none) : Served id c v (.get id) (.error (.jobNotFound id)) v
  | update (job row : InferenceJob) (h : v.row = some row) :
      Served id c v (.update job) (.ok ()) { v with row := some job }
  | notUpdated (job : InferenceJob) (h : v.row = none) :
      Served id c v (.update job) (.error (.jobNotFound id)) v
  | run (job : InferenceJob) :
      Served id c v (.run job) (c.outcome.map fun (ref, ms) => (ref, ms, c.now))
        { v with outcomes := v.outcomes ++ [c.outcome] }
  | append (fields : Fields) (m : JobMessage) (n : Nat) (hm : messageFor id fields = some m)
      (hfresh : ∀ x ∈ v.messages, x.1 < n) :
      Served id c v (.xadd .work fields) (.ok n) { v with messages := v.messages ++ [(n, m)] }
  | deadLetter (fields : Fields) (m : JobMessage) (n : Nat) (hm : messageFor id fields = some m) :
      Served id c v (.xadd .dlq fields) (.ok n) { v with deadLetters := v.deadLetters ++ [m] }
  | ack (entry : Nat) : Served id c v (.xack entry) (.ok ()) v
  | discard (entry : Nat) : Served id c v (.discard entry) () v

/-- What can happen to a job. -/
inductive JobView.Moves (cfg : Settings) (id : UUID) (v : JobView) : JobView → Prop
  | submit (ty : JobType) (payload : List (Text × Json)) (created updated : Time)
      (h : v.submission = none) :
      Moves cfg id v
        { v with submission := some (InferenceJob.new ty payload id created updated, .adding) }
  | insert (job : InferenceJob) (h : v.submission = some (job, .adding)) (hrow : v.row = none) :
      Moves cfg id v
        { v with submission := some (job, .publishing (cfg.retryMaxAttempts - 1)), row := some job }
  | clash (job row : InferenceJob) (x : Exn) (h : v.submission = some (job, .adding))
      (hrow : v.row = some row) :
      Moves cfg id v { v with submission := some (job, .finished (.error x)) }
  | publish (job : InferenceJob) (left n : Nat) (h : v.submission = some (job, .publishing left))
      (hfresh : ∀ x ∈ v.messages, x.1 < n) :
      Moves cfg id v
        { v with submission := some (job, .finished (.ok job.id)),
                 messages := v.messages ++ [(n, JobMessage.firstDelivery job)] }
  | take (t entry : Nat) (m : JobMessage) (hm : (entry, m) ∈ v.messages)
      (hfree : ∀ u h, v.handlings u = some h → h.entry ≠ entry) (ht : v.handlings t = none) :
      Moves cfg id v (v.setHandling t ⟨entry, m, .guard, false⟩)
  | handle (t : Nat) (h : Handling) (c : Choice) (e : Effect) (k : e.Reply → TaskPoint)
      (r : e.Reply) (v₁ : JobView) (ht : v.handlings t = some h)
      (hnode : h.point.node cfg.toBrokerSettings h.entry h.message = .await e k)
      (hserved : JobView.Served id c v e r v₁) :
      Moves cfg id v
        (v₁.setHandling t { h with point := k r, acked := h.acked || e.isXack })

section
variable {cfg : Settings} {s s' : Sys} {a : Act} {id : UUID}

theorem messageFor_toFields (m : JobMessage) :
    messageFor id m.toFields = if m.jobId = id then some m else none := by
  simp only [messageFor, JobMessage.fromFields_toFields]

theorem messagesFor_append (entries : List StreamEntry) (e : StreamEntry) :
    messagesFor id (entries ++ [e]) =
      messagesFor id entries ++ ((messageFor id e.fields).map fun m => (e.id, m)).toList := by
  unfold messagesFor
  rw [List.filterMap_append]
  cases h : messageFor id e.fields <;> simp [h]

theorem messageFor_eq_some {fields : Fields} {m : JobMessage} :
    messageFor id fields = some m ↔ JobMessage.fromFields fields = .ok m ∧ m.jobId = id := by
  unfold messageFor
  constructor
  · intro h
    split at h
    · rename_i m' hm
      split at h
      · cases h
        exact ⟨hm, ‹_›⟩
      · cases h
    · cases h
  · rintro ⟨hm, hid⟩
    rw [hm]
    exact if_pos hid

theorem mem_messagesFor {entries : List StreamEntry} {n : Nat} {m : JobMessage} :
    (n, m) ∈ messagesFor id entries ↔
      ∃ e ∈ entries, e.id = n ∧ JobMessage.fromFields e.fields = .ok m ∧ m.jobId = id := by
  unfold messagesFor
  simp only [List.mem_filterMap, Option.map_eq_some_iff, messageFor_eq_some, Prod.mk.injEq]
  constructor
  · rintro ⟨e, he, _, ⟨hm, hid⟩, rfl, rfl⟩
    exact ⟨e, he, rfl, hm, hid⟩
  · rintro ⟨e, he, rfl, hm, hid⟩
    exact ⟨e, he, m, ⟨hm, hid⟩, rfl, rfl⟩

theorem Sys.handlingOf_eq_some {t : Nat} {h : Handling} :
    s.handlingOf id t = some h ↔ ∃ name,
      s.tasks t = some ⟨name, h.entry, .handling h.message h.point⟩ ∧ h.message.jobId = id ∧
        h.acked = s.ackedBy t h.entry := by
  unfold handlingOf
  constructor
  · intro hh
    split at hh
    · rename_i name entry m p htask
      split at hh
      · rename_i hid
        cases hh
        exact ⟨name, htask, hid, rfl⟩
      · cases hh
    · cases hh
  · rintro ⟨name, htask, hid, hacked⟩
    simp only [htask, if_pos hid, Option.some_inj]
    rw [← hacked]

theorem Sys.ackedBy_of_log {evs : List Event} (hlog : s'.log = s.log ++ evs)
    (h : ∀ ev ∈ evs, ev.ackedId = none) (t n : Nat) : s'.ackedBy t n = s.ackedBy t n := by
  unfold ackedBy
  rw [hlog, List.any_append]
  have hnone : (evs.any fun ev =>
      decide (ev.actor = some (.task t) ∧ ev.ackedId = some n)) = false := by
    apply List.any_eq_false.mpr
    intro ev hev
    simp [h ev hev]
  rw [hnone, Bool.or_false]

theorem Sys.ackedBy_ackEntry (s : Sys) (t u n n' : Nat) :
    (s.ackEntry (.task t) n).ackedBy u n' =
      (s.ackedBy u n' || decide (u = t ∧ n' = n)) := by
  simp [ackedBy, ackEntry, Event.actor, Event.ackedId, eq_comm]

theorem Sys.handlingOf_congr {evs : List Event} (hlog : s'.log = s.log ++ evs)
    (hevs : ∀ ev ∈ evs, ev.ackedId = none) (htasks : s'.tasks = s.tasks) :
    s'.handlingOf id = s.handlingOf id := by
  funext t
  unfold handlingOf
  rw [htasks]
  simp only [ackedBy_of_log hlog hevs]

theorem Sys.outcomes_congr {evs : List Event} (hlog : s'.log = s.log ++ evs)
    (hevs : ∀ ev ∈ evs, ev.outcomeFor id = none) :
    s'.log.filterMap (Event.outcomeFor id) = s.log.filterMap (Event.outcomeFor id) := by
  rw [hlog, List.filterMap_append, List.filterMap_eq_nil_iff.mpr hevs, List.append_nil]

theorem Sys.jobView_congr {evs : List Event} (hlog : s'.log = s.log ++ evs)
    (hsub : s'.submissions id = s.submissions id) (hrow : s'.rows id = s.rows id)
    (hwork : s'.redis.work = s.redis.work) (hdlq : s'.redis.dlq = s.redis.dlq)
    (htasks : s'.tasks = s.tasks)
    (hevs : ∀ ev ∈ evs, ev.ackedId = none ∧ ev.outcomeFor id = none) :
    s'.jobView id = s.jobView id := by
  unfold jobView
  rw [hsub, hrow, hwork, hdlq, handlingOf_congr hlog (fun ev hev => (hevs ev hev).1) htasks,
    outcomes_congr hlog fun ev hev => (hevs ev hev).2]

theorem Sys.jobView_of_submission (s s₁ : Sys) (evs : List Event) (htasks : s₁.tasks = s.tasks)
    (hlog : s₁.log = s.log ++ evs) (hevs : ∀ ev ∈ evs, ev.ackedId = none ∧ ev.outcomeFor id = none)
    (job : InferenceJob) (p : SubmitPoint) :
    (s₁.setSubmission job p).jobView id =
      { submission := (s₁.setSubmission job p).submissions id
        row := s₁.rows id
        messages := messagesFor id s₁.redis.work.entries
        handlings := (s.jobView id).handlings
        outcomes := (s.jobView id).outcomes
        deadLetters := s₁.redis.dlq.entries.filterMap fun e => messageFor id e.fields } := by
  have hlog' : (s₁.setSubmission job p).log = s.log ++ evs := hlog
  unfold jobView
  rw [handlingOf_congr hlog' (fun ev hev => (hevs ev hev).1) htasks,
    outcomes_congr hlog' fun ev hev => (hevs ev hev).2]
  rfl

theorem Sys.handlingOf_setTask (s : Sys) (id : UUID) (t : Nat) (name : ConsumerName) (entry : Nat)
    (m : JobMessage) (p : TaskPoint) :
    (s.setTask t ⟨name, entry, .handling m p⟩).handlingOf id =
      Function.update (s.handlingOf id) t
        (if m.jobId = id then some ⟨entry, m, p, s.ackedBy t entry⟩ else none) := by
  funext u
  by_cases hu : u = t
  · subst hu
    simp only [handlingOf, setTask, Function.update_self]
    rfl
  · simp only [handlingOf, setTask, Function.update_of_ne hu]
    rfl

/-- What a task logs concerns its own entry. -/
theorem Sys.ackedBy_of_actor {evs : List Event} {t : Nat} (hlog : s'.log = s.log ++ evs)
    (hactor : ∀ ev ∈ evs, ev.actor = some (.task t)) {u : Nat} (hu : u ≠ t) (n : Nat) :
    s'.ackedBy u n = s.ackedBy u n := by
  unfold ackedBy
  rw [hlog, List.any_append]
  have hnone : (evs.any fun ev =>
      decide (ev.actor = some (.task u) ∧ ev.ackedId = some n)) = false := by
    apply List.any_eq_false.mpr
    intro ev hev
    simp [hactor ev hev, hu.symm]
  rw [hnone, Bool.or_false]

theorem Sys.jobView_of_task (s s₁ : Sys) (evs : List Event) {t : Nat}
    (hsub : s₁.submissions = s.submissions) (htasks : s₁.tasks = s.tasks)
    (hlog : s₁.log = s.log ++ evs) (hactor : ∀ ev ∈ evs, ev.actor = some (.task t))
    (name : ConsumerName) (entry : Nat) (m : JobMessage) (p : TaskPoint) :
    (s₁.setTask t ⟨name, entry, .handling m p⟩).jobView id =
      { submission := (s.jobView id).submission
        row := s₁.rows id
        messages := messagesFor id s₁.redis.work.entries
        handlings := Function.update (s.jobView id).handlings t
          (if m.jobId = id then some ⟨entry, m, p, s₁.ackedBy t entry⟩ else none)
        outcomes := (s.jobView id).outcomes ++ evs.filterMap (Event.outcomeFor id)
        deadLetters := s₁.redis.dlq.entries.filterMap fun e => messageFor id e.fields } := by
  have hhandlings : Function.update (s₁.handlingOf id) t
        (if m.jobId = id then some ⟨entry, m, p, s₁.ackedBy t entry⟩ else none) =
      Function.update (s.handlingOf id) t
        (if m.jobId = id then some ⟨entry, m, p, s₁.ackedBy t entry⟩ else none) := by
    funext u
    by_cases hu : u = t
    · subst hu
      simp only [Function.update_self]
    · simp only [Function.update_of_ne hu, handlingOf, htasks, ackedBy_of_actor hlog hactor hu]
  unfold jobView
  rw [handlingOf_setTask, hhandlings]
  simp only [setTask_submissions, setTask_rows, setTask_redis, setTask_log, hsub, hlog,
    List.filterMap_append]

inductive Effect.Asked (entry : Nat) (m : JobMessage) : Effect → Prop
  | get : Asked entry m (.get m.jobId)
  | update (job : InferenceJob) (h : job.id = m.jobId) : Asked entry m (.update job)
  | run (job : InferenceJob) (h : job.id = m.jobId) : Asked entry m (.run job)
  | republish : Asked entry m (.xadd .work m.nextAttempt.toFields)
  | deadLetter (reason : Text) : Asked entry m (.xadd .dlq (deadLetterFields m reason))
  | ack : Asked entry m (.xack entry)
  | discard : Asked entry m (.discard entry)

theorem TaskPoint.asked {cfg : BrokerSettings} {entry : Nat} {m : JobMessage} {p : TaskPoint}
    {e : Effect} {k : e.Reply → TaskPoint} (hsound : p.Sound m)
    (hnode : p.node cfg entry m = .await e k) : e.Asked entry m := by
  cases p with
  | guard | load | requeueGet | failGet error =>
    cases hnode
    exact .get
  | writeRunning seen job | writeSuccess seen job | writePending seen job | writeFailed seen job =>
    cases hnode
    exact .update job (hsound.write_id rfl)
  | running job =>
    cases hnode
    exact .run job hsound.1
  | republish =>
    cases hnode
    exact .republish
  | deadLetter reason error =>
    cases hnode
    exact .deadLetter reason
  | skipAck | successAck | retryAck | deadLetterAck error =>
    cases hnode
    exact .ack
  | release outcome =>
    cases hnode
    exact .discard
  | finished outcome => cases hnode

theorem Sys.entries_appendWork (s : Sys) (who : Option Actor) (fields : Fields) :
    (s.appendWork who fields 0).redis.work.entries =
      s.redis.work.entries ++ [⟨s.redis.work.lastId + 1, fields⟩] := by
  simp [appendWork, Stream.add]

theorem Sys.entries_appendDlq (s : Sys) (who : Actor) (fields : Fields) :
    (s.appendDlq who fields 0).redis.dlq.entries =
      s.redis.dlq.entries ++ [⟨s.redis.dlq.lastId + 1, fields⟩] := by
  simp [appendDlq, Stream.add]

section
variable {c : Choice} {t entry : Nat} {name : ConsumerName} {m : JobMessage} {p : TaskPoint}
  {e : Effect} {r : e.Reply} {s₁ : Sys}

/-- An await of a handler of the job, as the job sees it. -/
theorem Sys.served_of_perform (hs : Retained cfg s) (hfate : c.fate = .ok) (htrim : c.trim = 0)
    (htask : s.tasks t = some ⟨name, entry, .handling m p⟩) (hasked : e.Asked entry m)
    (hperf : s.perform cfg (.task t) c e = some (r, s₁)) (p' : TaskPoint) :
    ∃ v₁, JobView.Served m.jobId c (s.jobView m.jobId) e r v₁ ∧
      (s₁.setTask t ⟨name, entry, .handling m p'⟩).jobView m.jobId =
        v₁.setHandling t ⟨entry, m, p', s.ackedBy t entry || e.isXack⟩ := by
  cases hasked with
  | get =>
    obtain ⟨rfl, ⟨_, row, hrow, rfl⟩ | ⟨_, hnone, rfl⟩ | ⟨hne, _⟩⟩ := perform_get hperf
    · refine ⟨_, .found row hrow, ?_⟩
      rw [jobView_of_task s₁ s₁ [] rfl rfl (by simp) (by simp)]
      simp [JobView.setHandling, Effect.isXack, jobView]
    · refine ⟨_, .missing hnone, ?_⟩
      rw [jobView_of_task s₁ s₁ [] rfl rfl (by simp) (by simp)]
      simp [JobView.setHandling, Effect.isXack, jobView]
    · exact absurd hfate hne
  | update job hid =>
    rcases perform_update hperf with ⟨_, ⟨_, rfl⟩ | ⟨hlost, _⟩, row, hrow, hs₁⟩ |
      ⟨rfl, ⟨hne, _⟩ | ⟨hnone, rfl⟩⟩
    · rw [hid] at hrow
      refine ⟨_, .update job row hrow, ?_⟩
      have hlog : s₁.log = s.log ++ [.wrote (.task t) job] := by rw [hs₁]
      have hacked : s₁.ackedBy t entry = s.ackedBy t entry :=
        ackedBy_of_log hlog (by simp [Event.ackedId]) t entry
      rw [jobView_of_task s s₁ _ (by rw [hs₁]) (by rw [hs₁]) hlog (by simp [Event.actor]), hacked, hs₁]
      simp [JobView.setHandling, Effect.isXack, jobView, hid, Event.outcomeFor]
    · cases hlost.symm.trans hfate
    · exact absurd hfate hne
    · rw [hid] at hnone
      rw [hid]
      refine ⟨_, .notUpdated job hnone, ?_⟩
      rw [jobView_of_task s₁ s₁ [] rfl rfl (by simp) (by simp)]
      simp [JobView.setHandling, Effect.isXack, jobView]
  | run job hid =>
    obtain ⟨rfl, rfl⟩ := perform_run hperf
    refine ⟨_, .run job, ?_⟩
    have hacked : (s.record [.ran t job.id c.outcome]).ackedBy t entry = s.ackedBy t entry :=
      ackedBy_of_log rfl (by simp [Event.ackedId]) t entry
    rw [jobView_of_task s (s.record [.ran t job.id c.outcome]) _ rfl rfl rfl (by simp [Event.actor]),
      hacked]
    simp [JobView.setHandling, Effect.isXack, jobView, hid, Event.outcomeFor, record]
  | republish =>
    obtain ⟨rfl, rfl⟩ := perform_xaddWork_ok hfate hperf
    have hm : messageFor m.jobId m.nextAttempt.toFields = some m.nextAttempt := by
      rw [messageFor_toFields]
      exact if_pos rfl
    refine ⟨_, .append _ _ _ hm ?_, ?_⟩
    · intro x hx
      obtain ⟨y, hy, hyid, _⟩ := mem_messagesFor.mp hx
      have hle := hs.window.num_le hy
      omega
    · have hacked : (s.appendWork (some (.task t)) m.nextAttempt.toFields 0).ackedBy t entry =
          s.ackedBy t entry := ackedBy_of_log rfl (by simp [Event.ackedId]) t entry
      rw [htrim, jobView_of_task s (s.appendWork (some (.task t)) m.nextAttempt.toFields 0) _ rfl rfl
        rfl (by simp [Event.actor]), hacked, entries_appendWork, messagesFor_append]
      simp [JobView.setHandling, Effect.isXack, jobView, Event.outcomeFor, hm, appendWork]
  | deadLetter reason =>
    obtain ⟨rfl, rfl⟩ := perform_xaddDlq_ok hfate hperf
    have hm : messageFor m.jobId (deadLetterFields m reason) = some m :=
      messageFor_eq_some.mpr ⟨fromFields_deadLetterFields m reason, rfl⟩
    refine ⟨_, .deadLetter _ _ _ hm, ?_⟩
    have hacked : (s.appendDlq (.task t) (deadLetterFields m reason) 0).ackedBy t entry =
        s.ackedBy t entry := ackedBy_of_log rfl (by simp [Event.ackedId]) t entry
    rw [htrim, jobView_of_task s (s.appendDlq (.task t) (deadLetterFields m reason) 0) _ rfl rfl rfl
      (by simp [Event.actor]), hacked, entries_appendDlq]
    simp [JobView.setHandling, Effect.isXack, jobView, Event.outcomeFor, hm, appendDlq]
  | ack =>
    obtain ⟨rfl, rfl⟩ := perform_xack_ok hfate hperf
    refine ⟨_, .ack entry, ?_⟩
    rw [jobView_of_task s (s.ackEntry (.task t) entry) _ rfl rfl rfl (by simp [Event.actor]),
      ackedBy_ackEntry]
    simp [JobView.setHandling, Effect.isXack, jobView, Event.outcomeFor, ackEntry]
  | discard =>
    obtain rfl := perform_discard htask hperf
    refine ⟨_, .discard entry, ?_⟩
    have hacked : (s.discardId name entry).ackedBy t entry = s.ackedBy t entry := rfl
    rw [jobView_of_task s (s.discardId name entry) [] rfl rfl (by simp [discardId]) (by simp),
      hacked]
    simp [JobView.setHandling, Effect.isXack, jobView, discardId]

theorem Sys.jobView_handlings (htask : s.tasks t = some ⟨name, entry, .handling m p⟩)
    (hid : m.jobId ≠ id) : Function.update (s.jobView id).handlings t none =
      (s.jobView id).handlings := by
  apply Function.update_eq_self_iff.mpr
  simp only [jobView, handlingOf, htask, if_neg hid]

theorem Sys.jobView_of_other (hid : m.jobId ≠ id) (hfate : c.fate = .ok) (htrim : c.trim = 0)
    (htask : s.tasks t = some ⟨name, entry, .handling m p⟩) (hasked : e.Asked entry m)
    (hperf : s.perform cfg (.task t) c e = some (r, s₁)) (p' : TaskPoint) :
    (s₁.setTask t ⟨name, entry, .handling m p'⟩).jobView id = s.jobView id := by
  have hupdate := jobView_handlings htask hid
  cases hasked with
  | get =>
    obtain ⟨rfl, _⟩ := perform_get hperf
    rw [jobView_of_task s₁ s₁ [] rfl rfl (by simp) (by simp), if_neg hid, hupdate]
    simp [jobView]
  | update job hjob =>
    rcases perform_update hperf with ⟨_, _, row, hrow, hs₁⟩ | ⟨rfl, _⟩
    · rw [jobView_of_task s s₁ [.wrote (.task t) job] (by rw [hs₁]) (by rw [hs₁]) (by rw [hs₁])
        (by simp [Event.actor]), if_neg hid, hupdate, hs₁]
      simp [jobView, hjob, Function.update_of_ne (Ne.symm hid), Event.outcomeFor]
    · rw [jobView_of_task s₁ s₁ [] rfl rfl (by simp) (by simp), if_neg hid, hupdate]
      simp [jobView]
  | run job hjob =>
    obtain ⟨rfl, rfl⟩ := perform_run hperf
    rw [jobView_of_task s (s.record [.ran t job.id c.outcome]) _ rfl rfl rfl (by simp [Event.actor]),
      if_neg hid, hupdate]
    simp [jobView, record, Event.outcomeFor, hjob, hid]
  | republish =>
    obtain ⟨rfl, rfl⟩ := perform_xaddWork_ok hfate hperf
    have hm : messageFor id m.nextAttempt.toFields = none := by
      rw [messageFor_toFields]
      exact if_neg hid
    rw [htrim, jobView_of_task s (s.appendWork (some (.task t)) m.nextAttempt.toFields 0) _ rfl rfl
      rfl (by simp [Event.actor]), entries_appendWork, messagesFor_append, if_neg hid, hupdate]
    simp [jobView, appendWork, Event.outcomeFor, hm]
  | deadLetter reason =>
    obtain ⟨rfl, rfl⟩ := perform_xaddDlq_ok hfate hperf
    have hm : messageFor id (deadLetterFields m reason) = none := by
      unfold messageFor
      rw [fromFields_deadLetterFields]
      exact if_neg hid
    rw [htrim, jobView_of_task s (s.appendDlq (.task t) (deadLetterFields m reason) 0) _ rfl rfl rfl
      (by simp [Event.actor]), entries_appendDlq, if_neg hid, hupdate]
    simp [jobView, appendDlq, Event.outcomeFor, hm]
  | ack =>
    obtain ⟨rfl, rfl⟩ := perform_xack_ok hfate hperf
    rw [jobView_of_task s (s.ackEntry (.task t) entry) _ rfl rfl rfl (by simp [Event.actor]),
      if_neg hid, hupdate]
    simp [jobView, ackEntry, Event.outcomeFor]
  | discard =>
    obtain rfl := perform_discard htask hperf
    rw [jobView_of_task s (s.discardId name entry) [] rfl rfl (by simp [discardId]) (by simp),
      if_neg hid, hupdate]
    simp [jobView, discardId]

end

def Effect.isGroupCall : Effect → Bool
  | .xgroupCreate | .xautoclaim _ | .xpending _ | .xreadgroup _ | .inFlight _ | .freeCapacity => true
  | _ => false

theorem Sys.jobView_of_groupCall {who : Actor} {c : Choice} {e : Effect} {r : e.Reply} {s₁ : Sys}
    (hperf : s.perform cfg who c e = some (r, s₁)) (he : e.isGroupCall = true) :
    s₁.jobView id = s.jobView id := by
  cases perform_change hperf with
  | refl => rfl
  | create hf hnone => rfl
  | claim n name g start f hf hc hg h hw => rfl
  | read n name g hf hc hg =>
    have hlog : (s.readGroup name g n).2.log =
        s.log ++ ((g.unread s.redis.work).take n.toNat).map (.delivered name) := rfl
    apply jobView_congr hlog rfl rfl rfl rfl rfl
    intro ev hev
    obtain ⟨x, _, rfl⟩ := List.mem_map.mp hev
    exact ⟨rfl, rfl⟩
  | _ => cases he

theorem Sys.moves_of_dispatch (hreg : Regular cfg s) (hcust : Custody s) {name : ConsumerName}
    {e : StreamEntry} {rest : List StreamEntry} (hold : s.newAt name = e :: rest) :
    (s.startTask name e.id e.fields).jobView id = s.jobView id ∨
      JobView.Moves cfg id (s.jobView id) ((s.startTask name e.id e.fields).jobView id) := by
  have hmem : e ∈ s.newAt name := hold ▸ List.mem_cons_self
  obtain ⟨hentry, _⟩ := hcust.listed name e hmem
  obtain ⟨m, hm⟩ := hcust.decoded e hentry
  have hfresh : s.tasks s.nextTask = none := hreg.coherent.fresh _ le_rfl
  have hunacked : s.ackedBy s.nextTask e.id = false := by
    apply List.any_eq_false.mpr
    intro ev hev
    simp [hreg.coherent.logged _ hfresh ev hev]
  have hview : (s.startTask name e.id e.fields).jobView id =
      (s.setTask s.nextTask ⟨name, e.id, .handling m .guard⟩).jobView id := by
    simp only [startTask, TaskBody.of, hm]
    rfl
  rw [hview, jobView_of_task s s [] rfl rfl (by simp) (by simp)]
  by_cases hid : m.jobId = id
  · refine .inr ?_
    have htake : JobView.Moves cfg id (s.jobView id)
        ((s.jobView id).setHandling s.nextTask ⟨e.id, m, .guard, false⟩) := by
      apply JobView.Moves.take
      · exact mem_messagesFor.mpr ⟨e, hentry, rfl, hm, hid⟩
      · intro u h hh heq
        obtain ⟨other, htask, _⟩ := handlingOf_eq_some.mp hh
        have hheld : Holds s e.id (.task u) := ⟨_, htask, heq⟩
        have hpass : Holds s e.id (.pass name) := ⟨e, hmem, rfl⟩
        cases hcust.unique _ _ _ hheld hpass
      · simp only [jobView, handlingOf, hfresh]
    simpa [hid, hunacked, JobView.setHandling, jobView] using htake
  · refine .inl ?_
    have hnone : (s.jobView id).handlings s.nextTask = none := by
      simp only [jobView, handlingOf, hfresh]
    rw [if_neg hid, Function.update_eq_self_iff.mpr hnone.symm]
    simp [jobView]

/-- A submission inserts the row of its job and appends the first pointer to it. -/
theorem Sys.moves_of_submission (hreg : Regular cfg s) {c : Choice} {job : InferenceJob}
    {p : SubmitPoint} {e : Effect} {k : e.Reply → SubmitPoint} {r : e.Reply} {s₁ : Sys}
    (hfate : c.fate = .ok) (htrim : c.trim = 0) (hsub : s.submissions id = some (job, p))
    (hnode : p.node cfg.retryMaxAttempts job = .await e k)
    (hperf : s.perform cfg (.submission id) c e = some (r, s₁)) :
    JobView.Moves cfg id (s.jobView id) ((s₁.setSubmission job (k r)).jobView id) := by
  obtain rfl : job.id = id := hreg.coherent.submitted_id hsub
  cases p with
  | adding =>
    cases hnode
    simp only [perform, Choice.reply_of_ok hfate, insertRow] at hperf
    cases hrow : s.rows job.id with
    | none =>
      rw [hrow] at hperf
      obtain ⟨rfl, hs₁⟩ := Prod.mk.inj (Option.some.inj hperf)
      rw [jobView_of_submission s s₁ [] (by rw [← hs₁]) (by simp [← hs₁]) (by simp), ← hs₁]
      have hinsert : JobView.Moves cfg job.id (s.jobView job.id) _ := .insert job hsub hrow
      simpa [jobView, SubmitPoint.afterAdd] using hinsert
    | some row =>
      rw [hrow] at hperf
      obtain ⟨rfl, rfl⟩ := Prod.mk.inj (Option.some.inj hperf)
      rw [jobView_of_submission s s [] rfl (by simp) (by simp)]
      have hclash : JobView.Moves cfg job.id (s.jobView job.id) _ :=
        .clash job row uniqueViolation hsub hrow
      simpa [jobView, SubmitPoint.afterAdd] using hclash
  | publishing left =>
    cases hnode
    obtain ⟨rfl, rfl⟩ := perform_xaddWork_ok hfate hperf
    have hfresh : ∀ x ∈ (s.jobView job.id).messages, x.1 < s.redis.work.lastId + 1 := by
      intro x hx
      obtain ⟨y, hy, hyid, _⟩ := mem_messagesFor.mp hx
      have hle := hreg.retained.window.num_le hy
      omega
    have hpublish : JobView.Moves cfg job.id (s.jobView job.id) _ :=
      .publish job left (s.redis.work.lastId + 1) hsub hfresh
    have hm : messageFor job.id (JobMessage.firstDelivery job).toFields =
        some (JobMessage.firstDelivery job) := by
      rw [messageFor_toFields]
      exact if_pos rfl
    rw [htrim, jobView_of_submission s
      (s.appendWork (some (.submission job.id)) (JobMessage.firstDelivery job).toFields 0) _ rfl rfl
      (by simp [Event.ackedId, Event.outcomeFor]), entries_appendWork, messagesFor_append]
    simpa [jobView, SubmitPoint.afterPublish, hm, appendWork] using hpublish
  | finished outcome => cases hnode

theorem Sys.jobView_of_otherSubmission {c : Choice} {job : InferenceJob} {p : SubmitPoint}
    {e : Effect} {k : e.Reply → SubmitPoint} {r : e.Reply} {s₁ : Sys} (hid : job.id ≠ id)
    (hfate : c.fate = .ok) (htrim : c.trim = 0)
    (hnode : p.node cfg.retryMaxAttempts job = .await e k)
    (hperf : s.perform cfg (.submission job.id) c e = some (r, s₁)) :
    (s₁.setSubmission job (k r)).jobView id = s.jobView id := by
  cases p with
  | adding =>
    cases hnode
    simp only [perform, Choice.reply_of_ok hfate, insertRow] at hperf
    cases hrow : s.rows job.id with
    | none =>
      rw [hrow] at hperf
      obtain ⟨rfl, hs₁⟩ := Prod.mk.inj (Option.some.inj hperf)
      rw [jobView_of_submission s s₁ [] (by rw [← hs₁]) (by simp [← hs₁]) (by simp), ← hs₁]
      simp [jobView, Function.update_of_ne (Ne.symm hid)]
    | some row =>
      rw [hrow] at hperf
      obtain ⟨rfl, rfl⟩ := Prod.mk.inj (Option.some.inj hperf)
      rw [jobView_of_submission s s [] rfl (by simp) (by simp)]
      simp [jobView, Function.update_of_ne (Ne.symm hid)]
  | publishing left =>
    cases hnode
    obtain ⟨rfl, rfl⟩ := perform_xaddWork_ok hfate hperf
    have hm : messageFor id (JobMessage.firstDelivery job).toFields = none := by
      rw [messageFor_toFields]
      exact if_neg hid
    rw [htrim, jobView_of_submission s
      (s.appendWork (some (.submission job.id)) (JobMessage.firstDelivery job).toFields 0) _ rfl rfl
      (by simp [Event.ackedId, Event.outcomeFor]), entries_appendWork, messagesFor_append]
    simp [jobView, hm, appendWork, Function.update_of_ne (Ne.symm hid)]
  | finished outcome => cases hnode

/-- Every step of a calm run is a move of the job or concerns it not. -/
theorem view_of_step (hreg : Regular cfg s) (hu : Undisturbed s) (hcust : Custody s)
    (hcalm : Calm s a) (h : step cfg s a = some s') (id : UUID) :
    s'.jobView id = s.jobView id ∨ JobView.Moves cfg id (s.jobView id) (s'.jobView id) := by
  have hfate := hcalm.calls
  have htrim := hcalm.trim
  cases Sys.step_cases h with
  | submit ty payload id' created updated hfresh =>
    rw [Sys.jobView_of_submission s s [] rfl (by simp) (by simp)]
    by_cases hid : id' = id
    · subst hid
      refine .inr ?_
      have hsubmit : JobView.Moves cfg id' (s.jobView id') _ :=
        .submit ty payload created updated hfresh
      simpa [Sys.jobView, InferenceJob.new] using hsubmit
    · refine .inl ?_
      simp [Sys.jobView, InferenceJob.new, Function.update_of_ne (Ne.symm hid)]
  | submission id' c job p e k r s₁ hsub hnode hperf =>
    obtain rfl : job.id = id' := hreg.coherent.submitted_id hsub
    by_cases hid : job.id = id
    · subst hid
      exact .inr (Sys.moves_of_submission hreg hfate htrim hsub hnode hperf)
    · exact .inl (Sys.jobView_of_otherSubmission hid hfate htrim hnode hperf)
  | starting name c w p e k r s₁ hw hst hnode hperf =>
    refine .inl ?_
    cases p with
    | creating =>
      cases hnode
      have hview : s₁.jobView id = s.jobView id := Sys.jobView_of_groupCall hperf rfl
      exact hview
    | finished outcome => cases hnode
  | looping name c w p e k r s₁ hw hst hnode hperf =>
    have hlooping : s.stageOf name = some (.looping p) := by
      rw [Sys.stageOf, hw, Option.map_some, hst]
    cases p with
    | reclaimCapacity | readCapacity | autoclaim n | check x rest | query x rest | read n =>
      cases hnode
      have hview : s₁.jobView id = s.jobView id := Sys.jobView_of_groupCall hperf rfl
      exact .inl hview
    | dispatchNew x rest total =>
      cases hnode
      obtain rfl : s.startTask name x.id x.fields = s₁ := congrArg Prod.snd (Option.some.inj hperf)
      exact Sys.moves_of_dispatch hreg hcust (Sys.newAt_of_looping hlooping)
    | dispatchClaimed x rest | poison x m n rest | poisonAck x rest =>
      cases hu.owners name _ hlooping
    | finished outcome => cases hnode
  | task t c name entry m p w q e k r s₁ htask hw hst hnode hperf =>
    have hasked := TaskPoint.asked (hreg.coherent.sound _ _ _ _ _ htask) hnode
    by_cases hid : m.jobId = id
    · subst hid
      obtain ⟨v₁, hserved, hview⟩ :=
        Sys.served_of_perform hreg.retained hfate htrim htask hasked hperf (k r)
      have hhandling : (s.jobView m.jobId).handlings t =
          some ⟨entry, m, p, s.ackedBy t entry⟩ :=
        Sys.handlingOf_eq_some.mpr ⟨name, htask, rfl, rfl⟩
      rw [hview]
      exact .inr (.handle t _ c e k r v₁ hhandling hnode hserved)
    · exact .inl (Sys.jobView_of_other hid hfate htrim htask hasked hperf (k r))
  | crash name w hw => exact hcalm.calls.elim
  | inject fields trim htrim' => exact absurd rfl (hcalm.own fields trim)
  | start name hfresh | pass name w hw hst | reap t τ htask hdone => exact .inl rfl

end

end InferenceEngine
