import InferenceEngine.Handlers
import InferenceEngine.Pending

/-!
# Who still knows of a job

A job is tracked while its row is terminal or its entry can be reclaimed. The dead-letter
path acknowledges the entry before it fails the row: a worker that dies in between leaves the
job untracked.
-/

namespace InferenceEngine

set_option autoImplicit false

/-- The row is terminal, or the entry is in the pending list. -/
def Tracked (s : Sys) (j : UUID) (id : Nat) : Prop :=
  (∃ row, s.rows j = some row ∧ row.isTerminal = true) ∨ s.redis.isPending id = true

/-- No other actor acknowledges the entry. -/
def OnlyAcker (t id : Nat) (s : Sys) : Act → Prop
  | .resume (.task u) _ => u ≠ t → ∀ τ, s.tasks u = some τ → τ.entry ≠ id
  | .resume (.worker name) _ =>
    ∀ e rest, s.stageOf name = some (.looping (.poisonAck e rest)) → e.id ≠ id
  | _ => True

/-- No other delivery of the job is live, and nothing is trimmed. -/
def SoleDelivery (t : Nat) (j : UUID) (id : Nat) (s : Sys) (a : Act) : Prop :=
  SoleHandler t j s a ∧ OnlyAcker t id s a ∧ a.trim = 0

namespace TaskPoint

/-- The row as the handler last saw it. -/
def copy : TaskPoint → Option InferenceJob
  | writeRunning seen _ => some seen
  | running job => some job
  | writeSuccess seen _ => some seen
  | writePending seen _ => some seen
  | writeFailed seen _ => some seen
  | _ => none

/-- The handler awaits one of the calls that follow its read of the message. -/
def midway : TaskPoint → Bool
  | release _ | finished _ => false
  | _ => true

/-- The message is dead-lettered and acknowledged, the row not yet failed. -/
def inFailWindow : TaskPoint → Bool
  | failGet _ | writeFailed _ _ => true
  | _ => false

theorem copy_of_write {p : TaskPoint} {seen job : InferenceJob} (h : p.write = some (seen, job)) :
    p.copy = some seen := by
  cases p <;> cases h <;> rfl

theorem copy_routed (cfg : BrokerSettings) (m : JobMessage) (x : Except Exn Unit) :
    (routed cfg m x).copy = none ∧ (routed cfg m x).inFailWindow = false := by
  rcases x with e | u
  · cases e with
    | transient msg =>
      simp only [routed]
      split <;> exact ⟨rfl, rfl⟩
    | _ => exact ⟨rfl, rfl⟩
  · exact ⟨rfl, rfl⟩

theorem midway_raised (e : Exn) : (raised e).midway = false := by
  cases e <;> rfl

end TaskPoint

def SuccessWritten (s : Sys) (t : Nat) : Prop :=
  ∃ job, .wrote (.task t) job ∈ s.log ∧ job.status = .success

/-- The row is where the sole handler left it. -/
structure RowInHand (t : Nat) (j : UUID) (s : Sys) (p : TaskPoint) : Prop where
  row : ∃ row, s.rows j = some row ∧ (row.isTerminal = true ↔ SuccessWritten s t)
  copy : ∀ seen, p.copy = some seen → s.rows j = some seen

/-- The entry is on the stream, and pending until it is acknowledged for the dead letter. -/
structure EntryInHand (id : Nat) (s : Sys) (p : TaskPoint) : Prop where
  passed : s.redis.passed id = true
  stream : s.redis.work.has id = true
  pending : s.redis.isPending id = !p.inFailWindow

section
variable {cfg : Settings} {s s' : Sys} {a : Act} {t : Nat} {j : UUID} {id : Nat}

theorem successWritten_of_notBy (ha : a.NotBy t) (h : step cfg s a = some s') :
    SuccessWritten s' t ↔ SuccessWritten s t := by
  obtain ⟨es, hlog, hes⟩ := log_of_notBy ha h
  constructor
  · rintro ⟨job, hmem, hstatus⟩
    rcases List.mem_append.mp (hlog ▸ hmem) with hmem | hmem
    · exact ⟨job, hmem, hstatus⟩
    · exact absurd rfl (hes _ hmem)
  · rintro ⟨job, hmem, hstatus⟩
    exact ⟨job, hlog ▸ List.mem_append_left _ hmem, hstatus⟩

theorem successWritten_append {ev : Event} (hlog : s'.log = s.log ++ [ev]) :
    SuccessWritten s' t ↔
      SuccessWritten s t ∨ ∃ job, ev = .wrote (.task t) job ∧ job.status = .success := by
  constructor
  · rintro ⟨job, hmem, hstatus⟩
    rcases List.mem_append.mp (hlog ▸ hmem) with hmem | hmem
    · exact .inl ⟨job, hmem, hstatus⟩
    · exact .inr ⟨job, (List.mem_singleton.mp hmem).symm, hstatus⟩
  · rintro (⟨job, hmem, hstatus⟩ | ⟨job, rfl, hstatus⟩)
    · exact ⟨job, hlog ▸ List.mem_append_left _ hmem, hstatus⟩
    · exact ⟨job, hlog ▸ List.mem_append_right _ (List.mem_singleton_self _), hstatus⟩

theorem RowInHand.quiet {p p' : TaskPoint} (hp : RowInHand t j s p) (hrows : s'.rows = s.rows)
    (hlog : s'.log = s.log ∨ ∃ ev, s'.log = s.log ++ [ev] ∧ ∀ job, ev ≠ .wrote (.task t) job)
    (hcopy : ∀ seen, p'.copy = some seen → s.rows j = some seen) : RowInHand t j s' p' where
  row := by
    obtain ⟨row, hrow, hiff⟩ := hp.row
    refine ⟨row, hrows ▸ hrow, hiff.trans ?_⟩
    rcases hlog with hlog | ⟨ev, hlog, hev⟩
    · simp only [SuccessWritten, hlog]
    · rw [successWritten_append hlog]
      constructor
      · exact .inl
      · rintro (h | ⟨job, rfl, _⟩)
        · exact h
        · exact absurd rfl (hev job)
  copy := fun seen hseen => hrows ▸ hcopy seen hseen

theorem RowInHand.of_notBy {p : TaskPoint} (hs : Coherent s) (hsole : SoleHandler t j s a)
    (ha : a.NotBy t) (h : step cfg s a = some s') (hp : RowInHand t j s p) :
    RowInHand t j s' p where
  row := by
    obtain ⟨row, hrow, hiff⟩ := hp.row
    exact ⟨row, row_of_notBy hs hsole ha h hrow, hiff.trans (successWritten_of_notBy ha h).symm⟩
  copy := fun seen hseen => row_of_notBy hs hsole ha h (hp.copy seen hseen)

theorem EntryInHand.of_notBy {p : TaskPoint} (hsole : SoleDelivery t j id s a) (ha : a.NotBy t)
    (h : step cfg s a = some s') (hp : EntryInHand id s p) : EntryInHand id s' p := by
  obtain ⟨_, honly, htrim⟩ := hsole
  have hstream : s'.redis.work.has id = true := by
    rcases step_work h with ⟨hwork, _⟩ | ⟨who, fields, _, hredis, _⟩
    · rw [hwork]
      exact hp.stream
    · rw [hredis, htrim]
      exact Stream.has_add _ _ _ hp.stream
  refine ⟨passed_of_step h hp.passed, hstream, ?_⟩
  rw [← hp.pending]
  rcases step_pending h id with hsame | ⟨u, c, name, m, q, rfl, _, htask, _, _, _⟩ |
    ⟨name, c, e, rest, rfl, hid, hstage, _⟩ | hsame | ⟨n, name, g, hg, hredis⟩
  · exact hsame
  · have hut : u ≠ t := by
      rintro rfl
      exact ha c rfl
    exact absurd rfl (honly hut _ htask)
  · exact absurd hid (honly e rest hstage)
  · rw [hsame, hp.stream, Bool.and_true]
  · cases hold : s.redis.isPending id with
    | false => exact not_pending_of_step h hp.passed hold
    | true =>
      have hpend : (s.readGroup name g n).2.redis.isPending id = true := by
        simp only [Redis.isPending, hg, Option.any_some] at hold
        simp [Redis.isPending, Sys.readGroup, Group.isPending_deliver, hold]
      rw [hredis, hpend]

section
variable {c : Choice} {m : JobMessage} {p : TaskPoint} {e : Effect} {k : e.Reply → TaskPoint}
  {r : e.Reply} {s₁ : Sys}

theorem RowInHand.write {p' : TaskPoint} {seen job : InferenceJob} (hj : m.jobId = j)
    (hsound : p.Sound m) (hp : RowInHand t j s p) (hw : p.write = some (seen, job))
    (hne : job.status ≠ .failed) (hrows : s₁.rows = Function.update s.rows job.id (some job))
    (hlog : s₁.log = s.log ++ [.wrote (.task t) job])
    (hcopy : p'.copy = none ∨ p'.copy = some job) : RowInHand t j s₁ p' := by
  have hid : job.id = j := (hsound.write_id hw).trans hj
  have hrow : s₁.rows j = some job := by rw [hrows, hid, Function.update_self]
  have hnot : ¬ SuccessWritten s t := by
    obtain ⟨row, hrow, hiff⟩ := hp.row
    obtain rfl : row = seen :=
      Option.some.inj (hrow.symm.trans (hp.copy seen (TaskPoint.copy_of_write hw)))
    have hterm := (hsound.transition hw).1.not_terminal
    intro hsuccess
    cases hterm.symm.trans (hiff.mpr hsuccess)
  refine ⟨⟨job, hrow, ?_⟩, ?_⟩
  · rw [successWritten_append hlog, InferenceJob.isTerminal_iff]
    constructor
    · rintro (hstatus | hstatus)
      · exact .inr ⟨job, rfl, hstatus⟩
      · exact absurd hstatus hne
    · rintro (h | ⟨job', hev, hstatus⟩)
      · exact absurd h hnot
      · cases hev
        exact .inl hstatus
  · intro seen' hseen'
    rcases hcopy with hnone | hsome
    · cases hnone.symm.trans hseen'
    · obtain rfl : job = seen' := Option.some.inj (hsome.symm.trans hseen')
      exact hrow

theorem RowInHand.update {p' : TaskPoint} {seen job : InferenceJob} {r : Effect.Reply (.update job)}
    (hj : m.jobId = j) (hsound : p.Sound m) (hp : RowInHand t j s p)
    (hw : p.write = some (seen, job)) (hne : job.status ≠ .failed)
    (hperf : s.perform cfg (.task t) c (.update job) = some (r, s₁))
    (hcopy : p'.copy = none ∨ (p'.copy = some job ∧ r = .ok ())) : RowInHand t j s₁ p' := by
  rcases Sys.perform_update hperf with ⟨_, _, row, _, rfl⟩ | ⟨rfl, hr⟩
  · exact hp.write hj hsound hw hne rfl rfl (hcopy.imp_right And.left)
  · refine hp.quiet rfl (.inl rfl) fun seen' hseen' => ?_
    rcases hcopy with hnone | ⟨_, hok⟩
    · cases hnone.symm.trans hseen'
    · rcases hr with ⟨_, hr⟩ | ⟨_, hr⟩ <;> cases hr.symm.trans hok

theorem RowInHand.next (hj : m.jobId = j) (hsound : p.Sound m) (hp : RowInHand t j s p)
    (hnode : p.node cfg.toBrokerSettings id m = .await e k)
    (hperf : s.perform cfg (.task t) c e = some (r, s₁)) (hmid : (k r).midway = true) :
    RowInHand t j s₁ (k r) := by
  have none : ∀ {p' : TaskPoint}, p'.copy = none →
      ∀ seen, p'.copy = some seen → s.rows j = some seen := by
    intro p' hnone seen hseen
    cases hnone.symm.trans hseen
  subst hj
  cases p with
  | guard =>
    cases hnode
    obtain ⟨rfl, _⟩ := Sys.perform_get hperf
    refine hp.quiet rfl (.inl rfl) (none ?_)
    rcases r with x | ⟨job, now⟩
    · cases x <;> rfl
    · simp only [TaskPoint.afterGuard]
      split <;> rfl
  | load =>
    cases hnode
    obtain ⟨rfl, hr⟩ := Sys.perform_get hperf
    refine hp.quiet rfl (.inl rfl) fun seen hseen => ?_
    rcases TaskPoint.afterLoad_cases cfg.toBrokerSettings m r with ⟨job, job', now, rfl, _, h⟩ | ⟨x, h, _⟩
    · rw [h] at hseen
      cases hseen
      rcases hr with ⟨_, job, hrow, hr⟩ | ⟨_, _, hr⟩ | ⟨_, hr⟩ <;> cases hr
      exact hrow
    · rw [h, (TaskPoint.copy_routed _ _ _).1] at hseen
      cases hseen
  | writeRunning seen job =>
    cases hnode
    have hne : job.status ≠ .failed := by
      obtain ⟨_, now, h⟩ := hsound
      obtain ⟨_, rfl⟩ := InferenceJob.markRunning_ok_iff.mp h
      simp
    refine hp.update rfl hsound rfl hne hperf ?_
    rcases r with x | u
    · exact .inl (TaskPoint.copy_routed _ _ _).1
    · exact .inr ⟨rfl, rfl⟩
  | running job =>
    cases hnode
    obtain ⟨_, rfl⟩ := Sys.perform_run hperf
    refine hp.quiet rfl (.inr ⟨_, rfl, fun _ h => by cases h⟩) fun seen hseen => ?_
    rcases TaskPoint.afterRun_cases cfg.toBrokerSettings m job r with ⟨_, _, _, _, _, _, h⟩ | ⟨x, h⟩
    · rw [h] at hseen
      exact hp.copy seen hseen
    · rw [h, (TaskPoint.copy_routed _ _ _).1] at hseen
      cases hseen
  | writeSuccess seen job =>
    cases hnode
    have hne : job.status ≠ .failed := by
      obtain ⟨_, ref, d, now, h⟩ := hsound
      obtain ⟨_, rfl⟩ := InferenceJob.markSuccess_ok_iff.mp h
      simp
    exact hp.update rfl hsound rfl hne hperf (.inl (TaskPoint.copy_routed _ _ _).1)
  | requeueGet =>
    cases hnode
    obtain ⟨rfl, hr⟩ := Sys.perform_get hperf
    refine hp.quiet rfl (.inl rfl) fun seen hseen => ?_
    rcases hr with ⟨_, job, hrow, rfl⟩ | ⟨_, _, rfl⟩ | ⟨_, rfl⟩
    · simp only [TaskPoint.afterRequeueGet] at hseen
      split at hseen <;> cases hseen
      exact hrow
    · cases hseen
    · cases hseen
  | writePending seen job =>
    cases hnode
    have hne : job.status ≠ .failed := by
      obtain ⟨_, now, h⟩ := hsound
      obtain ⟨_, rfl⟩ := InferenceJob.requeue_ok_iff.mp h
      simp
    refine hp.update rfl hsound rfl hne hperf (.inl ?_)
    rcases r with x | u <;> rfl
  | failGet error =>
    cases hnode
    obtain ⟨rfl, hr⟩ := Sys.perform_get hperf
    refine hp.quiet rfl (.inl rfl) fun seen hseen => ?_
    rcases hr with ⟨_, job, hrow, rfl⟩ | ⟨_, _, rfl⟩ | ⟨_, rfl⟩
    · simp only [TaskPoint.afterFailGet] at hseen
      split at hseen <;> cases hseen
      exact hrow
    · cases hseen
    · cases hseen
  | republish =>
    cases hnode
    rcases r with x | u
    · cases (TaskPoint.midway_raised x).symm.trans hmid
    · rcases (Sys.perform_xaddWork hperf).2 with ⟨_, _, rfl⟩ | ⟨_, hr, _⟩ | ⟨_, hr, _⟩
      · exact hp.quiet rfl (.inr ⟨_, rfl, fun _ h => by cases h⟩) (none rfl)
      all_goals cases hr
  | deadLetter reason error =>
    cases hnode
    rcases r with x | u
    · cases (TaskPoint.midway_raised x).symm.trans hmid
    · rcases Sys.perform_xaddDlq hperf with ⟨_, _, rfl⟩ | ⟨_, hr, _⟩ | ⟨_, hr, _⟩
      · exact hp.quiet rfl (.inr ⟨_, rfl, fun _ h => by cases h⟩) (none rfl)
      all_goals cases hr
  | deadLetterAck error =>
    cases hnode
    rcases r with x | u
    · cases hmid
    · rcases Sys.perform_xack hperf with ⟨_, _, rfl⟩ | ⟨_, hr, _⟩ | ⟨_, hr, _⟩
      · exact hp.quiet rfl (.inr ⟨_, rfl, fun _ h => by cases h⟩) (none rfl)
      all_goals cases hr
  | skipAck | successAck | retryAck | writeFailed seen job | release outcome =>
    cases hnode
    cases hmid
  | finished outcome => cases hnode

theorem TaskPoint.inFailWindow_next (hnode : p.node cfg.toBrokerSettings id m = .await e k)
    (hack : p.acks = false) (hmid : (k r).midway = true) :
    (k r).inFailWindow = p.inFailWindow := by
  cases p with
  | guard =>
    cases hnode
    rcases r with x | ⟨job, now⟩
    · cases x <;> rfl
    · simp only [afterGuard]
      split <;> rfl
  | load =>
    cases hnode
    rcases afterLoad_cases cfg.toBrokerSettings m r with ⟨_, _, _, _, _, h⟩ | ⟨x, h, _⟩
    · rw [h]
      rfl
    · rw [h]
      exact (copy_routed _ _ x).2
  | running job =>
    cases hnode
    rcases afterRun_cases cfg.toBrokerSettings m job r with ⟨_, _, _, _, _, _, h⟩ | ⟨x, h⟩
    · rw [h]
      rfl
    · rw [h]
      exact (copy_routed _ _ x).2
  | writeRunning seen job =>
    cases hnode
    rcases r with x | u
    · exact (copy_routed _ _ _).2
    · rfl
  | writeSuccess seen job =>
    cases hnode
    exact (copy_routed _ _ r).2
  | requeueGet =>
    cases hnode
    rcases r with x | ⟨job, now⟩
    · cases x <;> rfl
    · simp only [afterRequeueGet]
      cases job.requeue now <;> rfl
  | failGet error =>
    cases hnode
    rcases r with x | ⟨job, now⟩
    · cases x <;> cases hmid
    · simp only [afterFailGet] at hmid ⊢
      cases hfail : job.markFailed error none now with
      | ok job' => rfl
      | error x =>
        rw [hfail] at hmid
        cases hmid
  | republish | deadLetter reason error =>
    cases hnode
    rcases r with x | u
    · cases (midway_raised x).symm.trans hmid
    · rfl
  | writePending seen job =>
    cases hnode
    rcases r with x | u <;> rfl
  | skipAck | successAck | retryAck | deadLetterAck error => cases hack
  | writeFailed seen job | release outcome =>
    cases hnode
    cases hmid
  | finished outcome => cases hnode

theorem EntryInHand.next (htrim : c.trim = 0) (hp : EntryInHand id s p)
    (hnode : p.node cfg.toBrokerSettings id m = .await e k)
    (hperf : s.perform cfg (.task t) c e = some (r, s₁)) (hmid : (k r).midway = true)
    (h : step cfg s (.resume (.task t) c) = some s') (hs' : s'.redis = s₁.redis) :
    EntryInHand id s' (k r) := by
  have hstream : s'.redis.work.has id = true := by
    rcases step_work h with ⟨hwork, _⟩ | ⟨who, fields, _, hredis, _⟩
    · rw [hwork]
      exact hp.stream
    · have htrim : (Act.resume (.task t) c).trim = 0 := htrim
      rw [hredis, htrim]
      exact Stream.has_add _ _ _ hp.stream
  refine ⟨passed_of_step h hp.passed, hstream, ?_⟩
  cases hack : p.acks with
  | true =>
    cases p with
    | deadLetterAck error =>
      cases hnode
      rcases Sys.perform_xack hperf with ⟨_, rfl, rfl⟩ | ⟨_, rfl, _⟩ | ⟨_, rfl, _⟩
      · rw [hs']
        cases hg : s.redis.group <;>
          simp [Redis.isPending, Sys.ackEntry, hg, Group.isPending_ack, TaskPoint.andThen,
            TaskPoint.inFailWindow]
      · cases hmid
      · cases hmid
    | skipAck | successAck | retryAck =>
      cases hnode
      cases hmid
    | _ => cases hack
  | false =>
    rw [TaskPoint.inFailWindow_next hnode hack hmid, ← hp.pending, hs']
    rcases (Sys.perform_change hperf).pending id with hsame | ⟨rfl, _⟩ | ⟨n, rfl, _⟩ |
      ⟨n, name, g, rfl, _⟩
    · exact hsame
    all_goals cases p <;> cases hnode <;> cases hack

end

theorem inHand_of_exec {acts : List Act} {row : InferenceJob} (hs : Reaches cfg acts s)
    {later : List Act} (hrow : s.rows j = some row) (hterm : row.isTerminal = false)
    (hnew : s.tasks t = none) (hpending : s.redis.isPending id = true)
    (hstream : s.redis.work.has id = true)
    (hP : Runs.Along (step cfg) (SoleDelivery t j id) s later)
    (h : Runs.exec (step cfg) s later = some s') :
    Follows t j (fun s => RowInHand t j s .guard ∧ EntryInHand id s .guard)
      (fun s id' _ p => id' = id → p.midway = true → RowInHand t j s p ∧ EntryInHand id s p)
      s' := by
  have hnot : ¬ SuccessWritten s t := by
    rintro ⟨job, hmem, _⟩
    exact hs.coherent.logged t hnew _ hmem rfl
  have hstart : RowInHand t j s .guard ∧ EntryInHand id s .guard := by
    refine ⟨⟨⟨row, hrow, ?_⟩, fun seen hseen => by cases hseen⟩,
      hs.regular.passed.pending id hpending, hstream, hpending⟩
    rw [hterm]
    exact iff_of_false (by simp) hnot
  refine Follows.exec (P := SoleDelivery t j id) ?_ ?_ ?_ ?_ hs.coherent (.of_new hnew hstart) hP h
  · rintro s a s' hs hP ha h ⟨hrow, hentry⟩
    exact ⟨hrow.of_notBy hs hP.1 ha h, hentry.of_notBy hP ha h⟩
  · rintro s a s' id' m p hs hP ha h _ hphase hid hmid
    obtain ⟨hrow, hentry⟩ := hphase hid hmid
    exact ⟨hrow.of_notBy hs hP.1 ha h, hentry.of_notBy hP ha h⟩
  · rintro s id' m hB _ _ _
    exact hB
  · rintro s c name id' m p e k r s₁ hs ⟨_, _, htrim⟩ hj htask hphase hnode hperf h hid hmid
    subst hid
    have hpmid : p.midway = true := by
      cases p <;> first | rfl | cases hnode
      cases hmid
    obtain ⟨hrow, hentry⟩ := hphase rfl hpmid
    have hrow' := hrow.next hj (hs.sound _ _ _ _ _ htask) hnode hperf hmid
    have hentry' := hentry.next htrim hnode hperf hmid h rfl
    exact ⟨⟨hrow'.row, hrow'.copy⟩, hentry'⟩

/-- Between two awaited calls of a delivery the job is tracked, unless the message was
dead-lettered and acknowledged and the row is not failed yet. -/
theorem tracked_iff_not_inFailWindow {acts later : List Act} {row : InferenceJob}
    (hs : Reaches cfg acts s) (hrow : s.rows j = some row) (hterm : row.isTerminal = false)
    (hnew : s.tasks t = none) (hpending : s.redis.isPending id = true)
    (hstream : s.redis.work.has id = true)
    (hP : Runs.Along (step cfg) (SoleDelivery t j id) s later)
    (h : Runs.exec (step cfg) s later = some s') {name : ConsumerName} {m : JobMessage}
    {p : TaskPoint} (htask : s'.tasks t = some ⟨name, id, .handling m p⟩) (hj : m.jobId = j)
    (hmid : p.midway = true) :
    Tracked s' j id ↔ (p.inFailWindow = false ∨ SuccessWritten s' t) := by
  obtain ⟨hrow', hentry'⟩ :=
    (inHand_of_exec hs hrow hterm hnew hpending hstream hP h).phase name id m p htask hj rfl hmid
  obtain ⟨row', hrow', hiff⟩ := hrow'.row
  constructor
  · rintro (⟨row₁, hrow₁, hterm₁⟩ | hpend)
    · obtain rfl : row' = row₁ := Option.some.inj (hrow'.symm.trans hrow₁)
      exact .inr (hiff.mp hterm₁)
    · have hwindow := hentry'.pending
      rw [hpend] at hwindow
      left
      simpa using hwindow.symm
  · rintro (hwindow | hsuccess)
    · right
      rw [hentry'.pending, hwindow]
      rfl
    · exact .inl ⟨row', hrow', hiff.mpr hsuccess⟩

end

def justRead : List Act := boot 0 ++ submitted 7 ++ .pass 0 :: steps (.worker 0) 4

/-- The pipeline of the job raises `PermanentUpstreamError`; the handler takes `n` further
steps and the worker dies. -/
def failsPermanently (n : Nat) : List Act :=
  steps (.worker 0) 1 ++ steps (.task 0) 3 ++
    .resume (.task 0) { outcome := .error (.permanent []) } :: steps (.task 0) n ++ [.crash 0]

def onlyDelivery (t : Nat) (s : Sys) (a : Act) : Bool :=
  decide (a.trim = 0) &&
    match a with
    | .resume (.task u) _ => decide (u = t)
    | .resume (.worker name) _ =>
      match s.stageOf name with
      | some (.looping (.poisonAck _ _)) => false
      | _ => true
    | _ => true

theorem soleDelivery_of_onlyDelivery {t : Nat} {j : UUID} {id : Nat} (s : Sys) (a : Act)
    (h : onlyDelivery t s a = true) : SoleDelivery t j id s a := by
  obtain ⟨htrim, h⟩ := (Bool.and_eq_true _ _).mp h
  have htrim : a.trim = 0 := of_decide_eq_true htrim
  cases a with
  | resume who c =>
    cases who with
    | submission _ => exact ⟨trivial, trivial, htrim⟩
    | worker name =>
      refine ⟨trivial, fun e rest hstage => ?_, htrim⟩
      simp only [hstage] at h
      cases h
    | task u =>
      obtain rfl : u = t := of_decide_eq_true h
      exact ⟨fun hne => absurd rfl hne, fun hne => absurd rfl hne, htrim⟩
  | _ => exact ⟨trivial, trivial, htrim⟩

def Sys.beforeFailWindow (s : Sys) (t : Nat) (j : UUID) (id : Nat) : Bool :=
  match s.tasks t with
  | some { entry, body := .handling m p, .. } =>
    decide (entry = id ∧ m.jobId = j) && p.midway && !p.inFailWindow
  | _ => false

theorem Sys.beforeFailWindow_iff {s : Sys} {t : Nat} {j : UUID} {id : Nat}
    (h : s.beforeFailWindow t j id = true) :
    ∃ name m p, s.tasks t = some ⟨name, id, .handling m p⟩ ∧ m.jobId = j ∧ p.midway = true ∧
      p.inFailWindow = false := by
  unfold beforeFailWindow at h
  split at h
  · rename_i name id' m p htask
    simp only [Bool.and_eq_true, decide_eq_true_eq, Bool.not_eq_true'] at h
    obtain ⟨⟨⟨rfl, hj⟩, hmid⟩, hwindow⟩ := h
    exact ⟨_, _, _, htask, hj, hmid, hwindow⟩
  · cases h

theorem diedBeforeAck_tracked : ∃ s s', Reaches {} justRead s ∧
    Runs.exec (step {}) s (failsPermanently 1) = some s' ∧ HasStatus s' 7 .running ∧
    Tracked s' 7 1 := by
  obtain ⟨s, hs, hview⟩ := Runs.exec_of_map (step {}) Sys.init justRead
    (fun s => ((s.rows 7).map (·.status),
      (s.tasks 0).isNone && s.redis.isPending 1 && s.redis.work.has 1 &&
        Runs.check (step {}) (onlyDelivery 0) s (failsPermanently 1),
      (Runs.exec (step {}) s (failsPermanently 1)).map fun s' =>
        ((s'.rows 7).map (·.status), s'.beforeFailWindow 0 7 1)))
    (some .pending, true, some (some .running, true)) (by decide +kernel)
  obtain ⟨hrow, hstart, hafter⟩ : _ ∧ _ ∧ _ := by simpa only [Prod.mk.injEq] using hview
  simp only [Bool.and_eq_true, Option.isNone_iff_eq_none] at hstart
  obtain ⟨⟨⟨hnew, hpending⟩, hstream⟩, hcheck⟩ := hstart
  obtain ⟨row, hrow, hstatus⟩ := Option.map_eq_some_iff.mp hrow
  have hterm : row.isTerminal = false :=
    (InferenceJob.isTerminal_eq_false_iff row).mpr (.inl hstatus)
  obtain ⟨s', hs', hview'⟩ := Option.map_eq_some_iff.mp hafter
  obtain ⟨hrow', hbefore⟩ : _ ∧ _ := by simpa only [Prod.mk.injEq] using hview'
  obtain ⟨row', hrow', hrunning⟩ := Option.map_eq_some_iff.mp hrow'
  obtain ⟨name, m, p, htask, hj, hmid, hwindow⟩ := Sys.beforeFailWindow_iff hbefore
  have hiff := tracked_iff_not_inFailWindow hs hrow hterm hnew hpending hstream
    (.of_check soleDelivery_of_onlyDelivery hcheck) hs' htask hj hmid
  exact ⟨s, s', hs, hs', ⟨row', hrow', hrunning⟩, hiff.mpr (.inl hwindow)⟩

/-- A worker that dies after the acknowledgement leaves the row RUNNING for ever. -/
theorem diedAfterAck_untracked : ∃ s, Reaches {} (justRead ++ failsPermanently 2) s ∧
    HasStatus s 7 .running ∧ s.redis.dlq.entries.length = 1 ∧ ¬ Tracked s 7 1 := by
  obtain ⟨s, hs, hview⟩ := Runs.exec_of_map (step {}) Sys.init (justRead ++ failsPermanently 2)
    (fun s => ((s.rows 7).map (·.status), s.redis.dlq.entries.length, s.redis.isPending 1))
    (some .running, 1, false) (by decide +kernel)
  obtain ⟨hrow, hdlq, hpending⟩ : _ ∧ _ ∧ _ := by simpa only [Prod.mk.injEq] using hview
  obtain ⟨row, hrow, hstatus⟩ := Option.map_eq_some_iff.mp hrow
  have hterm : row.isTerminal = false :=
    (InferenceJob.isTerminal_eq_false_iff row).mpr (.inr hstatus)
  refine ⟨s, hs, ⟨row, hrow, hstatus⟩, hdlq, ?_⟩
  rintro (⟨row', hrow', hterm'⟩ | hpend)
  · obtain rfl : row = row' := Option.some.inj (hrow.symm.trans hrow')
    cases hterm.symm.trans hterm'
  · cases hpending.symm.trans hpend

end InferenceEngine
