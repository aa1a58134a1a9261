import InferenceEngine.Payloads
import InferenceEngine.TerminalRows
import Mathlib.Logic.Relation

/-!
# Rows are histories

Handlers write back copies they read earlier, so a row may be overwritten by an older state of its
job. Whatever is written has nevertheless come from the submitted job by moves of the state
machine, and the fields of every row agree with its status.
-/

namespace InferenceEngine

set_option autoImplicit false

/-- A move of the broker: a success comes with a duration, a failure without. -/
inductive Moved : InferenceJob → InferenceJob → Prop
  | markRunning {job job' : InferenceJob} (now : Time) (h : job.markRunning now = .ok job') :
      Moved job job'
  | markSuccess {job job' : InferenceJob} (ref : Text) (ms : Int) (now : Time)
      (h : job.markSuccess ref (some ms) now = .ok job') : Moved job job'
  | markFailed {job job' : InferenceJob} (error : Text) (now : Time)
      (h : job.markFailed error none now = .ok job') : Moved job job'
  | requeue {job job' : InferenceJob} (now : Time) (h : job.requeue now = .ok job') :
      Moved job job'

/-- What was submitted under the id has become the job. -/
def Lived (s : Sys) (job : InferenceJob) : Prop :=
  ∃ first p, s.submissions job.id = some (first, p) ∧ Relation.ReflTransGen Moved first job

structure OutcomeFields (job : InferenceJob) : Prop where
  attempts : 0 ≤ job.attempts
  attempted : job.status ≠ .pending → 1 ≤ job.attempts
  resultRef : job.resultRef.isSome = true ↔ job.status = .success
  durationMs : job.durationMs.isSome = true ↔ job.status = .success
  error : job.error.isSome = true ↔ job.status = .failed

section
variable {job job' : InferenceJob}

theorem Moved.transition (h : Moved job job') : Transition job job' := by
  cases h with
  | markRunning now h => exact .of_markRunning h
  | markSuccess ref ms now h => exact .of_markSuccess h
  | markFailed error now h => exact .of_markFailed h
  | requeue now h => exact .of_requeue h

theorem Moved.createdAt (h : Moved job job') : job'.createdAt = job.createdAt := by
  cases h with
  | markRunning now h =>
    obtain ⟨_, rfl⟩ := InferenceJob.markRunning_ok_iff.mp h
    rfl
  | markSuccess ref ms now h =>
    obtain ⟨_, rfl⟩ := InferenceJob.markSuccess_ok_iff.mp h
    rfl
  | markFailed error now h =>
    obtain ⟨_, rfl⟩ := InferenceJob.markFailed_ok_iff.mp h
    rfl
  | requeue now h =>
    obtain ⟨_, rfl⟩ := InferenceJob.requeue_ok_iff.mp h
    rfl

theorem OutcomeFields.unset (h : OutcomeFields job) (hs : job.status = .pending ∨
    job.status = .running) : job.resultRef = none ∧ job.durationMs = none ∧ job.error = none := by
  have hsuccess : job.status ≠ .success := by
    rcases hs with hs | hs <;> simp [hs]
  have hfailed : job.status ≠ .failed := by
    rcases hs with hs | hs <;> simp [hs]
  refine ⟨?_, ?_, ?_⟩
  · apply Option.not_isSome_iff_eq_none.mp
    exact fun hsome => hsuccess (h.resultRef.mp hsome)
  · apply Option.not_isSome_iff_eq_none.mp
    exact fun hsome => hsuccess (h.durationMs.mp hsome)
  · apply Option.not_isSome_iff_eq_none.mp
    exact fun hsome => hfailed (h.error.mp hsome)

theorem OutcomeFields.moved (h : OutcomeFields job) (hmoved : Moved job job') :
    OutcomeFields job' := by
  have hattempts := h.attempts
  cases hmoved with
  | markRunning now hmark =>
    obtain ⟨hs, rfl⟩ := InferenceJob.markRunning_ok_iff.mp hmark
    obtain ⟨href, hms, _⟩ := h.unset (.inl hs)
    constructor
    · dsimp only
      omega
    · intro _
      dsimp only
      omega
    · simp [href]
    · simp [hms]
    · simp
  | markSuccess ref ms now hmark =>
    obtain ⟨hs, rfl⟩ := InferenceJob.markSuccess_ok_iff.mp hmark
    obtain ⟨_, _, herror⟩ := h.unset (.inr hs)
    have hattempted := h.attempted (by simp [hs])
    exact ⟨hattempts, fun _ => hattempted, by simp, by simp, by simp [herror]⟩
  | markFailed error now hmark =>
    obtain ⟨hs, rfl⟩ := InferenceJob.markFailed_ok_iff.mp hmark
    obtain ⟨href, hms, _⟩ := h.unset (.inr hs)
    have hattempted := h.attempted (by simp [hs])
    exact ⟨hattempts, fun _ => hattempted, by simp [href], by simp [hms], by simp⟩
  | requeue now hmark =>
    obtain ⟨hs, rfl⟩ := InferenceJob.requeue_ok_iff.mp hmark
    obtain ⟨href, hms, herror⟩ := h.unset (.inr hs)
    exact ⟨hattempts, fun hne => absurd rfl hne, by simp [href], by simp [hms], by simp [herror]⟩

theorem outcomeFields_new (ty : JobType) (payload : List (Text × Json)) (id : UUID)
    (created updated : Time) : OutcomeFields (.new ty payload id created updated) where
  attempts := Int.le_refl 0
  attempted h := absurd rfl h
  resultRef := by simp [InferenceJob.new]
  durationMs := by simp [InferenceJob.new]
  error := by simp [InferenceJob.new]

theorem OutcomeFields.history (h : OutcomeFields job)
    (hmoves : Relation.ReflTransGen Moved job job') : OutcomeFields job' := by
  induction hmoves with
  | refl => exact h
  | tail hmoves hmoved ih => exact ih.moved hmoved

theorem identity_of_history (hmoves : Relation.ReflTransGen Moved job job') :
    job'.id = job.id ∧ job'.jobType = job.jobType ∧ job'.payload = job.payload ∧
      job'.createdAt = job.createdAt := by
  induction hmoves with
  | refl => exact ⟨rfl, rfl, rfl, rfl⟩
  | tail hmoves hmoved ih =>
    obtain ⟨hid, htype, hpayload, hcreated⟩ := ih
    have ht := hmoved.transition
    exact ⟨ht.id.trans hid, ht.jobType.trans htype, ht.payload.trans hpayload,
      hmoved.createdAt.trans hcreated⟩

end

namespace TaskPoint

variable {cfg : BrokerSettings} {id : Nat} {m : JobMessage}

/-- What a handler holds next it has held, has read, or gets by a move. -/
theorem copies_moved {Q : InferenceJob → Prop}
    (hQ : ∀ before after, Moved before after → Q before → Q after) {p : TaskPoint} {e : Effect}
    {k : e.Reply → TaskPoint} {r : e.Reply} (hp : ∀ job ∈ p.copies, Q job)
    (hnode : p.node cfg id m = .await e k) (hr : RowRead Q e r) :
    ∀ job ∈ (k r).copies, Q job := by
  have empty : ∀ {q : TaskPoint}, q.copies = [] → ∀ job ∈ q.copies, Q job := by
    intro q hq job hjob
    rw [hq] at hjob
    cases hjob
  have pair : ∀ {seen job : InferenceJob}, Moved seen job → Q seen → ∀ x ∈ [seen, job], Q x := by
    intro seen job hmoved hseen x hx
    rcases List.mem_cons.mp hx with rfl | hx
    · exact hseen
    · rw [List.mem_singleton.mp hx]
      exact hQ seen job hmoved hseen
  cases p with
  | guard =>
    cases hnode
    rcases r with x | ⟨job, now⟩
    · cases x <;> exact empty rfl
    · rw [afterGuard]
      split <;> exact empty rfl
  | load =>
    cases hnode
    rcases afterLoad_cases cfg m r with ⟨job, job', now, rfl, hrun, h⟩ | ⟨x, h, _⟩
    · rw [h]
      exact pair (.markRunning now hrun) (hr job now rfl)
    · rw [h]
      exact empty (copies_routed cfg m x)
  | writeRunning seen job =>
    cases hnode
    rcases r with x | u
    · exact empty (copies_routed cfg m _)
    · intro x hx
      exact hp x (List.mem_cons_of_mem _ hx)
  | running job =>
    cases hnode
    rcases afterRun_cases cfg m job r with ⟨ref, ms, now, job', rfl, hsucc, h⟩ | ⟨x, h⟩
    · rw [h]
      exact pair (.markSuccess ref ms now hsucc) (hp job (List.mem_singleton_self _))
    · rw [h]
      exact empty (copies_routed cfg m x)
  | writeSuccess seen job =>
    cases hnode
    exact empty (copies_routed cfg m r)
  | requeueGet =>
    cases hnode
    rcases r with x | ⟨job, now⟩
    · cases x <;> exact empty rfl
    · rw [afterRequeueGet]
      cases hreq : job.requeue now with
      | ok job' => exact pair (.requeue now hreq) (hr job now rfl)
      | error x => exact empty rfl
  | failGet error =>
    cases hnode
    rcases r with x | ⟨job, now⟩
    · cases x <;> exact empty rfl
    · rw [afterFailGet]
      cases hfail : job.markFailed error none now with
      | ok job' => exact pair (.markFailed error now hfail) (hr job now rfl)
      | error x => exact empty rfl
  | republish | deadLetter reason error =>
    cases hnode
    rcases r with x | u
    · cases x <;> exact empty rfl
    · exact empty rfl
  | writePending seen job | deadLetterAck error =>
    cases hnode
    rcases r with x | u <;> exact empty rfl
  | skipAck | successAck | retryAck | writeFailed seen job | release outcome =>
    cases hnode
    exact empty rfl
  | finished outcome => cases hnode

end TaskPoint

/-- Every row and every copy in hand is a history. -/
structure Histories (s : Sys) : Prop where
  rows : ∀ id row, s.rows id = some row → Lived s row
  copies : ∀ t name id m p, s.tasks t = some ⟨name, id, .handling m p⟩ →
    ∀ job ∈ p.copies, Lived s job

section
variable {cfg : Settings} {s s' : Sys} {a : Act}

theorem Lived.moved {job job' : InferenceJob} (hmoved : Moved job job') (h : Lived s job) :
    Lived s job' := by
  obtain ⟨first, p, hfirst, hmoves⟩ := h
  exact ⟨first, p, by rwa [hmoved.transition.id], hmoves.tail hmoved⟩

theorem Lived.of_step (hs : Coherent s) (h : step cfg s a = some s') {job : InferenceJob}
    (hlived : Lived s job) : Lived s' job := by
  obtain ⟨first, p, hfirst, hmoves⟩ := hlived
  obtain ⟨p', hfirst'⟩ := submission_of_step hs h hfirst
  exact ⟨first, p', hfirst', hmoves⟩

theorem Histories.init : Histories Sys.init where
  rows := by
    intro id row hrow
    cases hrow
  copies := by
    intro t name id m p htask
    cases htask

theorem Histories.rowRead (hs : Histories s) {who : Actor} {c : Choice} {e : Effect} {r : e.Reply}
    (h : s.perform cfg who c e = some (r, s')) : TaskPoint.RowRead (Lived s) e r := by
  cases e with
  | get id =>
    intro job now hr
    obtain ⟨_, ⟨_, row, hrow, hreply⟩ | ⟨_, _, hreply⟩ | ⟨_, hreply⟩⟩ := Sys.perform_get h
    · rw [hr] at hreply
      obtain ⟨rfl, _⟩ := Prod.mk.inj (Except.ok.inj hreply)
      exact hs.rows id job hrow
    · cases hr.symm.trans hreply
    · cases hr.symm.trans hreply
  | _ => trivial

theorem Histories.step_rows (hcoh : Coherent s) (hs : Histories s) (h : step cfg s a = some s')
    (id : UUID) (row : InferenceJob) (hrow : s'.rows id = some row) : Lived s row := by
  have written : ∀ job : InferenceJob, s'.rows = Function.update s.rows job.id (some job) →
      Lived s job → Lived s row := by
    intro job hr hlived
    rw [hr, Function.update_apply] at hrow
    split at hrow
    · cases hrow
      exact hlived
    · exact hs.rows id row hrow
  rcases InferenceEngine.step_rows h with hr | ⟨j, c, job, _, hsub, _, hr⟩ |
    ⟨t, c, name, n, m, p, seen, job, _, _, _, htask, hwrite, _, hr⟩
  · exact hs.rows id row (hr ▸ hrow)
  · apply written job hr
    exact ⟨job, .adding, by rwa [hcoh.submitted_id hsub], .refl⟩
  · apply written job hr
    exact hs.copies t name n m p htask job (TaskPoint.mem_copies_of_write hwrite)

theorem Histories.step_copies (hs : Histories s) (h : step cfg s a = some s') {t id : Nat}
    {name : ConsumerName} {m : JobMessage} {p : TaskPoint}
    (htask : s'.tasks t = some ⟨name, id, .handling m p⟩) : ∀ job ∈ p.copies, Lived s job := by
  rcases handling_of_step h htask with hold | rfl | ⟨c, q, e, k, r, s₁, _, hold, hnode, hperf, rfl⟩
  · exact hs.copies t name id m p hold
  · intro job hjob
    cases hjob
  · exact TaskPoint.copies_moved (fun before after hmoved hlived => hlived.moved hmoved)
      (hs.copies t name id m q hold) hnode (hs.rowRead hperf)

theorem Histories.step (hcoh : Coherent s) (hs : Histories s) (h : step cfg s a = some s') :
    Histories s' where
  rows := fun id row hrow => (hs.step_rows hcoh h id row hrow).of_step hcoh h
  copies := fun _ _ _ _ _ htask job hjob => (hs.step_copies h htask job hjob).of_step hcoh h

theorem Reaches.histories {acts : List Act} (h : Reaches cfg acts s) : Histories s :=
  (Runs.invariant (I := fun s => Coherent s ∧ Histories s) (P := fun _ _ => True)
    (fun _ _ _ hs _ h => ⟨hs.1.step h, hs.2.step hs.1 h⟩) ⟨.init, .init⟩ (.trivial _ _) h).2

theorem Reaches.outcomeFields {acts : List Act} (h : Reaches cfg acts s) {j : UUID}
    {row : InferenceJob} (hrow : s.rows j = some row) : OutcomeFields row := by
  obtain ⟨first, p, hfirst, hmoves⟩ := h.histories.rows j row hrow
  obtain ⟨ty, payload, created, updated, rfl⟩ := h.coherent.submitted row.id first p hfirst
  exact (outcomeFields_new ty payload row.id created updated).history hmoves

/-- In every reachable state each row has come from the job that was submitted under its id by
moves of the state machine, and its outcome fields agree with its status. -/
theorem row_history {acts : List Act} (h : Reaches cfg acts s) {j : UUID} {row : InferenceJob}
    (hrow : s.rows j = some row) :
    (∃ first p, s.submissions j = some (first, p) ∧ Relation.ReflTransGen Moved first row) ∧
      OutcomeFields row := by
  obtain ⟨first, p, hfirst, hmoves⟩ := h.histories.rows j row hrow
  rw [h.coherent.keyed j row hrow] at hfirst
  exact ⟨⟨first, p, hfirst, hmoves⟩, h.outcomeFields hrow⟩

/-! ### Rows without a pointer -/

/-- No entry that was ever appended names the job. -/
def Unnamed (j : UUID) (s : Sys) : Prop :=
  ∀ e, Appended s e → ∀ m, JobMessage.fromFields e.fields = .ok m → m.jobId ≠ j

/-- The row is missing or stands as it was submitted. -/
def Untaken (j : UUID) (s : Sys) : Prop :=
  ∀ row, s.rows j = some row → ∃ p, s.submissions j = some (row, p)

theorem named_of_write (hcoh : Coherent s) (happ : AllAppended s) {t id : Nat}
    {name : ConsumerName} {m : JobMessage} {p : TaskPoint} {seen job : InferenceJob}
    (htask : s.tasks t = some ⟨name, id, .handling m p⟩) (hwrite : p.write = some (seen, job)) :
    ¬ Unnamed job.id s := by
  intro hfree
  obtain ⟨e, he, _, hdecoded⟩ := happ.tasks t _ htask
  have hid : job.id = m.jobId := (hcoh.sound t name id m p htask).write_id hwrite
  exact hfree e he m hdecoded hid.symm

theorem Untaken.step (hcoh : Coherent s) (happ : AllAppended s) {j : UUID} (hs : Untaken j s)
    (hfree : Unnamed j s) (h : step cfg s a = some s') : Untaken j s' := by
  intro row hrow
  have kept : s.rows j = some row → ∃ p, s'.submissions j = some (row, p) := by
    intro hold
    obtain ⟨p, hp⟩ := hs row hold
    exact submission_of_step hcoh h hp
  rcases InferenceEngine.step_rows h with hr | ⟨id, c, job, _, hsub, _, hr⟩ |
    ⟨t, c, name, n, m, p, seen, job, _, _, _, htask, hwrite, _, hr⟩
  · exact kept (hr ▸ hrow)
  · rw [hr, Function.update_apply] at hrow
    split at hrow
    · rename_i hj
      cases hrow
      rw [hcoh.submitted_id hsub] at hj
      subst hj
      exact submission_of_step hcoh h hsub
    · exact kept hrow
  · rw [hr, Function.update_apply] at hrow
    split at hrow
    · rename_i hj
      exact absurd (hj ▸ hfree) (named_of_write hcoh happ htask hwrite)
    · exact kept hrow

/-- A row that no appended entry names is, in every reachable state, still the job as it was
submitted: pending, never attempted, without an outcome. -/
theorem orphan_inert {acts : List Act} (h : Reaches cfg acts s) {j : UUID} {row : InferenceJob}
    (hrow : s.rows j = some row) (hfree : Unnamed j s) :
    ∃ ty payload created updated, row = .new ty payload j created updated ∧
      ∃ p, s.submissions j = some (row, p) := by
  have hinv : (Coherent s ∧ Retained cfg s ∧ AllAppended s) ∧ (Unnamed j s → Untaken j s) := by
    apply Runs.invariant (P := fun _ _ => True) _ _ (.trivial Sys.init acts) h
    · rintro u b u' ⟨⟨hcoh, hret, happ⟩, huntaken⟩ _ hstep
      refine ⟨⟨hcoh.step hstep, hret.step hstep, happ.step hret hstep⟩, fun hfree => ?_⟩
      have hbefore : Unnamed j u := fun e he => hfree e (he.of_step hstep)
      exact (huntaken hbefore).step hcoh happ hbefore hstep
    · refine ⟨⟨.init, .init, .init⟩, fun _ row hrow => ?_⟩
      cases hrow
  obtain ⟨⟨hcoh, _, _⟩, huntaken⟩ := hinv
  obtain ⟨p, hsub⟩ := huntaken hfree row hrow
  obtain ⟨ty, payload, created, updated, hnew⟩ := hcoh.submitted j row p hsub
  exact ⟨ty, payload, created, updated, hnew, p, hsub⟩

end

/-- A FAILED row that a stale copy has overwritten is a history too. -/
theorem lateSuccess_history : ∃ s row, Reaches {} (takenOver ++ lateSuccess) s ∧
    s.rows 7 = some row ∧ row.status = .success ∧
    (∃ first p, s.submissions 7 = some (first, p) ∧ Relation.ReflTransGen Moved first row) ∧
    OutcomeFields row := by
  obtain ⟨s, hs, hview⟩ := Runs.exec_of_map (step {}) Sys.init (takenOver ++ lateSuccess)
    (fun s => (s.rows 7).map (·.status)) (some .success) (by decide +kernel)
  obtain ⟨row, hrow, hstatus⟩ := Option.map_eq_some_iff.mp hview
  exact ⟨s, row, hs, hrow, hstatus, row_history hs hrow⟩

/-- The row is inserted, the `XADD` fails for good, and a worker finds nothing to read. -/
def neverPublished : List Act :=
  boot 0 ++ .submit .ragQuery [] 7 0 0 :: steps (.submission 7) 1 ++
    .resume (.submission 7) { fate := .failed, redisError := .authentication } ::
    .pass 0 :: steps (.worker 0) 4

theorem neverPublished_inert : ∃ s row, Reaches {} neverPublished s ∧ s.rows 7 = some row ∧
    Unnamed 7 s ∧ ∃ ty payload created updated, row = .new ty payload 7 created updated ∧
      ∃ p, s.submissions 7 = some (row, p) := by
  obtain ⟨s, hs, hview⟩ := Runs.exec_of_map (step {}) Sys.init neverPublished
    (fun s => ((s.rows 7).isSome, s.log.isEmpty)) (true, true) (by decide +kernel)
  obtain ⟨hrow, hlog⟩ := Prod.mk.inj hview
  obtain ⟨row, hrow⟩ := Option.isSome_iff_exists.mp hrow
  have hfree : Unnamed 7 s := by
    rintro e ⟨who, he⟩
    rw [List.isEmpty_iff.mp hlog] at he
    cases he
  exact ⟨s, row, hs, hrow, hfree, orphan_inert hs hrow hfree⟩

end InferenceEngine
