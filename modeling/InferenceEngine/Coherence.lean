import InferenceEngine.Steps

/-!
# Invariants of every run

Rows stand under their own ids, a submission under the id of its job, and every copy of a
row that a task is about to write was derived by the transition of `models.py` that its
point stands for, from a copy of the row of its own job.
-/

namespace InferenceEngine

set_option autoImplicit false

open Programs

namespace TaskPoint

def Sound (m : JobMessage) : TaskPoint → Prop
  | writeRunning seen job => seen.id = m.jobId ∧ ∃ now, seen.markRunning now = .ok job
  | running job => job.id = m.jobId ∧ job.status = .running
  | writeSuccess seen job =>
    seen.id = m.jobId ∧ ∃ ref d now, seen.markSuccess ref (some d) now = .ok job
  | writePending seen job => seen.id = m.jobId ∧ ∃ now, seen.requeue now = .ok job
  | writeFailed seen job =>
    seen.id = m.jobId ∧ ∃ error now, seen.markFailed error none now = .ok job
  | _ => True

variable {cfg : BrokerSettings} {id : Nat} {m : JobMessage}

/-- A copy that is about to be written is one transition away from the copy last seen. -/
theorem Sound.transition {p : TaskPoint} {seen job : InferenceJob} (h : p.Sound m)
    (hw : p.write = some (seen, job)) : Transition seen job ∧ seen.id = m.jobId := by
  cases p <;> cases hw
  case writeRunning =>
    obtain ⟨hid, now, h⟩ := h
    exact ⟨.of_markRunning h, hid⟩
  case writeSuccess =>
    obtain ⟨hid, ref, d, now, h⟩ := h
    exact ⟨.of_markSuccess h, hid⟩
  case writePending =>
    obtain ⟨hid, now, h⟩ := h
    exact ⟨.of_requeue h, hid⟩
  case writeFailed =>
    obtain ⟨hid, error, now, h⟩ := h
    exact ⟨.of_markFailed h, hid⟩

theorem Sound.write_id {p : TaskPoint} {seen job : InferenceJob} (h : p.Sound m)
    (hw : p.write = some (seen, job)) : job.id = m.jobId := by
  obtain ⟨ht, hid⟩ := h.transition hw
  exact ht.id.trans hid

theorem sound_routed (r : Except Exn Unit) : (routed cfg m r).Sound m := by
  rcases r with e | u
  · cases e with
    | transient exc =>
      simp only [routed]
      split <;> trivial
    | _ => trivial
  · trivial

theorem sound_raised (e : Exn) : (raised e).Sound m := by
  cases e <;> trivial

theorem afterLoad_cases (cfg : BrokerSettings) (m : JobMessage)
    (r : Except Exn (InferenceJob × Time)) :
    (∃ job job' now, r = .ok (job, now) ∧ job.markRunning now = .ok job' ∧
      afterLoad cfg m r = writeRunning job job') ∨
    ∃ x, afterLoad cfg m r = routed cfg m x ∧
      ∀ msg, x = .error (.transient msg) → r = .error (.transient msg) := by
  rcases r with x | ⟨job, now⟩
  · right
    cases x <;> unfold afterLoad
    case jobNotFound => exact ⟨_, rfl, by rintro msg ⟨⟩⟩
    all_goals exact ⟨_, rfl, by rintro msg ⟨⟩ <;> rfl⟩
  · simp only [afterLoad]
    split
    · exact .inr ⟨_, rfl, by rintro msg ⟨⟩⟩
    · by_cases hp : job.status = .pending
      · rw [InferenceJob.markRunning_of_pending hp]
        exact .inl ⟨job, _, now, rfl, InferenceJob.markRunning_of_pending hp now, rfl⟩
      · rw [InferenceJob.markRunning_of_ne hp]
        exact .inr ⟨_, rfl, by rintro msg ⟨⟩⟩

theorem afterRun_cases (cfg : BrokerSettings) (m : JobMessage) (job : InferenceJob)
    (r : Except Exn (Text × Int × Time)) :
    (∃ ref d now job', r = .ok (ref, d, now) ∧ job.markSuccess ref (some d) now = .ok job' ∧
      afterRun cfg m job r = writeSuccess job job') ∨
    ∃ x, afterRun cfg m job r = routed cfg m x := by
  rcases r with x | ⟨ref, d, now⟩
  · right
    cases x <;> unfold afterRun <;> exact ⟨_, rfl⟩
  · simp only [afterRun]
    cases hsucc : job.markSuccess ref (some d) now with
    | ok job' => exact .inl ⟨ref, d, now, job', rfl, hsucc, rfl⟩
    | error x => exact .inr ⟨_, rfl⟩

/-- A row that is read is the one asked for. -/
def RowReply (e : Effect) (r : e.Reply) : Prop :=
  match e, r with
  | .get id, r => ∀ job now, r = .ok (job, now) → job.id = id
  | _, _ => True

theorem sound_next {p : TaskPoint} {e : Effect} {k : e.Reply → TaskPoint} {r : e.Reply}
    (hp : p.Sound m) (hnode : p.node cfg id m = .await e k) (hr : RowReply e r) :
    (k r).Sound m := by
  cases p with
  | guard =>
    cases hnode
    rcases r with x | ⟨job, now⟩
    · cases x <;> trivial
    · simp only [afterGuard]
      split <;> trivial
  | load =>
    cases hnode
    rcases afterLoad_cases cfg m r with ⟨job, job', now, rfl, hrun, h⟩ | ⟨x, h, _⟩
    · rw [h]
      exact ⟨hr job now rfl, now, hrun⟩
    · rw [h]
      exact sound_routed x
  | writeRunning seen job =>
    cases hnode
    rcases r with x | u
    · exact sound_routed _
    · obtain ⟨hid, now, h⟩ := hp
      obtain ⟨hs, rfl⟩ := InferenceJob.markRunning_ok_iff.mp h
      exact ⟨hid, rfl⟩
  | running job =>
    cases hnode
    rcases afterRun_cases cfg m job r with ⟨ref, d, now, job', rfl, hsucc, h⟩ | ⟨x, h⟩
    · rw [h]
      exact ⟨hp.1, ref, d, now, hsucc⟩
    · rw [h]
      exact sound_routed x
  | writeSuccess seen job =>
    cases hnode
    exact sound_routed _
  | requeueGet =>
    cases hnode
    rcases r with x | ⟨job, now⟩
    · cases x <;> trivial
    · simp only [afterRequeueGet]
      cases hreq : job.requeue now with
      | ok job' => exact ⟨hr job now rfl, now, hreq⟩
      | error x => trivial
  | failGet error =>
    cases hnode
    rcases r with x | ⟨job, now⟩
    · cases x <;> trivial
    · simp only [afterFailGet]
      cases hfail : job.markFailed error none now with
      | ok job' => exact ⟨hr job now rfl, error, now, hfail⟩
      | error x => trivial
  | republish | deadLetter reason error =>
    cases hnode
    rcases r with x | u
    · exact sound_raised x
    · trivial
  | writePending seen job | deadLetterAck error =>
    cases hnode
    rcases r with x | u <;> trivial
  | skipAck | successAck | retryAck | writeFailed seen job | release outcome =>
    cases hnode
    trivial
  | finished outcome => cases hnode

end TaskPoint

/-- The invariant of every run. -/
structure Coherent (s : Sys) : Prop where
  keyed : ∀ id job, s.rows id = some job → job.id = id
  submitted : ∀ id job p, s.submissions id = some (job, p) →
    ∃ ty payload created updated, job = InferenceJob.new ty payload id created updated
  failed : ∀ id job, s.rows id = some job → job.status = .failed → job.error ≠ none
  sound : ∀ t name id m p, s.tasks t = some ⟨name, id, .handling m p⟩ → p.Sound m
  fresh : ∀ t, s.nextTask ≤ t → s.tasks t = none
  logged : ∀ t, s.tasks t = none → ∀ ev ∈ s.log, ev.actor ≠ some (.task t)

section
variable {cfg : Settings} {s s' : Sys} {a : Act}

theorem Sys.rowReply_of_perform {who : Actor} {c : Choice} {e : Effect} {r : e.Reply}
    (hs : Coherent s) (h : s.perform cfg who c e = some (r, s')) : TaskPoint.RowReply e r := by
  cases e with
  | get id =>
    intro job now hr
    obtain rfl := congrArg Prod.fst (Option.some.inj h)
    rcases c.reply_fst (.other c.dbError c.dbRepr) s (s.readRow id c.now, s) with h' | h'
    · rw [h'] at hr
      simp only [readRow] at hr
      split at hr
      · rename_i row hrow
        obtain ⟨rfl, rfl⟩ := Prod.mk.inj (Except.ok.inj hr)
        exact hs.keyed id row hrow
      · cases hr
    · cases h'.symm.trans hr
  | _ => trivial

theorem Coherent.submitted_id (hs : Coherent s) {id : UUID} {job : InferenceJob}
    {p : SubmitPoint} (h : s.submissions id = some (job, p)) : job.id = id := by
  obtain ⟨ty, payload, created, updated, rfl⟩ := hs.submitted id job p h
  rfl

theorem step_submission (hs : Coherent s) (h : step cfg s a = some s') (id : UUID) :
    s'.submissions id = s.submissions id ∨
    (∃ ty payload created updated, a = .submit ty payload id created updated ∧
      s.submissions id = none ∧
      s'.submissions id = some (InferenceJob.new ty payload id created updated, .adding)) ∨
    (∃ c job p, ∃ (e : Effect) (k : e.Reply → SubmitPoint) (r : e.Reply) (s₁ : Sys),
      a = .resume (.submission id) c ∧ s.submissions id = some (job, p) ∧
      p.node cfg.retryMaxAttempts job = .await e k ∧
      s.perform cfg (.submission id) c e = some (r, s₁) ∧
      s' = s₁.setSubmission job (k r) ∧ s'.submissions id = some (job, k r)) := by
  cases Sys.step_cases h with
  | submit ty payload id' created updated hfresh =>
    by_cases hid : id = id'
    · subst hid
      exact .inr (.inl ⟨ty, payload, created, updated, rfl, hfresh, Function.update_self _ _ _⟩)
    · exact .inl (Function.update_of_ne hid _ _)
  | submission id' c job p e k r s₁ hsub hnode hperf =>
    have hjob : job.id = id' := hs.submitted_id hsub
    have hsubs := (Sys.perform_change hperf).submissions
    by_cases hid : id = id'
    · subst hid
      refine .inr (.inr ⟨c, job, p, e, k, r, s₁, rfl, hsub, hnode, hperf, rfl, ?_⟩)
      rw [Sys.setSubmission_submissions, hjob, Function.update_self]
    · left
      rw [Sys.setSubmission_submissions, hjob, Function.update_of_ne hid, hsubs]
  | starting name c w p e k r s₁ hw hstage hnode hperf
  | looping name c w p e k r s₁ hw hstage hnode hperf =>
    left
    exact congrFun (Sys.perform_change hperf).submissions id
  | task t c name id m p w q e k r s₁ htask hw hstage hnode hperf =>
    left
    exact congrFun (Sys.perform_change hperf).submissions _
  | _ => exact .inl rfl

theorem Coherent.init : Coherent Sys.init where
  keyed := by
    intro id job h
    cases h
  submitted := by
    intro id job p h
    cases h
  failed := by
    intro id job h
    cases h
  sound := by
    intro t name id m p h
    cases h
  fresh := fun _ _ => rfl
  logged := by
    intro t _ ev hev
    cases hev

theorem tasks_ne_none_of_step (h : step cfg s a = some s') {t : Nat} (ht : s.tasks t ≠ none) :
    s'.tasks t ≠ none := by
  rcases step_tasks h with ⟨hr, _⟩ | ⟨name, c, w, q, e, _, _, _, _, _, hr⟩ |
    ⟨u, c, name, id, m, p, e, k, r, s₁, _, _, _, _, _, hr⟩
  · rwa [hr]
  · by_cases hn : t = s.nextTask
    · simp [hr, hn]
    · rwa [hr, Function.update_of_ne hn]
  · by_cases hn : t = u
    · simp [hr, hn]
    · rwa [hr, Function.update_of_ne hn]

theorem rows_update {Q : UUID → InferenceJob → Prop} {rows : UUID → Option InferenceJob}
    {job : InferenceJob} (hjob : Q job.id job) (h : ∀ id row, rows id = some row → Q id row) :
    ∀ id row, Function.update rows job.id (some job) id = some row → Q id row := by
  intro id row hrow
  by_cases hid : id = job.id
  · subst hid
    rw [Function.update_self] at hrow
    exact Option.some.inj hrow ▸ hjob
  · rw [Function.update_of_ne hid] at hrow
    exact h id row hrow

theorem TaskPoint.Sound.error_of_failed {m : JobMessage} {p : TaskPoint}
    {seen job : InferenceJob} (h : p.Sound m) (hw : p.write = some (seen, job))
    (hfailed : job.status = .failed) : job.error ≠ none := by
  cases p <;> cases hw
  case writeRunning =>
    obtain ⟨_, now, h⟩ := h
    obtain ⟨_, rfl⟩ := InferenceJob.markRunning_ok_iff.mp h
    cases hfailed
  case writeSuccess =>
    obtain ⟨_, ref, d, now, h⟩ := h
    obtain ⟨_, rfl⟩ := InferenceJob.markSuccess_ok_iff.mp h
    cases hfailed
  case writePending =>
    obtain ⟨_, now, h⟩ := h
    obtain ⟨_, rfl⟩ := InferenceJob.requeue_ok_iff.mp h
    cases hfailed
  case writeFailed =>
    obtain ⟨_, error, now, h⟩ := h
    obtain ⟨_, rfl⟩ := InferenceJob.markFailed_ok_iff.mp h
    simp

theorem Coherent.step (hs : Coherent s) (h : step cfg s a = some s') : Coherent s' where
  keyed := by
    rcases step_rows h with hr | ⟨id, c, job, _, _, _, hr⟩ |
      ⟨t, c, name, id, m, p, seen, job, row, _, _, _, _, _, hr⟩
    · exact hr ▸ hs.keyed
    · exact hr ▸ rows_update rfl hs.keyed
    · exact hr ▸ rows_update rfl hs.keyed
  failed := by
    rcases step_rows h with hr | ⟨id, c, job, _, hsub, _, hr⟩ |
      ⟨t, c, name, id, m, p, seen, job, row, _, _, htask, hwrite, _, hr⟩
    · exact hr ▸ hs.failed
    · obtain ⟨ty, payload, created, updated, rfl⟩ := hs.submitted _ _ _ hsub
      refine hr ▸ rows_update (Q := fun _ row => row.status = .failed → row.error ≠ none) ?_ hs.failed
      intro hfailed
      cases hfailed
    · refine hr ▸ rows_update (Q := fun _ row => row.status = .failed → row.error ≠ none) ?_ hs.failed
      exact (hs.sound _ _ _ _ _ htask).error_of_failed hwrite
  submitted := by
    intro id job p hsub
    rcases step_submission hs h id with hr | ⟨ty, payload, created, updated, _, _, hr⟩ |
      ⟨c, job', p', e, k, r, s₁, _, hold, _, _, _, hr⟩
    · exact hs.submitted id job p (hr ▸ hsub)
    · rw [hr] at hsub
      cases hsub
      exact ⟨ty, payload, created, updated, rfl⟩
    · rw [hr] at hsub
      cases hsub
      exact hs.submitted id _ _ hold
  sound := by
    intro t name id m p htask
    rcases step_tasks h with ⟨hr, _⟩ | ⟨name', c, w, q, e, _, _, _, _, _, hr⟩ |
      ⟨t', c, name', id', m', p', e, k, r, s₁, _, htask', hnode, hperf, _, hr⟩
    · exact hs.sound t name id m p (hr ▸ htask)
    · rw [hr] at htask
      by_cases ht : t = s.nextTask
      · subst ht
        rw [Function.update_self] at htask
        have hbody : TaskBody.of e.fields = .handling m p := congrArg Task.body (Option.some.inj htask)
        unfold TaskBody.of at hbody
        split at hbody
        · cases hbody
          trivial
        · cases hbody
      · rw [Function.update_of_ne ht] at htask
        exact hs.sound t name id m p htask
    · rw [hr] at htask
      by_cases ht : t = t'
      · subst ht
        rw [Function.update_self] at htask
        cases htask
        exact TaskPoint.sound_next (hs.sound _ _ _ _ _ htask') hnode
          (Sys.rowReply_of_perform hs hperf)
      · rw [Function.update_of_ne ht] at htask
        exact hs.sound t name id m p htask
  fresh := by
    intro t ht
    rcases step_tasks h with ⟨hr, hn⟩ | ⟨name', c, w, q, e, _, _, _, _, hn, hr⟩ |
      ⟨t', c, name', id', m', p', e, k, r, s₁, _, htask', hnode, hperf, hn, hr⟩
    · rw [hr]
      exact hs.fresh t (hn ▸ ht)
    · rw [hr, Function.update_of_ne (by omega)]
      exact hs.fresh t (by omega)
    · have hne : t ≠ t' := by
        rintro rfl
        rw [hs.fresh t (hn ▸ ht)] at htask'
        cases htask'
      rw [hr, Function.update_of_ne hne]
      exact hs.fresh t (hn ▸ ht)
  logged := by
    intro t ht ev hev hactor
    obtain ⟨es, hlog, hes⟩ := step_log h
    have hnone : s.tasks t = none := by
      by_contra hne
      exact tasks_ne_none_of_step h hne ht
    rw [hlog] at hev
    rcases List.mem_append.mp hev with hev | hev
    · exact hs.logged t hnone ev hev hactor
    · rcases hes ev hev with hno | ⟨who, c, rfl, hwho⟩
      · cases hno.symm.trans hactor
      · obtain rfl : who = .task t := Option.some.inj (hwho.symm.trans hactor)
        cases Sys.step_cases h with
        | task t c name id m p w q e k r s₁ htask => cases hnone.symm.trans htask

theorem Coherent.exec {acts : List Act} (hs : Coherent s)
    (h : Runs.exec (InferenceEngine.step cfg) s acts = some s') : Coherent s' :=
  Runs.invariant (P := fun _ _ => True) (fun _ _ _ hs _ h => hs.step h) hs (.trivial _ _) h

theorem Reaches.coherent {acts : List Act} (h : Reaches cfg acts s) : Coherent s :=
  Coherent.init.exec h

end

end InferenceEngine
