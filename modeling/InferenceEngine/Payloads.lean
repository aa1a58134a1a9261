import InferenceEngine.Pointers
import InferenceEngine.Calls

/-!
# From the submission to the pipeline

No transition changes the type or the payload of a job: what a pipeline is handed is what was
submitted. A step logs at most one execution, that of the task that waits for its pipeline.
-/

namespace InferenceEngine

set_option autoImplicit false

/-- The job has the type and the payload of its submission. -/
def AsSubmitted (s : Sys) (job : InferenceJob) : Prop :=
  ∃ first p, s.submissions job.id = some (first, p) ∧ job.jobType = first.jobType ∧
    job.payload = first.payload

structure Provenance (s : Sys) : Prop where
  rows : ∀ id row, s.rows id = some row → AsSubmitted s row
  copies : ∀ t name id m p, s.tasks t = some ⟨name, id, .handling m p⟩ →
    ∀ job ∈ p.copies, AsSubmitted s job

section
variable {cfg : Settings} {s s' : Sys} {a : Act}

theorem AsSubmitted.of_transition {job job' : InferenceJob} (h : Transition job job')
    (hsub : AsSubmitted s job) : AsSubmitted s job' := by
  obtain ⟨first, p, hfirst, htype, hpayload⟩ := hsub
  exact ⟨first, p, by rwa [h.id], h.jobType.trans htype, h.payload.trans hpayload⟩

theorem submission_of_step (hs : Coherent s) (h : step cfg s a = some s') {id : UUID}
    {job : InferenceJob} {p : SubmitPoint} (hsub : s.submissions id = some (job, p)) :
    ∃ p', s'.submissions id = some (job, p') := by
  rcases step_submission hs h id with hsame | ⟨_, _, _, _, _, hnone, _⟩ |
    ⟨_, job', p', e, k, r, _, _, hold, _, _, _, hnew⟩
  · exact ⟨p, hsame ▸ hsub⟩
  · cases hnone.symm.trans hsub
  · cases hsub.symm.trans hold
    exact ⟨k r, hnew⟩

theorem AsSubmitted.of_step (hs : Coherent s) (h : step cfg s a = some s') {job : InferenceJob}
    (hsub : AsSubmitted s job) : AsSubmitted s' job := by
  obtain ⟨first, p, hfirst, hsame⟩ := hsub
  obtain ⟨p', hfirst'⟩ := submission_of_step hs h hfirst
  exact ⟨first, p', hfirst', hsame⟩

theorem Provenance.init : Provenance Sys.init where
  rows := by
    intro id row hrow
    cases hrow
  copies := by
    intro t name id m p htask
    cases htask

theorem Provenance.rowRead (hp : Provenance s) {who : Actor} {c : Choice} {e : Effect}
    {r : e.Reply} (h : s.perform cfg who c e = some (r, s')) :
    TaskPoint.RowRead (AsSubmitted s) e r := by
  cases e with
  | get id =>
    intro job now hr
    obtain ⟨_, ⟨_, row, hrow, hreply⟩ | ⟨_, _, hreply⟩ | ⟨_, hreply⟩⟩ := Sys.perform_get h
    · rw [hr] at hreply
      obtain ⟨rfl, _⟩ := Prod.mk.inj (Except.ok.inj hreply)
      exact hp.rows id job hrow
    · cases hr.symm.trans hreply
    · cases hr.symm.trans hreply
  | _ => trivial

theorem Provenance.step_rows (hs : Coherent s) (hp : Provenance s) (h : step cfg s a = some s')
    (id : UUID) (row : InferenceJob) (hrow : s'.rows id = some row) : AsSubmitted s row := by
  rcases InferenceEngine.step_rows h with hr | ⟨id', c, job, _, hsub, _, hr⟩ |
    ⟨t, c, name, n, m, p, seen, job, _, _, _, htask, hwrite, _, hr⟩
  · exact hp.rows id row (hr ▸ hrow)
  · by_cases hid : id = job.id
    · subst hid
      rw [hr, Function.update_self] at hrow
      cases hrow
      exact ⟨row, .adding, by rwa [hs.submitted_id hsub], rfl, rfl⟩
    · exact hp.rows id row (by rwa [hr, Function.update_of_ne hid] at hrow)
  · by_cases hid : id = job.id
    · subst hid
      rw [hr, Function.update_self] at hrow
      cases hrow
      exact hp.copies t name n m p htask row (TaskPoint.mem_copies_of_write hwrite)
    · exact hp.rows id row (by rwa [hr, Function.update_of_ne hid] at hrow)

theorem Provenance.step_copies (hp : Provenance s) (h : step cfg s a = some s') {t id : Nat}
    {name : ConsumerName} {m : JobMessage} {p : TaskPoint}
    (htask : s'.tasks t = some ⟨name, id, .handling m p⟩) :
    ∀ job ∈ p.copies, AsSubmitted s job := by
  rcases handling_of_step h htask with hold | rfl | ⟨c, q, e, k, r, s₁, _, hold, hnode, hperf, rfl⟩
  · exact hp.copies t name id m p hold
  · intro job hjob
    cases hjob
  · exact TaskPoint.copies_next (fun before after htrans hb => hb.of_transition htrans)
      (hp.copies t name id m q hold) hnode (hp.rowRead hperf)

theorem Provenance.step (hs : Coherent s) (hp : Provenance s) (h : step cfg s a = some s') :
    Provenance s' where
  rows := fun id row hrow => (hp.step_rows hs h id row hrow).of_step hs h
  copies := fun _ _ _ _ _ htask job hjob => (hp.step_copies h htask job hjob).of_step hs h

theorem step_ran (h : step cfg s a = some s') :
    (∃ es, s'.log = s.log ++ es ∧ ∀ t id outcome, Event.ran t id outcome ∉ es) ∨
    (∃ t c name id m job, a = .resume (.task t) c ∧
      s.tasks t = some ⟨name, id, .handling m (.running job)⟩ ∧
      s'.log = s.log ++ [.ran t job.id c.outcome]) := by
  have quiet : ∀ {who : Actor} {c : Choice} {e : Effect} {s₁ : Sys},
      Sys.Change cfg who c s e s₁ → (∀ job, e ≠ .run job) →
      ∃ es, s₁.log = s.log ++ es ∧ ∀ t id outcome, Event.ran t id outcome ∉ es := by
    intro who c e s₁ hchange hnot
    cases hchange with
    | ran t job hwho => exact absurd rfl (hnot job)
    | write job row hf hrow => exact ⟨[.wrote who job], rfl, by simp⟩
    | xaddWork fields hf hallowed => exact ⟨[.appended (some who) _], rfl, by simp⟩
    | xaddDlq fields hf hallowed => exact ⟨[.deadLettered who _], rfl, by simp⟩
    | ack id hf => exact ⟨[.acked who id], rfl, by simp⟩
    | read n name g hf hc hg =>
      refine ⟨_, rfl, fun t id outcome hmem => ?_⟩
      obtain ⟨x, _, hx⟩ := List.mem_map.mp hmem
      cases hx
    | _ => exact ⟨[], (List.append_nil _).symm, by simp⟩
  cases Sys.step_cases h with
  | submission id c job p e k r s₁ hsub hnode hperf =>
    left
    apply quiet (Sys.perform_change hperf)
    cases p <;> cases hnode <;> simp
  | starting name c w p e k r s₁ hw hstage hnode hperf
  | looping name c w p e k r s₁ hw hstage hnode hperf =>
    left
    apply quiet (Sys.perform_change hperf)
    cases p <;> cases hnode <;> simp
  | task t c name id m p w q e k r s₁ htask hw hstage hnode hperf =>
    by_cases hrun : ∃ job, p = .running job
    · obtain ⟨job, rfl⟩ := hrun
      cases hnode
      obtain ⟨_, rfl⟩ := Sys.perform_run hperf
      exact .inr ⟨t, c, name, id, m, job, rfl, htask, rfl⟩
    · left
      apply quiet (Sys.perform_change hperf)
      cases p <;> cases hnode <;> simp at hrun ⊢
  | inject fields trim htrim => exact .inl ⟨[.appended none _], rfl, by simp⟩
  | _ => exact .inl ⟨[], (List.append_nil _).symm, by simp⟩

end

end InferenceEngine
