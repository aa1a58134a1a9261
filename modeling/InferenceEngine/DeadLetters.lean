import InferenceEngine.Handlers

/-!
# Dead letters and failed rows

A delivery that dead-letters its message goes on to fail the row. The verdict of a reclaim
pass dead-letters an entry and leaves the row alone.
-/

namespace InferenceEngine

set_option autoImplicit false

/-- The actor appends a message of the job to the dead-letter stream next. -/
def DeadLetters (s : Sys) (j : UUID) : Actor → Prop
  | .task t => ∃ name id m reason error,
    s.tasks t = some ⟨name, id, .handling m (.deadLetter reason error)⟩ ∧ m.jobId = j
  | .worker name => ∃ e m n rest,
    s.stageOf name = some (.looping (.poison e m n rest)) ∧ m.jobId = j
  | .submission _ => False

/-- The actor is done with the message that it dead-lettered. -/
def DoneWithMessage (s : Sys) : Actor → Prop
  | .task t => ∃ name id m outcome, s.tasks t = some ⟨name, id, .handling m (.finished outcome)⟩
  | .worker name => ∃ p, s.stageOf name = some (.looping p) ∧
    ∀ e m n rest, p ≠ .poison e m n rest ∧ p ≠ .poisonAck e rest
  | .submission _ => True

def FailedWithError (s : Sys) (j : UUID) : Prop :=
  ∃ row, s.rows j = some row ∧ row.status = .failed ∧ row.error ≠ none

/-- When dead-lettering by `who` fails the row of the job: it is not the verdict of a reclaim
pass on a live job, its read finds a row it may fail, and no stale copy replaces that row. -/
structure FailsRow (who : Actor) (j : UUID) (s : Sys) (a : Act) : Prop where
  calls : a.NoFault
  pass : ∀ name c, a = .resume (.worker name) c → who = .worker name → ∀ e m n rest,
    s.stageOf name = some (.looping (.poison e m n rest)) → m.jobId = j →
    ∀ row, s.rows j = some row → row.isTerminal = true
  read : ∀ t c, a = .resume (.task t) c → who = .task t → ∀ name id m error,
    s.tasks t = some ⟨name, id, .handling m (.failGet error)⟩ → m.jobId = j →
    HasStatus s j .running ∨ HasStatus s j .failed
  kept : ∀ t c, a = .resume (.task t) c → HasStatus s j .failed → ∀ name id m p seen job,
    s.tasks t = some ⟨name, id, .handling m p⟩ → m.jobId = j → p.write = some (seen, job) →
    job.status = .failed

/-- The way of a dead-lettering delivery to the FAILED row, point by point. -/
def Failing (j : UUID) (s : Sys) : TaskPoint → Prop
  | .deadLetter _ _ | .deadLetterAck _ | .failGet _ | .writeFailed _ _ => s.rows j ≠ none
  | .release _ | .finished _ => HasStatus s j .failed
  | _ => False

section
variable {cfg : Settings} {s s' : Sys} {a : Act} {j : UUID} {who : Actor}

theorem rows_ne_none_of_step (h : step cfg s a = some s') (hrow : s.rows j ≠ none) :
    s'.rows j ≠ none := by
  have update : ∀ job, Function.update s.rows job.id (some job) j ≠ none := by
    intro job
    by_cases hj : j = job.id
    · subst hj
      simp
    · rwa [Function.update_of_ne hj]
  rcases step_rows h with hr | ⟨_, _, job, _, _, _, hr⟩ | ⟨_, _, _, _, _, _, _, job, _, _, _, _, _, _, hr⟩
  · rwa [hr]
  · rw [hr]
    exact update job
  · rw [hr]
    exact update job

theorem hasStatus_failed_of_step (hs : Coherent s) (hP : FailsRow who j s a) (h : step cfg s a = some s')
    (hfailed : HasStatus s j .failed) : HasStatus s' j .failed := by
  obtain ⟨row, hrow, hstatus⟩ := hfailed
  rcases step_rows h with hr | ⟨_, _, job, _, _, hnone, hr⟩ |
    ⟨t, c, name, id, m, p, seen, job, row', ha, _, htask, hwrite, _, hr⟩
  · exact ⟨row, hr ▸ hrow, hstatus⟩
  · have hne : j ≠ job.id := by
      rintro rfl
      cases hnone.symm.trans hrow
    exact ⟨row, by rwa [hr, Function.update_of_ne hne], hstatus⟩
  · by_cases hj : job.id = j
    · subst hj
      have hid : m.jobId = job.id := ((hs.sound _ _ _ _ _ htask).write_id hwrite).symm
      have hjob := hP.kept t c ha ⟨row, hrow, hstatus⟩ name id m p seen job htask hid hwrite
      exact ⟨job, by rw [hr, Function.update_self], hjob⟩
    · exact ⟨row, by rwa [hr, Function.update_of_ne (Ne.symm hj)], hstatus⟩

theorem Failing.of_step {p : TaskPoint} (hs : Coherent s) (hP : FailsRow who j s a)
    (h : step cfg s a = some s') (hp : Failing j s p) : Failing j s' p := by
  cases p with
  | deadLetter _ _ | deadLetterAck _ | failGet _ | writeFailed _ _ => exact rows_ne_none_of_step h hp
  | release _ | finished _ => exact hasStatus_failed_of_step hs hP h hp
  | _ => exact hp

theorem Failing.next {c : Choice} {t id : Nat} {m : JobMessage} {p : TaskPoint} {e : Effect}
    {k : e.Reply → TaskPoint} {r : e.Reply} {s₁ : Sys} (hc : c.fate = .ok) (hj : m.jobId = j)
    (hread : ∀ error, p = .failGet error → HasStatus s j .running ∨ HasStatus s j .failed)
    (hsound : p.Sound m) (hp : Failing j s p)
    (hnode : p.node cfg.toBrokerSettings id m = .await e k)
    (hperf : s.perform cfg (.task t) c e = some (r, s₁)) : Failing j s₁ (k r) := by
  subst hj
  cases p with
  | deadLetter reason error =>
    cases hnode
    obtain ⟨rfl, rfl⟩ := Sys.perform_xaddDlq_ok hc hperf
    exact hp
  | deadLetterAck error =>
    cases hnode
    obtain ⟨rfl, rfl⟩ := Sys.perform_xack_ok hc hperf
    exact hp
  | failGet error =>
    cases hnode
    rcases hread error rfl with ⟨row, hrow, hstatus⟩ | ⟨row, hrow, hstatus⟩
    · obtain ⟨rfl, rfl⟩ := Sys.perform_get_ok hc hperf hrow
      simp only [TaskPoint.afterFailGet, InferenceJob.markFailed_of_running hstatus]
      exact hp
    · obtain ⟨rfl, rfl⟩ := Sys.perform_get_ok hc hperf hrow
      have hne : row.status ≠ .running := by simp [hstatus]
      simp only [TaskPoint.afterFailGet, InferenceJob.markFailed_of_ne hne]
      exact ⟨row, hrow, hstatus⟩
  | writeFailed seen job =>
    cases hnode
    have hid : job.id = m.jobId := hsound.write_id rfl
    obtain ⟨row, hrow⟩ := Option.ne_none_iff_exists'.mp hp
    obtain ⟨_, error, now, hfail⟩ := hsound
    obtain ⟨rfl, rfl⟩ := Sys.perform_update_ok hc hperf hid hrow
    have hstatus : job.status = .failed := by
      obtain ⟨_, rfl⟩ := InferenceJob.markFailed_ok_iff.mp hfail
      rfl
    exact ⟨job, Function.update_self _ _ _, hstatus⟩
  | release outcome =>
    cases hnode
    have hchange := Sys.perform_change hperf
    cases hchange with
    | refl => exact hp
    | discard => exact hp
  | finished outcome => cases hnode
  | _ => exact hp.elim

theorem failing_of_exec {acts : List Act} {t : Nat} (hs : Coherent s) {name : ConsumerName}
    {id : Nat} {m : JobMessage} {reason error : Text}
    (htask : s.tasks t = some ⟨name, id, .handling m (.deadLetter reason error)⟩)
    (hrow : s.rows j ≠ none) (hP : Runs.Along (step cfg) (FailsRow (.task t) j) s acts)
    (h : Runs.exec (step cfg) s acts = some s') :
    Follows t j (fun _ => False) (fun s _ _ p => Failing j s p) s' := by
  have hstart : Follows t j (fun _ => False) (fun s _ _ p => Failing j s p) s := by
    constructor
    · intro hnone
      cases hnone.symm.trans htask
    · intro name' id' m' p htask' _
      cases htask.symm.trans htask'
      exact hrow
  refine Follows.exec (P := FailsRow (.task t) j) ?_ ?_ ?_ ?_ hs hstart hP h
  · intro _ _ _ _ _ _ _ hfalse
    exact hfalse
  · intro s a s' _ m p hs hP _ h _ hp
    exact hp.of_step hs hP h
  · intro _ _ _ hfalse _
    exact hfalse.elim
  · intro s c name id m p e k r s₁ hs hP hj htask hp hnode hperf _
    have hread : ∀ error, p = .failGet error → HasStatus s j .running ∨ HasStatus s j .failed := by
      rintro error rfl
      exact hP.read t c rfl rfl name id m error htask hj
    have hnext := hp.next hP.calls hj hread (hs.sound _ _ _ _ _ htask) hnode hperf
    exact hnext

theorem message_of_exec {acts : List Act} {t : Nat} (hs : Coherent s) {name : ConsumerName}
    {id : Nat} {m : JobMessage} {p : TaskPoint} (htask : s.tasks t = some ⟨name, id, .handling m p⟩)
    (h : Runs.exec (step cfg) s acts = some s') :
    ∃ p', s'.tasks t = some ⟨name, id, .handling m p'⟩ := by
  refine (Runs.invariant (P := fun _ _ => True)
    (I := fun s => Coherent s ∧ ∃ p, s.tasks t = some ⟨name, id, .handling m p⟩) ?_
    ⟨hs, p, htask⟩ (.trivial _ _) h).2
  rintro s a s' ⟨hs, p, htask⟩ _ h
  refine ⟨hs.step h, ?_⟩
  by_cases hnot : a.NotBy t
  · exact ⟨p, task_of_notBy hs hnot h htask⟩
  · simp only [Act.NotBy, ne_eq, not_forall, not_not] at hnot
    obtain ⟨c, rfl⟩ := hnot
    cases Sys.step_cases h with
    | task t c name' id' m' p' w q e k r s₁ hold hw hstage hnode hperf =>
      cases htask.symm.trans hold
      exact ⟨k r, Function.update_self _ _ _⟩

/-- When an actor that dead-letters a live job is done with the message, the row is FAILED. -/
theorem failed_of_deadLettered {acts later : List Act} {c : Choice} {row : InferenceJob}
    (hs : Reaches cfg acts s) (hdead : DeadLetters s j who) (hrow : s.rows j = some row)
    (hterm : row.isTerminal = false)
    (hP : Runs.Along (step cfg) (FailsRow who j) s (.resume who c :: later))
    (h : Runs.exec (step cfg) s (.resume who c :: later) = some s')
    (hdone : DoneWithMessage s' who) : FailedWithError s' j := by
  cases who with
  | submission id => exact hdead.elim
  | worker name =>
    obtain ⟨e, m, n, rest, hstage, hj⟩ := hdead
    have hlive := hP.1.pass name c rfl rfl e m n rest hstage hj row hrow
    cases hlive.symm.trans hterm
  | task t =>
    obtain ⟨name, id, m, reason, error, htask, hj⟩ := hdead
    obtain ⟨name', id', m', outcome, hdone⟩ := hdone
    obtain ⟨p', htask'⟩ := message_of_exec hs.coherent htask h
    cases htask'.symm.trans hdone
    have hne : s.rows j ≠ none := by simp [hrow]
    obtain ⟨row', hrow', hfailed⟩ : HasStatus s' j .failed :=
      (failing_of_exec hs.coherent htask hne hP h).phase name id m _ htask' hj
    have hcoh : Coherent s' := hs.coherent.exec h
    exact ⟨row', hrow', hfailed, hcoh.failed j row' hrow' hfailed⟩

end

def raisedPermanent : List Act :=
  boot 0 ++ submitted 7 ++ readPass 0 1 ++ steps (.task 0) 3 ++
    [.resume (.task 0) { outcome := .error (.permanent []) }]

def Sys.pointOf (s : Sys) (t : Nat) (j : UUID) : Option TaskPoint :=
  match s.tasks t with
  | some { body := .handling m p, .. } => if m.jobId = j then some p else none
  | _ => none

theorem Sys.pointOf_eq_some {s : Sys} {t : Nat} {j : UUID} {p : TaskPoint} :
    s.pointOf t j = some p ↔
      ∃ name id m, s.tasks t = some ⟨name, id, .handling m p⟩ ∧ m.jobId = j := by
  unfold pointOf
  constructor
  · intro h
    split at h
    · rename_i htask
      split at h
      · obtain rfl := Option.some.inj h
        exact ⟨_, _, _, htask, ‹_›⟩
      · cases h
    · cases h
  · rintro ⟨name, id, m, htask, hj⟩
    simp only [htask, hj, if_true]

def TaskPoint.isDeadLetter : TaskPoint → Bool
  | deadLetter _ _ => true
  | _ => false

def TaskPoint.isFinished : TaskPoint → Bool
  | finished _ => true
  | _ => false

theorem hasStatus_iff {s : Sys} {j : UUID} {status : JobStatus} :
    HasStatus s j status ↔ (s.rows j).map (·.status) = some status := by
  simp only [HasStatus, Option.map_eq_some_iff]

/-- Only task `t` moves, without faults; it reads a RUNNING row and writes over no FAILED one. -/
def failsRow (t : Nat) (j : UUID) (s : Sys) : Act → Bool
  | .resume (.task u) c =>
    decide (u = t ∧ c.fate = .ok) &&
      match s.pointOf t j with
      | some (.failGet _) => decide ((s.rows j).map (·.status) = some .running)
      | some p => p.write.isNone || decide ((s.rows j).map (·.status) ≠ some .failed)
      | none => false
  | _ => false

theorem failsRow_sound {t : Nat} {j : UUID} (s : Sys) (a : Act) (h : failsRow t j s a = true) :
    FailsRow (.task t) j s a := by
  cases a with
  | resume who c =>
    cases who with
    | task u =>
      simp only [failsRow, Bool.and_eq_true, decide_eq_true_eq] at h
      obtain ⟨⟨rfl, hc⟩, h⟩ := h
      refine ⟨hc, fun _ _ _ hwho => (by cases hwho), ?_, ?_⟩
      · rintro _ _ ⟨⟩ _ name id m error htask hj
        rw [Sys.pointOf_eq_some.mpr ⟨name, id, m, htask, hj⟩] at h
        exact .inl (hasStatus_iff.mpr (of_decide_eq_true h))
      · rintro _ _ ⟨⟩ hfailed name id m p seen job htask hj hwrite
        rw [Sys.pointOf_eq_some.mpr ⟨name, id, m, htask, hj⟩, hasStatus_iff.mp hfailed] at h
        cases p <;> cases hwrite <;> simp [TaskPoint.write] at h
    | _ => cases h
  | _ => cases h

theorem raisedPermanent_fails : ∃ s s', Reaches {} raisedPermanent s ∧
    HasStatus s 7 .running ∧ Runs.exec (step {}) s (steps (.task 0) 5) = some s' ∧
    FailedWithError s' 7 := by
  obtain ⟨s, hs, hview⟩ := Runs.exec_of_map (step {}) Sys.init raisedPermanent
    (fun s => ((s.rows 7).map (·.status),
      Runs.check (step {}) (failsRow 0 7) s (steps (.task 0) 5) &&
        (s.pointOf 0 7).any TaskPoint.isDeadLetter,
      (Runs.exec (step {}) s (steps (.task 0) 5)).map fun s' =>
        (s'.pointOf 0 7).any TaskPoint.isFinished))
    (some .running, true, some true) (by decide +kernel)
  obtain ⟨hrow, hstart, hafter⟩ : _ ∧ _ ∧ _ := by simpa only [Prod.mk.injEq] using hview
  obtain ⟨row, hrow, hstatus⟩ := Option.map_eq_some_iff.mp hrow
  have hterm : row.isTerminal = false :=
    (InferenceJob.isTerminal_eq_false_iff row).mpr (.inr hstatus)
  obtain ⟨hcheck, hpoint⟩ := (Bool.and_eq_true _ _).mp hstart
  have hdead : DeadLetters s 7 (.task 0) := by
    obtain ⟨p, hp, hpoint⟩ := (Option.any_eq_true _ _).mp hpoint
    obtain ⟨name, id, m, htask, hj⟩ := Sys.pointOf_eq_some.mp hp
    cases p with
    | deadLetter reason error => exact ⟨name, id, m, reason, error, htask, hj⟩
    | _ => cases hpoint
  obtain ⟨s', hs', hpoint'⟩ := Option.map_eq_some_iff.mp hafter
  have hdone : DoneWithMessage s' (.task 0) := by
    obtain ⟨p, hp, hpoint'⟩ := (Option.any_eq_true _ _).mp hpoint'
    obtain ⟨name, id, m, htask, _⟩ := Sys.pointOf_eq_some.mp hp
    cases p with
    | finished outcome => exact ⟨name, id, m, outcome, htask⟩
    | _ => cases hpoint'
  exact ⟨s, s', hs, ⟨row, hrow, hstatus⟩, hs',
    failed_of_deadLettered hs hdead hrow hterm (.of_check failsRow_sound hcheck) hs' hdone⟩

/-- A worker's own passes claim the entry of its running job five times; then another
worker's pass finds it over-delivered. -/
def overDelivered : List Act :=
  boot 0 ++ submitted 7 ++ readPass 0 1 ++ steps (.task 0) 3 ++
    (List.replicate 5 (claimPass 0 1)).flatten ++ boot 1 ++ .pass 1 :: steps (.worker 1) 1 ++
    .resume (.worker 1) { claimed := [1] } :: steps (.worker 1) 2

/-- The verdict of the reclaim pass leaves the row as it is. -/
theorem overDelivered_not_failed : ∃ s s', Reaches {} overDelivered s ∧
    DeadLetters s 7 (.worker 1) ∧ HasStatus s 7 .running ∧
    Runs.exec (step {}) s (steps (.worker 1) 2) = some s' ∧ DoneWithMessage s' (.worker 1) ∧
    HasStatus s' 7 .running ∧ ¬ FailedWithError s' 7 := by
  obtain ⟨s, hs, hview⟩ := Runs.exec_of_map (step {}) Sys.init overDelivered
    (fun s => ((s.rows 7).map (·.status),
      (s.passAt 1).bind PassPoint.judged,
      (Runs.exec (step {}) s (steps (.worker 1) 2)).map fun s' =>
        ((s'.rows 7).map (·.status), (s'.passAt 1).any PassPoint.asksToRead)))
    (some .running, some (1, 7), some (some .running, true)) (by decide +kernel)
  obtain ⟨hrow, hstage, hafter⟩ : _ ∧ _ ∧ _ := by simpa only [Prod.mk.injEq] using hview
  have hdead : DeadLetters s 7 (.worker 1) := by
    obtain ⟨e, m, n, rest, hp, _, hj⟩ := Sys.judged_of_passAt hstage
    exact ⟨e, m, n, rest, hp, hj⟩
  obtain ⟨s', hs', hview'⟩ := Option.map_eq_some_iff.mp hafter
  obtain ⟨hrow', hstage'⟩ : _ ∧ _ := by simpa only [Prod.mk.injEq] using hview'
  have hdone : DoneWithMessage s' (.worker 1) :=
    ⟨_, Sys.asksToRead_of_passAt hstage', fun _ _ _ _ => ⟨by simp, by simp⟩⟩
  refine ⟨s, s', hs, hdead, hasStatus_iff.mpr hrow, hs', hdone, hasStatus_iff.mpr hrow', ?_⟩
  rintro ⟨row, hrow₁, hfailed, _⟩
  rw [hrow₁, Option.map_some, hfailed] at hrow'
  cases hrow'

end InferenceEngine
