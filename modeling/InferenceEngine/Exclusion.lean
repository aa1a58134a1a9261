import InferenceEngine.Coherence

/-!
# Mutual exclusion of executions

A task owns the execution of its job from its RUNNING write until its pipeline has ended and,
on a retry, its PENDING write. Tasks exclude each other only through the row: an owner exists
only while the row is not PENDING, and becomes one by a write over a row that is PENDING.
-/

namespace InferenceEngine

set_option autoImplicit false

open Programs

namespace TaskPoint

/-- The points between the RUNNING write and the end of the execution. -/
def owns : TaskPoint → Bool
  | running _ => true
  | requeueGet => true
  | writePending _ _ => true
  | _ => false

variable {cfg : BrokerSettings} {m : JobMessage}

theorem transient_of_owns_routed {x : Except Exn Unit} (h : (routed cfg m x).owns = true) :
    ∃ msg, x = .error (.transient msg) := by
  rcases x with e | u
  · cases e with
    | transient msg => exact ⟨msg, rfl⟩
    | _ => cases h
  · cases h

theorem owns_raised (e : Exn) : (raised e).owns = false := by
  cases e <;> rfl

end TaskPoint

def Owns (s : Sys) (t : Nat) (j : UUID) : Prop :=
  ∃ name id m p, s.tasks t = some ⟨name, id, .handling m p⟩ ∧ m.jobId = j ∧ p.owns = true

/-- The job whose pipeline a task of a live worker awaits. -/
def Sys.executedBy (s : Sys) (t : Nat) : Option UUID :=
  match s.tasks t with
  | some { consumer := name, body := .handling m (.running _), .. } =>
    match s.workers name with
    | some { stage := .looping _, .. } => some m.jobId
    | _ => none
  | _ => none

/-- At most one execution of each job is in progress. -/
def MutuallyExclusive (s : Sys) : Prop :=
  ∀ t t' j, s.executedBy t = some j → s.executedBy t' = some j → t = t'

/-- A RUNNING write that takes effect finds the row PENDING. -/
def StartsFromPending (s : Sys) : Act → Prop
  | .resume (.task t) c => c.fate ≠ .failed →
    ∀ name id m seen job row, s.tasks t = some ⟨name, id, .handling m (.writeRunning seen job)⟩ →
      s.rows m.jobId = some row → row.status = .pending
  | _ => True

/-- The invariant: owners have a row that is not PENDING and exclude each other. -/
structure Owned (s : Sys) : Prop where
  row : ∀ t j, Owns s t j → ∃ row, s.rows j = some row ∧ row.status ≠ .pending
  unique : ∀ t t' j, Owns s t j → Owns s t' j → t = t'

section
variable {cfg : Settings} {s s' : Sys} {a : Act}

theorem owns_of_executedBy {t : Nat} {j : UUID} (h : s.executedBy t = some j) : Owns s t j := by
  unfold Sys.executedBy at h
  split at h
  · rename_i htask
    split at h
    · exact ⟨_, _, _, _, htask, Option.some.inj h, rfl⟩
    · cases h
  · cases h

theorem Owned.mutuallyExclusive (h : Owned s) : MutuallyExclusive s :=
  fun t t' j ht ht' => h.unique t t' j (owns_of_executedBy ht) (owns_of_executedBy ht')

theorem owns_of_next {p : TaskPoint} {e : Effect} {k : e.Reply → TaskPoint} {r : e.Reply}
    {who : Actor} {c : Choice} {id : Nat} {m : JobMessage} {s₁ : Sys}
    (hnode : p.node cfg.toBrokerSettings id m = .await e k)
    (hperf : s.perform cfg who c e = some (r, s₁)) (h : (k r).owns = true) :
    p.owns = true ∨ ∃ seen job, p = .writeRunning seen job ∧ c.fate = .ok ∧
      ∃ row, s.rows job.id = some row := by
  cases p with
  | running job | requeueGet | writePending seen job => exact .inl rfl
  | guard =>
    cases hnode
    rcases r with x | ⟨job, now⟩
    · cases x <;> cases h
    · simp only [TaskPoint.afterGuard] at h
      split at h <;> cases h
  | load =>
    cases hnode
    rcases TaskPoint.afterLoad_cases cfg.toBrokerSettings m r with
      ⟨job, job', now, rfl, hrun, hk⟩ | ⟨x, hk, hx⟩
    · rw [hk] at h
      cases h
    · rw [hk] at h
      obtain ⟨msg, rfl⟩ := TaskPoint.transient_of_owns_routed h
      obtain rfl := hx msg rfl
      obtain ⟨_, ⟨_, _, _, hr⟩ | ⟨_, _, hr⟩ | ⟨_, hr⟩⟩ := Sys.perform_get hperf <;> cases hr
  | writeRunning seen job =>
    cases hnode
    rcases Sys.perform_update hperf with ⟨_, ⟨hfate, _⟩ | ⟨_, rfl⟩, hrow⟩ | ⟨_, ⟨_, rfl⟩ | ⟨_, rfl⟩⟩
    · obtain ⟨row, hrow, _⟩ := hrow
      exact .inr ⟨seen, job, rfl, hfate, row, hrow⟩
    all_goals cases h
  | writeSuccess seen job =>
    cases hnode
    obtain ⟨msg, rfl⟩ := TaskPoint.transient_of_owns_routed h
    rcases Sys.perform_update hperf with ⟨_, ⟨_, hr⟩ | ⟨_, hr⟩, _⟩ | ⟨_, ⟨_, hr⟩ | ⟨_, hr⟩⟩ <;>
      cases hr
  | failGet error =>
    cases hnode
    rcases r with x | ⟨job, now⟩
    · cases x <;> cases h
    · simp only [TaskPoint.afterFailGet] at h
      cases hf : job.markFailed error none now <;> rw [hf] at h <;> cases h
  | republish | deadLetter reason error =>
    cases hnode
    rcases r with x | u
    · rw [TaskPoint.afterXadd, TaskPoint.owns_raised] at h
      cases h
    · cases h
  | deadLetterAck error =>
    cases hnode
    rcases r with x | u <;> cases h
  | skipAck | successAck | retryAck | writeFailed seen job | release outcome =>
    cases hnode
    cases h
  | finished outcome => cases hnode

theorem owns_of_startTask {name : ConsumerName} {id : Nat} {fields : Fields} {u : Nat}
    {j : UUID} (h : Owns (s.startTask name id fields) u j) : Owns s u j := by
  obtain ⟨name', id', m, p, htask, hj, hp⟩ := h
  rw [Sys.startTask_tasks] at htask
  by_cases hu : u = s.nextTask
  · subst hu
    rw [Function.update_self] at htask
    have hbody : TaskBody.of fields = .handling m p := congrArg Task.body (Option.some.inj htask)
    unfold TaskBody.of at hbody
    split at hbody <;> cases hbody
    cases hp
  · rw [Function.update_of_ne hu] at htask
    exact ⟨name', id', m, p, htask, hj, hp⟩

theorem Owned.of_quiet (ho : Owned s) (htasks : ∀ u j, Owns s' u j → Owns s u j)
    (hrows : ∀ j row, s.rows j = some row → s'.rows j = some row) : Owned s' where
  row := by
    intro t j h
    obtain ⟨row, hrow, hne⟩ := ho.row t j (htasks t j h)
    exact ⟨row, hrows j row hrow, hne⟩
  unique := fun t t' j h h' => ho.unique t t' j (htasks t j h) (htasks t' j h')

theorem Owned.of_write {t : Nat} {name : ConsumerName} {id : Nat} {m : JobMessage}
    {p p' : TaskPoint} {seen job : InferenceJob} (ho : Owned s)
    (htask : s.tasks t = some ⟨name, id, .handling m p⟩) (hp : p.Sound m)
    (hwrite : p.write = some (seen, job))
    (hpending : ∀ row, p = .writeRunning seen job → s.rows job.id = some row →
      row.status = .pending)
    (hleave : p.owns = true → p'.owns = false)
    (htasks : s'.tasks = Function.update s.tasks t (some ⟨name, id, .handling m p'⟩))
    (hrow : ∃ row, s.rows job.id = some row)
    (hrows : s'.rows = Function.update s.rows job.id (some job))
    (hown : p'.owns = true → p.owns = true ∨ p = .writeRunning seen job) : Owned s' := by
  have hid : job.id = m.jobId := hp.write_id hwrite
  -- the other owners are those of before
  have other : ∀ u j, Owns s' u j → u ≠ t → Owns s u j := by
    rintro u j ⟨name', id', m', q, hu, hj, hq⟩ hne
    rw [htasks, Function.update_of_ne hne] at hu
    exact ⟨name', id', m', q, hu, hj, hq⟩
  have self : ∀ j, Owns s' t j → j = m.jobId ∧ p'.owns = true := by
    rintro j ⟨name', id', m', q, hu, hj, hq⟩
    rw [htasks, Function.update_self] at hu
    cases hu
    exact ⟨hj.symm, hq⟩
  have mine : p.owns = true → Owns s t m.jobId := fun h => ⟨name, id, m, p, htask, rfl, h⟩
  -- no second owner of this job is left beside an owner of before, or of a PENDING row
  have alone : p'.owns = true → ∀ u, Owns s' u m.jobId → u = t := by
    intro hp' u hu
    by_contra hne
    have hu := other u _ hu hne
    rcases hown hp' with h | h
    · exact hne (ho.unique u t _ hu (mine h))
    · obtain ⟨row, hrow⟩ := hrow
      obtain ⟨row', hrow', hne'⟩ := ho.row u _ hu
      rw [hid] at hrow
      obtain rfl : row = row' := Option.some.inj (hrow.symm.trans hrow')
      exact hne' (hpending row h (hid ▸ hrow))
  constructor
  · intro u j hu
    by_cases hj : j = m.jobId
    · subst hj
      refine ⟨job, by rw [hrows, ← hid, Function.update_self], fun hpend => ?_⟩
      -- the only write of a PENDING row is the one by which its owner lets go
      have hp' : p.owns = true := by
        cases p <;> cases hwrite
        case writeRunning =>
          obtain ⟨_, now, hrun⟩ := hp
          obtain ⟨_, rfl⟩ := InferenceJob.markRunning_ok_iff.mp hrun
          cases hpend
        case writeSuccess =>
          obtain ⟨_, ref, d, now, hsucc⟩ := hp
          obtain ⟨_, rfl⟩ := InferenceJob.markSuccess_ok_iff.mp hsucc
          cases hpend
        case writePending => rfl
        case writeFailed =>
          obtain ⟨_, error, now, hfail⟩ := hp
          obtain ⟨_, rfl⟩ := InferenceJob.markFailed_ok_iff.mp hfail
          cases hpend
      by_cases hut : u = t
      · subst hut
        have := (self _ hu).2
        rw [hleave hp'] at this
        cases this
      · exact hut (ho.unique u t _ (other u _ hu hut) (mine hp'))
    · have hut : u ≠ t := by
        rintro rfl
        exact hj (self j hu).1
      obtain ⟨row, hrow, hne⟩ := ho.row u j (other u j hu hut)
      exact ⟨row, by rw [hrows, hid, Function.update_of_ne hj, hrow], hne⟩
  · intro u u' j hu hu'
    by_cases hut : u = t
    · subst hut
      obtain ⟨rfl, hq⟩ := self j hu
      exact (alone hq u' hu').symm
    · by_cases hut' : u' = t
      · subst hut'
        obtain ⟨rfl, hq⟩ := self j hu'
        exact alone hq u hu
      · exact ho.unique u u' j (other u j hu hut) (other u' j hu' hut')

theorem Owned.step (hs : Coherent s) (ho : Owned s) (hst : StartsFromPending s a)
    (h : step cfg s a = some s') : Owned s' := by
  cases Sys.step_cases h with
  | submission id c job p e k r s₁ hsub hnode hperf =>
    refine ho.of_quiet (fun u j => ?_) fun j row hrow => ?_
    · rcases (Sys.perform_change hperf).tasks with ⟨ht, _⟩ | ⟨id, fields, name, rfl, _⟩
      · simp only [Owns, Sys.setSubmission_tasks, ht, imp_self]
      · cases p <;> cases hnode
    · rcases (Sys.perform_change hperf).rows with hr | ⟨job', _, hnone, hr⟩ |
        ⟨job', row, rfl, _, _⟩
      · rwa [Sys.setSubmission_rows, hr]
      · have hne : j ≠ job'.id := by
          rintro rfl
          rw [hnone] at hrow
          cases hrow
        rwa [Sys.setSubmission_rows, hr, Function.update_of_ne hne]
      · exact absurd hnode SubmitPoint.node_ne_update
  | starting name c w p e k r s₁ hw hstage hnode hperf
  | looping name c w p e k r s₁ hw hstage hnode hperf =>
    refine ho.of_quiet (fun u j hu => ?_) fun j row hrow => ?_
    · rcases (Sys.perform_change hperf).tasks with ⟨ht, _⟩ | ⟨id, fields, name, rfl, _, rfl⟩
      · simpa only [Owns, Sys.setStage, Sys.modifyWorker_tasks, ht] using hu
      · exact owns_of_startTask hu
    · rcases (Sys.perform_change hperf).rows with hr | ⟨job, rfl, _⟩ | ⟨job, row, rfl, _⟩
      · simpa only [Sys.setStage, Sys.modifyWorker_rows, hr] using hrow
      all_goals cases p <;> cases hnode
  | task t c name id m p w q e k r s₁ htask hw hstage hnode hperf =>
    have hsound := hs.sound t name id m p htask
    have htasks : s₁.tasks = s.tasks := by
      rcases (Sys.perform_change hperf).tasks with ⟨ht, _⟩ | ⟨id, fields, name, rfl, _⟩
      · exact ht
      · cases p <;> cases hnode
    have hown := owns_of_next hnode hperf
    have quiet : (s₁.rows = s.rows) → ((k r).owns = true → p.owns = true) →
        Owned (s₁.setTask t ⟨name, id, .handling m (k r)⟩) := by
      intro hr hk
      refine ho.of_quiet (fun u j hu => ?_) fun j row hrow => by
        rwa [Sys.setTask_rows, hr]
      obtain ⟨name', id', m', p', hu, hj, hp'⟩ := hu
      rw [Sys.setTask_tasks, htasks] at hu
      by_cases hut : u = t
      · subst hut
        rw [Function.update_self] at hu
        cases hu
        exact ⟨name, id, m, p, htask, hj, hk hp'⟩
      · rw [Function.update_of_ne hut] at hu
        exact ⟨name', id', m', p', hu, hj, hp'⟩
    cases hwrite : p.write with
    | none =>
      refine quiet ?_ fun hk => ?_
      · rcases (Sys.perform_change hperf).rows with hr | ⟨job, rfl, _⟩ | ⟨job, row, rfl, _⟩
        · exact hr
        · cases p <;> cases hnode
        · obtain ⟨seen, hsome⟩ := TaskPoint.write_of_node hnode
          cases hwrite.symm.trans hsome
      · rcases hown hk with hp | ⟨seen, job, rfl, _⟩
        · exact hp
        · cases hwrite
    | some copies =>
      obtain ⟨seen, job⟩ := copies
      obtain ⟨k', hnode'⟩ := TaskPoint.node_of_write cfg.toBrokerSettings id m hwrite
      cases hnode.symm.trans hnode'
      rcases Sys.perform_update hperf with ⟨hfate, _, row, hrow, rfl⟩ | ⟨rfl, hr⟩
      · refine ho.of_write htask hsound hwrite ?_ ?_ rfl ⟨row, hrow⟩ rfl ?_
        · rintro row' rfl hrow'
          exact hst hfate name id m seen job row' htask (hsound.write_id hwrite ▸ hrow')
        · intro hp
          cases p <;> cases hwrite <;> cases hp
          cases hnode
          rcases r with x | u <;> rfl
        · intro hk
          rcases hown hk with hp | ⟨seen', job', rfl, _⟩
          · exact .inl hp
          · cases hwrite
            exact .inr rfl
      · refine quiet rfl fun hk => ?_
        rcases hown hk with hp | ⟨seen', job', rfl, hfate, row, hrow⟩
        · exact hp
        · cases hwrite
          rcases hr with ⟨hne, _⟩ | ⟨hnone, _⟩
          · exact absurd hfate hne
          · cases hnone.symm.trans hrow
  | _ => exact ho.of_quiet (fun _ _ h => h) fun _ _ h => h

theorem Owned.init : Owned Sys.init where
  row := by
    rintro t j ⟨name, id, m, p, htask, _⟩
    cases htask
  unique := by
    rintro t t' j ⟨name, id, m, p, htask, _⟩
    cases htask

/-- In a run whose executions all start over PENDING rows, no job is executed twice at once. -/
theorem mutuallyExclusive_of_startsFromPending {acts : List Act} (h : Reaches cfg acts s)
    (hst : Runs.Along (step cfg) StartsFromPending Sys.init acts) : MutuallyExclusive s := by
  have hinv : Coherent s ∧ Owned s :=
    Runs.invariant (I := fun s => Coherent s ∧ Owned s) (P := StartsFromPending)
      (fun _ _ _ hs hst h => ⟨hs.1.step h, hs.2.step hs.1 hst h⟩)
      ⟨Coherent.init, Owned.init⟩ hst h
  exact hinv.2.mutuallyExclusive

end

def startsFromPending (s : Sys) : Act → Bool
  | .resume (.task t) _ =>
    match s.tasks t with
    | some { body := .handling m (.writeRunning _ _), .. } =>
      (s.rows m.jobId).all fun row => row.status = .pending
    | _ => true
  | _ => true

theorem startsFromPending_sound (s : Sys) (a : Act) (h : startsFromPending s a = true) :
    StartsFromPending s a := by
  cases a with
  | resume who c =>
    cases who with
    | task t =>
      intro _ name id m seen job row htask hrow
      simpa [startsFromPending, htask, hrow] using h
    | _ => trivial
  | _ => trivial

/-- A worker takes over the entry of a job that is running; the first one still runs it. -/
def claimedWhileRunning : List Act :=
  boot 0 ++ submitted 7 ++ readPass 0 1 ++ steps (.task 0) 3 ++
    boot 1 ++ claimPass 1 1 ++ steps (.task 1) 2

theorem claimedWhileRunning_excludes : ∃ s, Reaches {} claimedWhileRunning s ∧
    s.executedBy 0 = some 7 ∧ MutuallyExclusive s := by
  obtain ⟨s, hs, hrun⟩ := Runs.exec_of_map (step {}) Sys.init claimedWhileRunning
    (fun s => s.executedBy 0) (some 7) (by decide +kernel)
  exact ⟨s, hs, hrun, mutuallyExclusive_of_startsFromPending hs
    (.of_check startsFromPending_sound (p := startsFromPending) (by decide +kernel))⟩

/-- Two handlers read the row PENDING before either writes RUNNING. -/
def bothReadPending : List Act :=
  boot 0 ++ submitted 7 ++ readPass 0 1 ++ steps (.task 0) 2 ++
    boot 1 ++ claimPass 1 1 ++ steps (.task 1) 2 ++ steps (.task 0) 1 ++ steps (.task 1) 1

theorem bothReadPending_executes_twice : ∃ s, Reaches {} bothReadPending s ∧
    ¬ MutuallyExclusive s := by
  obtain ⟨s, hs, hview⟩ := Runs.exec_of_map (step {}) Sys.init bothReadPending
    (fun s => (s.executedBy 0, s.executedBy 1)) (some 7, some 7) (by decide +kernel)
  obtain ⟨h0, h1⟩ : _ ∧ _ := by simpa only [Prod.mk.injEq] using hview
  exact ⟨s, hs, fun hexcl => absurd (hexcl 0 1 7 h0 h1) (by decide)⟩

end InferenceEngine
