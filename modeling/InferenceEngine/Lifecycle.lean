import InferenceEngine.Domain
import Mathlib.Data.List.Basic

/-!
# The fields of a job over its life

The methods of `InferenceJob` as the source writes them: statements that assign to the fields of
one entity and may raise in between. A call is the transition of the functional model, and one
that raises has assigned nothing; what the fields say of each other then holds after any calls.
-/

namespace InferenceEngine

set_option autoImplicit false

/-- A method body: what it has assigned stays when it raises. -/
abbrev Method (α : Type) := ExceptT Exn (StateM InferenceJob) α

namespace Method

def require (target : JobStatus) (now : Time) : Method Unit := do
  let self ← get
  if target ∉ allowed self.status then
    throw (.invalidTransition self.status target)
  modify fun self => { self with status := target }
  modify fun self => { self with updatedAt := now }

def markRunning (now : Time) : Method Unit := do
  require .running now
  modify fun self => { self with attempts := self.attempts + 1 }
  modify fun self => { self with error := none }

def markSuccess (resultRef : Text) (durationMs : Option Int) (now : Time) : Method Unit := do
  require .success now
  modify fun self => { self with resultRef := some resultRef }
  if durationMs.isSome then
    modify fun self => { self with durationMs := durationMs }

def markFailed (error : Text) (durationMs : Option Int) (now : Time) : Method Unit := do
  require .failed now
  modify fun self => { self with error := some error }
  if durationMs.isSome then
    modify fun self => { self with durationMs := durationMs }

def requeue (now : Time) : Method Unit := require .pending now

end Method

/-- A call of a transition method with its arguments. -/
inductive JobCall where
  | markRunning
  | markSuccess (resultRef : Text) (durationMs : Option Int)
  | markFailed (error : Text) (durationMs : Option Int)
  | requeue

namespace JobCall

def method : JobCall → Time → Method Unit
  | .markRunning, now => .markRunning now
  | .markSuccess resultRef durationMs, now => .markSuccess resultRef durationMs now
  | .markFailed error durationMs, now => .markFailed error durationMs now
  | .requeue, now => .requeue now

/-- The call on an entity: how it ends, and the entity after it. -/
def on (call : JobCall) (job : InferenceJob) (now : Time) : Except Exn Unit × InferenceJob :=
  (call.method now).run.run job

/-- The transition of the functional model that the call makes. -/
def transition : JobCall → InferenceJob → Time → Except Exn InferenceJob
  | .markRunning, job, now => job.markRunning now
  | .markSuccess resultRef durationMs, job, now => job.markSuccess resultRef durationMs now
  | .markFailed error durationMs, job, now => job.markFailed error durationMs now
  | .requeue, job, now => job.requeue now

def starts (call : JobCall) (job : InferenceJob) (now : Time) : Bool :=
  match call, call.on job now with
  | .markRunning, (.ok (), _) => true
  | _, _ => false

end JobCall

def InferenceJob.after (job : InferenceJob) (calls : List (JobCall × Time)) : InferenceJob :=
  calls.foldl (fun job call => (call.1.on job call.2).2) job

def InferenceJob.startsIn (job : InferenceJob) : List (JobCall × Time) → Nat
  | [] => 0
  | (call, now) :: calls =>
    (if call.starts job now then 1 else 0) + startsIn (call.on job now).2 calls

section
variable {job job' : InferenceJob} {call : JobCall} {now : Time}

/-- A call makes its transition, or raises and leaves the entity as it was. -/
theorem JobCall.on_eq (call : JobCall) (job : InferenceJob) (now : Time) :
    call.on job now =
      match call.transition job now with
      | .ok job' => (.ok (), job')
      | .error x => (.error x, job) := by
  obtain ⟨ty, payload, id, status, attempts, ref, error, duration, created, updated⟩ := job
  cases call with
  | markRunning => cases status <;> rfl
  | markSuccess resultRef durationMs => cases status <;> cases durationMs <;> rfl
  | markFailed error durationMs => cases status <;> cases durationMs <;> rfl
  | requeue => cases status <;> rfl

theorem JobCall.on_of_ok (h : call.transition job now = .ok job') :
    call.on job now = (.ok (), job') := by
  rw [JobCall.on_eq, h]

theorem JobCall.on_of_error {x : Exn} (h : call.transition job now = .error x) :
    call.on job now = (.error x, job) := by
  rw [JobCall.on_eq, h]

theorem JobCall.starts_of_error {x : Exn} (h : call.transition job now = .error x) :
    call.starts job now = false := by
  cases call with
  | markRunning =>
    unfold JobCall.starts
    rw [JobCall.on_of_error h]
  | _ => rfl

theorem JobCall.updatedAt_of_ok (h : call.transition job now = .ok job') : job'.updatedAt = now := by
  cases call with
  | markRunning =>
    obtain ⟨_, rfl⟩ := InferenceJob.markRunning_ok_iff.mp h
    rfl
  | markSuccess resultRef durationMs =>
    obtain ⟨_, rfl⟩ := InferenceJob.markSuccess_ok_iff.mp h
    rfl
  | markFailed error durationMs =>
    obtain ⟨_, rfl⟩ := InferenceJob.markFailed_ok_iff.mp h
    rfl
  | requeue =>
    obtain ⟨_, rfl⟩ := InferenceJob.requeue_ok_iff.mp h
    rfl

theorem JobCall.transition_of_terminal (call : JobCall) (h : job.isTerminal = true) (now : Time) :
    ∃ current target, call.transition job now = .error (.invalidTransition current target) := by
  have hpending : job.status ≠ .pending := by
    intro hs
    simp [InferenceJob.isTerminal, terminal, hs] at h
  have hrunning : job.status ≠ .running := by
    intro hs
    simp [InferenceJob.isTerminal, terminal, hs] at h
  cases call with
  | markRunning => exact ⟨_, _, InferenceJob.markRunning_of_ne hpending now⟩
  | markSuccess resultRef durationMs =>
    exact ⟨_, _, InferenceJob.markSuccess_of_ne hrunning resultRef durationMs now⟩
  | markFailed error durationMs =>
    exact ⟨_, _, InferenceJob.markFailed_of_ne hrunning error durationMs now⟩
  | requeue => exact ⟨_, _, InferenceJob.requeue_of_ne hrunning now⟩

end

/-- What the fields of a job say of each other, after `starts` successful starts. -/
structure JobFields (initial job : InferenceJob) (starts : Nat) : Prop where
  attempts : job.attempts = starts
  attempted : job.status ≠ .pending → 1 ≤ job.attempts
  resultRef : job.resultRef.isSome = true ↔ job.status = .success
  error : job.error.isSome = true ↔ job.status = .failed
  durationMs : job.durationMs.isSome = true → job.isTerminal = true
  id : job.id = initial.id
  jobType : job.jobType = initial.jobType
  payload : job.payload = initial.payload
  createdAt : job.createdAt = initial.createdAt
  clock : job.createdAt ≤ job.updatedAt

namespace JobFields

variable {initial job job' : InferenceJob} {starts : Nat} {now : Time}

theorem new {ty : JobType} {payload : List (Text × Json)} {id : UUID} {created updated : Time}
    (hclock : created ≤ updated) :
    JobFields (.new ty payload id created updated) (.new ty payload id created updated) 0 where
  attempts := rfl
  attempted h := absurd rfl h
  resultRef := by simp [InferenceJob.new]
  error := by simp [InferenceJob.new]
  durationMs := by simp [InferenceJob.new]
  id := rfl
  jobType := rfl
  payload := rfl
  createdAt := rfl
  clock := hclock

theorem unset (h : JobFields initial job starts) (hs : job.status = .pending ∨ job.status = .running) :
    job.resultRef = none ∧ job.error = none ∧ job.durationMs = none := by
  have hterm : job.isTerminal = false := (InferenceJob.isTerminal_eq_false_iff job).mpr hs
  refine ⟨?_, ?_, ?_⟩
  · apply Option.not_isSome_iff_eq_none.mp
    intro hsome
    have := h.resultRef.mp hsome
    simp [this] at hs
  · apply Option.not_isSome_iff_eq_none.mp
    intro hsome
    have := h.error.mp hsome
    simp [this] at hs
  · apply Option.not_isSome_iff_eq_none.mp
    intro hsome
    have := h.durationMs hsome
    simp [this] at hterm

theorem markRunning (h : JobFields initial job starts) (hnow : job.updatedAt ≤ now)
    (hcall : job.markRunning now = .ok job') : JobFields initial job' (starts + 1) := by
  obtain ⟨hs, rfl⟩ := InferenceJob.markRunning_ok_iff.mp hcall
  obtain ⟨href, _, hduration⟩ := h.unset (.inl hs)
  have hattempts := h.attempts
  refine ⟨?_, ?_, ?_, ?_, ?_, h.id, h.jobType, h.payload, h.createdAt, Nat.le_trans h.clock hnow⟩
  · simp [hattempts]
  · intro _
    simp only [hattempts]
    omega
  · simp [href]
  · simp
  · simp [hduration]

theorem markSuccess {ref : Text} {d : Option Int} (h : JobFields initial job starts)
    (hnow : job.updatedAt ≤ now) (hcall : job.markSuccess ref d now = .ok job') :
    JobFields initial job' starts := by
  obtain ⟨hs, rfl⟩ := InferenceJob.markSuccess_ok_iff.mp hcall
  obtain ⟨_, herror, _⟩ := h.unset (.inr hs)
  have hattempted := h.attempted (by simp [hs])
  refine ⟨h.attempts, fun _ => hattempted, ?_, ?_, ?_, h.id, h.jobType, h.payload, h.createdAt,
    Nat.le_trans h.clock hnow⟩
  · simp
  · simp [herror]
  · intro _
    exact (InferenceJob.isTerminal_iff _).mpr (.inl rfl)

theorem markFailed {e : Text} {d : Option Int} (h : JobFields initial job starts)
    (hnow : job.updatedAt ≤ now) (hcall : job.markFailed e d now = .ok job') :
    JobFields initial job' starts := by
  obtain ⟨hs, rfl⟩ := InferenceJob.markFailed_ok_iff.mp hcall
  obtain ⟨href, _, _⟩ := h.unset (.inr hs)
  have hattempted := h.attempted (by simp [hs])
  refine ⟨h.attempts, fun _ => hattempted, ?_, ?_, ?_, h.id, h.jobType, h.payload, h.createdAt,
    Nat.le_trans h.clock hnow⟩
  · simp [href]
  · simp
  · intro _
    exact (InferenceJob.isTerminal_iff _).mpr (.inr rfl)

theorem requeue (h : JobFields initial job starts) (hnow : job.updatedAt ≤ now)
    (hcall : job.requeue now = .ok job') : JobFields initial job' starts := by
  obtain ⟨hs, rfl⟩ := InferenceJob.requeue_ok_iff.mp hcall
  obtain ⟨href, herror, hduration⟩ := h.unset (.inr hs)
  refine ⟨h.attempts, fun hne => absurd rfl hne, ?_, ?_, ?_, h.id, h.jobType, h.payload,
    h.createdAt, Nat.le_trans h.clock hnow⟩
  · simp [href]
  · simp [herror]
  · simp [hduration]

theorem call (h : JobFields initial job starts) (call : JobCall) (hnow : job.updatedAt ≤ now) :
    JobFields initial (call.on job now).2 (starts + if call.starts job now then 1 else 0) ∧
      job.updatedAt ≤ (call.on job now).2.updatedAt ∧ (call.on job now).2.updatedAt ≤ now := by
  cases hcall : call.transition job now with
  | error x =>
    rw [JobCall.starts_of_error hcall, JobCall.on_of_error hcall]
    exact ⟨h, Nat.le_refl _, hnow⟩
  | ok job' =>
    have hupdated : job'.updatedAt = now := JobCall.updatedAt_of_ok hcall
    rw [JobCall.on_of_ok hcall]
    refine ⟨?_, Nat.le_trans hnow (Nat.le_of_eq hupdated.symm), Nat.le_of_eq hupdated⟩
    cases call with
    | markRunning =>
      have hstarts : JobCall.markRunning.starts job now = true := by
        unfold JobCall.starts
        rw [JobCall.on_of_ok hcall]
      rw [hstarts]
      exact h.markRunning hnow hcall
    | markSuccess ref d => exact h.markSuccess hnow hcall
    | markFailed e d => exact h.markFailed hnow hcall
    | requeue => exact h.requeue hnow hcall

/-- Calls under a clock that does not go back. -/
theorem calls {calls : List (JobCall × Time)} (h : JobFields initial job starts)
    (hclock : (job.updatedAt :: calls.map (·.2)).Pairwise (· ≤ ·)) :
    JobFields initial (job.after calls) (starts + job.startsIn calls) ∧
      ∀ now, (∀ t ∈ job.updatedAt :: calls.map (·.2), t ≤ now) → (job.after calls).updatedAt ≤ now := by
  induction calls generalizing job starts with
  | nil => exact ⟨h, fun now hnow => hnow _ List.mem_cons_self⟩
  | cons c calls ih =>
    obtain ⟨c, t⟩ := c
    obtain ⟨hfirst, htimes⟩ := List.pairwise_cons.mp hclock
    obtain ⟨hlater, hrest⟩ := List.pairwise_cons.mp htimes
    obtain ⟨hnext, _, hle⟩ := h.call c (hfirst t List.mem_cons_self)
    have hclock' : ((c.on job t).2.updatedAt :: calls.map (·.2)).Pairwise (· ≤ ·) :=
      List.pairwise_cons.mpr ⟨fun u hu => Nat.le_trans hle (hlater u hu), hrest⟩
    obtain ⟨hfields, hlast⟩ := ih hnext hclock'
    refine ⟨?_, fun now hnow => hlast now ?_⟩
    · rw [Nat.add_assoc] at hfields
      exact hfields
    · intro u hu
      rcases List.mem_cons.mp hu with rfl | hu
      · exact Nat.le_trans hle (hnow t (List.mem_cons_of_mem _ List.mem_cons_self))
      · exact hnow u (List.mem_cons_of_mem _ (List.mem_cons_of_mem _ hu))

end JobFields

theorem jobFields_of_calls (ty : JobType) (payload : List (Text × Json)) (id : UUID)
    (created updated : Time) (calls : List (JobCall × Time))
    (hclock : (created :: updated :: calls.map (·.2)).Pairwise (· ≤ ·)) :
    let initial := InferenceJob.new ty payload id created updated
    let job := initial.after calls
    JobFields initial job (initial.startsIn calls) ∧
      ∀ (call : JobCall) (now : Time), (∀ t ∈ updated :: calls.map (·.2), t ≤ now) →
        (∀ x, (call.on job now).1 = .error x → (call.on job now).2 = job) ∧
        job.updatedAt ≤ (call.on job now).2.updatedAt ∧
        (job.isTerminal = true → ∃ current target,
          (call.on job now).1 = .error (.invalidTransition current target)) := by
  intro initial job
  obtain ⟨hcreated, htimes⟩ := List.pairwise_cons.mp hclock
  obtain ⟨hfields, hlast⟩ :=
    JobFields.calls (JobFields.new (hcreated updated List.mem_cons_self)) htimes
  rw [Nat.zero_add] at hfields
  refine ⟨hfields, fun call now hnow => ⟨?_, ?_, ?_⟩⟩
  · intro x hx
    cases hcall : call.transition job now with
    | error y => rw [JobCall.on_of_error hcall]
    | ok job' =>
      rw [JobCall.on_of_ok hcall] at hx
      cases hx
  · exact (hfields.call call (hlast now hnow)).2.1
  · intro hterm
    obtain ⟨current, target, hcall⟩ := call.transition_of_terminal hterm now
    exact ⟨current, target, by rw [JobCall.on_of_error hcall]⟩

/-- A job that is retried once and then fails, with illegal calls in between. -/
def failedRetry : List (JobCall × Time) :=
  [(.requeue, 2), (.markRunning, 3), (.markRunning, 3), (.requeue, 4), (.markRunning, 5),
   (.markFailed "boom".toList (some 7), 6), (.markSuccess [] none, 8)]

theorem failedRetry_fields :
    JobFields (.new .ragQuery [] 7 0 1) ((InferenceJob.new .ragQuery [] 7 0 1).after failedRetry)
      ((InferenceJob.new .ragQuery [] 7 0 1).startsIn failedRetry) ∧
    (InferenceJob.new .ragQuery [] 7 0 1).startsIn failedRetry = 2 :=
  ⟨(jobFields_of_calls .ragQuery [] 7 0 1 failedRetry (by decide)).1, by decide⟩

end InferenceEngine
