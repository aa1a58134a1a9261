import Mathlib.Data.List.Basic
import Mathlib.Data.Rat.Init

/-!
# Jobs and their state machine

`app/domain/models.py` and `app/domain/exceptions.py`. A job is mutated in place in the
source; here a transition returns the mutated job, or the exception that leaves it as it was.
-/

namespace InferenceEngine

set_option autoImplicit false

/-- A Python `str`: a sequence of code points. -/
abbrev Text := List Char

instance : LawfulBEq Text := inferInstance

/-- `uuid.UUID`: a 128-bit integer. -/
abbrev UUID := BitVec 128

/-- An instant of the UTC clock, in microseconds. -/
abbrev Time := Nat

/-- A JSON value as the JSON column hands it back; a `float` is a finite binary64 number. -/
inductive Json where
  | null
  | bool (b : Bool)
  | int (n : Int)
  | float (q : Rat)
  | str (s : Text)
  | list (xs : List Json)
  | dict (kvs : List (Text × Json))

inductive JobStatus where
  | pending | running | success | failed
  deriving DecidableEq, Repr

def JobStatus.value : JobStatus → Text
  | .pending => "pending".toList
  | .running => "running".toList
  | .success => "success".toList
  | .failed => "failed".toList

inductive JobType where
  | ragQuery | embedDocument
  deriving DecidableEq, Repr

def JobType.value : JobType → Text
  | .ragQuery => "rag_query".toList
  | .embedDocument => "embed_document".toList

/-- The classes of `redis.exceptions` that the broker tells apart. -/
inductive RedisError where
  | connection | busyLoading | maxConnections | authentication
  | authenticationWrongNumberOfArgs | timeout | tryAgain | busyGroup
  | response (text repr : Text)
  deriving DecidableEq, Repr

/-- The exceptions that cross the broker: the domain hierarchy, raw redis-py errors and
everything else, with what `str` and `repr` make of it. -/
inductive Exn where
  | transient (msg : Text)
  | permanent (msg : Text)
  | invalidTransition (current target : JobStatus)
  | jobNotFound (id : UUID)
  | redis (e : RedisError)
  | other (msg repr : Text)
  deriving DecidableEq, Repr

/-- A `ValueError` with a message of the code's own, in which `repr` escapes nothing. -/
def Exn.valueError (msg : Text) : Exn := .other msg ("ValueError('".toList ++ msg ++ "')".toList)

def terminal : List JobStatus := [.success, .failed]

/-- `_ALLOWED`: the legal transition graph as an adjacency map. -/
def allowed : JobStatus → List JobStatus
  | .pending => [.running]
  | .running => [.success, .failed, .pending]
  | .success => []
  | .failed => []

structure InferenceJob where
  jobType : JobType
  payload : List (Text × Json)
  id : UUID
  status : JobStatus := .pending
  attempts : Int := 0
  resultRef : Option Text := none
  error : Option Text := none
  durationMs : Option Int := none
  createdAt : Time
  updatedAt : Time

namespace InferenceJob

/-- `InferenceJob.new`; the fresh id and the two clock readings are the environment's. -/
def new (jobType : JobType) (payload : List (Text × Json)) (id : UUID) (created updated : Time) :
    InferenceJob :=
  { jobType, payload, id, createdAt := created, updatedAt := updated }

def isTerminal (job : InferenceJob) : Bool := job.status ∈ terminal

def require (job : InferenceJob) (target : JobStatus) (now : Time) : Except Exn InferenceJob :=
  if target ∈ allowed job.status then
    .ok { job with status := target, updatedAt := now }
  else
    .error (.invalidTransition job.status target)

def markRunning (job : InferenceJob) (now : Time) : Except Exn InferenceJob := do
  let job ← job.require .running now
  return { job with attempts := job.attempts + 1, error := none }

def markSuccess (job : InferenceJob) (ref : Text) (duration : Option Int) (now : Time) :
    Except Exn InferenceJob := do
  let job ← job.require .success now
  return { job with resultRef := some ref, durationMs := duration <|> job.durationMs }

def markFailed (job : InferenceJob) (error : Text) (duration : Option Int) (now : Time) :
    Except Exn InferenceJob := do
  let job ← job.require .failed now
  return { job with error := some error, durationMs := duration <|> job.durationMs }

def requeue (job : InferenceJob) (now : Time) : Except Exn InferenceJob :=
  job.require .pending now

@[simp] theorem isTerminal_iff (job : InferenceJob) :
    job.isTerminal = true ↔ job.status = .success ∨ job.status = .failed := by
  simp [isTerminal, terminal]

theorem isTerminal_eq_false_iff (job : InferenceJob) :
    job.isTerminal = false ↔ job.status = .pending ∨ job.status = .running := by
  cases h : job.status <;> simp [isTerminal, terminal, h]

theorem markRunning_ok_iff {job job' : InferenceJob} {now : Time} :
    job.markRunning now = .ok job' ↔ job.status = .pending ∧
      job' = { job with status := .running, updatedAt := now, attempts := job.attempts + 1,
                        error := none } := by
  cases h : job.status <;>
    simp [markRunning, require, allowed, h, bind, Except.bind, pure, Except.pure, eq_comm]

theorem markRunning_of_pending {job : InferenceJob} (h : job.status = .pending) (now : Time) :
    job.markRunning now = .ok { job with status := .running, updatedAt := now,
                                         attempts := job.attempts + 1, error := none } :=
  markRunning_ok_iff.mpr ⟨h, rfl⟩

theorem markRunning_of_ne {job : InferenceJob} (h : job.status ≠ .pending) (now : Time) :
    job.markRunning now = .error (.invalidTransition job.status .running) := by
  cases hs : job.status <;>
    simp_all [markRunning, require, allowed, bind, Except.bind]

theorem markSuccess_ok_iff {job job' : InferenceJob} {ref : Text} {d : Option Int} {now : Time} :
    job.markSuccess ref d now = .ok job' ↔ job.status = .running ∧
      job' = { job with status := .success, updatedAt := now, resultRef := some ref,
                        durationMs := d <|> job.durationMs } := by
  cases h : job.status <;>
    simp [markSuccess, require, allowed, h, bind, Except.bind, pure, Except.pure, eq_comm]

theorem markSuccess_of_running {job : InferenceJob} (h : job.status = .running) (ref : Text)
    (d : Option Int) (now : Time) :
    job.markSuccess ref d now = .ok { job with status := .success, updatedAt := now,
                                               resultRef := some ref,
                                               durationMs := d <|> job.durationMs } :=
  markSuccess_ok_iff.mpr ⟨h, rfl⟩

theorem markSuccess_of_ne {job : InferenceJob} (h : job.status ≠ .running) (ref : Text)
    (d : Option Int) (now : Time) :
    job.markSuccess ref d now = .error (.invalidTransition job.status .success) := by
  cases hs : job.status <;>
    simp_all [markSuccess, require, allowed, bind, Except.bind]

theorem markFailed_ok_iff {job job' : InferenceJob} {e : Text} {d : Option Int} {now : Time} :
    job.markFailed e d now = .ok job' ↔ job.status = .running ∧
      job' = { job with status := .failed, updatedAt := now, error := some e,
                        durationMs := d <|> job.durationMs } := by
  cases h : job.status <;>
    simp [markFailed, require, allowed, h, bind, Except.bind, pure, Except.pure, eq_comm]

theorem markFailed_of_running {job : InferenceJob} (h : job.status = .running) (e : Text)
    (d : Option Int) (now : Time) :
    job.markFailed e d now = .ok { job with status := .failed, updatedAt := now, error := some e,
                                            durationMs := d <|> job.durationMs } :=
  markFailed_ok_iff.mpr ⟨h, rfl⟩

theorem markFailed_of_ne {job : InferenceJob} (h : job.status ≠ .running) (e : Text)
    (d : Option Int) (now : Time) :
    job.markFailed e d now = .error (.invalidTransition job.status .failed) := by
  cases hs : job.status <;>
    simp_all [markFailed, require, allowed, bind, Except.bind]

theorem requeue_ok_iff {job job' : InferenceJob} {now : Time} :
    job.requeue now = .ok job' ↔ job.status = .running ∧
      job' = { job with status := .pending, updatedAt := now } := by
  cases h : job.status <;> simp [requeue, require, allowed, h, eq_comm]

theorem requeue_of_running {job : InferenceJob} (h : job.status = .running) (now : Time) :
    job.requeue now = .ok { job with status := .pending, updatedAt := now } :=
  requeue_ok_iff.mpr ⟨h, rfl⟩

theorem requeue_of_ne {job : InferenceJob} (h : job.status ≠ .running) (now : Time) :
    job.requeue now = .error (.invalidTransition job.status .pending) := by
  cases hs : job.status <;> simp_all [requeue, require, allowed]

end InferenceJob

/-- What every transition of `models.py` does to the fields the broker relies on: it leaves a
non-terminal status along an edge of the graph and keeps the identity of the job. -/
structure Transition (before after : InferenceJob) : Prop where
  edge : after.status ∈ allowed before.status
  id : after.id = before.id
  jobType : after.jobType = before.jobType
  payload : after.payload = before.payload

namespace Transition

variable {job job' : InferenceJob} {now : Time}

theorem of_markRunning (h : job.markRunning now = .ok job') : Transition job job' := by
  obtain ⟨hs, rfl⟩ := InferenceJob.markRunning_ok_iff.mp h
  exact ⟨by simp [hs, allowed], rfl, rfl, rfl⟩

theorem of_markSuccess {ref : Text} {d : Option Int} (h : job.markSuccess ref d now = .ok job') :
    Transition job job' := by
  obtain ⟨hs, rfl⟩ := InferenceJob.markSuccess_ok_iff.mp h
  exact ⟨by simp [hs, allowed], rfl, rfl, rfl⟩

theorem of_markFailed {e : Text} {d : Option Int} (h : job.markFailed e d now = .ok job') :
    Transition job job' := by
  obtain ⟨hs, rfl⟩ := InferenceJob.markFailed_ok_iff.mp h
  exact ⟨by simp [hs, allowed], rfl, rfl, rfl⟩

theorem of_requeue (h : job.requeue now = .ok job') : Transition job job' := by
  obtain ⟨hs, rfl⟩ := InferenceJob.requeue_ok_iff.mp h
  exact ⟨by simp [hs, allowed], rfl, rfl, rfl⟩

theorem not_terminal (h : Transition job job') : job.isTerminal = false := by
  have he := h.edge
  cases hs : job.status <;> simp [hs, allowed] at he <;>
    simp [InferenceJob.isTerminal, terminal, hs]

end Transition

end InferenceEngine
