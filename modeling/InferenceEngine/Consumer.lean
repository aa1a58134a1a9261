import InferenceEngine.Producer

/-!
# The consuming side

`app/services/processor.py` and `app/adapters/broker/consumer.py`, as coroutines. A pipeline
is one effect here. `self._in_flight_ids` and `self._in_flight` are registers of the consumer
that the coroutines read and write by effects; log calls are left out.
-/

namespace InferenceEngine

set_option autoImplicit false

open Programs

def Exn.str : Exn → Text
  | .transient msg | .permanent msg | .other msg _ => msg
  | .invalidTransition current target =>
    "illegal job transition: ".toList ++ current.value ++ " -> ".toList ++ target.value
  | .jobNotFound id => "job not found: ".toList ++ uuidText id
  | .redis e => e.str

/-- `repr(exc)` of the domain's own exceptions, whose messages have nothing to escape. -/
def reprInvalidTransition (current target : JobStatus) : Text :=
  "InvalidTransition('".toList ++ Exn.str (.invalidTransition current target) ++ "')".toList

def reprJobNotFound (id : UUID) : Text :=
  "JobNotFound('".toList ++ Exn.str (.jobNotFound id) ++ "')".toList

/-! ### `processor.py` -/

/-- The second half of `process`: run the pipeline of a job whose row is RUNNING. -/
def execute (job : InferenceJob) : Async Unit := do
  match ← Async.observe (pipelineRun job) with
  | .error (.transient msg) => throw (.transient msg)
  | .error (.permanent msg) => throw (.permanent msg)
  | .error e => throw (.permanent e.str)
  | .ok (ref, duration, now) =>
    let job ← Async.ofExcept (job.markSuccess ref (some duration) now)
    repoUpdate job

/-- `JobProcessor.process`; the attempt number is only logged. -/
def process (jobId : UUID) (_attempt : Int) : Async Unit := do
  match ← Async.observe (repoGet jobId) with
  | .error (.jobNotFound _) => return
  | .error e => throw e
  | .ok (job, now) =>
    if job.isTerminal then
      return
    let job ← Async.ofExcept (job.markRunning now)
    repoUpdate job
    execute job

/-! ### `consumer.py`: one delivery -/

def alreadyTerminal (m : JobMessage) : Async Bool := do
  match ← Async.observe (repoGet m.jobId) with
  | .error (.jobNotFound _) => return true
  | .error e => throw e
  | .ok (job, _) => return job.isTerminal

def requeueRow (m : JobMessage) : Async Unit := do
  match ← Async.observe (repoGet m.jobId) with
  | .error (.jobNotFound _) => return
  | .error e => throw e
  | .ok (job, now) =>
    let job ← Async.ofExcept (job.requeue now)
    repoUpdate job

def markFailed (m : JobMessage) (error : Text) : Async Unit := do
  match ← Async.observe (repoGet m.jobId) with
  | .error (.jobNotFound _) => return
  | .error e => throw e
  | .ok (job, now) =>
    let job ← Async.ofExcept (job.markFailed error none now)
    repoUpdate job

def ack (id : Nat) : Async Unit := redisXack id

def routeToDlq (id : Nat) (m : JobMessage) (reason : Text) : Async Unit := do
  let _ ← deadLetter m reason
  ack id

/-- The `reason` of a message whose attempts are used up. -/
def exhaustedReason (m : JobMessage) (exc : Text) : Text :=
  "transient, attempts exhausted (".toList ++ intText m.attempt ++ "): ".toList ++ exc

/-- The `error` of a row whose attempts are used up. -/
def exhaustedError (m : JobMessage) (exc : Text) : Text :=
  "exhausted after ".toList ++ intText m.attempt ++ ": ".toList ++ exc

def onTransient (cfg : BrokerSettings) (id : Nat) (m : JobMessage) (exc : Text) :
    Async Unit := do
  if cfg.maxAttempts ≤ m.attempt then
    routeToDlq id m (exhaustedReason m exc)
    markFailed m (exhaustedError m exc)
  else
    requeueRow m
    let _ ← republish m.nextAttempt
    ack id

/-- The branch `except Exception`, by the `repr` of the exception. -/
def unexpected (id : Nat) (m : JobMessage) (repr : Text) : Async Unit := do
  routeToDlq id m ("unexpected: ".toList ++ repr)
  markFailed m repr

/-- The `except` and `else` branches after the processor. -/
def route (cfg : BrokerSettings) (id : Nat) (m : JobMessage) :
    Except Exn Unit → Async Unit
  | .ok () => ack id
  | .error (.transient exc) => onTransient cfg id m exc
  | .error (.permanent exc) => do
    routeToDlq id m ("permanent: ".toList ++ exc)
    markFailed m exc
  | .error (.invalidTransition current target) =>
    unexpected id m (reprInvalidTransition current target)
  | .error (.jobNotFound j) => unexpected id m (reprJobNotFound j)
  | .error (.redis e) => unexpected id m e.repr
  | .error (.other _ repr) => unexpected id m repr

/-- The body of the outer `try`. -/
def guarded (cfg : BrokerSettings) (id : Nat) (m : JobMessage) : Async Unit := do
  if ← alreadyTerminal m then
    ack id
  else
    let outcome ← Async.observe (process m.jobId m.attempt)
    route cfg id m outcome

/-- `_process_and_route`; decoding stands before the `try`. -/
def processAndRoute (cfg : BrokerSettings) (id : Nat) (fields : Fields) : Async Unit := do
  let m ← Async.ofExcept (JobMessage.fromFields fields)
  Async.ensuring (guarded cfg id m) (discard id)

/-! ### `consumer.py`: one pass -/

/-- `_delivery_count`: zero when the entry is no longer pending. -/
def deliveryCount (id : Nat) : Async Nat := do
  let pending ← redisXpending id
  return pending.getD 0

def overDeliveredReason (deliveries : Nat) : Text :=
  "exceeded max delivery count (".toList ++ intText deliveries ++ ")".toList

def handleReclaimed (cfg : BrokerSettings) (e : StreamEntry) : Async Unit := do
  if ← inFlightIds e.id then
    return
  let deliveries ← deliveryCount e.id
  if cfg.maxDeliveryCount < deliveries then
    let m ← Async.ofExcept (JobMessage.fromFields e.fields)
    routeToDlq e.id m (overDeliveredReason deliveries)
  else
    dispatch e.id e.fields

/-- `for .. in entries: await body(..)`. -/
def forEach (body : StreamEntry → Async Unit) : List StreamEntry → Async Unit
  | [] => return
  | e :: rest => do
    body e
    forEach body rest

def reclaimOrphans (cfg : BrokerSettings) : Async Unit := do
  let capacity ← freeCapacity
  if capacity ≤ 0 then
    return
  let claimed ← redisXautoclaim capacity
  forEach (handleReclaimed cfg) claimed

def consumeOnce (cfg : BrokerSettings) : Async Nat := do
  reclaimOrphans cfg
  let capacity ← freeCapacity
  if capacity ≤ 0 then
    return 0
  let entries ← redisXreadgroup capacity
  forEach (fun e => dispatch e.id e.fields) entries
  return entries.length

end InferenceEngine
