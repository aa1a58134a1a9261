import InferenceEngine.Effects

/-!
# The publishing side

`app/adapters/broker/_errors.py`, `app/adapters/broker/producer.py`, `app/core/retry.py` and
`app/services/ingestion.py`, as coroutines. Log calls are left out.
-/

namespace InferenceEngine

set_option autoImplicit false

open Programs

/-! ### `_errors.py` -/

namespace RedisError

/-- `isinstance(exc, redis.exceptions.ConnectionError)`. -/
def isConnectionError : RedisError → Bool
  | .connection | .busyLoading | .maxConnections | .authentication => true
  | _ => false

/-- `_PERMANENT_REDIS_TYPES`. -/
def isAuthFailure : RedisError → Bool
  | .authentication | .authenticationWrongNumberOfArgs => true
  | _ => false

/-- `_TRANSIENT_REDIS_TYPES`. -/
def isTransientType (e : RedisError) : Bool :=
  e.isConnectionError || e = .timeout || e = .tryAgain

def str : RedisError → Text
  | .connection => "Connection closed by server.".toList
  | .busyLoading => "Redis is loading the dataset in memory".toList
  | .maxConnections => "Too many connections".toList
  | .authentication => "invalid username-password pair".toList
  | .authenticationWrongNumberOfArgs => "wrong number of arguments for AUTH".toList
  | .timeout => "Timeout reading from socket".toList
  | .tryAgain => "TRYAGAIN".toList
  | .busyGroup => "BUSYGROUP Consumer Group name already exists".toList
  | .response text _ => text

/-- `repr(exc)`; the fixed texts have nothing to escape. -/
def repr (e : RedisError) : Text :=
  let named (name : Text) : Text := name ++ "('".toList ++ e.str ++ "')".toList
  match e with
  | .connection => named "ConnectionError".toList
  | .busyLoading => named "BusyLoadingError".toList
  | .maxConnections => named "MaxConnectionsError".toList
  | .authentication => named "AuthenticationError".toList
  | .authenticationWrongNumberOfArgs => named "AuthenticationWrongNumberOfArgsError".toList
  | .timeout => named "TimeoutError".toList
  | .tryAgain => named "TryAgainError".toList
  | .busyGroup => named "ResponseError".toList
  | .response _ repr => repr

/-- `isinstance(exc, redis.exceptions.ResponseError)`. -/
def isResponseError : RedisError → Bool
  | .authenticationWrongNumberOfArgs | .tryAgain | .busyGroup | .response _ _ => true
  | _ => false

/-- What `ensure_group` swallows. -/
def isBusyGroup (e : RedisError) : Bool :=
  e.isResponseError && decide ("BUSYGROUP".toList <:+: e.str)

end RedisError

/-- `classify_redis_error`: authentication first, then the connection layer, then the rest. -/
def classifyRedisError (e : RedisError) : Exn :=
  if e.isAuthFailure then .permanent ("Redis auth error: ".toList ++ e.str)
  else if e.isTransientType then .transient ("Redis transient error: ".toList ++ e.str)
  else .permanent ("Redis permanent error: ".toList ++ e.str)

/-- Which raw errors the retry policy sees as worth retrying. -/
def RedisError.retryable (e : RedisError) : Bool := !e.isAuthFailure && e.isTransientType

theorem classifyRedisError_eq (e : RedisError) :
    ∃ msg, classifyRedisError e = if e.retryable then .transient msg else .permanent msg := by
  unfold classifyRedisError RedisError.retryable
  cases e.isAuthFailure <;> cases e.isTransientType <;> simp

/-! ### `producer.py` -/

/-- `ensure_group`: an existing group is the normal case. -/
def ensureGroup : Async Unit := do
  match ← Async.observe redisXgroupCreate with
  | .ok () => return
  | .error (.redis e) => if e.isBusyGroup then return else throw (.redis e)
  | .error e => throw e

def xadd (key : StreamKey) (fields : Fields) : Async Nat := do
  match ← Async.observe (redisXadd key fields) with
  | .ok id => return id
  | .error (.redis e) => throw (classifyRedisError e)
  | .error e => throw e

def publish (job : InferenceJob) : Async Unit := do
  let _ ← xadd .work (JobMessage.firstDelivery job).toFields

def republish (m : JobMessage) : Async Nat := xadd .work m.toFields

def deadLetterFields (m : JobMessage) (reason : Text) : Fields :=
  m.toFields ++ [(.str "reason".toList, .str reason)]

theorem fromFields_deadLetterFields (m : JobMessage) (reason : Text) :
    JobMessage.fromFields (deadLetterFields m reason) = .ok m := by
  refine JobMessage.fromFields_toFields_append m [("reason".toList, reason)] ?_
  intro kv hkv
  rw [List.mem_singleton.mp hkv]
  simp

def deadLetter (m : JobMessage) (reason : Text) : Async Nat :=
  xadd .dlq (deadLetterFields m reason)

/-! ### `retry.py` and `ingestion.py` -/

/-- `AsyncRetrying(stop_after_attempt(n), retry_if_exception_type(TransientUpstreamError),
reraise=True)`, with `n` tries left after the current one. -/
def retrying (body : Async Unit) : Nat → Async Unit
  | 0 => body
  | left + 1 => do
    match ← Async.observe body with
    | .ok () => return
    | .error (.transient _) => retrying body left
    | .error e => throw e

/-- `IngestionService.submit`, for the job `InferenceJob.new` built; `maxAttempts` is
`retry.max_attempts`, at least one. -/
def submit (maxAttempts : Nat) (job : InferenceJob) : Async UUID := do
  repoAdd job
  retrying (publish job) (maxAttempts - 1)
  return job.id

end InferenceEngine
