import InferenceEngine.Consumer

/-!
# Program points of the coroutines

A coroutine that is suspended stands at one of finitely many awaits. The points of each
coroutine form a machine; `lockstep` theorems state that the machine does what the
coroutine of the source does, effect by effect and for every reply. A point of a delivery
that is about to write a row also remembers the row it last saw, which no effect uses.
-/

namespace InferenceEngine

set_option autoImplicit false

open Programs

abbrev Step (α X : Type) := Node Effect Effect.Reply α X

/-! ### `_process_and_route` -/

/-- Where the handler of one delivery stands. -/
inductive TaskPoint where
  | guard
  | skipAck
  | load
  | writeRunning (seen job : InferenceJob)
  | running (job : InferenceJob)
  | writeSuccess (seen job : InferenceJob)
  | successAck
  | requeueGet
  | writePending (seen job : InferenceJob)
  | republish
  | retryAck
  | deadLetter (reason error : Text)
  | deadLetterAck (error : Text)
  | failGet (error : Text)
  | writeFailed (seen job : InferenceJob)
  | release (outcome : Except Exn Unit)
  | finished (outcome : Except Exn Unit)

namespace TaskPoint

variable (cfg : BrokerSettings) (id : Nat) (m : JobMessage)

/-- The branch `except Exception`. -/
abbrev unexpected (repr : Text) : TaskPoint := .deadLetter ("unexpected: ".toList ++ repr) repr

/-- The branch taken on the outcome of the processor. -/
def routed : Except Exn Unit → TaskPoint
  | .ok () => .successAck
  | .error (.transient exc) =>
    if cfg.maxAttempts ≤ m.attempt then .deadLetter (exhaustedReason m exc) (exhaustedError m exc)
    else .requeueGet
  | .error (.permanent exc) => .deadLetter ("permanent: ".toList ++ exc) exc
  | .error (.invalidTransition current target) => unexpected (reprInvalidTransition current target)
  | .error (.jobNotFound j) => unexpected (reprJobNotFound j)
  | .error (.redis e) => unexpected e.repr
  | .error (.other _ repr) => unexpected repr

/-- A failed append leaves the handler with the classified error. -/
def raised : Exn → TaskPoint
  | .redis e => .release (.error (classifyRedisError e))
  | e => .release (.error e)

def afterGuard : Except Exn (InferenceJob × Time) → TaskPoint
  | .error (.jobNotFound _) => .skipAck
  | .error e => .release (.error e)
  | .ok (job, _) => if job.isTerminal then .skipAck else .load

def afterLoad : Except Exn (InferenceJob × Time) → TaskPoint
  | .error (.jobNotFound _) => routed cfg m (.ok ())
  | .error e => routed cfg m (.error e)
  | .ok (job, now) =>
    if job.isTerminal then routed cfg m (.ok ())
    else match job.markRunning now with
      | .ok job' => .writeRunning job job'
      | .error e => routed cfg m (.error e)

def afterWriteRunning (job : InferenceJob) : Except Exn Unit → TaskPoint
  | .ok () => .running job
  | .error e => routed cfg m (.error e)

def afterRun (job : InferenceJob) : Except Exn (Text × Int × Time) → TaskPoint
  | .error (.transient msg) => routed cfg m (.error (.transient msg))
  | .error (.permanent msg) => routed cfg m (.error (.permanent msg))
  | .error e => routed cfg m (.error (.permanent e.str))
  | .ok (ref, duration, now) =>
    match job.markSuccess ref (some duration) now with
    | .ok job' => .writeSuccess job job'
    | .error e => routed cfg m (.error e)

def afterRequeueGet : Except Exn (InferenceJob × Time) → TaskPoint
  | .error (.jobNotFound _) => .republish
  | .error e => .release (.error e)
  | .ok (job, now) =>
    match job.requeue now with
    | .ok job' => .writePending job job'
    | .error e => .release (.error e)

def afterFailGet (error : Text) : Except Exn (InferenceJob × Time) → TaskPoint
  | .error (.jobNotFound _) => .release (.ok ())
  | .error e => .release (.error e)
  | .ok (job, now) =>
    match job.markFailed error none now with
    | .ok job' => .writeFailed job job'
    | .error e => .release (.error e)

/-- A call whose failure ends the handler and whose success leads to `next`. -/
def andThen (next : TaskPoint) : Except Exn Unit → TaskPoint
  | .ok () => next
  | .error e => .release (.error e)

/-- An append whose failure ends the handler and whose success leads to `next`. -/
def afterXadd (next : TaskPoint) : Except Exn Nat → TaskPoint
  | .ok _ => next
  | .error e => raised e

def node : TaskPoint → Step (Except Exn Unit) TaskPoint
  | guard => .await (.get m.jobId) afterGuard
  | skipAck => .await (.xack id) release
  | load => .await (.get m.jobId) (afterLoad cfg m)
  | writeRunning _ job => .await (.update job) (afterWriteRunning cfg m job)
  | running job => .await (.run job) (afterRun cfg m job)
  | writeSuccess _ job => .await (.update job) (routed cfg m)
  | successAck => .await (.xack id) release
  | requeueGet => .await (.get m.jobId) afterRequeueGet
  | writePending _ job => .await (.update job) (andThen republish)
  | republish => .await (.xadd .work m.nextAttempt.toFields) (afterXadd retryAck)
  | retryAck => .await (.xack id) release
  | deadLetter reason error =>
    .await (.xadd .dlq (deadLetterFields m reason)) (afterXadd (deadLetterAck error))
  | deadLetterAck error => .await (.xack id) (andThen (failGet error))
  | failGet error => .await (.get m.jobId) (afterFailGet error)
  | writeFailed _ job => .await (.update job) release
  | release outcome => .await (.discard id) fun _ => finished outcome
  | finished outcome => .done outcome

/-- The rest of the source's `try` body at each point. -/
def body : TaskPoint → Async Unit
  | guard => guarded cfg id m
  | skipAck => ack id
  | load => do route cfg id m (← Async.observe (process m.jobId m.attempt))
  | writeRunning _ job => do
    route cfg id m (← Async.observe (do repoUpdate job; execute job))
  | running job => do route cfg id m (← Async.observe (execute job))
  | writeSuccess _ job => do route cfg id m (← Async.observe (repoUpdate job))
  | successAck => ack id
  | requeueGet => do requeueRow m; let _ ← InferenceEngine.republish m.nextAttempt; ack id
  | writePending _ job => do
    repoUpdate job; let _ ← InferenceEngine.republish m.nextAttempt; ack id
  | republish => do let _ ← InferenceEngine.republish m.nextAttempt; ack id
  | retryAck => ack id
  | deadLetter reason error => do routeToDlq id m reason; markFailed m error
  | deadLetterAck error => do ack id; markFailed m error
  | failGet error => markFailed m error
  | writeFailed _ job => repoUpdate job
  | release outcome => Async.ofExcept outcome
  | finished outcome => Async.ofExcept outcome

def program : TaskPoint → Coroutine (Except Exn Unit)
  | finished outcome => .pure outcome
  | p => (Async.ensuring (p.body cfg id m) (discard id)).run

variable {cfg id m}

theorem program_routed (r : Except Exn Unit) :
    (routed cfg m r).program cfg id m =
      (Async.ensuring (route cfg id m r) (discard id)).run := by
  rcases r with e | u
  · cases e with
    | transient exc =>
      simp only [routed, route, onTransient]
      split <;> rfl
    | _ => rfl
  · rfl

/-- A program point does next what the rest of its coroutine does next. -/
theorem lockstep : Lockstep (node cfg id m) (program cfg id m) := by
  have routes : ∀ r, (Async.ensuring (route cfg id m r) (discard id)).run =
      (routed cfg m r).program cfg id m := fun r => (program_routed r).symm
  intro p
  cases p with
  | guard =>
    refine congrArg (Node.await _) (funext fun r => ?_)
    rcases r with e | ⟨⟨ty, payload, jid, status, attempts, ref, err, dur, t0, t1⟩, now⟩
    · cases e <;> rfl
    · cases status <;> rfl
  | load =>
    refine congrArg (Node.await _) (funext fun r => ?_)
    rcases r with e | ⟨⟨ty, payload, jid, status, attempts, ref, err, dur, t0, t1⟩, now⟩
    · cases e with
      | jobNotFound _ => rfl
      | transient msg => exact routes (.error (.transient msg))
      | _ => rfl
    · cases status <;> rfl
  | writeRunning seen job =>
    refine congrArg (Node.await _) (funext fun r => ?_)
    rcases r with e | u
    · exact routes (.error e)
    · rfl
  | running job =>
    refine congrArg (Node.await _) (funext fun r => ?_)
    obtain ⟨ty, payload, jid, status, attempts, ref, err, dur, t0, t1⟩ := job
    rcases r with e | ⟨ref', d, now⟩
    · cases e with
      | transient msg => exact routes (.error (.transient msg))
      | _ => rfl
    · cases status <;> rfl
  | writeSuccess seen job => exact congrArg (Node.await _) (funext routes)
  | requeueGet =>
    refine congrArg (Node.await _) (funext fun r => ?_)
    rcases r with e | ⟨⟨ty, payload, jid, status, attempts, ref, err, dur, t0, t1⟩, now⟩
    · cases e <;> rfl
    · cases status <;> rfl
  | failGet error =>
    refine congrArg (Node.await _) (funext fun r => ?_)
    rcases r with e | ⟨⟨ty, payload, jid, status, attempts, ref, err, dur, t0, t1⟩, now⟩
    · cases e <;> rfl
    · cases status <;> rfl
  | republish | deadLetter _ _ =>
    refine congrArg (Node.await _) (funext fun r => ?_)
    rcases r with e | _
    · cases e <;> rfl
    · rfl
  | writePending _ _ | deadLetterAck _ =>
    refine congrArg (Node.await _) (funext fun r => ?_)
    rcases r with e | _ <;> rfl
  | skipAck | successAck | retryAck | writeFailed _ _ | release _ =>
    exact congrArg (Node.await _) (funext fun r => rfl)
  | finished outcome => rfl

/-- A delivery starts at the guard, unless its fields do not decode. -/
theorem program_guard (cfg : BrokerSettings) (id : Nat) (fields : Fields) :
    (processAndRoute cfg id fields).run =
      match JobMessage.fromFields fields with
      | .ok m => program cfg id m guard
      | .error e => .pure (.error e) := by
  cases h : JobMessage.fromFields fields with
  | ok m => simp only [processAndRoute, h]; rfl
  | error e => simp only [processAndRoute, h]; rfl

end TaskPoint

/-! ### `consume_once` -/

/-- Where one reclaim-read-dispatch pass stands; lists hold the entries still to be handled. -/
inductive PassPoint where
  | reclaimCapacity
  | autoclaim (capacity : Int)
  | check (e : StreamEntry) (rest : List StreamEntry)
  | query (e : StreamEntry) (rest : List StreamEntry)
  | dispatchClaimed (e : StreamEntry) (rest : List StreamEntry)
  | poison (e : StreamEntry) (m : JobMessage) (deliveries : Nat) (rest : List StreamEntry)
  | poisonAck (e : StreamEntry) (rest : List StreamEntry)
  | readCapacity
  | read (capacity : Int)
  | dispatchNew (e : StreamEntry) (rest : List StreamEntry) (total : Nat)
  | finished (outcome : Except Exn Nat)

namespace PassPoint

variable (cfg : BrokerSettings)

/-- The head of the reclaim loop. -/
def nextClaimed : List StreamEntry → PassPoint
  | [] => .readCapacity
  | e :: rest => .check e rest

/-- The head of the dispatch loop. -/
def nextNew (total : Nat) : List StreamEntry → PassPoint
  | [] => .finished (.ok total)
  | e :: rest => .dispatchNew e rest total

def afterAutoclaim : Except Exn (List StreamEntry) → PassPoint
  | .ok claimed => nextClaimed claimed
  | .error x => .finished (.error x)

/-- The verdict on a claimed entry that is not in flight here. -/
def afterQuery (e : StreamEntry) (rest : List StreamEntry) : Except Exn (Option Nat) → PassPoint
  | .error x => .finished (.error x)
  | .ok pending =>
    if cfg.maxDeliveryCount < (pending.getD 0 : Nat) then
      match JobMessage.fromFields e.fields with
      | .ok m => .poison e m (pending.getD 0) rest
      | .error x => .finished (.error x)
    else .dispatchClaimed e rest

def afterPoison (e : StreamEntry) (rest : List StreamEntry) : Except Exn Nat → PassPoint
  | .ok _ => .poisonAck e rest
  | .error (.redis x) => .finished (.error (classifyRedisError x))
  | .error x => .finished (.error x)

def afterPoisonAck (rest : List StreamEntry) : Except Exn Unit → PassPoint
  | .ok () => nextClaimed rest
  | .error x => .finished (.error x)

def afterRead : Except Exn (List StreamEntry) → PassPoint
  | .ok entries => nextNew entries.length entries
  | .error x => .finished (.error x)

def node : PassPoint → Step (Except Exn Nat) PassPoint
  | reclaimCapacity =>
    .await .freeCapacity fun n : Int => if n ≤ 0 then readCapacity else autoclaim n
  | autoclaim n => .await (.xautoclaim n) afterAutoclaim
  | check e rest =>
    .await (.inFlight e.id) fun b : Bool => if b then nextClaimed rest else query e rest
  | query e rest => .await (.xpending e.id) (afterQuery cfg e rest)
  | dispatchClaimed e rest => .await (.dispatch e.id e.fields) fun _ => nextClaimed rest
  | poison e m n rest =>
    .await (.xadd .dlq (deadLetterFields m (overDeliveredReason n))) (afterPoison e rest)
  | poisonAck e rest => .await (.xack e.id) (afterPoisonAck rest)
  | readCapacity => .await .freeCapacity fun n : Int => if n ≤ 0 then finished (.ok 0) else read n
  | read n => .await (.xreadgroup n) afterRead
  | dispatchNew e rest total => .await (.dispatch e.id e.fields) fun _ => nextNew total rest
  | finished outcome => .done outcome

/-- The rest of `_handle_reclaimed` after the in-flight check. -/
def handleQueried (e : StreamEntry) : Async Unit := do
  let deliveries ← deliveryCount e.id
  if cfg.maxDeliveryCount < deliveries then
    let m ← Async.ofExcept (JobMessage.fromFields e.fields)
    routeToDlq e.id m (overDeliveredReason deliveries)
  else
    dispatch e.id e.fields

/-- The rest of `consume_once` after the reclaim pass. -/
def readPhase : Async Nat := do
  let capacity ← freeCapacity
  if capacity ≤ 0 then
    return 0
  let entries ← redisXreadgroup capacity
  forEach (fun e => dispatch e.id e.fields) entries
  return entries.length

/-- The rest of the reclaim loop, then of the pass. -/
def claimPhase (es : List StreamEntry) : Async Nat := do
  forEach (handleReclaimed cfg) es
  readPhase

def body : PassPoint → Async Nat
  | reclaimCapacity => consumeOnce cfg
  | autoclaim n => do claimPhase cfg (← redisXautoclaim n)
  | check e rest => claimPhase cfg (e :: rest)
  | query e rest => do handleQueried cfg e; claimPhase cfg rest
  | dispatchClaimed e rest => do dispatch e.id e.fields; claimPhase cfg rest
  | poison e m n rest => do routeToDlq e.id m (overDeliveredReason n); claimPhase cfg rest
  | poisonAck e rest => do ack e.id; claimPhase cfg rest
  | readCapacity => readPhase
  | read n => do
    let entries ← redisXreadgroup n
    forEach (fun e => dispatch e.id e.fields) entries
    return entries.length
  | dispatchNew e rest total => do
    dispatch e.id e.fields
    forEach (fun e => dispatch e.id e.fields) rest
    return total
  | finished outcome => Async.ofExcept outcome

def program (p : PassPoint) : Coroutine (Except Exn Nat) := (p.body cfg).run

variable {cfg}

theorem program_nextClaimed (es : List StreamEntry) :
    (nextClaimed es).program cfg = (claimPhase cfg es).run := by
  cases es <;> rfl

theorem program_nextNew (total : Nat) (es : List StreamEntry) :
    (nextNew total es).program cfg =
      (do forEach (fun e => dispatch e.id e.fields) es; return total : Async Nat).run := by
  cases es <;> rfl

theorem program_afterReclaimCapacity (n : Int) :
    (if n ≤ 0 then readCapacity else autoclaim n).program cfg =
      (do
        (if n ≤ 0 then return else do
          forEach (handleReclaimed cfg) (← redisXautoclaim n) : Async Unit)
        readPhase : Async Nat).run := by
  split
  · rfl
  · simp only [bind_assoc]
    rfl

theorem program_afterReadCapacity (n : Int) :
    (if n ≤ 0 then finished (.ok 0) else read n).program cfg =
      (if n ≤ 0 then return 0 else do
        let entries ← redisXreadgroup n
        forEach (fun e => dispatch e.id e.fields) entries
        return entries.length : Async Nat).run := by
  split <;> rfl

theorem program_afterQuery (e : StreamEntry) (rest : List StreamEntry) (pending : Option Nat) :
    (afterQuery cfg e rest (.ok pending)).program cfg =
      (do
        (if cfg.maxDeliveryCount < (pending.getD 0 : Nat) then do
          let m ← Async.ofExcept (JobMessage.fromFields e.fields)
          routeToDlq e.id m (overDeliveredReason (pending.getD 0))
        else
          dispatch e.id e.fields : Async Unit)
        claimPhase cfg rest : Async Nat).run := by
  simp only [afterQuery]
  split
  · cases h : JobMessage.fromFields e.fields <;> rfl
  · rfl

theorem lockstep : Lockstep (node cfg) (program cfg) := by
  have claims : ∀ es, (claimPhase cfg es).run = (nextClaimed es).program cfg :=
    fun es => (program_nextClaimed es).symm
  have news : ∀ total es,
      (do forEach (fun e => dispatch e.id e.fields) es; return total : Async Nat).run =
        (nextNew total es).program cfg := fun total es => (program_nextNew total es).symm
  intro p
  cases p with
  | reclaimCapacity =>
    exact congrArg (Node.await _) (funext fun n => (program_afterReclaimCapacity n).symm)
  | autoclaim n =>
    refine congrArg (Node.await _) (funext fun r => ?_)
    rcases r with e | es
    · rfl
    · exact claims es
  | check e rest =>
    refine congrArg (Node.await _) (funext fun r => ?_)
    cases r
    · exact congrArg ExceptT.run (bind_assoc (handleQueried cfg e)
        (fun _ => forEach (handleReclaimed cfg) rest) fun _ => readPhase)
    · exact claims rest
  | query e rest =>
    refine congrArg (Node.await _) (funext fun r => ?_)
    rcases r with x | pending
    · rfl
    · exact (program_afterQuery e rest pending).symm
  | dispatchClaimed e rest => exact congrArg (Node.await _) (funext fun r => claims rest)
  | poison e m n rest =>
    refine congrArg (Node.await _) (funext fun r => ?_)
    rcases r with x | _
    · cases x <;> rfl
    · rfl
  | poisonAck e rest =>
    refine congrArg (Node.await _) (funext fun r => ?_)
    rcases r with x | _
    · rfl
    · exact claims rest
  | readCapacity =>
    exact congrArg (Node.await _) (funext fun n => (program_afterReadCapacity n).symm)
  | read n =>
    refine congrArg (Node.await _) (funext fun r => ?_)
    rcases r with e | es
    · rfl
    · exact news es.length es
  | dispatchNew e rest total => exact congrArg (Node.await _) (funext fun r => news total rest)
  | finished outcome => rfl

end PassPoint

/-! ### `ensure_group` and `submit` -/

inductive StartPoint where
  | creating
  | finished (outcome : Except Exn Unit)

namespace StartPoint

/-- `BUSYGROUP` is swallowed. -/
def afterCreate : Except Exn Unit → StartPoint
  | .ok () => .finished (.ok ())
  | .error (.redis e) => if e.isBusyGroup then .finished (.ok ()) else .finished (.error (.redis e))
  | .error e => .finished (.error e)

def node : StartPoint → Step (Except Exn Unit) StartPoint
  | creating => .await .xgroupCreate afterCreate
  | finished outcome => .done outcome

def program : StartPoint → Coroutine (Except Exn Unit)
  | creating => ensureGroup.run
  | finished outcome => .pure outcome

theorem program_afterCreate (e : RedisError) :
    (afterCreate (.error (.redis e))).program =
      (if e.isBusyGroup then return () else throw (.redis e) : Async Unit).run := by
  simp only [afterCreate]
  split <;> rfl

theorem lockstep : Lockstep node program := by
  intro p
  cases p with
  | creating =>
    refine congrArg (Node.await _) (funext fun r => ?_)
    rcases r with x | _
    · cases x with
      | redis e => exact (program_afterCreate e).symm
      | _ => rfl
    · rfl
  | finished outcome => rfl

end StartPoint

inductive SubmitPoint where
  | adding
  | publishing (left : Nat)
  | finished (outcome : Except Exn UUID)

namespace SubmitPoint

def accepted : SubmitPoint → Option UUID
  | finished (.ok id) => some id
  | _ => none

@[simp] theorem accepted_eq_some {p : SubmitPoint} {id : UUID} :
    p.accepted = some id ↔ p = .finished (.ok id) := by
  cases p with
  | finished outcome => cases outcome <;> simp [accepted]
  | _ => simp [accepted]

variable (maxAttempts : Nat) (job : InferenceJob)

/-- After the row was inserted, `publish` has `maxAttempts` tries, at least one. -/
def afterAdd : Except Exn Unit → SubmitPoint
  | .ok () => .publishing (maxAttempts - 1)
  | .error e => .finished (.error e)

/-- A transient failure is retried while tries are left; the last error is re-raised. -/
def retryOrRaise (e : Exn) : Nat → SubmitPoint
  | 0 => .finished (.error e)
  | left + 1 =>
    match e with
    | .transient _ => .publishing left
    | e => .finished (.error e)

/-- After one `XADD` of `publish`, with `left` further tries. -/
def afterPublish (left : Nat) : Except Exn Nat → SubmitPoint
  | .ok _ => .finished (.ok job.id)
  | .error (.redis e) => retryOrRaise (classifyRedisError e) left
  | .error e => retryOrRaise e left

def node : SubmitPoint → Step (Except Exn UUID) SubmitPoint
  | adding => .await (.add job) (afterAdd maxAttempts)
  | publishing left =>
    .await (.xadd .work (JobMessage.firstDelivery job).toFields) (afterPublish job left)
  | finished outcome => .done outcome

def program : SubmitPoint → Coroutine (Except Exn UUID)
  | adding => (submit maxAttempts job).run
  | publishing left => (do retrying (publish job) left; return job.id : Async UUID).run
  | finished outcome => .pure outcome

theorem lockstep : Lockstep (node maxAttempts job) (program maxAttempts job) := by
  intro p
  cases p with
  | adding =>
    refine congrArg (Node.await _) (funext fun r => ?_)
    rcases r with _ | _ <;> rfl
  | publishing left =>
    cases left with
    | zero =>
      refine congrArg (Node.await _) (funext fun r => ?_)
      rcases r with e | _
      · cases e with
        | redis e => cases e <;> rfl
        | _ => rfl
      · rfl
    | succ left =>
      refine congrArg (Node.await _) (funext fun r => ?_)
      rcases r with e | _
      · cases e with
        | redis e => cases e <;> rfl
        | _ => rfl
      · rfl
  | finished outcome => rfl

end SubmitPoint

end InferenceEngine
