import InferenceEngine.Library.Runs
import InferenceEngine.Points
import Mathlib.Logic.Function.Basic

/-!
# The running system

API processes, workers and their tasks over one Redis and one jobs table. An action lets one
of them take its next step, or is a crash or a foreign append. Any two awaits may interleave,
also those of one worker's own registers, between which its event loop would not switch:
the runs here include those of the source. `log` records what happened and steers nothing.
-/

namespace InferenceEngine

set_option autoImplicit false

open Programs

/-- The broker's numbers and `retry.max_attempts`. -/
structure Settings extends BrokerSettings where
  retryMaxAttempts : Nat := 3

/-- The worker of a process: `ensure_group` once, then passes until it dies. -/
inductive Stage where
  | starting (p : StartPoint)
  | looping (p : PassPoint)
  | down

structure Worker where
  stage : Stage
  inFlightIds : List Nat := []
  inFlight : List Nat := []
  reclaimCursor : Nat := 0

/-- A task of `_process_and_route`; one whose fields do not decode raises at its first step. -/
inductive TaskBody where
  | handling (m : JobMessage) (p : TaskPoint)
  | undecodable (x : Exn)

/-- What `create_task(self._process_and_route(..))` starts. -/
def TaskBody.of (fields : Fields) : TaskBody :=
  match JobMessage.fromFields fields with
  | .ok m => .handling m .guard
  | .error x => .undecodable x

structure Task where
  consumer : ConsumerName
  entry : Nat
  body : TaskBody

inductive Actor where
  | submission (id : UUID)
  | worker (c : ConsumerName)
  | task (t : Nat)
  deriving DecidableEq

inductive Event where
  | appended (actor : Option Actor) (e : StreamEntry)
  | deadLettered (actor : Actor) (e : StreamEntry)
  | delivered (c : ConsumerName) (e : StreamEntry)
  | acked (actor : Actor) (id : Nat)
  | ran (t : Nat) (id : UUID) (outcome : Except Exn (Text × Int))
  | wrote (actor : Actor) (job : InferenceJob)

/-- The actor of an event; a delivery is the answer to a read. -/
def Event.actor : Event → Option Actor
  | .appended who _ => who
  | .deadLettered who _ => some who
  | .delivered _ _ => none
  | .acked who _ => some who
  | .ran t _ _ => some (.task t)
  | .wrote who _ => some who

def Event.append : Event → Option (Option Actor × Nat)
  | .appended who e => some (who, e.id)
  | _ => none

def Event.ackedId : Event → Option Nat
  | .acked _ id => some id
  | _ => none

def Event.deliveredId : Event → Option Nat
  | .delivered _ e => some e.id
  | _ => none

structure Sys where
  redis : Redis := {}
  rows : UUID → Option InferenceJob := fun _ => none
  submissions : UUID → Option (InferenceJob × SubmitPoint) := fun _ => none
  workers : ConsumerName → Option Worker := fun _ => none
  tasks : Nat → Option Task := fun _ => none
  nextTask : Nat := 0
  log : List Event := []

/-- Nothing was ever submitted and no worker ever started. -/
def Sys.init : Sys := {}

/-- How a call ends: it fails before it takes effect, or its reply is lost after. -/
inductive Fate where
  | ok | failed | lost
  deriving DecidableEq

/-- What the environment decides about one await. -/
structure Choice where
  fate : Fate := .ok
  dbError : Text := []
  dbRepr : Text := []
  redisError : RedisError := .connection
  trim : Nat := 0
  claimed : List Nat := []
  cursor : Nat := 0
  outcome : Except Exn (Text × Int) := .ok ([], 0)
  now : Time := 0

/-- The reply and the state after a call that can raise `x`. -/
def Choice.reply {α : Type} (c : Choice) (x : Exn) (s : Sys) (good : Except Exn α × Sys) :
    Except Exn α × Sys :=
  match c.fate with
  | .ok => good
  | .failed => (.error x, s)
  | .lost => (.error x, good.2)

def noGroup : RedisError :=
  .response "NOGROUP No such consumer group".toList
    "ResponseError('NOGROUP No such consumer group')".toList

/-- The error of an insert of an id that exists. -/
def uniqueViolation : Exn :=
  .other "UNIQUE constraint failed: jobs.id".toList
    "IntegrityError('UNIQUE constraint failed: jobs.id')".toList

namespace Sys

/-- The consumer whose registers an actor uses. -/
def consumer (s : Sys) : Actor → Option ConsumerName
  | .submission _ => none
  | .worker c => some c
  | .task t => (s.tasks t).map (·.consumer)

def stageOf (s : Sys) (c : ConsumerName) : Option Stage := (s.workers c).map (·.stage)

def modifyWorker (s : Sys) (c : ConsumerName) (f : Worker → Worker) : Sys :=
  { s with workers := Function.update s.workers c ((s.workers c).map f) }

def setStage (s : Sys) (c : ConsumerName) (stage : Stage) : Sys :=
  s.modifyWorker c fun w => { w with stage }

def setTask (s : Sys) (t : Nat) (τ : Task) : Sys :=
  { s with tasks := Function.update s.tasks t (some τ) }

def setSubmission (s : Sys) (job : InferenceJob) (p : SubmitPoint) : Sys :=
  { s with submissions := Function.update s.submissions job.id (some (job, p)) }

def setGroup (s : Sys) (g : Group) : Sys := { s with redis := { s.redis with group := some g } }

def record (s : Sys) (es : List Event) : Sys := { s with log := s.log ++ es }

/-- `add`: the primary key is unique. -/
def insertRow (s : Sys) (job : InferenceJob) : Except Exn Unit × Sys :=
  match s.rows job.id with
  | none => (.ok (), { s with rows := Function.update s.rows job.id (some job) })
  | some _ => (.error uniqueViolation, s)

def readRow (s : Sys) (id : UUID) (now : Time) : Except Exn (InferenceJob × Time) :=
  match s.rows id with
  | some job => .ok (job, now)
  | none => .error (.jobNotFound id)

/-- `update`: all columns of an existing row. -/
def writeRow (s : Sys) (who : Actor) (job : InferenceJob) : Except Exn Unit × Sys :=
  match s.rows job.id with
  | some _ =>
    (.ok (), { s with rows := Function.update s.rows job.id (some job),
                      log := s.log ++ [.wrote who job] })
  | none => (.error (.jobNotFound job.id), s)

/-- The entry an `XADD` to a stream appends next. -/
def nextEntry (st : Stream) (fields : Fields) : StreamEntry := { id := st.lastId + 1, fields }

def appendWork (s : Sys) (who : Option Actor) (fields : Fields) (trim : Nat) : Sys :=
  { s with redis := { s.redis with work := s.redis.work.add fields trim },
           log := s.log ++ [.appended who (nextEntry s.redis.work fields)] }

def appendDlq (s : Sys) (who : Actor) (fields : Fields) (trim : Nat) : Sys :=
  { s with redis := { s.redis with dlq := s.redis.dlq.add fields trim },
           log := s.log ++ [.deadLettered who (nextEntry s.redis.dlq fields)] }

/-- `XACK`; without a group there is nothing to remove. -/
def ackEntry (s : Sys) (who : Actor) (id : Nat) : Sys :=
  { s with redis := { s.redis with group := s.redis.group.map (·.ack id) },
           log := s.log ++ [.acked who id] }

/-- `XGROUP CREATE .. $ MKSTREAM`. -/
def createGroup (s : Sys) : Except Exn Unit × Sys :=
  match s.redis.group with
  | none => (.ok (), s.setGroup { lastDelivered := s.redis.work.lastId })
  | some _ => (.error (.redis .busyGroup), s)

/-- `XREADGROUP .. > COUNT n`. -/
def readGroup (s : Sys) (c : ConsumerName) (g : Group) (n : Int) : List StreamEntry × Sys :=
  let read := (g.unread s.redis.work).take n.toNat
  (read, { s with redis := { s.redis with group := some (g.deliver c read) },
                  log := s.log ++ read.map (.delivered c) })

def claimEntries (s : Sys) (c : ConsumerName) (g : Group) (ids : List Nat) :
    List StreamEntry × Sys :=
  (ids.filterMap fun id => s.redis.work.entries.find? fun e => e.id = id,
    s.setGroup (g.claim s.redis.work c ids))

/-- `_dispatch`. -/
def startTask (s : Sys) (c : ConsumerName) (id : Nat) (fields : Fields) : Sys :=
  let s := s.modifyWorker c fun w =>
    { w with inFlightIds := id :: w.inFlightIds.erase id, inFlight := s.nextTask :: w.inFlight }
  { s with tasks := Function.update s.tasks s.nextTask (some ⟨c, id, .of fields⟩),
           nextTask := s.nextTask + 1 }

/-- `self._in_flight_ids.discard`. -/
def discardId (s : Sys) (c : ConsumerName) (id : Nat) : Sys :=
  s.modifyWorker c fun w => { w with inFlightIds := w.inFlightIds.filter (· ≠ id) }

/-- One await: the reply and the state after it, if this choice is possible. -/
def perform (cfg : Settings) (who : Actor) (c : Choice) (s : Sys) :
    (e : Effect) → Option (e.Reply × Sys)
  | .add job => some (c.reply (.other c.dbError c.dbRepr) s (s.insertRow job))
  | .get id => some (c.reply (.other c.dbError c.dbRepr) s (s.readRow id c.now, s))
  | .update job => some (c.reply (.other c.dbError c.dbRepr) s (s.writeRow who job))
  | .run job =>
    match who with
    | .task t =>
      some (c.outcome.map fun (ref, ms) => (ref, ms, c.now), s.record [.ran t job.id c.outcome])
    | _ => none
  | .xadd .work fields =>
    if s.redis.work.trimAllowed cfg.maxlen c.trim then
      some (c.reply (.redis c.redisError) s
        (.ok (s.redis.work.lastId + 1), s.appendWork (some who) fields c.trim))
    else none
  | .xadd .dlq fields =>
    if s.redis.dlq.trimAllowed cfg.maxlen c.trim then
      some (c.reply (.redis c.redisError) s
        (.ok (s.redis.dlq.lastId + 1), s.appendDlq who fields c.trim))
    else none
  | .xack id => some (c.reply (.redis c.redisError) s (.ok (), s.ackEntry who id))
  | .xgroupCreate =>
    -- BUSYGROUP is the server's own answer, never a fault
    if c.fate ≠ .ok ∧ c.redisError.isBusyGroup = true then none
    else some (c.reply (.redis c.redisError) s s.createGroup)
  | .xautoclaim n =>
    match s.consumer who, s.redis.group with
    | some name, some g =>
      if g.claimAllowed (((s.workers name).map (·.reclaimCursor)).getD 0) n c.claimed then
        let claimed := s.claimEntries name g c.claimed
        -- the cursor is a register of the consumer, set when the reply has arrived
        let s' := if c.fate = .ok then
            claimed.2.modifyWorker name fun w => { w with reclaimCursor := c.cursor }
          else claimed.2
        some (c.reply (.redis c.redisError) s (.ok claimed.1, s'))
      else none
    | some _, none => some (.error (.redis noGroup), s)
    | none, _ => none
  | .xpending id =>
    match s.redis.group with
    | some g => some (c.reply (.redis c.redisError) s (.ok (g.timesDelivered id), s))
    | none => some (.error (.redis noGroup), s)
  | .xreadgroup n =>
    match s.consumer who, s.redis.group with
    | some name, some g =>
      let read := s.readGroup name g n
      some (c.reply (.redis c.redisError) s (.ok read.1, read.2))
    | some _, none => some (.error (.redis noGroup), s)
    | none, _ => none
  | .inFlight id => do
    let w ← s.workers (← s.consumer who)
    return (decide (id ∈ w.inFlightIds), s)
  | .freeCapacity => do
    let w ← s.workers (← s.consumer who)
    return (cfg.workerConcurrency - (w.inFlight.length : Int), s)
  | .dispatch id fields => do return ((), s.startTask (← s.consumer who) id fields)
  | .discard id => do return ((), s.discardId (← s.consumer who) id)

/-- Resume a suspended machine with the reply to its await. -/
def await {α X : Type} (cfg : Settings) (who : Actor) (c : Choice) (s : Sys) (put : X → Sys → Sys) :
    Step α X → Option Sys
  | .done _ => none
  | .await e k => (s.perform cfg who c e).map fun (r, s') => put (k r) s'

def resume (cfg : Settings) (s : Sys) (c : Choice) : Actor → Option Sys
  | .submission id =>
    match s.submissions id with
    | some (job, p) =>
      s.await cfg (.submission id) c (fun p s' => s'.setSubmission job p)
        (p.node cfg.retryMaxAttempts job)
    | none => none
  | .worker name =>
    match s.workers name with
    | some { stage := .starting p, .. } =>
      s.await cfg (.worker name) c (fun p s' => s'.setStage name (.starting p)) p.node
    | some { stage := .looping p, .. } =>
      s.await cfg (.worker name) c (fun p s' => s'.setStage name (.looping p))
        (p.node cfg.toBrokerSettings)
    | _ => none
  | .task t =>
    match s.tasks t with
    | some { consumer := name, entry := id, body := .handling m p } =>
      match s.workers name with
      | some { stage := .looping _, .. } =>
        s.await cfg (.task t) c (fun p s' => s'.setTask t ⟨name, id, .handling m p⟩)
          (p.node cfg.toBrokerSettings id m)
      | _ => none
    | _ => none

end Sys

def TaskBody.isDone : TaskBody → Bool
  | .handling _ (.finished _) => true
  | .handling _ _ => false
  | .undecodable _ => true

inductive Act where
  | submit (jobType : JobType) (payload : List (Text × Json)) (id : UUID) (created updated : Time)
  | start (c : ConsumerName)
  | pass (c : ConsumerName)
  | resume (who : Actor) (c : Choice)
  | reap (t : Nat)
  | crash (c : ConsumerName)
  | inject (fields : Fields) (trim : Nat)

/-- One action. Ids of jobs and names of consumers are fresh; `run` starts a pass when the
last one has ended; a done task leaves `_in_flight` by its callback; a crash ends a worker
with its tasks. -/
def step (cfg : Settings) (s : Sys) : Act → Option Sys
  | .submit ty payload id created updated =>
    if (s.submissions id).isNone then
      some (s.setSubmission (InferenceJob.new ty payload id created updated) .adding)
    else none
  | .start c =>
    if (s.workers c).isNone then
      some { s with workers := Function.update s.workers c (some { stage := .starting .creating }) }
    else none
  | .pass c =>
    match s.workers c with
    | some { stage := .starting (.finished (.ok ())), .. }
    | some { stage := .looping (.finished _), .. } =>
      some (s.setStage c (.looping .reclaimCapacity))
    | _ => none
  | .resume who c => s.resume cfg c who
  | .reap t =>
    match s.tasks t with
    | some τ =>
      if τ.body.isDone then
        some (s.modifyWorker τ.consumer fun w =>
          { w with inFlight := w.inFlight.filter (· ≠ t) })
      else none
    | none => none
  | .crash c => if (s.workers c).isSome then some (s.setStage c .down) else none
  | .inject fields trim =>
    if s.redis.work.trimAllowed cfg.maxlen trim then some (s.appendWork none fields trim)
    else none

def steps (who : Actor) (n : Nat) : List Act := List.replicate n (.resume who {})

/-- A worker starts and ensures the group. -/
def boot (c : ConsumerName) : List Act := .start c :: steps (.worker c) 1

/-- A job is inserted and published. -/
def submitted (id : UUID) : List Act := .submit .ragQuery [] id 0 0 :: steps (.submission id) 2

/-- A pass that claims nothing and starts the tasks of `n` new entries. -/
def readPass (c : ConsumerName) (n : Nat) : List Act := .pass c :: steps (.worker c) (4 + n)

/-- A pass takes over one pending entry and starts its task. -/
def claimPass (c : ConsumerName) (id : Nat) : List Act :=
  .pass c :: steps (.worker c) 1 ++ .resume (.worker c) { claimed := [id] } :: steps (.worker c) 3

def Reaches (cfg : Settings) (acts : List Act) (s : Sys) : Prop :=
  Runs.exec (step cfg) Sys.init acts = some s

end InferenceEngine
