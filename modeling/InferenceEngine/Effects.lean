import InferenceEngine.Library.Programs
import InferenceEngine.Redis

/-!
# What the coroutines await

`Effect` lists the repository, Redis and pipeline calls of the broker, and the reads and
writes of a consumer's own registers. Each effect is a point at which other coroutines may
run. A call that can raise has a reply of type `Except Exn _`. `Async` is the monad of the
source's coroutines: an exception propagates unless `observe` stops it.
-/

namespace InferenceEngine

set_option autoImplicit false

open Programs

structure BrokerSettings where
  maxAttempts : Int := 3
  workerConcurrency : Int := 8
  maxDeliveryCount : Int := 5
  maxlen : Nat := 10000

inductive StreamKey where
  | work | dlq
  deriving DecidableEq

inductive Effect where
  | add (job : InferenceJob)
  | get (id : UUID)
  | update (job : InferenceJob)
  | run (job : InferenceJob)
  | xadd (key : StreamKey) (fields : Fields)
  | xack (id : Nat)
  | xgroupCreate
  | xautoclaim (count : Int)
  | xpending (id : Nat)
  | xreadgroup (count : Int)
  | inFlight (id : Nat)
  | freeCapacity
  | dispatch (id : Nat) (fields : Fields)
  | discard (id : Nat)

/-- A row comes with the clock reading of the coroutine that resumes on it; a pipeline's
result with the elapsed milliseconds and a clock reading. -/
def Effect.Reply : Effect → Type
  | .add _ => Except Exn Unit
  | .get _ => Except Exn (InferenceJob × Time)
  | .update _ => Except Exn Unit
  | .run _ => Except Exn (Text × Int × Time)
  | .xadd _ _ => Except Exn Nat
  | .xack _ => Except Exn Unit
  | .xgroupCreate => Except Exn Unit
  | .xautoclaim _ => Except Exn (List StreamEntry)
  | .xpending _ => Except Exn (Option Nat)
  | .xreadgroup _ => Except Exn (List StreamEntry)
  | .inFlight _ => Bool
  | .freeCapacity => Int
  | .dispatch _ _ => Unit
  | .discard _ => Unit

abbrev Coroutine (α : Type) := Program Effect Effect.Reply α

abbrev Async (α : Type) := ExceptT Exn (Program Effect Effect.Reply) α

namespace Async

def perform (e : Effect) : Coroutine e.Reply := Program.perform e

def await {α : Type} (x : Coroutine (Except Exn α)) : Async α := ExceptT.mk x

def register {α : Type} (x : Coroutine α) : Async α :=
  ExceptT.mk (x.bind fun r => .pure (.ok r))

/-- `try: .. except: ..`, with the handler a match on the outcome. -/
def observe {α : Type} (x : Async α) : Async (Except Exn α) :=
  ExceptT.mk (x.run.bind fun r => .pure (.ok r))

def ofExcept {α : Type} (x : Except Exn α) : Async α := ExceptT.mk (.pure x)

/-- `try: .. finally: cleanup`, for a clean-up that does not raise. -/
def ensuring {α : Type} (x : Async α) (cleanup : Async Unit) : Async α := do
  let r ← observe x
  cleanup
  ofExcept r

end Async

/-! ### The calls by their reply types -/

def repoAdd (job : InferenceJob) : Async Unit := Async.await (Async.perform (.add job))
def repoGet (id : UUID) : Async (InferenceJob × Time) := Async.await (Async.perform (.get id))
def repoUpdate (job : InferenceJob) : Async Unit := Async.await (Async.perform (.update job))
def pipelineRun (job : InferenceJob) : Async (Text × Int × Time) := Async.await (Async.perform (.run job))
def redisXadd (key : StreamKey) (fields : Fields) : Async Nat :=
  Async.await (Async.perform (.xadd key fields))
def redisXack (id : Nat) : Async Unit := Async.await (Async.perform (.xack id))
def redisXgroupCreate : Async Unit := Async.await (Async.perform .xgroupCreate)
def redisXautoclaim (count : Int) : Async (List StreamEntry) :=
  Async.await (Async.perform (.xautoclaim count))
def redisXpending (id : Nat) : Async (Option Nat) := Async.await (Async.perform (.xpending id))
def redisXreadgroup (count : Int) : Async (List StreamEntry) :=
  Async.await (Async.perform (.xreadgroup count))
def inFlightIds (id : Nat) : Async Bool := Async.register (Async.perform (.inFlight id))
def freeCapacity : Async Int := Async.register (Async.perform .freeCapacity)
def dispatch (id : Nat) (fields : Fields) : Async Unit :=
  Async.register (Async.perform (.dispatch id fields))
def discard (id : Nat) : Async Unit := Async.register (Async.perform (.discard id))

end InferenceEngine
