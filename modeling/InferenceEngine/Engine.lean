import InferenceEngine.Pipelines
import InferenceEngine.Library.LastWrites

/-!
# The engine with its pipelines

The running system of the broker, where the pipeline of a task is not one step but the calls
it makes, over a vector store and an object store. The broker's part of every run is a run of
`step`.
-/

namespace InferenceEngine

set_option autoImplicit false

open Programs

structure Object where
  data : List UInt8
  contentType : Text

/-- The stores that outlive a worker: vectors by namespace and id, objects by key. -/
structure Stores (V : Type) where
  vectors : Text → Text → Option (V × List (Text × Json)) := fun _ _ => none
  objects : Text → Option Object := fun _ => none

namespace Stores

variable {V : Type}

/-- `bucket[vid] = (values, metadata)`. -/
def setVector (st : Stores V) (ns : Text) (record : VectorRecord V) : Stores V :=
  { st with
    vectors := Function.update st.vectors ns
      (Function.update (st.vectors ns) record.1 (some record.2)) }

/-- `FakeVectorStore.upsert`: the last write of an id wins. -/
def upsert (st : Stores V) (ns : Text) (records : List (VectorRecord V)) : Stores V :=
  records.foldl (fun st record => st.setVector ns record) st

/-- `put_object`: the last write of a key wins. -/
def put (st : Stores V) (key : Text) (obj : Object) : Stores V :=
  { st with objects := Function.update st.objects key (some obj) }

@[simp] theorem upsert_objects (st : Stores V) (ns : Text) (records : List (VectorRecord V)) :
    (st.upsert ns records).objects = st.objects := by
  induction records generalizing st with
  | nil => rfl
  | cons record records ih => exact ih (st.setVector ns record)

theorem upsert_vectors (st : Stores V) (ns : Text) (records : List (VectorRecord V)) :
    (st.upsert ns records).vectors =
      Function.update st.vectors ns (LastWrites.writeAll (st.vectors ns) records) := by
  induction records generalizing st with
  | nil => exact (Function.update_eq_self ns st.vectors).symm
  | cons record records ih =>
    refine (ih (st.setVector ns record)).trans ?_
    simp only [setVector, Function.update_idem, Function.update_self, LastWrites.writeAll_cons]

end Stores

/-- How one call of a pipeline ends. A call that raises may have taken effect: a put as a whole,
an upsert for its first records. -/
structure Answer (V : Type) where
  raised : Option Exn := none
  s3Raised : Option BotoError := none
  applied : Nat := 0
  stored : Bool := false
  results : List SearchResult := []
  vectors : List V := []
  hits : List VectorMatch := []
  text : Text := []

def orRaised {ε α : Type} (raised : Option ε) (a : α) : Except ε α :=
  match raised with
  | none => .ok a
  | some x => .error x

/-- One call: the reply and the stores after it. -/
def Answer.perform {V : Type} (c : Answer V) (st : Stores V) : (call : Call V) → call.Reply × Stores V
  | .search _ _ => (orRaised c.raised c.results, st)
  | .embed _ => (orRaised c.raised c.vectors, st)
  | .upsert records ns =>
    (orRaised c.raised (),
      st.upsert ns (if c.raised.isNone then records else records.take c.applied))
  | .query _ _ _ => (orRaised c.raised c.hits, st)
  | .complete _ _ => (orRaised c.raised c.text, st)
  | .putObject key data contentType =>
    (orRaised c.s3Raised (),
      if c.s3Raised.isNone || c.stored then st.put key { data, contentType } else st)

/-- `running` holds what is left of the pipelines that have started. -/
structure Engine (V : Type) where
  sys : Sys := {}
  running : Nat → Option (PipelineRun V Text) := fun _ => none
  stores : Stores V := {}

inductive EngineAct (V : Type) where
  | base (a : Act)
  | call (t : Nat) (c : Answer V)
  | finish (t : Nat) (ms : Int) (now : Time)

def Sys.awaitsPipeline (s : Sys) : Act → Bool
  | .resume (.task t) _ =>
    match s.tasks t with
    | some { body := .handling _ (.running _), .. } => true
    | _ => false
  | _ => false

namespace Engine

variable {V : Type}

/-- What is left of the pipeline that a live task waits for. -/
def pipelineOf (cfg : EngineSettings) (e : Engine V) (t : Nat) : Option (PipelineRun V Text) :=
  match e.sys.tasks t with
  | some { consumer := name, body := .handling _ (.running job), .. } =>
    match e.sys.stageOf name with
    | some (.looping _) => some ((e.running t).getD (pipeline cfg job))
    | _ => none
  | _ => none

/-- One action of the broker, one call of a pipeline, or its return to the processor. -/
def step (cfg : EngineSettings) (e : Engine V) : EngineAct V → Option (Engine V)
  | .base a =>
    if e.sys.awaitsPipeline a then none
    else (InferenceEngine.step cfg.toSettings e.sys a).map fun s => { e with sys := s }
  | .call t c =>
    match e.pipelineOf cfg t with
    | some (.await call k) =>
      let (r, stores) := c.perform e.stores call
      some { e with stores, running := Function.update e.running t (some (k r)) }
    | _ => none
  | .finish t ms now =>
    match e.pipelineOf cfg t with
    | some (.pure r) =>
      (InferenceEngine.step cfg.toSettings e.sys
        (.resume (.task t) { outcome := r.map fun ref => (ref, ms), now })).map fun s =>
          { e with sys := s }
    | _ => none

def Reaches (cfg : EngineSettings) (acts : List (EngineAct V)) (e : Engine V) : Prop :=
  Runs.exec (step cfg) {} acts = some e

inductive Stepped (cfg : EngineSettings) (e : Engine V) : EngineAct V → Engine V → Prop
  | base (a : Act) (s : Sys) (hfree : e.sys.awaitsPipeline a = false)
      (h : InferenceEngine.step cfg.toSettings e.sys a = some s) :
      Stepped cfg e (.base a) { e with sys := s }
  | call (t : Nat) (c : Answer V) (call : Call V) (k : call.Reply → PipelineRun V Text)
      (hleft : e.pipelineOf cfg t = some (.await call k)) :
      Stepped cfg e (.call t c)
        { e with stores := (c.perform e.stores call).2,
                 running := Function.update e.running t (some (k (c.perform e.stores call).1)) }
  | finish (t : Nat) (ms : Int) (now : Time) (r : Except Exn Text) (s : Sys)
      (hleft : e.pipelineOf cfg t = some (.pure r))
      (h : InferenceEngine.step cfg.toSettings e.sys
        (.resume (.task t) { outcome := r.map fun ref => (ref, ms), now }) = some s) :
      Stepped cfg e (.finish t ms now) { e with sys := s }

section
variable {cfg : EngineSettings} {e e' : Engine V} {a : EngineAct V}

theorem step_cases (h : step cfg e a = some e') : Stepped cfg e a e' := by
  cases a with
  | base a =>
    simp only [step] at h
    split at h
    · cases h
    · rename_i hfree
      obtain ⟨s, hs, rfl⟩ := Option.map_eq_some_iff.mp h
      exact .base a s (Bool.eq_false_of_not_eq_true hfree) hs
  | call t c =>
    simp only [step] at h
    split at h
    · rename_i call k hleft
      cases h
      exact .call t c call k hleft
    · cases h
  | finish t ms now =>
    simp only [step] at h
    split at h
    · rename_i r hleft
      obtain ⟨s, hs, rfl⟩ := Option.map_eq_some_iff.mp h
      exact .finish t ms now r s hleft hs
    · cases h

theorem pipelineOf_eq_some {t : Nat} {p : PipelineRun V Text} :
    e.pipelineOf cfg t = some p ↔ ∃ name id m job q,
      e.sys.tasks t = some ⟨name, id, .handling m (.running job)⟩ ∧
      e.sys.stageOf name = some (.looping q) ∧ p = (e.running t).getD (pipeline cfg job) := by
  unfold pipelineOf
  constructor
  · intro h
    split at h
    · rename_i name id m job htask
      split at h
      · rename_i q hstage
        exact ⟨name, id, m, job, q, htask, hstage, (Option.some.inj h).symm⟩
      · cases h
    · cases h
  · rintro ⟨name, id, m, job, q, htask, hstage, rfl⟩
    simp only [htask, hstage]

/-- The broker's part of an action is at most one action of the broker. -/
theorem sys_of_step (h : step cfg e a = some e') :
    e'.sys = e.sys ∨ ∃ b, InferenceEngine.step cfg.toSettings e.sys b = some e'.sys := by
  cases step_cases h with
  | base a s hfree hstep => exact .inr ⟨a, hstep⟩
  | call t c call k hleft => exact .inl rfl
  | finish t ms now r s hleft hstep => exact .inr ⟨_, hstep⟩

theorem sys_of_exec {acts : List (EngineAct V)} (h : Runs.exec (step cfg) e acts = some e') :
    ∃ as, Runs.exec (InferenceEngine.step cfg.toSettings) e.sys as = some e'.sys := by
  induction acts generalizing e with
  | nil =>
    cases h
    exact ⟨[], rfl⟩
  | cons a acts ih =>
    obtain ⟨u, hu, h⟩ := Runs.exec_cons_iff.mp h
    obtain ⟨as, has⟩ := ih h
    rcases sys_of_step hu with hsame | ⟨b, hb⟩
    · exact ⟨as, hsame ▸ has⟩
    · exact ⟨b :: as, Runs.exec_cons_iff.mpr ⟨u.sys, hb, has⟩⟩

theorem Reaches.sys {acts : List (EngineAct V)} (h : Reaches cfg acts e) :
    ∃ as, InferenceEngine.Reaches cfg.toSettings as e.sys :=
  sys_of_exec h

end

end Engine

end InferenceEngine
