import InferenceEngine.OwnArtifacts
import InferenceEngine.PortCalls
import InferenceEngine.Payloads

/-!
# What the API accepts the pipelines can read

`app/api/schemas.py` as pydantic validates it, and `model_dump(mode="json")`, which `submit_job`
hands to the ingestion service. How pydantic reads an integer out of a string is a parameter.
The pipelines check the payload again, by other code: nothing that was accepted fails there.
-/

namespace InferenceEngine

set_option autoImplicit false

open Programs

/-! ### `schemas.py` -/

/-- A `str` with `min_length` and `max_length`. -/
abbrev StrField (lo hi : Nat) := { s : Text // lo ≤ s.length ∧ s.length ≤ hi }

/-- An `int` with `ge` and `le`. -/
abbrev IntField (lo hi : Int) := { n : Int // lo ≤ n ∧ n ≤ hi }

structure RagQueryPayload where
  query : StrField 1 4000
  topK : IntField 1 50

structure EmbedDocumentPayload where
  documentId : StrField 1 256
  text : StrField 1 200000

inductive JobPayload where
  | ragQuery (p : RagQueryPayload)
  | embedDocument (p : EmbedDocumentPayload)

def JobPayload.jobType : JobPayload → JobType
  | .ragQuery _ => .ragQuery
  | .embedDocument _ => .embedDocument

/-- `extra="forbid"`. -/
def onlyKeys (keys : List Text) (fields : List (Text × Json)) : Bool :=
  fields.all fun field => decide (field.1 ∈ keys)

def strField (lo hi : Nat) (fields : List (Text × Json)) (key : Text) : Option (StrField lo hi) :=
  match fields.lookup key with
  | some (.str s) => if h : lo ≤ s.length ∧ s.length ≤ hi then some ⟨s, h⟩ else none
  | _ => none

/-- pydantic's `int` outside of strict mode. -/
def laxInt (strAsInt : Text → Option Int) : Json → Option Int
  | .int n => some n
  | .bool b => some (if b then 1 else 0)
  | .float q => if q.den = 1 then some q.num else none
  | .str s => strAsInt s
  | _ => none

def intField {lo hi : Int} (strAsInt : Text → Option Int) (fields : List (Text × Json)) (key : Text)
    (default : IntField lo hi) : Option (IntField lo hi) :=
  match fields.lookup key with
  | none => some default
  | some x =>
    match laxInt strAsInt x with
    | some n => if h : lo ≤ n ∧ n ≤ hi then some ⟨n, h⟩ else none
    | none => none

def RagQueryPayload.validate (strAsInt : Text → Option Int) (fields : List (Text × Json)) :
    Option RagQueryPayload := do
  guard (onlyKeys ["job_type".toList, "query".toList, "top_k".toList] fields)
  let query ← strField 1 4000 fields "query".toList
  let topK ← intField strAsInt fields "top_k".toList ⟨5, by omega⟩
  return { query, topK }

def EmbedDocumentPayload.validate (fields : List (Text × Json)) : Option EmbedDocumentPayload := do
  guard (onlyKeys ["job_type".toList, "document_id".toList, "text".toList] fields)
  let documentId ← strField 1 256 fields "document_id".toList
  let text ← strField 1 200000 fields "text".toList
  return { documentId, text }

/-- The union: `job_type` chooses the one member that the fields are validated against. -/
def JobPayload.validate (strAsInt : Text → Option Int) : Json → Option JobPayload
  | .dict fields =>
    match fields.lookup "job_type".toList with
    | some (.str tag) =>
      if tag = JobType.ragQuery.value then (RagQueryPayload.validate strAsInt fields).map .ragQuery
      else if tag = JobType.embedDocument.value then
        (EmbedDocumentPayload.validate fields).map .embedDocument
      else none
    | _ => none
  | _ => none

def JobSubmission.validate (strAsInt : Text → Option Int) : Json → Option JobPayload
  | .dict fields =>
    if onlyKeys ["payload".toList] fields then
      (fields.lookup "payload".toList).bind (JobPayload.validate strAsInt)
    else none
  | _ => none

/-- `model_dump(mode="json")`. -/
def JobPayload.modelDump : JobPayload → List (Text × Json)
  | .ragQuery p =>
    [("job_type".toList, .str JobType.ragQuery.value), ("query".toList, .str p.query),
     ("top_k".toList, .int p.topK)]
  | .embedDocument p =>
    [("job_type".toList, .str JobType.embedDocument.value),
     ("document_id".toList, .str p.documentId), ("text".toList, .str p.text)]

def submitJob (p : JobPayload) (id : UUID) (created updated : Time) : Act :=
  .submit p.jobType p.modelDump id created updated

/-! ### The two validators agree -/

/-- The checks of the job's pipeline pass, and what it reads are the validated values. -/
def PassesChecks (cfg : EngineSettings) (job : InferenceJob) : JobPayload → Prop
  | .ragQuery p =>
    requireStr job.payload "query".toList = .ok p.query ∧
    optionalInt job.payload "top_k".toList 3 = .ok p.topK ∧
    2 ≤ (p.topK : Int) * 2 ∧ (p.topK : Int) * 2 ≤ 100
  | .embedDocument p =>
    requireStr job.payload "text".toList = .ok p.text ∧
    documentId cfg.reprs job = p.documentId ∧
    ∃ size overlap chunks, optionalInt job.payload "chunk_size".toList 512 = .ok size ∧
      optionalInt job.payload "chunk_overlap".toList 64 = .ok overlap ∧
      chunkText p.text size overlap = .ok chunks

section
variable {strAsInt : Text → Option Int} {cfg : EngineSettings} {job : InferenceJob}

theorem passesChecks_of_dump {p : JobPayload} (hpayload : job.payload = p.modelDump) :
    PassesChecks cfg job p := by
  cases p with
  | ragQuery p =>
    obtain ⟨hlow, hhigh⟩ := p.topK.2
    unfold PassesChecks
    rw [hpayload]
    exact ⟨rfl, rfl, by omega, by omega⟩
  | embedDocument p =>
    unfold PassesChecks documentId
    rw [hpayload]
    exact ⟨rfl, rfl, 512, 64, _, rfl, rfl, rfl⟩

end

/-! ### An accepted job is not rejected by its pipeline -/

variable {V : Type}

/-- The call succeeded, with one vector for each embedded text. -/
def wellShaped : (call : Call V) → call.Reply → Bool
  | .search _ _, r => r.isOk
  | .embed texts, r =>
    match r with
    | .ok vectors => vectors.length = texts.length
    | .error _ => false
  | .upsert _ _, r => r.isOk
  | .query _ _ _, r => r.isOk
  | .complete _ _, r => r.isOk
  | .putObject _ _ _, r => r.isOk

def answered (V : Type) : Protocol (Call V) Call.Reply Bool where
  allowed _ := True
  next call r good := good && wellShaped call r

/-- A computation whose calls were all answered well has returned, with a value in `P`. -/
def ReturnsIn {α : Type} (P : α → Prop) (r : Except Exn α) (good : Bool) : Prop :=
  good = true → ∃ a, r = .ok a ∧ P a

section
variable {cfg : EngineSettings} {job : InferenceJob}

/-- The pipeline of an accepted payload goes straight on until a call fails. -/
theorem straight_pipeline {p : JobPayload} (htype : job.jobType = p.jobType)
    (hpayload : job.payload = p.modelDump) :
    (pipeline (V := V) cfg job).Obeys (straight V (max 1 cfg.retryMaxAttempts)) {}
      (Ends (max 1 cfg.retryMaxAttempts)) := by
  have hchecks : PassesChecks cfg job p := passesChecks_of_dump hpayload
  unfold pipeline
  rw [htype]
  cases p with
  | ragQuery p => exact straight_ragQueryRun hchecks.1 hchecks.2.1
  | embedDocument p =>
    obtain ⟨htext, _, size, overlap, chunks, hsize, hoverlap, hchunks⟩ := hchecks
    exact straight_embedDocumentRun htext hsize hoverlap hchunks

theorem told_of_wellShaped {call : Call V} {r : call.Reply} (h : wellShaped call r = true) :
    call.shaped r = true ∧ call.raised r = none := by
  cases call with
  | embed texts =>
    cases r with
    | ok vectors => exact ⟨h, rfl⟩
    | error x => cases h
  | _ =>
    cases r with
    | ok a => exact ⟨rfl, rfl⟩
    | error x => cases h

theorem answered_pipeline {p : JobPayload} (htype : job.jobType = p.jobType)
    (hpayload : job.payload = p.modelDump) :
    (pipeline (V := V) cfg job).Keeps (answered V) true (ReturnsIn fun _ => True) := by
  apply Program.keeps_iff_obeys.mpr
  apply (straight_pipeline htype hpayload).transfer
    (M := fun b good => good = true → b.shaped = true ∧ b.failed = none)
  · exact fun _ => ⟨rfl, rfl⟩
  · exact fun _ _ _ _ _ => trivial
  · intro b good call r hsim _ hgood
    obtain ⟨hbefore, hwell⟩ := Bool.and_eq_true_iff.mp hgood
    obtain ⟨hshaped, hraised⟩ := told_of_wellShaped hwell
    exact ⟨Bool.and_eq_true_iff.mpr ⟨(hsim hbefore).1, hshaped⟩, hraised⟩
  · intro o b good hsim hends hgood
    obtain ⟨hshaped, hfailed⟩ := hsim hgood
    have hraised := (hends hshaped).1
    rw [hfailed] at hraised
    cases o with
    | ok a => exact ⟨a, rfl, trivial⟩
    | error x => cases hraised

end

def AnswersWell (cfg : EngineSettings) (id : UUID) (e : Engine V) : EngineAct V → Prop
  | .call t c => ∀ name n m job call k,
    e.sys.tasks t = some ⟨name, n, .handling m (.running job)⟩ → job.id = id →
    e.pipelineOf cfg t = some (.await call k) → wellShaped call (c.perform e.stores call).1 = true
  | _ => True

/-- The job comes from the payload, and its pipelines have not raised nor are about to. -/
structure Blameless (cfg : EngineSettings) (id : UUID) (p : JobPayload) (e : Engine V) : Prop where
  submitted : ∀ job r, e.sys.submissions id = some (job, r) →
    job.jobType = p.jobType ∧ job.payload = p.modelDump
  left : ∀ t name n m job, e.sys.tasks t = some ⟨name, n, .handling m (.running job)⟩ →
    job.id = id →
    ((e.running t).getD (pipeline cfg job)).Keeps (answered V) true (ReturnsIn fun _ => True)
  logged : ∀ t outcome, .ran t id outcome ∈ e.sys.log → ∃ result, outcome = .ok result

section
variable {cfg : EngineSettings} {e e' : Engine V} {s' : Sys} {id : UUID} {p : JobPayload}

theorem Blameless.init : Blameless cfg id p ({} : Engine V) where
  submitted := by
    intro job r h
    cases h
  left := by
    intro t name n m job h
    cases h
  logged := by
    intro t outcome h
    cases h

theorem Blameless.of_sys {a : Act} (hown : OwnArtifacts cfg e) (hprov : Provenance e.sys)
    (he : Blameless cfg id p e) (h : InferenceEngine.step cfg.toSettings e.sys a = some s')
    (hsub : ∀ job r, s'.submissions id = some (job, r) →
      job.jobType = p.jobType ∧ job.payload = p.modelDump)
    (hout : ∀ t c name n m job, a = .resume (.task t) c →
      e.sys.tasks t = some ⟨name, n, .handling m (.running job)⟩ → job.id = id →
      ∃ result, c.outcome = .ok result) : Blameless cfg id p { e with sys := s' } where
  submitted := hsub
  left := by
    intro t name n m job htask hid
    rcases handling_of_step h htask with hold | hguard | ⟨c, q, f, k, r, s₁, _, hold, hnode, _, hk⟩
    · exact he.left t name n m job hold hid
    · cases hguard
    · obtain ⟨first, sp, hfirst, htype, hpayload⟩ :=
        hprov.step_copies h htask job List.mem_cons_self
      rw [hid] at hfirst
      obtain ⟨htype', hpayload'⟩ := he.submitted first sp hfirst
      rw [hown.idle hold hnode hk.symm]
      exact answered_pipeline (htype.trans htype') (hpayload.trans hpayload')
  logged := by
    intro t outcome hran
    rcases step_ran h with ⟨es, hlog, hnone⟩ | ⟨u, c, name, n, m, job, ha, htask, hlog⟩
    · rw [hlog] at hran
      rcases List.mem_append.mp hran with hold | hnew
      · exact he.logged t outcome hold
      · exact absurd hnew (hnone t id outcome)
    · rw [hlog] at hran
      rcases List.mem_append.mp hran with hold | hnew
      · exact he.logged t outcome hold
      · cases List.mem_singleton.mp hnew
        exact hout t c name n m job ha htask rfl

theorem Blameless.call {t : Nat} {c : Answer V} {call : Call V}
    {k : call.Reply → PipelineRun V Text} (he : Blameless cfg id p e)
    (hwell : AnswersWell cfg id e (.call t c)) (hleft : e.pipelineOf cfg t = some (.await call k)) :
    Blameless cfg id p
      { e with stores := (c.perform e.stores call).2,
               running := Function.update e.running t (some (k (c.perform e.stores call).1)) } where
  submitted := he.submitted
  left := by
    intro u name n m job htask hid
    by_cases hu : u = t
    · subst hu
      obtain ⟨name', n', m', job', q, htask', _, hrest⟩ := Engine.pipelineOf_eq_some.mp hleft
      cases htask.symm.trans htask'
      have hkeeps := he.left u name n m job htask hid
      rw [← hrest] at hkeeps
      have hgood := hwell name n m job call k htask hid hleft
      have hnext := hkeeps.2 (c.perform e.stores call).1
      simp only [answered, hgood, Bool.and_self] at hnext
      simp only [Function.update_self, Option.getD_some]
      exact hnext
    · simp only [Function.update_of_ne hu]
      exact he.left u name n m job htask hid
  logged := he.logged

theorem Blameless.step {a : EngineAct V} (hown : OwnArtifacts cfg e) (hprov : Provenance e.sys)
    (he : Blameless cfg id p e) (hwell : AnswersWell cfg id e a) (h : e.step cfg a = some e')
    (hsub : ∀ job r, e'.sys.submissions id = some (job, r) →
      job.jobType = p.jobType ∧ job.payload = p.modelDump) : Blameless cfg id p e' := by
  cases Engine.step_cases h with
  | base a s hfree hstep =>
    apply he.of_sys hown hprov hstep hsub
    rintro t c name n m job rfl htask _
    simp [Sys.awaitsPipeline, htask] at hfree
  | call t c call k hleft => exact he.call hwell hleft
  | finish t ms now r s hleft hstep =>
    apply he.of_sys hown hprov hstep hsub
    intro t' c name n m job ha htask hid
    cases ha
    obtain ⟨_, _, _, _, _, htask', _, hrest⟩ := Engine.pipelineOf_eq_some.mp hleft
    cases htask.symm.trans htask'
    have hkeeps := he.left t name n m job htask hid
    rw [← hrest] at hkeeps
    obtain ⟨ref, rfl, _⟩ := hkeeps rfl
    exact ⟨_, rfl⟩

theorem Engine.submission_of_exec {acts : List (EngineAct V)} (hs : e.Regular cfg)
    (h : Runs.exec (Engine.step cfg) e acts = some e') {job : InferenceJob} {r : SubmitPoint}
    (hsub : e.sys.submissions id = some (job, r)) :
    ∃ r', e'.sys.submissions id = some (job, r') := by
  have keep : ∀ (e : Engine V) a e', (e.Regular cfg ∧ ∃ r, e.sys.submissions id = some (job, r)) →
      True → e.step cfg a = some e' → e'.Regular cfg ∧ ∃ r, e'.sys.submissions id = some (job, r) := by
    rintro e a e' ⟨hreg, r, hsub⟩ _ h
    refine ⟨hreg.step h, ?_⟩
    rcases Engine.sys_of_step h with hsame | ⟨b, hb⟩
    · exact ⟨r, hsame ▸ hsub⟩
    · exact submission_of_step hreg.sys.coherent hb hsub
  exact (Runs.invariant keep ⟨hs, r, hsub⟩ (Runs.Along.trivial _ _) h).2

end

/-- A RAG query whose `top_k` is written as a float. -/
def ragBody : Json :=
  .dict [("payload".toList, .dict [("job_type".toList, .str "rag_query".toList),
    ("query".toList, .str "why".toList), ("top_k".toList, .float 7)])]

end InferenceEngine
