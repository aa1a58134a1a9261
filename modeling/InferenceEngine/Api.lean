import InferenceEngine.Admission
import InferenceEngine.ApiKeys
import InferenceEngine.DeadLetters
import InferenceEngine.Histories

/-!
# The HTTP API

`app/api/routes/jobs.py`, the response models of `app/api/schemas.py` and the exception handlers of
`app/api/app.py`, over the running system. What FastAPI decides before a route runs is a parameter
with its documented behaviour; so is how pydantic reads an integer and the id in a path. The list of
errors in a 422 is left out.
-/

namespace InferenceEngine

set_option autoImplicit false

/-! ### `schemas.py` -/

structure JobAccepted where
  jobId : UUID
  status : JobStatus
  statusUrl : Text

structure JobStatusResponse where
  jobId : UUID
  jobType : JobType
  status : JobStatus
  attempts : Int
  resultRef : Option Text
  error : Option Text
  createdAt : Time
  updatedAt : Time
  durationMs : Option Int

def JobStatusResponse.modelValidate (job : InferenceJob) : JobStatusResponse where
  jobId := job.id
  jobType := job.jobType
  status := job.status
  attempts := job.attempts
  resultRef := job.resultRef
  error := job.error
  createdAt := job.createdAt
  updatedAt := job.updatedAt
  durationMs := job.durationMs

/-! ### Responses -/

inductive Content where
  | accepted (body : JobAccepted)
  | job (body : JobStatusResponse)
  | detail (text : Text)
  | text (text : Text)

structure Response where
  statusCode : Nat
  headers : List (Text × Text) := []
  content : Content

def HTTPException.response (x : HTTPException) : Response where
  statusCode := x.statusCode
  headers := x.headers
  content := .detail x.detail

def onValidationError : Response where
  statusCode := 422
  content := .detail "Request validation failed.".toList

/-- What the server answers when an exception reaches it. -/
def internalServerError : Response where
  statusCode := 500
  content := .text "Internal Server Error".toList

/-- `_on_job_not_found`, `_on_invalid_transition` and `_on_permanent_upstream`; whatever else is
raised reaches the server. -/
def onException : Exn → Response
  | .jobNotFound id => { statusCode := 404, content := .detail (Exn.str (.jobNotFound id)) }
  | .invalidTransition current target =>
    { statusCode := 409, content := .detail (Exn.str (.invalidTransition current target)) }
  | .permanent _ => { statusCode := 502, content := .detail "Upstream dependency failed.".toList }
  | _ => internalServerError

/-! ### FastAPI -/

/-- What FastAPI makes of the bytes of a body: nothing was sent, a JSON value, something that is none
(by its syntax, its `NaN` or its content type), or bytes that it fails to decode. -/
inductive RequestBody where
  | missing
  | json (value : Json)
  | notJson
  | undecodable

def RequestBody.Validates (strAsInt : Text → Option Int) (body : RequestBody) (p : JobPayload) :
    Prop :=
  ∃ json, body = .json json ∧ JobSubmission.validate strAsInt json = some p

/-- FastAPI's own answer to a body that it fails to decode. -/
def bodyParsingError : Response where
  statusCode := 400
  content := .detail "There was an error parsing the body".toList

/-- What FastAPI decides on a `POST` before `submit_job` runs, by what it documents: the route runs
with a validated body after the dependency has returned. Otherwise the bytes of the body could not
be decoded, the dependency raised, or the body did not validate; then `_on_validation_error` answers
or raises, as pydantic's errors may quote what JSON cannot write. -/
structure FastApi (apiKeys : List Text) (strAsInt : Text → Option Int) where
  handle : Option Text → RequestBody → Except Response JobPayload
  runs : ∀ {key body p}, handle key body = .ok p →
    (∃ k, requireApiKey apiKeys key = .ok k) ∧ body.Validates strAsInt p
  refuses : ∀ {key body r}, handle key body = .error r →
    (body = .undecodable ∧ r = bodyParsingError) ∨
    (∃ x, requireApiKey apiKeys key = .error x ∧ r = x.response) ∨
    ((∀ p, ¬ body.Validates strAsInt p) ∧ (r = onValidationError ∨ r = internalServerError))

structure ApiConfig where
  apiKeys : List Text
  strAsInt : Text → Option Int := fun _ => none
  uuidOfPath : Text → Option UUID := parseUUID
  fastApi : FastApi apiKeys strAsInt

/-! ### `POST /v1/jobs` -/

def statusUrl (id : UUID) : Text := "/v1/jobs/".toList ++ uuidText id

def submitJobAnswer : Except Exn UUID → Response
  | .ok id =>
    { statusCode := 202
      content := .accepted { jobId := id, status := .pending, statusUrl := statusUrl id } }
  | .error x => onException x

/-! ### `GET /v1/jobs/{job_id}` -/

/-- The segment that the route binds to `job_id`. -/
def jobSegment (path : Text) : Option Text :=
  if "/v1/jobs/".toList.isPrefixOf path then
    let segment := path.drop "/v1/jobs/".toList.length
    if segment ≠ [] ∧ '/' ∉ segment then some segment else none
  else none

/-- `get_job`: the row as it stands, or the exception of the read. -/
def getJob (api : ApiConfig) (s : Sys) (c : Choice) (key : Option Text) (path : Text) : Response :=
  match jobSegment path with
  | none => { statusCode := 404, content := .detail "Not Found".toList }
  | some segment =>
    match requireApiKey api.apiKeys key with
    | .error x => x.response
    | .ok _ =>
      match api.uuidOfPath segment with
      | none => onValidationError
      | some id =>
        match (c.reply (.other c.dbError c.dbRepr) s (s.readRow id c.now, s)).1 with
        | .ok (job, _) => { statusCode := 200, content := .job (.modelValidate job) }
        | .error x => onException x

/-! ### Requests over the system -/

/-- A `POST` request: the id of the job it submits, once it is admitted, and its answer. -/
structure Post where
  key : Option Text
  body : RequestBody
  jobId : Option UUID := none
  answer : Option Response := none

structure Api where
  sys : Sys := .init
  posts : Nat → Option Post := fun _ => none

inductive ApiAct where
  | post (n : Nat) (key : Option Text) (body : RequestBody) (id : UUID) (created updated : Time)
  | reply (n : Nat)
  | others (a : Act)

def Sys.submitOutcome (s : Sys) (id : UUID) : Option (Except Exn UUID) :=
  match s.submissions id with
  | some (_, .finished outcome) => some outcome
  | _ => none

def Act.isSubmit : Act → Bool
  | .submit _ _ _ _ _ => true
  | _ => false

namespace Api

variable (cfg : Settings) (api : ApiConfig)

/-- One action. Jobs come from requests only. -/
def step (u : Api) : ApiAct → Option Api
  | .post n key body id created updated =>
    if (u.posts n).isSome then none
    else
      match api.fastApi.handle key body with
      | .error r =>
        some ⟨u.sys, Function.update u.posts n (some { key, body, answer := some r })⟩
      | .ok p =>
        (InferenceEngine.step cfg u.sys (submitJob p id created updated)).map fun s' =>
          ⟨s', Function.update u.posts n (some { key, body, jobId := some id })⟩
  | .reply n => do
    let post ← u.posts n
    let id ← post.jobId
    if post.answer.isSome then none
    else
      let outcome ← u.sys.submitOutcome id
      return ⟨u.sys, Function.update u.posts n
        (some { post with answer := some (submitJobAnswer outcome) })⟩
  | .others a =>
    if a.isSubmit then none
    else (InferenceEngine.step cfg u.sys a).map fun s' => { u with sys := s' }

def Reaches (acts : List ApiAct) (u : Api) : Prop := Runs.exec (step cfg api) {} acts = some u

inductive Stepped (u : Api) : ApiAct → Api → Prop
  | refused (n : Nat) (key : Option Text) (body : RequestBody) (id : UUID)
      (created updated : Time) (r : Response) (hfresh : u.posts n = none)
      (hhandled : api.fastApi.handle key body = .error r) :
      Stepped u (.post n key body id created updated)
        ⟨u.sys, Function.update u.posts n (some { key, body, answer := some r })⟩
  | admitted (n : Nat) (key : Option Text) (body : RequestBody) (id : UUID)
      (created updated : Time) (p : JobPayload) (s' : Sys) (hfresh : u.posts n = none)
      (hhandled : api.fastApi.handle key body = .ok p)
      (hstep : InferenceEngine.step cfg u.sys (submitJob p id created updated) = some s') :
      Stepped u (.post n key body id created updated)
        ⟨s', Function.update u.posts n (some { key, body, jobId := some id })⟩
  | replied (n : Nat) (post : Post) (id : UUID) (outcome : Except Exn UUID)
      (hpost : u.posts n = some post) (hjob : post.jobId = some id)
      (hopen : post.answer = none) (houtcome : u.sys.submitOutcome id = some outcome) :
      Stepped u (.reply n)
        ⟨u.sys, Function.update u.posts n
          (some { post with answer := some (submitJobAnswer outcome) })⟩
  | others (a : Act) (s' : Sys) (ha : a.isSubmit = false)
      (hstep : InferenceEngine.step cfg u.sys a = some s') :
      Stepped u (.others a) { u with sys := s' }

variable {cfg api} {u u' : Api} {a : ApiAct} {acts : List ApiAct}

theorem step_cases (h : step cfg api u a = some u') : Stepped cfg api u a u' := by
  cases a with
  | post n key body id created updated =>
    simp only [step] at h
    split at h
    · cases h
    · rename_i hsome
      have hfresh : u.posts n = none := Option.not_isSome_iff_eq_none.mp hsome
      split at h
      · rename_i r hhandled
        cases h
        exact .refused n key body id created updated r hfresh hhandled
      · rename_i p hhandled
        obtain ⟨s', hstep, h⟩ := Option.map_eq_some_iff.mp h
        cases h
        exact .admitted n key body id created updated p s' hfresh hhandled hstep
  | reply n =>
    obtain ⟨post, hpost, h⟩ := Option.bind_eq_some_iff.mp h
    obtain ⟨id, hjob, h⟩ := Option.bind_eq_some_iff.mp h
    split at h
    · cases h
    · rename_i hsome
      obtain ⟨outcome, houtcome, h⟩ := Option.bind_eq_some_iff.mp h
      cases h
      exact .replied n post id outcome hpost hjob (Option.not_isSome_iff_eq_none.mp hsome) houtcome
  | others a =>
    simp only [step] at h
    split at h
    · cases h
    · rename_i ha
      obtain ⟨s', hstep, h⟩ := Option.map_eq_some_iff.mp h
      cases h
      exact .others a s' (Bool.eq_false_iff.mpr ha) hstep

theorem sys_of_step (h : step cfg api u a = some u') :
    u'.sys = u.sys ∨ ∃ b, InferenceEngine.step cfg u.sys b = some u'.sys := by
  cases step_cases h with
  | refused n key body id created updated r hfresh hhandled => exact .inl rfl
  | admitted n key body id created updated p s' hfresh hhandled hstep => exact .inr ⟨_, hstep⟩
  | replied n post id outcome hpost hjob hopen houtcome => exact .inl rfl
  | others a s' ha hstep => exact .inr ⟨a, hstep⟩

theorem exec_sys (h : Runs.exec (step cfg api) u acts = some u') :
    ∃ as, Runs.exec (InferenceEngine.step cfg) u.sys as = some u'.sys :=
  Runs.exec_project (fun _ _ _ hstep => sys_of_step hstep) h

theorem Reaches.sys (h : Reaches cfg api acts u) : ∃ as, InferenceEngine.Reaches cfg as u.sys :=
  exec_sys h

end Api

/-! ### What the end of a submission says -/

section
variable {cfg : Settings} {s s' : Sys} {a : Act} {id : UUID}

/-- How a submission may stand: past the insert the row is there, an id that was returned has its
pointer appended, and what is raised after the insert is an upstream error. -/
def SubmitPoint.Says (s : Sys) (job : InferenceJob) : SubmitPoint → Prop
  | adding => True
  | publishing _ => s.rows job.id ≠ none
  | finished (.ok id) => id = job.id ∧ s.rows job.id ≠ none ∧
      ∃ e, .appended (some (.submission job.id)) e ∈ s.log ∧
        e.fields = (JobMessage.firstDelivery job).toFields
  | finished (.error x) => (∃ msg repr, x = .other msg repr) ∨
      s.rows job.id ≠ none ∧ ((∃ msg, x = .transient msg) ∨ ∃ msg, x = .permanent msg)

theorem SubmitPoint.Says.of_step {job : InferenceJob} {p : SubmitPoint} (hp : p.Says s job)
    (h : step cfg s a = some s') : p.Says s' job := by
  have kept : s.rows job.id ≠ none → s'.rows job.id ≠ none := rows_ne_none_of_step h
  cases p with
  | adding => trivial
  | publishing left => exact kept hp
  | finished outcome =>
    cases outcome with
    | ok id =>
      obtain ⟨hid, hrow, e, he, hfields⟩ := hp
      exact ⟨hid, kept hrow, e, log_mem_of_step h he, hfields⟩
    | error x =>
      rcases hp with hother | ⟨hrow, hx⟩
      · exact .inl hother
      · exact .inr ⟨kept hrow, hx⟩

theorem SubmitPoint.says_retryOrRaise {job : InferenceJob} {x : Exn} (hrow : s.rows job.id ≠ none)
    (hx : (∃ msg, x = .transient msg) ∨ ∃ msg, x = .permanent msg) (left : Nat) :
    (retryOrRaise x left).Says s job := by
  cases left with
  | zero => exact .inr ⟨hrow, hx⟩
  | succ left =>
    rcases hx with ⟨msg, rfl⟩ | ⟨msg, rfl⟩
    · exact hrow
    · exact .inr ⟨hrow, .inr ⟨msg, rfl⟩⟩

theorem classifyRedisError_upstream (e : RedisError) :
    (∃ msg, classifyRedisError e = .transient msg) ∨
      ∃ msg, classifyRedisError e = .permanent msg := by
  obtain ⟨msg, h⟩ := classifyRedisError_eq e
  split at h
  · exact .inl ⟨msg, h⟩
  · exact .inr ⟨msg, h⟩

theorem SubmitPoint.Says.next {c : Choice} {job : InferenceJob} {p : SubmitPoint} {e : Effect}
    {k : e.Reply → SubmitPoint} {r : e.Reply} {s₁ : Sys} (hp : p.Says s job)
    (hnode : p.node cfg.retryMaxAttempts job = .await e k)
    (hperf : s.perform cfg (.submission job.id) c e = some (r, s₁)) : (k r).Says s₁ job := by
  cases p with
  | adding =>
    cases hnode
    cases r with
    | ok u =>
      have hrow := Sys.rows_of_add hperf
      rw [afterAdd, Says, hrow]
      exact Option.some_ne_none job
    | error x =>
      rcases Choice.reply_eq (Option.some.inj hperf) with ⟨_, hr, _⟩ | ⟨_, hr, _⟩ | ⟨_, hr, _⟩
      · unfold Sys.insertRow at hr
        split at hr
        · cases hr
        · cases hr
          exact .inl ⟨_, _, rfl⟩
      · cases hr
        exact .inl ⟨_, _, rfl⟩
      · cases hr
        exact .inl ⟨_, _, rfl⟩
  | publishing left =>
    cases hnode
    have failed : ∀ {s₂ : Sys}, s₂.rows job.id ≠ none →
        (afterPublish job left (.error (.redis c.redisError))).Says s₂ job := by
      intro s₂ hrow
      exact says_retryOrRaise hrow (classifyRedisError_upstream c.redisError) left
    obtain ⟨_, ⟨_, rfl, rfl⟩ | ⟨_, rfl, rfl⟩ | ⟨_, rfl, rfl⟩⟩ := Sys.perform_xaddWork hperf
    · exact ⟨rfl, hp, _, List.mem_append_right _ (List.mem_singleton.mpr rfl), rfl⟩
    · exact failed hp
    · exact failed hp
  | finished outcome => cases hnode

theorem SubmitPoint.retryOrRaise_eq_error {x y : Exn} {left : Nat}
    (h : retryOrRaise x left = .finished (.error y)) : x = y := by
  cases left with
  | zero =>
    cases h
    rfl
  | succ left =>
    cases x <;> cases h
    all_goals rfl

/-- A submission that comes to its end with an upstream error has just failed to publish. -/
theorem raised_of_step (hcoh : Coherent s) (h : step cfg s a = some s') {job : InferenceJob}
    {x : Exn} (hsub : s'.submissions id = some (job, .finished (.error x)))
    (hx : (∃ msg, x = .transient msg) ∨ ∃ msg, x = .permanent msg) :
    s.submissions id = some (job, .finished (.error x)) ∨
    ∃ c left, a = .resume (.submission id) c ∧ s.submissions id = some (job, .publishing left) ∧
      c.fate ≠ .ok ∧ classifyRedisError c.redisError = x := by
  rcases step_submission hcoh h id with hsame | ⟨_, _, _, _, _, _, hnew⟩ |
    ⟨c, job', q, e, k, r, s₁, rfl, hold, hnode, hperf, _, hnew⟩
  · exact .inl (hsame ▸ hsub)
  · cases hnew.symm.trans hsub
  · obtain ⟨rfl, hk⟩ := Prod.mk.inj (Option.some.inj (hnew.symm.trans hsub))
    right
    cases q with
    | adding =>
      cases hnode
      cases r with
      | ok u => cases hk
      | error y =>
        cases hk
        -- the insert raises the database's error, which is no upstream one
        obtain ⟨msg, repr, rfl⟩ : ∃ msg repr, x = .other msg repr := by
          rcases Choice.reply_eq (Option.some.inj hperf) with ⟨_, hr, _⟩ | ⟨_, hr, _⟩ | ⟨_, hr, _⟩
          · unfold Sys.insertRow at hr
            split at hr
            · cases hr
            · exact ⟨_, _, Except.error.inj hr⟩
          · exact ⟨_, _, Except.error.inj hr⟩
          · exact ⟨_, _, Except.error.inj hr⟩
        rcases hx with ⟨_, hx⟩ | ⟨_, hx⟩ <;> cases hx
    | publishing left =>
      cases hnode
      have failed : ∀ y : RedisError, r = .error (.redis y) → classifyRedisError y = x := by
        rintro y rfl
        exact SubmitPoint.retryOrRaise_eq_error hk
      obtain ⟨_, ⟨_, rfl, _⟩ | ⟨hfate, hr, _⟩ | ⟨hfate, hr, _⟩⟩ := Sys.perform_xaddWork hperf
      · cases hk
      · exact ⟨c, left, rfl, hold, by rw [hfate]; exact Fate.noConfusion, failed _ hr⟩
      · exact ⟨c, left, rfl, hold, by rw [hfate]; exact Fate.noConfusion, failed _ hr⟩
    | finished outcome => cases hnode

def SubmissionsSay (s : Sys) : Prop := ∀ id job p, s.submissions id = some (job, p) → p.Says s job

theorem SubmissionsSay.step (hcoh : Coherent s) (hs : SubmissionsSay s)
    (h : step cfg s a = some s') : SubmissionsSay s' := by
  intro id job p hsub
  rcases step_submission hcoh h id with hsame | ⟨_, _, _, _, _, _, hnew⟩ |
    ⟨c, job', q, e, k, r, s₁, rfl, hold, hnode, hperf, rfl, hnew⟩
  · exact (hs id job p (hsame ▸ hsub)).of_step h
  · cases hnew.symm.trans hsub
    trivial
  · cases hnew.symm.trans hsub
    obtain rfl := hcoh.submitted_id hold
    have hsays := (hs _ _ _ hold).next hnode hperf
    generalize k r = p at hsays
    cases p with
    | finished outcome => cases outcome <;> exact hsays
    | _ => exact hsays

theorem Reaches.submissionsSay {acts : List Act} (h : Reaches cfg acts s) : SubmissionsSay s := by
  have hinv : Coherent s ∧ SubmissionsSay s := by
    apply Runs.invariant (P := fun _ _ => True) _ _ (.trivial Sys.init acts) h
    · exact fun _ _ _ hs _ hstep => ⟨hs.1.step hstep, hs.2.step hs.1 hstep⟩
    · refine ⟨.init, fun id job p hsub => ?_⟩
      cases hsub
  exact hinv.2

theorem ended_of_step (hcoh : Coherent s) (h : step cfg s a = some s') {job : InferenceJob}
    {outcome : Except Exn UUID} (hsub : s.submissions id = some (job, .finished outcome)) :
    s'.submissions id = some (job, .finished outcome) := by
  rcases step_submission hcoh h id with hsame | ⟨_, _, _, _, _, hnone, _⟩ |
    ⟨c, job', q, e, k, r, s₁, _, hold, hnode, _⟩
  · exact hsame.trans hsub
  · cases hnone.symm.trans hsub
  · cases hold.symm.trans hsub
    cases hnode

theorem submission_new (hcoh : Coherent s) (h : step cfg s a = some s') {job : InferenceJob}
    {p : SubmitPoint} (hsub : s'.submissions id = some (job, p)) :
    (∃ q, s.submissions id = some (job, q)) ∨ a.isSubmit = true := by
  rcases step_submission hcoh h id with hsame | ⟨_, _, _, _, rfl, _⟩ |
    ⟨c, job', q, e, k, r, s₁, _, hold, _, _, _, hnew⟩
  · exact .inl ⟨p, hsame ▸ hsub⟩
  · exact .inr rfl
  · cases hnew.symm.trans hsub
    exact .inl ⟨q, hold⟩

theorem Sys.submitOutcome_iff {outcome : Except Exn UUID} :
    s.submitOutcome id = some outcome ↔ ∃ job, s.submissions id = some (job, .finished outcome) := by
  unfold submitOutcome
  split
  · rename_i job out hsub
    constructor
    · intro h
      cases h
      exact ⟨job, hsub⟩
    · rintro ⟨job', hsub'⟩
      cases hsub.symm.trans hsub'
      rfl
  · rename_i hne
    constructor
    · intro h
      cases h
    · rintro ⟨job, hsub⟩
      exact absurd hsub (hne job outcome)

end

/-! ### What a request has led to -/

namespace Api

variable {cfg : Settings} {api : ApiConfig} {u u' : Api} {a : ApiAct} {acts acts' : List ApiAct}

/-- The request was admitted with the payload, which is what was submitted under the id. -/
def Admitted (api : ApiConfig) (s : Sys) (post : Post) (id : UUID) : Prop :=
  ∃ p first q, api.fastApi.handle post.key post.body = .ok p ∧ s.submissions id = some (first, q) ∧
    first.jobType = p.jobType ∧ first.payload = p.modelDump

structure Post.Sound (api : ApiConfig) (s : Sys) (post : Post) : Prop where
  refused : post.jobId = none →
    ∃ r, api.fastApi.handle post.key post.body = .error r ∧ post.answer = some r
  admitted : ∀ id, post.jobId = some id → Admitted api s post id
  answered : ∀ id r, post.jobId = some id → post.answer = some r →
    ∃ outcome, s.submitOutcome id = some outcome ∧ r = submitJobAnswer outcome

structure Served (api : ApiConfig) (u : Api) : Prop where
  coherent : Coherent u.sys
  posts : ∀ n post, u.posts n = some post → Post.Sound api u.sys post
  asked : ∀ id job q, u.sys.submissions id = some (job, q) →
    ∃ n post, u.posts n = some post ∧ post.jobId = some id

theorem Post.Sound.of_step {s s' : Sys} {b : Act} {post : Post} (hcoh : Coherent s)
    (hs : Post.Sound api s post) (h : InferenceEngine.step cfg s b = some s') :
    Post.Sound api s' post := by
  refine ⟨hs.refused, fun id hjob => ?_, fun id r hjob hanswer => ?_⟩
  · obtain ⟨p, first, q, hhandled, hsub, hsame⟩ := hs.admitted id hjob
    obtain ⟨q', hsub'⟩ := submission_of_step hcoh h hsub
    exact ⟨p, first, q', hhandled, hsub', hsame⟩
  · obtain ⟨outcome, houtcome, hr⟩ := hs.answered id r hjob hanswer
    obtain ⟨job, hsub⟩ := Sys.submitOutcome_iff.mp houtcome
    exact ⟨outcome, Sys.submitOutcome_iff.mpr ⟨job, ended_of_step hcoh h hsub⟩, hr⟩

theorem Served.init : Served api {} where
  coherent := .init
  posts := by
    intro n post hpost
    cases hpost
  asked := by
    intro id job q hsub
    cases hsub

theorem posts_of_update {s : Sys} {posts : Nat → Option Post} {n : Nat} {post : Post}
    (hnew : Post.Sound api s post)
    (hold : ∀ n post, posts n = some post → Post.Sound api s post) :
    ∀ m post', Function.update posts n (some post) m = some post' → Post.Sound api s post' := by
  intro m post' h
  rw [Function.update_apply] at h
  split at h
  · cases h
    exact hnew
  · exact hold m post' h

theorem asked_of_update {posts : Nat → Option Post} {n : Nat} {post : Post} {id : UUID}
    (hkept : ∀ old, posts n = some old → old.jobId = some id → post.jobId = some id)
    (h : ∃ m old, posts m = some old ∧ old.jobId = some id) :
    ∃ m old, Function.update posts n (some post) m = some old ∧ old.jobId = some id := by
  obtain ⟨m, old, hold, hjob⟩ := h
  by_cases hm : m = n
  · subst hm
    exact ⟨m, post, Function.update_self _ _ _, hkept old hold hjob⟩
  · exact ⟨m, old, (Function.update_of_ne hm _ _).trans hold, hjob⟩

theorem submissions_of_submitJob {s s' : Sys} {p : JobPayload} {id : UUID} {created updated : Time}
    (h : InferenceEngine.step cfg s (submitJob p id created updated) = some s') :
    s'.submissions =
      Function.update s.submissions id (some (.new p.jobType p.modelDump id created updated, .adding)) := by
  cases Sys.step_cases h with
  | submit ty payload id created updated hfresh => rfl

theorem Served.step (hs : Served api u) (h : step cfg api u a = some u') : Served api u' := by
  have hcoh := hs.coherent
  cases step_cases h with
  | refused n key body id created updated r hfresh hhandled =>
    refine ⟨hcoh, posts_of_update ⟨fun _ => ⟨r, hhandled, rfl⟩, ?_, ?_⟩ hs.posts, ?_⟩
    · intro id hjob
      cases hjob
    · intro id r hjob
      cases hjob
    · intro id job q hsub
      apply asked_of_update _ (hs.asked id job q hsub)
      intro old hold
      cases hfresh.symm.trans hold
  | admitted n key body id created updated p s' hfresh hhandled hstep =>
    have hsubs := submissions_of_submitJob hstep
    refine ⟨hcoh.step hstep, posts_of_update ⟨?_, ?_, ?_⟩ fun m post hpost =>
      (hs.posts m post hpost).of_step hcoh hstep, ?_⟩
    · intro hjob
      cases hjob
    · intro id' hjob
      cases hjob
      refine ⟨p, _, _, hhandled, (congrFun hsubs id).trans (Function.update_self _ _ _), rfl, rfl⟩
    · intro id' r _ hanswer
      cases hanswer
    · intro id' job q hsub
      rw [hsubs, Function.update_apply] at hsub
      split at hsub
      · rename_i hid
        exact ⟨n, _, Function.update_self _ _ _, congrArg some hid.symm⟩
      · apply asked_of_update _ (hs.asked id' job q hsub)
        intro old hold
        cases hfresh.symm.trans hold
  | replied n post id outcome hpost hjob hopen houtcome =>
    have hsound := hs.posts n post hpost
    refine ⟨hcoh, posts_of_update ⟨?_, hsound.admitted, ?_⟩ hs.posts, ?_⟩
    · intro hnone
      cases hjob.symm.trans hnone
    · intro id' r hjob' hanswer
      cases hjob.symm.trans hjob'
      exact ⟨outcome, houtcome, (Option.some.inj hanswer).symm⟩
    · intro id' job q hsub
      apply asked_of_update _ (hs.asked id' job q hsub)
      intro old hold hjob'
      cases hpost.symm.trans hold
      exact hjob'
  | others b s' hb hstep =>
    refine ⟨hcoh.step hstep, fun n post hpost => (hs.posts n post hpost).of_step hcoh hstep, ?_⟩
    intro id job q hsub
    rcases submission_new hcoh hstep hsub with ⟨q', hold⟩ | hsubmit
    · exact hs.asked id job q' hold
    · cases hb.symm.trans hsubmit

theorem Reaches.served (h : Reaches cfg api acts u) : Served api u :=
  Runs.invariant (fun _ _ _ hs _ h => hs.step h) .init (.trivial _ _) h

/-! ### Who is let in -/

def Knows (api : ApiConfig) (key : Option Text) : Prop := ∃ k ∈ api.apiKeys, key = some k

theorem requireApiKey_of_knows {key : Option Text} (h : Knows api key) :
    ∃ k, requireApiKey api.apiKeys key = .ok k := by
  obtain ⟨k, hk, rfl⟩ := h
  exact ⟨k, requireApiKey_known hk⟩

theorem requireApiKey_of_not_knows {key : Option Text} (h : ¬ Knows api key) :
    requireApiKey api.apiKeys key = .error unauthorized :=
  requireApiKey_unknown fun k hkey hk => h ⟨k, hk, hkey⟩

theorem knows_of_requireApiKey {key : Option Text} {k : Text}
    (h : requireApiKey api.apiKeys key = .ok k) : Knows api key := by
  by_contra hnot
  cases (requireApiKey_of_not_knows hnot).symm.trans h

theorem not_knows_of_requireApiKey {key : Option Text} {x : HTTPException}
    (h : requireApiKey api.apiKeys key = .error x) : ¬ Knows api key ∧ x = unauthorized := by
  have hnot : ¬ Knows api key := by
    intro hkey
    obtain ⟨k, hk⟩ := requireApiKey_of_knows hkey
    cases hk.symm.trans h
  exact ⟨hnot, Except.error.inj (h.symm.trans (requireApiKey_of_not_knows hnot))⟩

/-- In every reachable state each row was asked for by a request that presented a configured key,
and has the type and the payload of what that request's body validated to. -/
theorem rows_authorised (h : Reaches cfg api acts u) {j : UUID} {row : InferenceJob}
    (hrow : u.sys.rows j = some row) :
    ∃ n post json p, u.posts n = some post ∧ post.jobId = some j ∧ Knows api post.key ∧
      post.body = .json json ∧ JobSubmission.validate api.strAsInt json = some p ∧
      row.jobType = p.jobType ∧ row.payload = p.modelDump := by
  have hserved := h.served
  obtain ⟨as, hsys⟩ := h.sys
  obtain ⟨⟨first, q, hsub, hmoves⟩, _⟩ := row_history hsys hrow
  obtain ⟨_, htype, hpayload, _⟩ := identity_of_history hmoves
  obtain ⟨n, post, hpost, hjob⟩ := hserved.asked j first q hsub
  obtain ⟨p, first', q', hhandled, hsub', htype', hpayload'⟩ :=
    (hserved.posts n post hpost).admitted j hjob
  cases hsub.symm.trans hsub'
  obtain ⟨⟨k, hk⟩, json, hbody, hvalid⟩ := api.fastApi.runs hhandled
  exact ⟨n, post, json, p, hpost, hjob, knows_of_requireApiKey hk, hbody, hvalid,
    htype.trans htype', hpayload.trans hpayload'⟩

/-! ### What an answer promises -/

/-- In the run an `XADD` of the submission was answered with an error, and `submit` raised what the
error is classified as. -/
def PublishRaised (cfg : Settings) (api : ApiConfig) (acts : List ApiAct) (id : UUID) (x : Exn) :
    Prop :=
  ∃ before c after v v' job left, acts = before ++ .others (.resume (.submission id) c) :: after ∧
    Runs.exec (step cfg api) {} before = some v ∧
    step cfg api v (.others (.resume (.submission id) c)) = some v' ∧
    v.sys.submissions id = some (job, .publishing left) ∧ c.fate ≠ .ok ∧
    classifyRedisError c.redisError = x ∧
    v'.sys.submissions id = some (job, .finished (.error x))

theorem PublishRaised.append {id : UUID} {x : Exn} (h : PublishRaised cfg api acts id x)
    (later : List ApiAct) : PublishRaised cfg api (acts ++ later) id x := by
  obtain ⟨before, c, after, v, v', job, left, rfl, hraised⟩ := h
  exact ⟨before, c, after ++ later, v, v', job, left, List.append_assoc _ _ _, hraised⟩

theorem publishRaised_of_reaches (h : Reaches cfg api acts u) {id : UUID} {job : InferenceJob}
    {x : Exn} (hsub : u.sys.submissions id = some (job, .finished (.error x)))
    (hx : (∃ msg, x = .transient msg) ∨ ∃ msg, x = .permanent msg) :
    PublishRaised cfg api acts id x := by
  have hall : ∀ id job x, u.sys.submissions id = some (job, .finished (.error x)) →
      ((∃ msg, x = .transient msg) ∨ ∃ msg, x = .permanent msg) →
      PublishRaised cfg api acts id x := by
    refine Runs.history (I := fun acts u => ∀ id job x,
      u.sys.submissions id = some (job, .finished (.error x)) →
      ((∃ msg, x = .transient msg) ∨ ∃ msg, x = .permanent msg) →
      PublishRaised cfg api acts id x) ?_ ?_ h
    · intro id job x hsub
      cases hsub
    · intro as v a v' has hold hstep id job x hsub hx
      have hcoh := (Reaches.served has).coherent
      have kept : v.sys.submissions id = some (job, .finished (.error x)) →
          PublishRaised cfg api (as ++ [a]) id x := fun h => (hold id job x h hx).append [a]
      cases step_cases hstep with
      | refused n key body id' created updated r hfresh hhandled => exact kept hsub
      | replied n post id' outcome hpost hjob hopen houtcome => exact kept hsub
      | admitted n key body id' created updated p s' hfresh hhandled hsys =>
        rcases raised_of_step hcoh hsys hsub hx with hsame | ⟨c, left, ha, _⟩
        · exact kept hsame
        · cases ha
      | others b s' hb hsys =>
        rcases raised_of_step hcoh hsys hsub hx with hsame | ⟨c, left, rfl, hpub, hfate, hclass⟩
        · exact kept hsame
        · exact ⟨as, c, [], v, _, job, left, rfl, has, hstep, hpub, hfate, hclass, hsub⟩
  exact hall id job x hsub hx

/-- The answers to `POST /v1/jobs`, each with what it means for the jobs table and the stream. -/
inductive Told (cfg : Settings) (api : ApiConfig) (acts : List ApiAct) (s : Sys) (post : Post) :
    Response → Prop
  | undecodable (hjob : post.jobId = none) (hbody : post.body = .undecodable) :
      Told cfg api acts s post bodyParsingError
  | unauthorized (hjob : post.jobId = none) (hkey : ¬ Knows api post.key) :
      Told cfg api acts s post unauthorized.response
  | invalid (hjob : post.jobId = none) (hbody : ∀ p, ¬ post.body.Validates api.strAsInt p) :
      Told cfg api acts s post onValidationError
  | accepted (id : UUID) (first row : InferenceJob) (e : StreamEntry)
      (hadmitted : Admitted api s post id) (hrow : s.rows id = some row)
      (hmoves : Relation.ReflTransGen Moved first row)
      (happended : .appended (some (.submission id)) e ∈ s.log)
      (hfields : e.fields = (JobMessage.firstDelivery first).toFields) :
      Told cfg api acts s post
        { statusCode := 202
          content := .accepted { jobId := id, status := .pending, statusUrl := statusUrl id } }
  | upstream (id : UUID) (msg : Text) (hadmitted : Admitted api s post id) (hrow : s.rows id ≠ none)
      (hraised : PublishRaised cfg api acts id (.permanent msg)) :
      Told cfg api acts s post
        { statusCode := 502, content := .detail "Upstream dependency failed.".toList }
  | unwritable (hjob : post.jobId = none) (hbody : ∀ p, ¬ post.body.Validates api.strAsInt p) :
      Told cfg api acts s post internalServerError
  | serverError (id : UUID) (hadmitted : Admitted api s post id) :
      Told cfg api acts s post internalServerError

/-- Every answered request was answered with 202, 400, 401, 422, 500 or 502, and the answer is
true. -/
theorem post_answered (h : Reaches cfg api acts u) {n : Nat} {post : Post} {r : Response}
    (hpost : u.posts n = some post) (hanswer : post.answer = some r) :
    Told cfg api acts u.sys post r := by
  have hsound := h.served.posts n post hpost
  obtain ⟨as, hsys⟩ := h.sys
  cases hjob : post.jobId with
  | none =>
    obtain ⟨r', hhandled, hr⟩ := hsound.refused hjob
    cases hanswer.symm.trans hr
    rcases api.fastApi.refuses hhandled with
      ⟨hbody, rfl⟩ | ⟨x, hx, rfl⟩ | ⟨hbody, rfl | rfl⟩
    · exact .undecodable hjob hbody
    · obtain ⟨hkey, rfl⟩ := not_knows_of_requireApiKey hx
      exact .unauthorized hjob hkey
    · exact .invalid hjob hbody
    · exact .unwritable hjob hbody
  | some id =>
    have hadmitted := hsound.admitted id hjob
    obtain ⟨outcome, houtcome, rfl⟩ := hsound.answered id r hjob hanswer
    obtain ⟨first, hsub⟩ := Sys.submitOutcome_iff.mp houtcome
    have hid := hsys.coherent.submitted_id hsub
    have hsays := hsys.submissionsSay id first _ hsub
    cases outcome with
    | ok id' =>
      obtain ⟨rfl, hrow, e, he, hfields⟩ := hsays
      rw [hid] at hrow he
      obtain ⟨row, hrow⟩ := Option.ne_none_iff_exists'.mp hrow
      obtain ⟨⟨first', q, hsub', hmoves⟩, _⟩ := row_history hsys hrow
      cases hsub.symm.trans hsub'
      rw [hid]
      exact .accepted id first row e hadmitted hrow hmoves he hfields
    | error x =>
      rcases hsays with ⟨msg, repr, rfl⟩ | ⟨hrow, ⟨msg, rfl⟩ | ⟨msg, rfl⟩⟩
      · exact .serverError id hadmitted
      · exact .serverError id hadmitted
      · exact .upstream id msg hadmitted (hid ▸ hrow)
          (publishRaised_of_reaches h hsub (.inr ⟨msg, rfl⟩))

/-! ### The status can be polled -/

theorem jobSegment_statusUrl (id : UUID) : jobSegment (statusUrl id) = some (uuidText id) := by
  have hprefix : "/v1/jobs/".toList.isPrefixOf (statusUrl id) = true := by
    rw [List.isPrefixOf_iff_prefix]
    exact List.prefix_append _ _
  have hdrop : (statusUrl id).drop "/v1/jobs/".toList.length = uuidText id :=
    List.drop_left
  have hne : uuidText id ≠ [] := by
    intro hnil
    have hlength := uuidText_length id
    rw [hnil] at hlength
    cases hlength
  have hslash : '/' ∉ uuidText id := by
    intro hmem
    rcases mem_uuidText hmem with hdash | ⟨d, hd, hdigit⟩
    · cases hdash
    · have hvalue := digitValue_hexDigit hd
      rw [← hdigit] at hvalue
      cases hvalue
  simp only [jobSegment, hprefix, if_true, hdrop]
  rw [if_pos ⟨hne, hslash⟩]

theorem getJob_statusUrl {s : Sys} {c : Choice} {key : Option Text} {id : UUID}
    {row : InferenceJob} (hparse : api.uuidOfPath (uuidText id) = some id) (hkey : Knows api key)
    (hc : c.fate = .ok) (hrow : s.rows id = some row) :
    getJob api s c key (statusUrl id) =
      { statusCode := 200, content := .job (.modelValidate row) } := by
  obtain ⟨k, hk⟩ := requireApiKey_of_knows hkey
  rw [getJob, jobSegment_statusUrl]
  simp only [hk, hparse, Choice.reply_of_ok hc, Sys.readRow, hrow]

theorem row_of_exec (h : Runs.exec (step cfg api) u acts = some u') {j : UUID}
    (hrow : u.sys.rows j ≠ none) : u'.sys.rows j ≠ none := by
  obtain ⟨as, hsys⟩ := exec_sys h
  exact Runs.invariant (I := fun s => s.rows j ≠ none) (P := fun _ _ => True)
    (fun _ _ _ hs _ hstep => rows_ne_none_of_step hstep hs) hrow (.trivial _ _) hsys

theorem submission_of_exec (h : Runs.exec (step cfg api) u acts = some u')
    (hcoh : Coherent u.sys) {id : UUID} {job : InferenceJob} {p : SubmitPoint}
    (hsub : u.sys.submissions id = some (job, p)) :
    ∃ p', u'.sys.submissions id = some (job, p') := by
  obtain ⟨as, hsys⟩ := exec_sys h
  have hend : Coherent u'.sys ∧ ∃ p', u'.sys.submissions id = some (job, p') := by
    apply Runs.invariant (I := fun s => Coherent s ∧ ∃ q, s.submissions id = some (job, q))
      (P := fun _ _ => True) _ ⟨hcoh, p, hsub⟩ (.trivial u.sys as) hsys
    rintro s b s' ⟨hs, q, hq⟩ _ hstep
    exact ⟨hs.step hstep, submission_of_step hs hstep hq⟩
  exact hend.2

/-- What a request was told with 202 holds on: in every later state, whoever presents a configured
key and polls the status URL is shown, unless the read itself fails, the job of that request, with
outcome fields that agree with its status. -/
theorem accepted_pollable (h : Reaches cfg api acts u)
    (hparse : ∀ id, api.uuidOfPath (uuidText id) = some id) {n : Nat} {post : Post} {r : Response}
    (hpost : u.posts n = some post) (hanswer : post.answer = some r) (h202 : r.statusCode = 202)
    (hlater : Runs.exec (step cfg api) u acts' = some u') :
    ∃ id p first, r.content = .accepted { jobId := id, status := .pending, statusUrl := statusUrl id } ∧
      api.fastApi.handle post.key post.body = .ok p ∧ (u.sys.submissions id).map (·.1) = some first ∧
      ∀ (key : Option Text) (c : Choice), Knows api key → c.fate = .ok →
        ∃ view, getJob api u'.sys c key (statusUrl id) =
            { statusCode := 200, content := .job view } ∧
          view.jobId = id ∧ view.jobType = p.jobType ∧ view.createdAt = first.createdAt ∧
          (view.resultRef.isSome = true ↔ view.status = .success) ∧
          (view.durationMs.isSome = true ↔ view.status = .success) ∧
          (view.error.isSome = true ↔ view.status = .failed) := by
  have hcoh := h.served.coherent
  cases post_answered h hpost hanswer with
  | undecodable hjob hbody => cases h202
  | unauthorized hjob hkey => cases h202
  | invalid hjob hbody => cases h202
  | upstream id msg hadmitted hrow hraised => cases h202
  | unwritable hjob hbody => cases h202
  | serverError id hadmitted => cases h202
  | accepted id first row e hadmitted hrow hmoves happended hfields =>
    obtain ⟨p, job, q, hhandled, hsub, htype, _⟩ := hadmitted
    refine ⟨id, p, job, rfl, hhandled, congrArg (Option.map (·.1)) hsub, fun key c hkey hc => ?_⟩
    have hreach : Reaches cfg api (acts ++ acts') u' :=
      Runs.exec_append_iff.mpr ⟨u, h, hlater⟩
    obtain ⟨as, hsys⟩ := hreach.sys
    have hkept : u'.sys.rows id ≠ none := by
      apply row_of_exec hlater
      rw [hrow]
      exact Option.some_ne_none row
    obtain ⟨row', hrow'⟩ := Option.ne_none_iff_exists'.mp hkept
    obtain ⟨⟨first', q', hsub', hmoves'⟩, houtcome⟩ := row_history hsys hrow'
    obtain ⟨p', hsame⟩ := submission_of_exec hlater hcoh hsub
    cases hsame.symm.trans hsub'
    obtain ⟨hid, htype', _, hcreated⟩ := identity_of_history hmoves'
    refine ⟨.modelValidate row', getJob_statusUrl (hparse id) hkey hc hrow', ?_, ?_, hcreated,
      houtcome.resultRef, houtcome.durationMs, houtcome.error⟩
    · exact hid.trans (hcoh.submitted_id hsub)
    · exact htype'.trans htype

end Api

/-- FastAPI reads the body, then calls the dependency, then validates. -/
def FastApi.inOrder (apiKeys : List Text) (strAsInt : Text → Option Int) :
    FastApi apiKeys strAsInt where
  handle key body :=
    match body with
    | .undecodable => .error bodyParsingError
    | .notJson => .error onValidationError
    | .missing =>
      match requireApiKey apiKeys key with
      | .error x => .error x.response
      | .ok _ => .error onValidationError
    | .json json =>
      match requireApiKey apiKeys key with
      | .error x => .error x.response
      | .ok _ =>
        match JobSubmission.validate strAsInt json with
        | some p => .ok p
        | none => .error onValidationError
  runs := by
    intro key body p h
    cases body with
    | undecodable => cases h
    | notJson => cases h
    | missing => cases hkey : requireApiKey apiKeys key <;> simp only [hkey] at h <;> cases h
    | json json =>
      cases hkey : requireApiKey apiKeys key with
      | error x =>
        simp only [hkey] at h
        cases h
      | ok k =>
        simp only [hkey] at h
        cases hvalid : JobSubmission.validate strAsInt json with
        | none =>
          simp only [hvalid] at h
          cases h
        | some q =>
          simp only [hvalid] at h
          cases h
          exact ⟨⟨k, rfl⟩, json, rfl, hvalid⟩
  refuses := by
    intro key body r h
    have invalid : (∀ json, body = .json json → JobSubmission.validate strAsInt json = none) →
        ∀ p, ¬ body.Validates strAsInt p := by
      rintro hnone p ⟨json, hjson, hvalid⟩
      cases (hnone json hjson).symm.trans hvalid
    cases body with
    | undecodable => exact .inl ⟨rfl, (Except.error.inj h).symm⟩
    | notJson =>
      cases h
      exact .inr (.inr ⟨invalid (by rintro _ ⟨⟩), .inl rfl⟩)
    | missing =>
      cases hkey : requireApiKey apiKeys key <;> simp only [hkey] at h <;> cases h
      · exact .inr (.inl ⟨_, rfl, rfl⟩)
      · exact .inr (.inr ⟨invalid (by rintro _ ⟨⟩), .inl rfl⟩)
    | json json =>
      cases hkey : requireApiKey apiKeys key with
      | error x =>
        simp only [hkey] at h
        cases h
        exact .inr (.inl ⟨x, rfl, rfl⟩)
      | ok k =>
        simp only [hkey] at h
        cases hvalid : JobSubmission.validate strAsInt json with
        | some q =>
          simp only [hvalid] at h
          cases h
        | none =>
          simp only [hvalid] at h
          cases h
          refine .inr (.inr ⟨invalid fun json' hjson => ?_, .inl rfl⟩)
          cases hjson
          exact hvalid

def oneKey : ApiConfig := { apiKeys := ["k".toList], fastApi := .inOrder _ _ }

/-- A worker has started; a request is admitted, submitted and answered. -/
def askedAndAnswered : List ApiAct :=
  (boot 0).map .others ++ .post 0 (some "k".toList) (.json ragBody) 7 0 0 ::
    (steps (.submission 7) 2).map .others ++ [.reply 0]

def takenUp : List ApiAct := (readPass 0 1 ++ steps (.task 0) 7).map .others

theorem asked_authorised : ∃ u row, Api.Reaches {} oneKey askedAndAnswered u ∧
    u.sys.rows 7 = some row ∧ ∃ n post json p, u.posts n = some post ∧ post.jobId = some 7 ∧
      Api.Knows oneKey post.key ∧ post.body = .json json ∧
      JobSubmission.validate oneKey.strAsInt json = some p ∧
      row.jobType = p.jobType ∧ row.payload = p.modelDump := by
  obtain ⟨u, hu, hview⟩ := Runs.exec_of_map (Api.step {} oneKey) {} askedAndAnswered
    (fun u => (u.sys.rows 7).isSome) true (by decide +kernel)
  obtain ⟨row, hrow⟩ := Option.isSome_iff_exists.mp hview
  exact ⟨u, row, hu, hrow, Api.rows_authorised hu hrow⟩

theorem answered_202 : ∃ u post r, Api.Reaches {} oneKey askedAndAnswered u ∧
    u.posts 0 = some post ∧ post.answer = some r ∧ r.statusCode = 202 ∧
    Api.Told {} oneKey askedAndAnswered u.sys post r := by
  obtain ⟨u, hu, hview⟩ := Runs.exec_of_map (Api.step {} oneKey) {} askedAndAnswered
    (fun u => (u.posts 0).map fun post => post.answer.map (·.statusCode)) (some (some 202))
    (by decide +kernel)
  obtain ⟨post, hpost, hanswer⟩ := Option.map_eq_some_iff.mp hview
  obtain ⟨r, hanswer, h202⟩ := Option.map_eq_some_iff.mp hanswer
  exact ⟨u, post, r, hu, hpost, hanswer, h202, Api.post_answered hu hpost hanswer⟩

theorem answered_polled : ∃ u u' post, Api.Reaches {} oneKey askedAndAnswered u ∧
    u.posts 0 = some post ∧ Runs.exec (Api.step {} oneKey) u takenUp = some u' ∧
    ∃ id view, getJob oneKey u'.sys {} (some "k".toList) (statusUrl id) =
        { statusCode := 200, content := .job view } ∧ view.jobId = id := by
  obtain ⟨u, hu, hview⟩ := Runs.exec_of_map (Api.step {} oneKey) {} askedAndAnswered
    (fun u => ((u.posts 0).map fun post => post.answer.map (·.statusCode),
      (Runs.exec (Api.step {} oneKey) u takenUp).isSome)) (some (some 202), true)
    (by decide +kernel)
  obtain ⟨hanswer, hlater⟩ := Prod.mk.inj hview
  obtain ⟨post, hpost, hanswer⟩ := Option.map_eq_some_iff.mp hanswer
  obtain ⟨r, hanswer, h202⟩ := Option.map_eq_some_iff.mp hanswer
  obtain ⟨u', hu'⟩ := Option.isSome_iff_exists.mp hlater
  have hparse : ∀ id, oneKey.uuidOfPath (uuidText id) = some id := by
    intro id
    simp only [oneKey, parseUUID_uuidText]
  obtain ⟨id, p, first, _, _, _, hpoll⟩ :=
    Api.accepted_pollable hu hparse hpost hanswer h202 hu'
  have hkey : Api.Knows oneKey (some "k".toList) := ⟨_, List.mem_singleton_self _, rfl⟩
  obtain ⟨view, hget, hid, _⟩ := hpoll (some "k".toList) {} hkey rfl
  exact ⟨u, u', post, hu, hpost, hu', id, view, hget, hid⟩

end InferenceEngine
