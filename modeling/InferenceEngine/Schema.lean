import InferenceEngine.OwnArtifacts

/-!
# Rows that fit the table

The constraints that `app/adapters/persistence/tables.py` declares on `jobs`, and the rows that
`add` and `update` are asked to persist. References are short by construction; an error text is
as long as the exception it was made from.
-/

namespace InferenceEngine

set_option autoImplicit false

open Programs

variable {V : Type}

/-- A row of `jobs` before it is inserted: `none` is NULL. -/
structure JobRow where
  id : Option UUID
  type : Option Text
  status : Option Text
  payload : Option (List (Text × Json))
  resultRef : Option Text
  error : Option Text
  attempts : Option Int
  durationMs : Option Int
  createdAt : Option Time
  updatedAt : Option Time

def toRow (job : InferenceJob) : JobRow where
  id := some job.id
  type := some job.jobType.value
  status := some job.status.value
  payload := some job.payload
  resultRef := job.resultRef
  error := job.error
  attempts := some job.attempts
  durationMs := job.durationMs
  createdAt := some job.createdAt
  updatedAt := some job.updatedAt

/-- `ck_jobs_status`. -/
def statusValues : List Text :=
  ["pending".toList, "running".toList, "success".toList, "failed".toList]

/-- `ck_jobs_type`. -/
def typeValues : List Text := ["rag_query".toList, "embed_document".toList]

/-- The value of a `String(n)` column is NULL or at most `n` characters long. -/
def FitsVarchar (n : Nat) (column : Option Text) : Prop := ∀ t, column = some t → t.length ≤ n

/-- What the table demands of a row. -/
structure JobRow.Fits (row : JobRow) : Prop where
  id : row.id.isSome = true
  type : ∃ t ∈ typeValues, row.type = some t
  status : ∃ t ∈ statusValues, row.status = some t
  payload : row.payload.isSome = true
  attempts : row.attempts.isSome = true
  createdAt : row.createdAt.isSome = true
  updatedAt : row.updatedAt.isSome = true
  typeLength : FitsVarchar 32 row.type
  statusLength : FitsVarchar 16 row.status
  resultRef : FitsVarchar 512 row.resultRef
  error : FitsVarchar 2048 row.error

/-- What the domain leaves to its callers: the lengths of two texts. -/
structure InferenceJob.TextsFit (job : InferenceJob) : Prop where
  resultRef : FitsVarchar 512 job.resultRef
  error : FitsVarchar 2048 job.error

theorem JobType.value_mem (ty : JobType) : ty.value ∈ typeValues ∧ ty.value.length ≤ 32 := by
  cases ty <;> decide

theorem JobStatus.value_mem (st : JobStatus) :
    st.value ∈ statusValues ∧ st.value.length ≤ 16 := by
  cases st <;> decide

theorem fitsVarchar_some {n : Nat} {t : Text} : FitsVarchar n (some t) ↔ t.length ≤ n := by
  simp [FitsVarchar]

theorem fitsVarchar_none (n : Nat) : FitsVarchar n none := by
  rintro t ⟨⟩

/-- The enumerations keep the CHECK constraints, the constructor the NOT NULL ones. -/
theorem fits_toRow_iff {job : InferenceJob} : (toRow job).Fits ↔ job.TextsFit := by
  constructor
  · intro h
    exact ⟨h.resultRef, h.error⟩
  · rintro ⟨href, herror⟩
    obtain ⟨htype, htypeLength⟩ := job.jobType.value_mem
    obtain ⟨hstatus, hstatusLength⟩ := job.status.value_mem
    exact {
      id := rfl
      type := ⟨_, htype, rfl⟩
      status := ⟨_, hstatus, rfl⟩
      payload := rfl
      attempts := rfl
      createdAt := rfl
      updatedAt := rfl
      typeLength := fitsVarchar_some.mpr htypeLength
      statusLength := fitsVarchar_some.mpr hstatusLength
      resultRef := href
      error := herror }

namespace InferenceJob

theorem textsFit_new (ty : JobType) (payload : List (Text × Json)) (id : UUID)
    (created updated : Time) : (new ty payload id created updated).TextsFit :=
  ⟨fitsVarchar_none _, fitsVarchar_none _⟩

variable {job job' : InferenceJob} {now : Time}

theorem TextsFit.markRunning (h : job.TextsFit) (hmark : job.markRunning now = .ok job') :
    job'.TextsFit := by
  obtain ⟨_, rfl⟩ := markRunning_ok_iff.mp hmark
  exact ⟨h.resultRef, fitsVarchar_none _⟩

theorem TextsFit.requeue (h : job.TextsFit) (hmark : job.requeue now = .ok job') :
    job'.TextsFit := by
  obtain ⟨_, rfl⟩ := requeue_ok_iff.mp hmark
  exact ⟨h.resultRef, h.error⟩

theorem TextsFit.markSuccess {ref : Text} {d : Option Int} (h : job.TextsFit)
    (hmark : job.markSuccess ref d now = .ok job') (href : FitsVarchar 512 job'.resultRef) :
    job'.TextsFit := by
  obtain ⟨_, rfl⟩ := markSuccess_ok_iff.mp hmark
  exact ⟨href, h.error⟩

theorem TextsFit.markFailed {error : Text} {d : Option Int} (h : job.TextsFit)
    (hmark : job.markFailed error d now = .ok job') (herror : error.length ≤ 2048) :
    job'.TextsFit := by
  obtain ⟨_, rfl⟩ := markFailed_ok_iff.mp hmark
  exact ⟨h.resultRef, fitsVarchar_some.mpr herror⟩

end InferenceJob

/-! ### Error texts -/

/-- The text that a row gets for an exception is short: its message, with the count of attempts
before it when they are used up, or its `repr`. -/
def ShortError (cfg : BrokerSettings) (m : JobMessage) : Exn → Prop
  | .transient msg =>
    m.attempt < cfg.maxAttempts ∨ (intText m.attempt).length + msg.length + 18 ≤ 2048
  | .permanent msg => msg.length ≤ 2048
  | .invalidTransition current target => (reprInvalidTransition current target).length ≤ 2048
  | .jobNotFound id => (reprJobNotFound id).length ≤ 2048
  | .redis e => e.repr.length ≤ 2048
  | .other _ repr => repr.length ≤ 2048

instance (cfg : BrokerSettings) (m : JobMessage) : (x : Exn) → Decidable (ShortError cfg m x)
  | .transient _ => inferInstanceAs (Decidable (_ ∨ _))
  | .permanent _ => inferInstanceAs (Decidable (_ ≤ _))
  | .invalidTransition _ _ => inferInstanceAs (Decidable (_ ≤ _))
  | .jobNotFound _ => inferInstanceAs (Decidable (_ ≤ _))
  | .redis _ => inferInstanceAs (Decidable (_ ≤ _))
  | .other _ _ => inferInstanceAs (Decidable (_ ≤ _))

theorem exhaustedError_length (m : JobMessage) (exc : Text) :
    (exhaustedError m exc).length = (intText m.attempt).length + exc.length + 18 := by
  have hbefore : "exhausted after ".toList.length = 16 := by decide
  have hafter : ": ".toList.length = 2 := by decide
  delta exhaustedError
  simp only [List.length_append, hbefore, hafter]
  omega

theorem shortError_invalidTransition (cfg : BrokerSettings) (m : JobMessage)
    (current target : JobStatus) : ShortError cfg m (.invalidTransition current target) := by
  change (reprInvalidTransition current target).length ≤ 2048
  cases current <;> cases target <;> decide

theorem shortError_jobNotFound (cfg : BrokerSettings) (m : JobMessage) (id : UUID) :
    ShortError cfg m (.jobNotFound id) := by
  have hleft : "JobNotFound('".toList.length = 13 := by decide
  have hright : "')".toList.length = 2 := by decide
  have hstr : "job not found: ".toList.length = 15 := by decide
  change ("JobNotFound('".toList ++ ("job not found: ".toList ++ uuidText id) ++
    "')".toList).length ≤ 2048
  simp only [List.length_append, uuidText_length, hleft, hright, hstr]
  omega

namespace TaskPoint

/-- The copies and the error texts that a handler holds fit their columns. -/
def Fits : TaskPoint → Prop
  | writeRunning _ job | running job | writeSuccess _ job | writePending _ job
  | writeFailed _ job => job.TextsFit
  | deadLetter _ error | deadLetterAck error | failGet error => error.length ≤ 2048
  | _ => True

variable {cfg : BrokerSettings} {id : Nat} {m : JobMessage}

theorem Fits.write {p : TaskPoint} {seen job : InferenceJob} (h : p.Fits)
    (hw : p.write = some (seen, job)) : job.TextsFit := by
  cases p <;> cases hw <;> exact h

theorem fits_routed {x : Exn} (h : ShortError cfg m x) : (routed cfg m (.error x)).Fits := by
  cases x with
  | transient msg =>
    simp only [routed]
    split
    · rename_i hused
      rcases h with hleft | hshort
      · omega
      · simp only [Fits, exhaustedError_length]
        exact hshort
    · trivial
  | _ => exact h

theorem fits_raised (x : Exn) : (raised x).Fits := by
  cases x <;> trivial

/-- The exception with which the processor leaves its `try`, in the source's translation. -/
def raises (c : Choice) : TaskPoint → Option Exn
  | load | writeRunning _ _ | writeSuccess _ _ =>
    if c.fate = .ok then none else some (.other c.dbError c.dbRepr)
  | running _ =>
    match c.outcome with
    | .error (.transient msg) => some (.transient msg)
    | .error x => some (.permanent x.str)
    | .ok _ => none
  | _ => none

section
variable {scfg : Settings} {s s' : Sys} {t : Nat} {c : Choice}

theorem textsFit_of_get {j : UUID} {job : InferenceJob} {now : Time}
    (hrows : ∀ j row, s.rows j = some row → row.TextsFit)
    (h : s.perform scfg (.task t) c (.get j) =
      some ((.ok (job, now) : Effect.Reply (.get j)), s')) : job.TextsFit := by
  obtain ⟨_, ⟨_, row, hrow, hr⟩ | ⟨_, _, hr⟩ | ⟨_, hr⟩⟩ := Sys.perform_get h
  · cases hr
    exact hrows j job hrow
  · cases hr
  · cases hr

theorem error_of_get {j : UUID} {x : Exn}
    (h : s.perform scfg (.task t) c (.get j) = some ((.error x : Effect.Reply (.get j)), s')) :
    (c.fate ≠ .ok ∧ x = .other c.dbError c.dbRepr) ∨ x = .jobNotFound j := by
  obtain ⟨_, ⟨_, _, _, hr⟩ | ⟨_, _, hr⟩ | ⟨hfate, hr⟩⟩ := Sys.perform_get h
  · cases hr
  · cases hr
    exact .inr rfl
  · cases hr
    exact .inl ⟨hfate, rfl⟩

theorem error_of_update {job : InferenceJob} {x : Exn}
    (h : s.perform scfg (.task t) c (.update job) =
      some ((.error x : Effect.Reply (.update job)), s')) :
    (c.fate ≠ .ok ∧ x = .other c.dbError c.dbRepr) ∨ x = .jobNotFound job.id := by
  rcases Sys.perform_update h with ⟨_, ⟨_, hr⟩ | ⟨hfate, hr⟩, _⟩ | ⟨_, ⟨hfate, hr⟩ | ⟨_, hr⟩⟩
  · cases hr
  · cases hr
    exact .inl ⟨by simp [hfate], rfl⟩
  · cases hr
    exact .inl ⟨hfate, rfl⟩
  · cases hr
    exact .inr rfl

theorem shortError_of_row {x : Exn} {j : UUID}
    (hx : (c.fate ≠ .ok ∧ x = .other c.dbError c.dbRepr) ∨ x = .jobNotFound j)
    (hshort : ∀ y, (if c.fate = .ok then none else some (.other c.dbError c.dbRepr)) = some y →
      ShortError cfg m y) : ShortError cfg m x := by
  rcases hx with ⟨hfate, rfl⟩ | rfl
  · exact hshort _ (if_neg hfate)
  · exact shortError_jobNotFound cfg m j

theorem fits_afterLoad {r : Except Exn (InferenceJob × Time)}
    (hrow : ∀ job now, r = .ok (job, now) → job.TextsFit)
    (hshort : ∀ x, r = .error x → ShortError cfg m x) : (afterLoad cfg m r).Fits := by
  rcases r with x | ⟨job, now⟩
  · cases x with
    | jobNotFound j => trivial
    | _ =>
      unfold afterLoad
      exact fits_routed (hshort _ rfl)
  · simp only [afterLoad]
    split
    · trivial
    · cases hmark : job.markRunning now with
      | ok job' => exact (hrow job now rfl).markRunning hmark
      | error x =>
        refine fits_routed ?_
        by_cases hp : job.status = .pending
        · cases (InferenceJob.markRunning_of_pending hp now).symm.trans hmark
        · cases (InferenceJob.markRunning_of_ne hp now).symm.trans hmark
          exact shortError_invalidTransition cfg m _ _

theorem fits_afterRun {job : InferenceJob} (hrun : job.status = .running) (hjob : job.TextsFit)
    (hshort : ∀ x, (running job).raises c = some x → ShortError cfg m x)
    (href : ∀ seen job', afterRun cfg m job (c.outcome.map fun (ref, ms) => (ref, ms, c.now)) =
      .writeSuccess seen job' → FitsVarchar 512 job'.resultRef) :
    (afterRun cfg m job (c.outcome.map fun (ref, ms) => (ref, ms, c.now))).Fits := by
  cases hout : c.outcome with
  | error x =>
    have short : ∀ y, (running job).raises c = some y → (routed cfg m (.error y)).Fits :=
      fun y hy => fits_routed (hshort y hy)
    cases x with
    | _ => exact short _ (by simp only [raises, hout]; rfl)
  | ok out =>
    obtain ⟨ref, ms⟩ := out
    obtain ⟨job', hsucc⟩ : ∃ job', job.markSuccess ref (some ms) c.now = .ok job' :=
      ⟨_, InferenceJob.markSuccess_of_running hrun ref (some ms) c.now⟩
    have hnext : afterRun cfg m job (.ok (ref, ms, c.now)) = .writeSuccess job job' := by
      simp only [afterRun, hsucc]
    rw [hout] at href
    simp only [Except.map, hnext] at href ⊢
    exact hjob.markSuccess hsucc (href job job' rfl)

/-- A handler's step keeps what it holds within the columns, when what it raises is short. -/
theorem fits_next {p : TaskPoint} {e : Effect} {k : e.Reply → TaskPoint} {r : e.Reply}
    (hrows : ∀ j row, s.rows j = some row → row.TextsFit) (hsound : p.Sound m) (hp : p.Fits)
    (hnode : p.node cfg id m = .await e k) (hperf : s.perform scfg (.task t) c e = some (r, s'))
    (hshort : ∀ x, p.raises c = some x → ShortError cfg m x)
    (href : ∀ seen job, k r = .writeSuccess seen job → FitsVarchar 512 job.resultRef) :
    (k r).Fits := by
  cases p with
  | guard =>
    cases hnode
    rcases r with x | ⟨job, now⟩
    · cases x <;> trivial
    · simp only [afterGuard]
      split <;> trivial
  | load =>
    cases hnode
    refine fits_afterLoad ?_ ?_
    · rintro job now rfl
      exact textsFit_of_get hrows hperf
    · rintro x rfl
      exact shortError_of_row (error_of_get hperf) hshort
  | writeRunning seen job =>
    cases hnode
    rcases r with x | u
    · exact fits_routed (shortError_of_row (error_of_update hperf) hshort)
    · exact hp
  | running job =>
    cases hnode
    obtain ⟨rfl, _⟩ := Sys.perform_run hperf
    exact fits_afterRun hsound.2 hp hshort href
  | writeSuccess seen job =>
    cases hnode
    rcases r with x | u
    · exact fits_routed (shortError_of_row (error_of_update hperf) hshort)
    · trivial
  | requeueGet =>
    cases hnode
    rcases r with x | ⟨job, now⟩
    · cases x <;> trivial
    · simp only [afterRequeueGet]
      cases hmark : job.requeue now with
      | ok job' => exact (textsFit_of_get hrows hperf).requeue hmark
      | error x => trivial
  | failGet error =>
    cases hnode
    rcases r with x | ⟨job, now⟩
    · cases x <;> trivial
    · simp only [afterFailGet]
      cases hmark : job.markFailed error none now with
      | ok job' => exact (textsFit_of_get hrows hperf).markFailed hmark hp
      | error x => trivial
  | republish =>
    cases hnode
    rcases r with x | u
    · exact fits_raised x
    · trivial
  | deadLetter reason error =>
    cases hnode
    rcases r with x | u
    · exact fits_raised x
    · exact hp
  | deadLetterAck error =>
    cases hnode
    rcases r with x | u
    · trivial
    · exact hp
  | writePending seen job =>
    cases hnode
    rcases r with x | u <;> trivial
  | skipAck | successAck | retryAck | writeFailed seen job | release outcome =>
    cases hnode
    trivial
  | finished outcome => cases hnode

end

end TaskPoint

/-! ### Every run -/

def Sys.raises (s : Sys) : Act → Option (JobMessage × Exn)
  | .resume (.task t) c =>
    match s.tasks t with
    | some { body := .handling m p, .. } => (p.raises c).map fun x => (m, x)
    | _ => none
  | _ => none

namespace Engine

def brokerAct (cfg : EngineSettings) (e : Engine V) : EngineAct V → Option Act
  | .base a => some a
  | .call _ _ => none
  | .finish t ms now =>
    match e.pipelineOf cfg t with
    | some (.pure r) => some (.resume (.task t) { outcome := r.map fun ref => (ref, ms), now })
    | _ => none

/-- Every exception that a step brings to a handler leaves a short text. -/
def ShortErrors (cfg : EngineSettings) (e : Engine V) (a : EngineAct V) : Prop :=
  ∀ mx ∈ (e.brokerAct cfg a).bind e.sys.raises, ShortError cfg.toBrokerSettings mx.1 mx.2

instance (cfg : EngineSettings) (e : Engine V) (a : EngineAct V) :
    Decidable (ShortErrors cfg e a) :=
  inferInstanceAs (Decidable (∀ mx ∈ _, ShortError _ _ _))

/-- A coroutine is about to hand the job to `add` or `update`. -/
def HandsToRepository (e : Engine V) (job : InferenceJob) : Prop :=
  (∃ id, e.sys.submissions id = some (job, .adding)) ∨
  ∃ t name id m p seen, e.sys.tasks t = some ⟨name, id, .handling m p⟩ ∧
    p.write = some (seen, job)

end Engine

/-- Rows, and what handlers hold to write into them, fit the table. -/
structure TextsKept (s : Sys) : Prop where
  rows : ∀ j row, s.rows j = some row → row.TextsFit
  held : ∀ t name id m p, s.tasks t = some ⟨name, id, .handling m p⟩ → p.Fits

section
variable {cfg : EngineSettings} {e e' : Engine V} {s s' : Sys}

theorem brokerAct_of_step {a : EngineAct V} (h : e.step cfg a = some e') :
    e'.sys = e.sys ∨ ∃ b, e.brokerAct cfg a = some b ∧
      InferenceEngine.step cfg.toSettings e.sys b = some e'.sys := by
  cases Engine.step_cases h with
  | base a s hfree hstep => exact .inr ⟨a, rfl, hstep⟩
  | call t c call k hleft => exact .inl rfl
  | finish t ms now r s hleft hstep =>
    refine .inr ⟨_, ?_, hstep⟩
    simp only [Engine.brokerAct, hleft]

theorem fitsVarchar_s3Ref (hbucket : cfg.bucket.length ≤ 63) (job : InferenceJob) :
    FitsVarchar 512 (some (s3Ref cfg.bucket (artifactKey job))) := by
  have hscheme : "s3://".toList.length = 5 := by decide
  have hslash : "/".toList.length = 1 := by decide
  have hkey := artifactKey_length_le job
  refine fitsVarchar_some.mpr ?_
  delta s3Ref
  simp only [List.length_append, hscheme, hslash]
  omega

theorem TextsKept.init : TextsKept {} where
  rows := by
    intro j row h
    cases h
  held := by
    intro t name id m p h
    cases h

theorem TextsKept.step {cfg : Settings} {a : Act} (hs : Coherent s) (hk : TextsKept s)
    (hshort : ∀ mx ∈ s.raises a, ShortError cfg.toBrokerSettings mx.1 mx.2)
    (h : InferenceEngine.step cfg s a = some s')
    (href : ∀ t name id m seen job,
      s'.tasks t = some ⟨name, id, .handling m (.writeSuccess seen job)⟩ →
      FitsVarchar 512 job.resultRef) : TextsKept s' := by
  constructor
  · intro j row hrow
    have written : ∀ job : InferenceJob, job.TextsFit →
        s'.rows = Function.update s.rows job.id (some job) → row.TextsFit := by
      intro job hjob hr
      by_cases hj : j = job.id
      · subst hj
        rw [hr, Function.update_self] at hrow
        cases hrow
        exact hjob
      · rw [hr, Function.update_of_ne hj] at hrow
        exact hk.rows j row hrow
    rcases step_rows h with hr | ⟨id, c, job, _, hsub, _, hr⟩ |
      ⟨t, c, name, id, m, p, seen, job, row', _, _, htask, hwrite, _, hr⟩
    · exact hk.rows j row (hr ▸ hrow)
    · obtain ⟨ty, payload, created, updated, rfl⟩ := hs.submitted id job _ hsub
      exact written _ (InferenceJob.textsFit_new ty payload id created updated) hr
    · exact written job ((hk.held t name id m p htask).write hwrite) hr
  · intro t name id m p htask
    rcases handling_of_step h htask with hold | rfl |
      ⟨c, q, f, k, r, s₁, rfl, hold, hnode, hperf, rfl⟩
    · exact hk.held t name id m p hold
    · trivial
    · refine TaskPoint.fits_next hk.rows (hs.sound t name id m q hold)
        (hk.held t name id m q hold) hnode hperf ?_ ?_
      · intro x hx
        refine hshort (m, x) ?_
        simp only [Sys.raises, hold, hx, Option.map_some, Option.mem_def]
      · intro seen job hnext
        exact href t name id m seen job (hnext ▸ htask)

theorem TextsKept.of_reaches (hbucket : cfg.bucket.length ≤ 63) {acts : List (EngineAct V)}
    (h : Engine.Reaches cfg acts e)
    (hshort : Runs.Along (Engine.step cfg) (Engine.ShortErrors cfg) {} acts) :
    TextsKept e.sys := by
  refine (Runs.invariant (I := fun e : Engine V => e.Regular cfg ∧ TextsKept e.sys) ?_
    ⟨.init, .init⟩ hshort h).2
  rintro u a u' ⟨hreg, hk⟩ hshort hstep
  have hreg' : u'.Regular cfg := hreg.step hstep
  refine ⟨hreg', ?_⟩
  rcases brokerAct_of_step hstep with hsame | ⟨b, hb, hbroker⟩
  · rwa [hsame]
  · have hraised : ∀ mx ∈ u.sys.raises b, ShortError cfg.toBrokerSettings mx.1 mx.2 := by
      intro mx hmx
      refine hshort mx ?_
      rwa [hb]
    refine hk.step hreg.sys.coherent hraised hbroker ?_
    intro t name id m seen job htask
    rw [(hreg'.own.copies t name id m seen job htask).1]
    exact fitsVarchar_s3Ref hbucket job

theorem handedRowsFit (hbucket : cfg.bucket.length ≤ 63) {acts : List (EngineAct V)}
    (h : Engine.Reaches cfg acts e)
    (hshort : Runs.Along (Engine.step cfg) (Engine.ShortErrors cfg) {} acts) :
    ∀ job, e.HandsToRepository job → (toRow job).Fits := by
  intro job hands
  have hkept := TextsKept.of_reaches hbucket h hshort
  refine fits_toRow_iff.mpr ?_
  rcases hands with ⟨id, hsub⟩ | ⟨t, name, id, m, p, seen, htask, hwrite⟩
  · obtain ⟨ty, payload, created, updated, rfl⟩ :=
      h.regular.sys.coherent.submitted id job _ hsub
    exact InferenceJob.textsFit_new ty payload id created updated
  · exact (hkept.held t name id m p htask).write hwrite

end

/-- A document's pipeline raises; its entry is dead-lettered and acknowledged, and the FAILED
row is about to be written. -/
def raisedWith (msg : Text) : List (EngineAct Nat) :=
  (boot 0 ++ .submit .embedDocument [("text".toList, .str "a".toList)] 7 0 0 ::
    steps (.submission 7) 2 ++ readPass 0 1 ++ steps (.task 0) 3).map .base ++
  [.call 0 { raised := some (.permanent msg) }, .finish 0 12 0] ++
  (steps (.task 0) 3).map .base

def Sys.writesFailed (s : Sys) (t : Nat) : Option InferenceJob :=
  match s.tasks t with
  | some { body := .handling _ (.writeFailed _ job), .. } => some job
  | _ => none

theorem Sys.hands_of_writesFailed {e : Engine V} {t : Nat} {job : InferenceJob}
    (h : e.sys.writesFailed t = some job) : e.HandsToRepository job := by
  unfold Sys.writesFailed at h
  split at h
  · rename_i name id m seen job' htask
    cases h
    exact .inr ⟨t, name, id, m, _, seen, htask, rfl⟩
  · cases h

theorem raisedShort_fits : ∃ (e : Engine Nat) (job : InferenceJob),
    Engine.Reaches { reprs := plainReprs } (raisedWith "no such model".toList) e ∧
    e.sys.writesFailed 0 = some job ∧ (toRow job).Fits := by
  obtain ⟨e, he, hview⟩ := Runs.exec_of_map (Engine.step (V := Nat) { reprs := plainReprs }) {}
    (raisedWith "no such model".toList) (fun e => (e.sys.writesFailed 0).isSome) true
    (by decide +kernel)
  obtain ⟨job, hjob⟩ := Option.isSome_iff_exists.mp hview
  refine ⟨e, job, he, hjob, handedRowsFit (by decide) he ?_ job (Sys.hands_of_writesFailed hjob)⟩
  exact Runs.Along.of_check (p := fun e a => decide (Engine.ShortErrors _ e a))
    (fun _ _ => of_decide_eq_true) (by decide +kernel)

theorem raisedLong_not_fits : ∃ (e : Engine Nat) (job row : InferenceJob),
    Engine.Reaches { reprs := plainReprs } (raisedWith (List.replicate 2049 'x')) e ∧
    e.HandsToRepository job ∧ ¬ (toRow job).Fits ∧
    e.sys.rows 7 = some row ∧ row.status = .running ∧ e.sys.redis.isPending 1 = false ∧
    e.sys.redis.dlq.lastId = 1 := by
  obtain ⟨e, he, hview⟩ := Runs.exec_of_map (Engine.step (V := Nat) { reprs := plainReprs }) {}
    (raisedWith (List.replicate 2049 'x'))
    (fun e => ((e.sys.writesFailed 0).map fun job => job.error.map (·.length),
      (e.sys.rows 7).map (·.status), e.sys.redis.isPending 1, e.sys.redis.dlq.lastId))
    (some (some 2049), some .running, false, 1) (by decide +kernel)
  simp only [Prod.mk.injEq] at hview
  obtain ⟨hfailed, hrow, hpending, hdlq⟩ := hview
  obtain ⟨job, hjob, herror⟩ := Option.map_eq_some_iff.mp hfailed
  obtain ⟨text, htext, hlength⟩ := Option.map_eq_some_iff.mp herror
  obtain ⟨row, hrow, hstatus⟩ := Option.map_eq_some_iff.mp hrow
  refine ⟨e, job, row, he, Sys.hands_of_writesFailed hjob, ?_, hrow, hstatus, hpending, hdlq⟩
  intro hfits
  have hle := hfits.error text htext
  omega

end InferenceEngine
