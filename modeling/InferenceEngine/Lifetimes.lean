import InferenceEngine.Alone
import InferenceEngine.Budgets

/-!
# What a job costs over its life

The runs of a job's pipeline are answered one after the other from one stream of replies. The two
budgets bound the operations at each place of the pipeline, nothing is issued after a permanent
error, and the job fails for cause only.
-/

namespace InferenceEngine

set_option autoImplicit false

open Programs Runs

variable {V : Type}

/-- The operations of the run after the first `n`. -/
def issuedIn (cfg : EngineSettings) (w : Nat → (o : Operation V) → o.Reply) (job : InferenceJob)
    (n : Nat) : List (Issued V) :=
  (issued cfg w job (n + 1)).drop (issued cfg w job n).length

/-- The outcome of the run after the first `n`, which has taken `ms`. -/
def lifeOf (cfg : EngineSettings) (w : Nat → (o : Operation V) → o.Reply) (ms : Nat → Int)
    (job : InferenceJob) (n : Nat) : Except Exn (Text × Int) :=
  (outcomeOf cfg w job n).map fun ref => (ref, ms n)

def FedBy (cfg : EngineSettings) (w : Nat → (o : Operation V) → o.Reply) (ms : Nat → Int) (id : UUID)
    (s : Sys) : Act → Prop
  | .resume (.task t) c => ∀ name entry m job,
    s.tasks t = some ⟨name, entry, .handling m (.running job)⟩ → m.jobId = id →
      c.outcome = lifeOf cfg w ms job (s.jobView id).outcomes.length
  | _ => True

section
variable {cfg : EngineSettings} {w : Nat → (o : Operation V) → o.Reply} {ms : Nat → Int}
  {job job' : InferenceJob}

/-! ### One run -/

theorem pipeline_congr (htype : job.jobType = job'.jobType) (hpayload : job.payload = job'.payload)
    (hid : job.id = job'.id) : pipeline (V := V) cfg job = pipeline cfg job' := by
  obtain ⟨ty, payload, id, status, attempts, ref, err, dur, created, updated⟩ := job
  obtain ⟨ty', payload', id', status', attempts', ref', err', dur', created', updated'⟩ := job'
  cases htype
  cases hpayload
  cases hid
  cases ty <;> rfl

theorem issued_congr (h : pipeline (V := V) cfg job = pipeline cfg job') (n : Nat) :
    issued cfg w job n = issued cfg w job' n := by
  induction n with
  | zero => rfl
  | succ n ih => rw [issued, issued, ih, h]

theorem lifeOf_congr (h : pipeline (V := V) cfg job = pipeline cfg job') (n : Nat) :
    lifeOf cfg w ms job n = lifeOf cfg w ms job' n := by
  rw [lifeOf, lifeOf, outcomeOf, outcomeOf, issued_congr h, h]

theorem isTransient_lifeOf (n : Nat) :
    isTransient (lifeOf cfg w ms job n) = isTransient (outcomeOf cfg w job n) := by
  unfold lifeOf
  cases outcomeOf cfg w job n with
  | ok ref => rfl
  | error e => cases e <;> rfl

/-- A run adds its operations to those before, and they decide how it ends. -/
structure RunAt (cfg : EngineSettings) (w : Nat → (o : Operation V) → o.Reply) (job : InferenceJob)
    (n : Nat) : Prop where
  issued : issued cfg w job (n + 1) = issued cfg w job n ++ issuedIn cfg w job n
  ends : RunEnds (max 1 cfg.retryMaxAttempts) (issuedIn cfg w job n) (outcomeOf cfg w job n)
  count : ∀ site, (issuedIn cfg w job n).countP (Issued.isAt site) ≤ max 1 cfg.retryMaxAttempts

theorem runAt_of_accepted {p : JobPayload} (htype : job.jobType = p.jobType)
    (hpayload : job.payload = p.modelDump)
    (hshaped : ∀ (i : Nat) (o : Operation V), o.op.WellShaped (w i o)) (n : Nat) :
    RunAt cfg w job n := by
  obtain ⟨tr, hused, htr, hfrom⟩ :=
    Program.traces_run w (adapted cfg {} (pipeline cfg job)) (issued cfg w job n)
  have hissued : issuedIn cfg w job n = tr := by
    rw [issuedIn, InferenceEngine.issued, hused, List.drop_left]
  have htr : (adapted cfg {} (pipeline cfg job)).Traces tr (outcomeOf cfg w job n) := htr
  have hwell : ∀ x ∈ tr, x.1.op.WellShaped x.2 := by
    intro x hx
    obtain ⟨i, hi⟩ := hfrom x hx
    rw [hi]
    exact hshaped i x.1
  obtain ⟨hends, hcount⟩ := runEnds_of_traces (orderly_pipeline cfg job)
    (straight_pipeline htype hpayload) (.init (lt_max_of_lt_left Nat.one_pos)) htr hwell
  rw [← hissued] at hused hends hcount
  exact ⟨hused, hends, hcount⟩

/-! ### Several runs -/

theorem RunEnds.of_transient {limit : Nat} {ops : List (Issued V)} {o : Except Exn Text}
    (h : RunEnds limit ops o) (ho : isTransient o = true) :
    (∀ x ∈ ops, x.isPermanent = false) ∧ ∃ site, Exhausted limit site ops := by
  cases h with
  | transient msg hperm site h => exact ⟨hperm, site, h⟩
  | success | permanent => cases ho

section
variable {k : Nat} (hrun : ∀ n, RunAt cfg w job n)
include hrun

theorem countP_issued (site : Site) :
    (issued cfg w job k).countP (Issued.isAt site) ≤ k * max 1 cfg.retryMaxAttempts := by
  induction k with
  | zero => exact Nat.zero_le _
  | succ k ih =>
    rw [(hrun k).issued, List.countP_append, Nat.succ_mul]
    exact Nat.add_le_add ih ((hrun k).count site)

/-- Before a run that is repeated nothing failed for good. -/
theorem not_permanent_of_retried (hretried : ∀ i < k, isTransient (outcomeOf cfg w job i) = true) :
    ∀ x ∈ issued cfg w job k, x.isPermanent = false := by
  induction k with
  | zero => exact fun x hx => nomatch hx
  | succ k ih =>
    rw [(hrun k).issued]
    intro x hx
    rcases List.mem_append.mp hx with hx | hx
    · exact ih (fun i hi => hretried i (Nat.lt_succ_of_lt hi)) x hx
    · exact ((hrun k).ends.of_transient (hretried k (Nat.lt_succ_self k))).1 x hx

theorem permanent_is_last (hretried : ∀ i < k, isTransient (outcomeOf cfg w job i) = true)
    {before after : List (Issued V)} {x : Issued V}
    (hsplit : issued cfg w job (k + 1) = before ++ x :: after) (hx : x.isPermanent = true) :
    after = [] := by
  have hbefore := not_permanent_of_retried hrun hretried
  have hmem : x ∈ issued cfg w job (k + 1) :=
    hsplit ▸ List.mem_append_right _ List.mem_cons_self
  have clean : (∀ y ∈ issuedIn cfg w job k, y.isPermanent = false) → after = [] := by
    intro hperm
    rw [(hrun k).issued] at hmem
    rcases List.mem_append.mp hmem with hold | hnew
    · cases (hbefore x hold).symm.trans hx
    · cases (hperm x hnew).symm.trans hx
  have hends := (hrun k).ends
  generalize outcomeOf cfg w job k = o at hends
  cases hends with
  | success ref hperm hleft => exact clean hperm
  | transient msg hperm site h => exact clean hperm
  | permanent msg front last hops hlast hperm =>
    rw [(hrun k).issued, hops, ← List.append_assoc] at hsplit
    rcases List.eq_nil_or_concat after with hnil | ⟨rest, y, rfl⟩
    · exact hnil
    · rw [List.concat_eq_append, ← List.cons_append, ← List.append_assoc] at hsplit
      have hfront := (List.append_inj' hsplit rfl).1
      have hmem : x ∈ issued cfg w job k ++ front :=
        hfront ▸ List.mem_append_right _ List.mem_cons_self
      rcases List.mem_append.mp hmem with hold | hnew
      · cases (hbefore x hold).symm.trans hx
      · cases (hperm x hnew).symm.trans hx

theorem failed_iff (limit : Nat) (hretried : ∀ i < k, isTransient (outcomeOf cfg w job i) = true)
    (hlast : isTransient (outcomeOf cfg w job k) = true → k + 1 = limit) :
    (outcomeOf cfg w job k).isOk = false ↔
      (∃ x ∈ issued cfg w job (k + 1), x.isPermanent = true) ∨
      (k + 1 = limit ∧ ∀ i < k + 1, ∃ site,
        Exhausted (max 1 cfg.retryMaxAttempts) site (issuedIn cfg w job i)) := by
  have hbefore := not_permanent_of_retried hrun hretried
  have hends := (hrun k).ends
  rw [(hrun k).issued]
  constructor
  · intro hfailed
    generalize houtcome : outcomeOf cfg w job k = o at hfailed hends hlast
    cases hends with
    | success ref hperm hleft => cases hfailed
    | transient msg hperm site h =>
      refine .inr ⟨hlast rfl, fun i hi => ?_⟩
      rcases Nat.lt_succ_iff_lt_or_eq.mp hi with hi | rfl
      · exact ((hrun i).ends.of_transient (hretried i hi)).2
      · exact ⟨site, h⟩
    | permanent msg front last hops hfor hperm =>
      refine .inl ⟨last, List.mem_append_right _ ?_, hfor⟩
      rw [hops]
      exact List.mem_append_right _ (List.mem_singleton_self _)
  · intro hcause
    generalize houtcome : outcomeOf cfg w job k = o at hends
    cases hends with
    | success ref hperm hleft =>
      rcases hcause with ⟨x, hx, hpermanent⟩ | ⟨_, hall⟩
      · rcases List.mem_append.mp hx with hx | hx
        · cases (hbefore x hx).symm.trans hpermanent
        · cases (hperm x hx).symm.trans hpermanent
      · obtain ⟨site, hexhausted⟩ := hall k (Nat.lt_succ_self k)
        exact absurd hexhausted (hleft site)
    | transient | permanent => rfl

end

/-! ### The runs of the job in the system -/

/-- The runs of the job so far had the outcomes that `w` leads to. -/
structure Fed (cfg : EngineSettings) (w : Nat → (o : Operation V) → o.Reply) (ms : Nat → Int)
    (id : UUID) (s : Sys) : Prop where
  vacant : s.submissions id = none → (s.jobView id).outcomes = []
  outcomes : ∀ first r, s.submissions id = some (first, r) → (s.jobView id).outcomes =
    (List.range (s.jobView id).outcomes.length).map (lifeOf cfg w ms first)

variable {s s' : Sys} {a : Act} {id : UUID}

theorem Fed.init : Fed cfg w ms id Sys.init where
  vacant := fun _ => rfl
  outcomes := by
    intro first r hsub
    cases hsub

theorem Fed.step (hs : Fed cfg w ms id s) (hcoh : Coherent s) (hprov : Provenance s)
    (ha : FedBy cfg w ms id s a) (h : step cfg.toSettings s a = some s') : Fed cfg w ms id s' := by
  have hkept : ∀ first r, s.submissions id = some (first, r) →
      ∀ first' r', s'.submissions id = some (first', r') → first' = first := by
    intro first r hsub first' r' hsub'
    obtain ⟨r'', hsub''⟩ := submission_of_step hcoh h hsub
    cases hsub'.symm.trans hsub''
    rfl
  rcases outcomes_of_step hcoh h id with hsame | ⟨t, c, name, entry, m, job, rfl, htask, hid, hnew⟩
  · constructor
    · intro hnone
      rw [hsame]
      refine hs.vacant ?_
      by_contra hsome
      obtain ⟨⟨first, r⟩, hsub⟩ := Option.ne_none_iff_exists'.mp hsome
      obtain ⟨r', hsub'⟩ := submission_of_step hcoh h hsub
      cases hnone.symm.trans hsub'
    · intro first r hsub
      rw [hsame]
      cases hold : s.submissions id with
      | none => rw [hs.vacant hold]; rfl
      | some x =>
        obtain ⟨first', r'⟩ := x
        rw [hkept first' r' hold first r hsub]
        exact hs.outcomes first' r' hold
  · have hjob : job.id = id := (hcoh.sound _ _ _ _ _ htask).1.trans hid
    obtain ⟨first, r, hsub, htype, hpayload⟩ := hprov.copies _ _ _ _ _ htask job List.mem_cons_self
    rw [hjob] at hsub
    obtain ⟨r', hsub'⟩ := submission_of_step hcoh h hsub
    have hfirst : first.id = id := hcoh.submitted_id hsub
    have hsame : pipeline (V := V) cfg job = pipeline cfg first :=
      pipeline_congr htype hpayload (hjob.trans hfirst.symm)
    constructor
    · intro hnone
      cases hnone.symm.trans hsub'
    · intro first' r'' hsub''
      obtain rfl := hkept first r hsub first' r'' hsub''
      rw [hnew, ha name entry m job htask hid, lifeOf_congr hsame, List.length_append,
        List.length_singleton, List.range_succ, List.map_append, ← hs.outcomes first' r hsub]
      rfl

theorem Fed.exec {acts : List Act} (h : Reaches cfg.toSettings acts s)
    (hacts : Along (InferenceEngine.step cfg.toSettings) (FedBy cfg w ms id) Sys.init acts) :
    Fed cfg w ms id s := by
  have keep : ∀ s a s', (Coherent s ∧ Provenance s ∧ Fed cfg w ms id s) → FedBy cfg w ms id s a →
      InferenceEngine.step cfg.toSettings s a = some s' →
      Coherent s' ∧ Provenance s' ∧ Fed cfg w ms id s' :=
    fun _ _ _ hs ha h => ⟨hs.1.step h, hs.2.1.step hs.1 h, hs.2.2.step hs.1 hs.2.1 ha h⟩
  exact (invariant keep ⟨.init, .init, .init⟩ hacts h).2.2

/-- A step of a run of the one job, whose pipelines are answered from `w`. -/
structure Single (cfg : EngineSettings) (w : Nat → (o : Operation V) → o.Reply) (ms : Nat → Int)
    (id : UUID) (s : Sys) (a : Act) : Prop where
  alone : Alone id s a
  fed : FedBy cfg w ms id s a

theorem isOk_lifeOf (n : Nat) :
    (lifeOf cfg w ms job n).isOk = (outcomeOf cfg w job n).isOk := by
  unfold lifeOf
  cases outcomeOf cfg w job n <;> rfl

theorem WithinBudget.retried_lifeOf {limit : BrokerSettings} {k : Nat}
    (h : WithinBudget limit ((List.range (k + 1)).map (lifeOf cfg w ms job))) :
    ∀ i < k, isTransient (outcomeOf cfg w job i) = true := by
  intro i hi
  have hlife : isTransient (lifeOf cfg w ms job i) = isTransient (outcomeOf cfg w job i) :=
    isTransient_lifeOf i
  rw [← hlife]
  apply h.retried
  rw [List.range_succ, List.map_append, List.map_singleton, List.dropLast_concat]
  exact List.mem_map_of_mem (List.mem_range.mpr hi)

/-- The two retry budgets compose, and an accepted job fails for cause only: an operation failed for
good, or every run that the broker allows came to a place where no try was left. -/
theorem retry_budgets_compose {acts : List Act} {p : JobPayload} {r : SubmitPoint} {n : Nat}
    (htries : 1 ≤ cfg.retryMaxAttempts)
    (hshaped : ∀ (i : Nat) (o : Operation V), o.op.WellShaped (w i o))
    (h : Reaches cfg.toSettings acts s)
    (hacts : Along (InferenceEngine.step cfg.toSettings) (Single cfg w ms id) Sys.init acts)
    (hsub : s.submissions id = some (job, r)) (htype : job.jobType = p.jobType)
    (hpayload : job.payload = p.modelDump) (hruns : (s.jobView id).outcomes.length = n) :
    (∀ site, (issued cfg w job n).countP (Issued.isAt site) ≤ cfg.budget * cfg.retryMaxAttempts) ∧
    (∀ before x after, issued cfg w job n = before ++ x :: after → x.isPermanent = true →
      after = []) ∧
    (Completed s id → ∃ row, s.rows id = some row ∧
      (row.status = .failed ↔ (∃ x ∈ issued cfg w job n, x.isPermanent = true) ∨
        (n = cfg.budget ∧ ∀ i < cfg.budget, ∃ site,
          Exhausted cfg.retryMaxAttempts site (issuedIn cfg w job i))) ∧
      (row.status ≠ .failed → row.status = .success)) := by
  have hrun : ∀ i, RunAt cfg w job i := runAt_of_accepted htype hpayload hshaped
  have hmax : max 1 cfg.retryMaxAttempts = cfg.retryMaxAttempts := max_eq_right htries
  have hcourse : Course cfg.toSettings id s := .exec h (hacts.mono fun _ _ ha => ha.alone)
  have hfed : Fed cfg w ms id s := .exec h (hacts.mono fun _ _ ha => ha.fed)
  have houtcomes := hfed.outcomes job r hsub
  have hwithin := hcourse.withinBudget
  rw [hruns] at houtcomes
  refine ⟨fun site => ?_, ?_, fun hdone => ?_⟩
  · calc (issued cfg w job n).countP (Issued.isAt site)
        ≤ n * max 1 cfg.retryMaxAttempts := countP_issued hrun site
      _ ≤ cfg.budget * cfg.retryMaxAttempts := by
        rw [hmax]
        exact Nat.mul_le_mul_right _ (hruns ▸ hwithin.length)
  · intro before x after hsplit hx
    cases n with
    | zero => cases before <;> cases hsplit
    | succ k =>
      rw [houtcomes] at hwithin
      exact permanent_is_last hrun hwithin.retried_lifeOf hsplit hx
  · obtain ⟨o, hresolved⟩ := hcourse.resolved hdone
    obtain ⟨row, hrow, hstatus⟩ := hresolved.row
    have hlast := hresolved.last
    have hfinal := hresolved.final
    rw [houtcomes] at hlast hwithin
    rw [hruns] at hfinal
    cases n with
    | zero => cases hlast
    | succ k =>
      rw [List.range_succ, List.map_append, List.map_singleton, List.getLast?_concat] at hlast
      obtain rfl := Option.some.inj hlast
      rw [isTransient_lifeOf] at hfinal
      have hiff := failed_iff hrun cfg.budget hwithin.retried_lifeOf hfinal
      rw [isOk_lifeOf] at hstatus
      rw [hmax] at hiff
      have hcause : ((∃ x ∈ issued cfg w job (k + 1), x.isPermanent = true) ∨
          (k + 1 = cfg.budget ∧ ∀ i < cfg.budget, ∃ site,
            Exhausted cfg.retryMaxAttempts site (issuedIn cfg w job i))) ↔
          (outcomeOf cfg w job k).isOk = false := by
        rw [hiff]
        refine or_congr_right (and_congr_right fun heq => ?_)
        rw [heq]
      refine ⟨row, hrow, ?_, ?_⟩
      · rw [hcause, hstatus]
        cases (outcomeOf cfg w job k).isOk <;> simp
      · rw [hstatus]
        cases (outcomeOf cfg w job k).isOk <;> simp

end

/-! ### A run with retries in both loops -/

def refusal : (op : SdkOp Unit) → op.Error
  | .text _ _ => DdgsError.ddgs []
  | .featureExtraction _ => HfError.other []
  | .upsert _ _ => { status := none, typeName := [], text := [], repr := [] : PineconeError }
  | .query _ _ _ => { status := none, typeName := [], text := [], repr := [] : PineconeError }
  | .textGeneration _ _ => HfError.other []
  | .putObject _ _ _ => BotoError.unexpected []

/-- The search is too slow four times; everything else is refused. -/
def replying (i : Nat) : (op : SdkOp Unit) → Except op.Error op.Result
  | .text _ _ => .error (if i < 4 then DdgsError.timeout [] else DdgsError.ddgs [])
  | op => .error (refusal op)

def refusing (i : Nat) (o : Operation Unit) : o.Reply := replying i o.op

theorem wellShaped_refusing (i : Nat) (o : Operation Unit) : o.op.WellShaped (refusing i o) := by
  obtain ⟨site, op⟩ := o
  cases op with
  | featureExtraction texts =>
    intro x hx
    cases hx
  | _ => trivial

def plainCfg : EngineSettings := { reprs := plainReprs }

def tooSlow : Exn := .transient "ddgs transient: ".toList

def refused : Exn := .permanent "ddgs error: ".toList

/-- The first run of a query uses up the tries of its search; the second is refused at its second
try. -/
theorem lifeOf_refusing {job : InferenceJob} (htype : job.jobType = .ragQuery) {q : Text} {k : Int}
    (hquery : requireStr job.payload "query".toList = .ok q)
    (htopK : optionalInt job.payload "top_k".toList 3 = .ok k) :
    lifeOf plainCfg refusing (fun _ => 0) job 0 = .error tooSlow ∧
      lifeOf plainCfg refusing (fun _ => 0) job 1 = .error refused := by
  have hpipeline : pipeline (V := Unit) plainCfg job = ragQueryRun plainCfg job := by
    unfold pipeline
    rw [htype]
    rfl
  unfold lifeOf outcomeOf issued issued
  rw [hpipeline]
  simp only [ragQueryRun, hquery, htopK]
  exact ⟨rfl, rfl⟩

def whyQuery : JobPayload := .ragQuery ⟨⟨"why".toList, by decide⟩, ⟨5, by decide⟩⟩

def whySubmitted : InferenceJob := .new whyQuery.jobType whyQuery.modelDump 7 0 0

/-- A query is submitted, read and retried; the retry is read and refused. -/
def refusedRun : List Act :=
  boot 0 ++ [submitJob whyQuery 7 0 0] ++ steps (.submission 7) 2 ++ readPass 0 1 ++
    steps (.task 0) 3 ++ [.resume (.task 0) { outcome := .error tooSlow }] ++ steps (.task 0) 5 ++
    readPass 0 1 ++ steps (.task 1) 3 ++ [.resume (.task 1) { outcome := .error refused }] ++
    steps (.task 1) 5

def slowThenRefused (s : Sys) : Act → Bool
  | .resume (.worker name) c => decide (c.fate = .ok) && match s.stageOf name with
    | some (.looping (.check e _)) => decide (e.id ∈ s.inFlightAt name)
    | _ => true
  | .resume (.submission _) c => decide (c.fate = .ok)
  | .resume (.task t) c => decide (c.fate = .ok) && match s.tasks t with
    | some { body := .handling _ (.running job), .. } =>
      decide (job.jobType = .ragQuery) && (requireStr job.payload "query".toList).isOk &&
      (optionalInt job.payload "top_k".toList 3).isOk &&
      match (s.jobView 7).outcomes.length, c.outcome with
        | 0, .error (.transient msg) => decide (msg = "ddgs transient: ".toList)
        | 1, .error (.permanent msg) => decide (msg = "ddgs error: ".toList)
        | _, _ => false
    | _ => true
  | .submit _ _ j _ _ => decide (j = 7)
  | .crash _ | .inject _ _ => false
  | _ => true

theorem slowThenRefused_sound (s : Sys) (a : Act) (h : slowThenRefused s a = true) :
    Single plainCfg refusing (fun _ => 0) 7 s a := by
  cases a with
  | resume who c =>
    cases who with
    | submission j =>
      have hfate : c.fate = .ok := of_decide_eq_true h
      exact ⟨⟨hfate, by simp, by simp, by simp⟩, trivial⟩
    | worker name =>
      obtain ⟨hfate, hstage⟩ := (Bool.and_eq_true _ _).mp h
      have hfate : c.fate = .ok := of_decide_eq_true hfate
      refine ⟨⟨hfate, by simp, by simp, ?_⟩, trivial⟩
      rintro _ _ ⟨⟩ e rest hcheck
      simpa only [hcheck, decide_eq_true_eq] using hstage
    | task t =>
      obtain ⟨hfate, hrun⟩ := (Bool.and_eq_true _ _).mp h
      have hfate : c.fate = .ok := of_decide_eq_true hfate
      refine ⟨⟨hfate, by simp, by simp, by simp⟩, ?_⟩
      intro name entry m job htask hid
      simp only [htask, Bool.and_eq_true, decide_eq_true_eq] at hrun
      obtain ⟨⟨⟨htype, hquery⟩, htopK⟩, hout⟩ := hrun
      cases hq : requireStr job.payload "query".toList with
      | error x =>
        rw [hq] at hquery
        cases hquery
      | ok q =>
        cases hk : optionalInt job.payload "top_k".toList 3 with
        | error x =>
          rw [hk] at htopK
          cases htopK
        | ok k =>
          obtain ⟨hslow, hrefused⟩ := lifeOf_refusing htype hq hk
          split at hout
          · rename_i msg hlength heq
            rw [hlength, heq, hslow, of_decide_eq_true hout]
            rfl
          · rename_i msg hlength heq
            rw [hlength, heq, hrefused, of_decide_eq_true hout]
            rfl
          · cases hout
  | submit ty payload j created updated =>
    refine ⟨⟨trivial, by simp, ?_, by simp⟩, trivial⟩
    rintro _ _ _ _ _ ⟨⟩
    exact of_decide_eq_true h
  | start | pass | reap => exact ⟨⟨trivial, by simp, by simp, by simp⟩, trivial⟩
  | crash | inject => cases h

theorem retry_budgets_compose_refused : ∃ s row, Reaches {} refusedRun s ∧ Completed s 7 ∧
    (s.jobView 7).outcomes.length = 2 ∧ (issued plainCfg refusing whySubmitted 2).length = 5 ∧
    s.rows 7 = some row ∧ row.status = .failed := by
  obtain ⟨s, hs, hview⟩ := exec_of_map (step {}) Sys.init refusedRun
    (fun s => (s.submissions 7, (s.jobView 7).outcomes.length, s.tasks 0, s.tasks 1,
      (s.log.filterMap Event.appendedEntry).map fun e => (e.id, messageFor 7 e.fields)))
    (some (whySubmitted, .finished (.ok 7)), 2,
      some ⟨0, 1, .handling (.firstDelivery whySubmitted) (.finished (.ok ()))⟩,
      some ⟨0, 2, .handling (JobMessage.firstDelivery whySubmitted).nextAttempt (.finished (.ok ()))⟩,
      [(1, some (.firstDelivery whySubmitted)),
       (2, some (JobMessage.firstDelivery whySubmitted).nextAttempt)]) (by rfl)
  obtain ⟨hsub, hview⟩ := Prod.mk.inj hview
  obtain ⟨hruns, hview⟩ := Prod.mk.inj hview
  obtain ⟨hfirst, hview⟩ := Prod.mk.inj hview
  obtain ⟨hsecond, hlog⟩ := Prod.mk.inj hview
  have hdone : Completed s 7 := by
    refine ⟨⟨_, _, hsub⟩, fun who e m he hm => ?_⟩
    have hmem : (e.id, messageFor 7 e.fields) ∈
        (s.log.filterMap Event.appendedEntry).map fun e => (e.id, messageFor 7 e.fields) :=
      List.mem_map_of_mem (List.mem_filterMap.mpr ⟨_, he, rfl⟩)
    rw [hlog] at hmem
    rcases List.mem_cons.mp hmem with hmem | hmem
    · obtain ⟨hid, hmessage⟩ := Prod.mk.inj hmem
      rw [hmessage] at hm
      obtain rfl := Option.some.inj hm
      exact ⟨0, 0, .ok (), hid ▸ hfirst⟩
    · obtain ⟨hid, hmessage⟩ := Prod.mk.inj (List.mem_singleton.mp hmem)
      rw [hmessage] at hm
      obtain rfl := Option.some.inj hm
      exact ⟨1, 0, .ok (), hid ▸ hsecond⟩
  have halong : Along (step {}) (Single plainCfg refusing (fun _ => 0) 7) Sys.init refusedRun :=
    .of_check slowThenRefused_sound (by decide +kernel)
  have htries : 1 ≤ plainCfg.retryMaxAttempts := by decide
  have htype : whySubmitted.jobType = whyQuery.jobType := rfl
  obtain ⟨_, _, hend⟩ :=
    retry_budgets_compose htries wellShaped_refusing hs halong hsub htype rfl hruns
  obtain ⟨row, hrow, hiff, _⟩ := hend hdone
  let slow : Issued Unit := ⟨⟨.search, .text "why".toList 10⟩, .error (.timeout [])⟩
  let last : Issued Unit := ⟨⟨.search, .text "why".toList 10⟩, .error (.ddgs [])⟩
  have hissued : issued plainCfg refusing whySubmitted 2 = [slow, slow, slow, slow, last] := rfl
  have hlast : last ∈ issued plainCfg refusing whySubmitted 2 :=
    hissued ▸ List.mem_append_right [slow, slow, slow, slow] (List.mem_singleton_self _)
  exact ⟨s, row, hs, hdone, hruns, congrArg List.length hissued, hrow,
    hiff.mpr (.inl ⟨last, hlast, rfl⟩)⟩

end InferenceEngine
