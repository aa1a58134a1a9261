import InferenceEngine.Uncut

/-!
# One job on its own

A run of one job without crash, error and takeover is a calm run, but for two things: the job may
be submitted before the group is there, and an append may cut off the stream. Seen from the job
nothing was cut off that was not read, unless its last entry was lost, and then nothing happens
any more.
-/

namespace InferenceEngine

set_option autoImplicit false

/-- The step belongs to a run of the one job, without crash, error and takeover. -/
structure Alone (id : UUID) (s : Sys) (a : Act) : Prop where
  calls : a.NoFault
  own : ∀ fields trim, a ≠ .inject fields trim
  sole : ∀ ty payload j created updated, a = .submit ty payload j created updated → j = id
  takeover : ∀ name c, a = .resume (.worker name) c → ∀ e rest,
    s.stageOf name = some (.looping (.check e rest)) → e.id ∈ s.inFlightAt name

/-- The submission has ended, and every entry that was appended for the job has a handler that
has ended. -/
structure Completed (s : Sys) (id : UUID) : Prop where
  submitted : ∃ job outcome, s.submissions id = some (job, .finished outcome)
  handled : ∀ who e m, .appended who e ∈ s.log → messageFor id e.fields = some m →
    ∃ t name outcome, s.tasks t = some ⟨name, e.id, .handling m (.finished outcome)⟩

/-- A run of the pipeline follows a transient outcome only, and the budget allows it. -/
structure WithinBudget (cfg : BrokerSettings) (outcomes : List (Except Exn (Text × Int))) : Prop where
  length : outcomes.length ≤ cfg.budget
  retried : ∀ o ∈ outcomes.dropLast, isTransient o = true

/-- The row shows the last outcome, which no other run follows. -/
structure Resolved (cfg : BrokerSettings) (s : Sys) (id : UUID) (o : Except Exn (Text × Int)) :
    Prop where
  last : (s.jobView id).outcomes.getLast? = some o
  final : isTransient o = true → (s.jobView id).outcomes.length = cfg.budget
  row : ∃ row, s.rows id = some row ∧ row.status = if o.isOk then .success else .failed

section
variable {cfg : Settings} {s s' : Sys} {a : Act} {id : UUID}

/-! ### In a calm run -/

theorem TaskPoint.At.le_length {cfg : BrokerSettings} {n : Nat} {v : JobRecord} {p : TaskPoint}
    {acked : Bool} (hp : p.At cfg n v acked) : v.outcomes.length ≤ n + 1 := by
  cases p with
  | skipAck | retryAck => exact hp.elim
  | successAck => exact hp.2.1.le
  | release outcome | finished outcome =>
    cases hp.1 with
    | success row hrow h houtcomes hletters => exact houtcomes.le
    | failed row hrow h herror hgives houtcomes hletters => exact houtcomes.le
  | _ =>
    have hlength := hp.1.outcomes
    omega

theorem JobView.Travels.withinBudget {cfg : BrokerSettings} {v : JobView}
    {past : List (Nat × JobMessage)} {last : Nat × JobMessage} (hv : v.Travels cfg id past last) :
    WithinBudget cfg v.outcomes := by
  have hlength : v.outcomes.length ≤ past.length + 1 := by
    rcases hv.current with ⟨hcounts, _⟩ | ⟨t, h, _, _, hat⟩
    · rw [hcounts.outcomes]
      exact Nat.le_succ _
    · exact hat.le_length
  refine ⟨hlength.trans hv.within, fun o ho => hv.transients o ?_⟩
  rw [List.dropLast_eq_take] at ho
  exact (List.take_prefix_take_left (by omega)).subset ho

theorem JobView.Unpublished.withinBudget {cfg : BrokerSettings} {v : JobView}
    (hv : v.Unpublished) : WithinBudget cfg v.outcomes := by
  rw [hv.outcomes]
  exact ⟨Nat.zero_le _, nofun⟩

theorem Steady.withinBudget (hs : Steady cfg s) (id : UUID) :
    WithinBudget cfg.toBrokerSettings (s.jobView id).outcomes := by
  cases hs.journeys id with
  | absent _ _ hempty | adding _ _ _ _ _ hempty | publishing _ _ _ _ _ _ hempty =>
    exact hempty.withinBudget
  | travels job hsub past last hv => exact hv.withinBudget

theorem Steady.over (hs : Steady cfg s) (hdone : Completed s id) : Over s id where
  submitted := hdone.submitted
  handled := by
    intro e he m hm
    rw [← hs.ledger.appended] at he
    obtain ⟨ev, hev, hentry⟩ := List.mem_filterMap.mp he
    cases ev <;> cases hentry
    exact hdone.handled _ e m hev hm

theorem Steady.resolved (hs : Steady cfg s) (hdone : Completed s id) :
    ∃ o, Resolved cfg.toBrokerSettings s id o := by
  have hover := hs.over hdone
  obtain ⟨job, outcome, hsub⟩ := hover.submitted
  cases hs.journeys id with
  | absent hsub' | adding job' hsub' | publishing job' left hsub' => cases hsub.symm.trans hsub'
  | travels job' hsub' past last hv =>
    have hlast : last ∈ (s.jobView id).messages :=
      hv.messages ▸ List.mem_append_right _ (List.mem_singleton_self _)
    obtain ⟨t, outcome, ht⟩ := hover.handling hlast
    rcases hv.handled_cases ht with ⟨_, _, hat⟩ | ⟨hpast, _⟩
    · obtain ⟨row, o, hrow, _, ho, hlength, hbudget, hrecorded⟩ := hat.1.recorded
      refine ⟨o, ?_, fun htransient => ?_, row, hrow, ?_⟩
      · rw [List.getLast?_eq_getElem?, hlength]
        exact ho
      · exact hlength.trans (Nat.le_antisymm hv.within (hbudget htransient))
      · cases o with
        | ok x => exact hrecorded.1
        | error x => exact hrecorded.1
    · exact absurd rfl (hv.past_ne_last hpast)

/-! ### A lost entry -/

/-- The handler has only its entry left to acknowledge, or not even that. -/
def TaskPoint.Leaving : TaskPoint → Prop
  | .retryAck | .release _ | .finished _ => True
  | _ => False

/-- The last entry of the job will not be read, and nothing else is left to do. -/
structure Lost (id : UUID) (s : Sys) : Prop where
  idle : ∀ name p, s.stageOf name = some (.looping p) → p.newEntries = [] ∧ p.takesOver = false
  tasks : ∀ t τ, s.tasks t = some τ → ∃ m p, τ.body = .handling m p ∧ p.Leaving
  read : s.redis.group ≠ none → ∀ e ∈ s.redis.work.entries, s.redis.passed e.id = true
  ended : ∀ j job p, s.submissions j = some (job, p) → ∃ outcome, p = .finished outcome
  submitted : s.submissions id ≠ none
  entry : ∃ who e m, .appended who e ∈ s.log ∧ messageFor id e.fields = some m ∧
    ∀ t τ, s.tasks t = some τ → τ.entry ≠ e.id

theorem TaskPoint.Leaving.next {cfg : BrokerSettings} {n : Nat} {m : JobMessage} {p : TaskPoint}
    {e : Effect} {k : e.Reply → TaskPoint} (hp : p.Leaving) (hnode : p.node cfg n m = .await e k)
    (r : e.Reply) : (k r).Leaving ∧ ((∃ i, e = .xack i) ∨ ∃ i, e = .discard i) := by
  cases p with
  | retryAck =>
    cases hnode
    exact ⟨trivial, .inl ⟨_, rfl⟩⟩
  | release outcome =>
    cases hnode
    exact ⟨trivial, .inr ⟨_, rfl⟩⟩
  | finished outcome => cases hnode
  | _ => exact hp.elim

namespace Lost

theorem looping (hs : Lost id s) {name : ConsumerName} {c : Choice} {p : PassPoint} {e : Effect}
    {k : e.Reply → PassPoint} {r : e.Reply} {s₁ : Sys} (ha : Alone id s (.resume (.worker name) c))
    (hstage : s.stageOf name = some (.looping p))
    (hnode : p.node cfg.toBrokerSettings = .await e k)
    (hperf : s.perform cfg (.worker name) c e = some (r, s₁)) :
    ((k r).newEntries = [] ∧ (k r).takesOver = false) ∧ s₁.tasks = s.tasks ∧
      s₁.redis.work = s.redis.work := by
  obtain ⟨hempty, howner⟩ := hs.idle name p hstage
  have hmine : ∀ x rest, p = .check x rest → x.id ∈ s.inFlightAt name :=
    fun x rest hp => ha.takeover name c rfl x rest (hp ▸ hstage)
  obtain ⟨howner', ⟨_, hnew, htasks, hwork, _⟩ | ⟨n, g, _, hg, rfl, hnew⟩ |
    ⟨x, rest, hx, _⟩⟩ := PassPoint.newEntries_next ha.calls hmine howner hnode hperf
  · exact ⟨⟨hnew, howner'⟩, htasks, hwork⟩
  · have hunread : g.unread s.redis.work = [] := by
      refine List.filter_eq_nil_iff.mpr fun x hx => ?_
      have hread := hs.read (hg ▸ Option.some_ne_none g) x hx
      simpa [Redis.passed, hg] using hread
    rw [hunread, List.take_nil] at hnew
    exact ⟨⟨hnew, howner'⟩, rfl, rfl⟩
  · cases hempty.symm.trans hx

theorem work_eq (hs : Lost id s) (ha : Alone id s a) (h : step cfg s a = some s') :
    s'.redis.work = s.redis.work := by
  cases Sys.step_cases h with
  | submission j c job p e k r s₁ hsub hnode hperf =>
    obtain ⟨outcome, rfl⟩ := hs.ended j job p hsub
    cases hnode
  | starting name c w p e k r s₁ hw hstage hnode hperf =>
    rcases (Sys.perform_change hperf).stream with ⟨hwork, _⟩ | ⟨fields, rfl, _⟩
    · exact hwork
    · cases p <;> cases hnode
  | looping name c w p e k r s₁ hw hstage hnode hperf =>
    have hlooping : s.stageOf name = some (.looping p) := by
      rw [Sys.stageOf, hw, Option.map_some, hstage]
    exact (hs.looping ha hlooping hnode hperf).2.2
  | task t c name n m p w q e k r s₁ htask hw hstage hnode hperf =>
    obtain ⟨m', p', hbody, hp⟩ := hs.tasks t _ htask
    cases hbody
    rcases (Sys.perform_change hperf).stream with ⟨hwork, _⟩ | ⟨fields, rfl, _⟩
    · exact hwork
    · rcases (hp.next hnode (.error (.other [] []))).2 with ⟨_, he⟩ | ⟨_, he⟩ <;> cases he
  | inject fields trim htrim => exact absurd rfl (ha.own fields trim)
  | _ => rfl

theorem task_of_step (hs : Lost id s) (h : step cfg s a = some s') {t : Nat} {τ : Task}
    (htask : s'.tasks t = some τ) :
    ∃ τ₀, s.tasks t = some τ₀ ∧ τ₀.entry = τ.entry ∧ ∃ m p, τ.body = .handling m p ∧ p.Leaving := by
  rcases step_tasks h with ⟨hr, _⟩ | ⟨name, c, w, p, e, _, hw, hstage, hdispatch, _⟩ |
    ⟨u, c, name, n, m, p, e, k, r, s₁, _, hu, hnode, _, _, hr⟩
  · rw [hr] at htask
    exact ⟨τ, htask, rfl, hs.tasks t τ htask⟩
  · have hlooping : s.stageOf name = some (.looping p) := by
      rw [Sys.stageOf, hw, Option.map_some, hstage]
    obtain ⟨hempty, howner⟩ := hs.idle name p hlooping
    cases p with
    | dispatchNew x rest total => cases hempty
    | dispatchClaimed x rest => cases howner
    | _ => cases hdispatch
  · rw [hr, Function.update_apply] at htask
    split at htask
    · rename_i htu
      subst htu
      obtain rfl := Option.some.inj htask
      obtain ⟨m', p', hbody, hp⟩ := hs.tasks t _ hu
      cases hbody
      exact ⟨_, hu, rfl, m, k r, rfl, (hp.next hnode r).1⟩
    · exact ⟨τ, htask, rfl, hs.tasks t τ htask⟩

theorem step (hreg : Regular cfg s) (hs : Lost id s) (ha : Alone id s a)
    (h : InferenceEngine.step cfg s a = some s') : Lost id s' where
  idle := by
    intro name p hstage
    rcases step_stage h name with hsame | ⟨_, _, hnew⟩ | ⟨_, _, hnew⟩ |
      ⟨_, _, _, _, _, _, _, _, _, _, _, hnew⟩ |
      ⟨c, q, e, k, r, s₁, rfl, hold, hnode, hperf, _, hnew⟩ | ⟨_, hnew⟩
    · exact hs.idle name p (hsame ▸ hstage)
    · cases hnew.symm.trans hstage
    · cases hnew.symm.trans hstage
      exact ⟨rfl, rfl⟩
    · cases hnew.symm.trans hstage
    · cases hnew.symm.trans hstage
      exact (hs.looping ha hold hnode hperf).1
    · cases hnew.symm.trans hstage
  tasks := by
    intro t τ htask
    obtain ⟨_, _, _, hleaving⟩ := hs.task_of_step h htask
    exact hleaving
  read := by
    intro hsome x hx
    rw [hs.work_eq ha h] at hx
    by_cases hnone : s.redis.group = none
    · have hle := hreg.retained.window.num_le hx
      rcases step_group h with hsame | ⟨_, _, _, _, _, _, _, _, hredis, _⟩ | ⟨_, _, g, hg, _⟩
      · rw [hnone] at hsame
        exact absurd (Option.map_eq_none_iff.mp hsame) hsome
      · rw [hredis]
        exact decide_eq_true hle
      · cases hnone.symm.trans hg
    · exact passed_of_step h (hs.read hnone x hx)
  ended := by
    intro j job p hsub
    rcases step_submission hreg.coherent h j with hsame | ⟨_, _, _, _, ha', hnone, _⟩ |
      ⟨_, job', p', e, k, r, s₁, _, hold, hnode, _⟩
    · exact hs.ended j job p (hsame ▸ hsub)
    · exact absurd (ha.sole _ _ _ _ _ ha' ▸ hnone) hs.submitted
    · obtain ⟨outcome, rfl⟩ := hs.ended j job' p' hold
      cases hnode
  submitted := by
    obtain ⟨⟨job, p⟩, hsub⟩ := Option.ne_none_iff_exists'.mp hs.submitted
    rcases step_submission hreg.coherent h id with hsame | ⟨_, _, _, _, _, _, hnew⟩ |
      ⟨_, _, _, _, _, _, _, _, _, _, _, _, hnew⟩
    · exact hsame ▸ hs.submitted
    · exact hnew ▸ Option.some_ne_none _
    · exact hnew ▸ Option.some_ne_none _
  entry := by
    obtain ⟨who, e, m, hlog, hm, hfree⟩ := hs.entry
    refine ⟨who, e, m, log_mem_of_step h hlog, hm, fun t τ htask => ?_⟩
    obtain ⟨τ₀, hτ₀, hentry, _⟩ := hs.task_of_step h htask
    exact hentry ▸ hfree t τ₀ hτ₀

theorem outcomes_eq (hreg : Regular cfg s) (hs : Lost id s)
    (h : InferenceEngine.step cfg s a = some s') (j : UUID) :
    (s'.jobView j).outcomes = (s.jobView j).outcomes := by
  rcases outcomes_of_step hreg.coherent h j with hsame | ⟨t, c, name, n, m, job, _, htask, _⟩
  · exact hsame
  · obtain ⟨m', p', hbody, hp⟩ := hs.tasks t _ htask
    cases hbody
    exact hp.elim

theorem not_completed (hs : Lost id s) : ¬ Completed s id := by
  intro hdone
  obtain ⟨who, e, m, hlog, hm, hfree⟩ := hs.entry
  obtain ⟨t, name, outcome, htask⟩ := hdone.handled who e m hlog hm
  exact hfree t _ htask rfl

end Lost

/-! ### Before the publication -/

/-- The job has not been published. -/
inductive Early (id : UUID) (s : Sys) : Prop
  | absent (hsubs : s.submissions = fun _ => none) (hrows : s.rows = fun _ => none)
  | adding (ty : JobType) (payload : List (Text × Json)) (created updated : Time)
      (hsubs : s.submissions =
        Function.update (fun _ => none) id (some (.new ty payload id created updated, .adding)))
      (hrows : s.rows = fun _ => none)
  | publishing (ty : JobType) (payload : List (Text × Json)) (created updated : Time) (left : Nat)
      (hsubs : s.submissions = Function.update (fun _ => none) id
        (some (.new ty payload id created updated, .publishing left)))
      (hrows : s.rows = Function.update (fun _ => none) id (some (.new ty payload id created updated)))

theorem Early.congr (hs : Early id s) (hsubs : s'.submissions = s.submissions)
    (hrows : s'.rows = s.rows) : Early id s' := by
  cases hs with
  | absent h h' => exact .absent (hsubs.trans h) (hrows.trans h')
  | adding ty payload created updated h h' =>
    exact .adding ty payload created updated (hsubs.trans h) (hrows.trans h')
  | publishing ty payload created updated left h h' =>
    exact .publishing ty payload created updated left (hsubs.trans h) (hrows.trans h')

theorem Early.others (hs : Early id s) {j : UUID} (hj : j ≠ id) : s.submissions j = none := by
  cases hs with
  | absent hsubs => rw [hsubs]
  | adding ty payload created updated hsubs | publishing ty payload created updated left hsubs =>
    rw [hsubs, Function.update_of_ne hj]

theorem Steady.submitted_of_message (hs : Steady cfg s) {e : StreamEntry}
    (he : e ∈ s.redis.work.entries) {m : JobMessage} (hm : JobMessage.fromFields e.fields = .ok m) :
    s.submissions m.jobId ≠ none := by
  have hmem : (e.id, m) ∈ (s.jobView m.jobId).messages :=
    mem_messagesFor.mpr ⟨e, he, rfl, hm, rfl⟩
  cases hs.journeys m.jobId with
  | absent _ _ hempty =>
    rw [hempty.messages] at hmem
    cases hmem
  | adding job hsub | publishing job left hsub | travels job hsub =>
    exact fun hnone => Option.some_ne_none _ (hsub.symm.trans hnone)

theorem Steady.vacant (hs : Steady cfg s) (hsubs : ∀ j, s.submissions j = none) :
    s.redis.work.entries = [] ∧ (∀ t, s.tasks t = none) ∧ ∀ name, s.newAt name = [] := by
  have hentries : s.redis.work.entries = [] := by
    refine List.eq_nil_iff_forall_not_mem.mpr fun e he => ?_
    obtain ⟨m, hm⟩ := hs.custody.decoded e he
    exact hs.submitted_of_message he hm (hsubs m.jobId)
  refine ⟨hentries, fun t => ?_, fun name => ?_⟩
  · by_contra hsome
    obtain ⟨τ, hτ⟩ := Option.ne_none_iff_exists'.mp hsome
    obtain ⟨e, he, _⟩ := hs.custody.tasks t τ hτ
    rw [hentries] at he
    cases he
  · refine List.eq_nil_iff_forall_not_mem.mpr fun e he => ?_
    have hmem := (hs.custody.listed name e he).1
    rw [hentries] at hmem
    cases hmem

theorem Early.published (hs : Steady cfg s.forget) (hgroup : s.redis.group ≠ none) {ty : JobType}
    {payload : List (Text × Json)} {created updated : Time} {left : Nat} {job : InferenceJob}
    (hjob : job = .new ty payload id created updated)
    (hsubs : s.submissions = Function.update (fun _ => none) id (some (job, .publishing left)))
    (hrows : s.rows = Function.update (fun _ => none) id (some job)) :
    Steady cfg ((s.appendWork (some (.submission id)) (JobMessage.firstDelivery job).toFields
      0).setSubmission job (.finished (.ok id))) := by
  have hid : job.id = id := by rw [hjob]; rfl
  let s₁ := s.forget.setSubmission job .adding
  have h₁ : step cfg s.forget (.submit ty payload id created updated) = some s₁ := by
    show some (s.forget.setSubmission (.new ty payload id created updated) .adding) = _
    rw [← hjob]
  have hopen : Calm s.forget (.submit ty payload id created updated) :=
    ⟨trivial, rfl, by simp, fun _ _ _ _ _ _ => hgroup, by simp⟩
  have hs₁ : Steady cfg s₁ := hs.step hopen h₁
  let s₂ : Sys := { s₁ with rows := Function.update s₁.rows job.id (some job) }.setSubmission job
    (.publishing (cfg.retryMaxAttempts - 1))
  have hsub₁ : s₁.submissions id = some (job, .adding) := hid ▸ Function.update_self ..
  have hs₂ : Steady cfg s₂ := hs₁.step calm_submission (step_adds cfg hsub₁ rfl)
  have hsub₂ : s₂.submissions id = some (job, .publishing (cfg.retryMaxAttempts - 1)) :=
    hid ▸ Function.update_self ..
  have hs₃ := hs₂.step calm_submission (step_publishes cfg hsub₂)
  have hsame : (s₂.appendWork (some (.submission id)) (JobMessage.firstDelivery job).toFields
      0).setSubmission job (.finished (.ok job.id)) =
      (s.appendWork (some (.submission id)) (JobMessage.firstDelivery job).toFields
        0).setSubmission job (.finished (.ok id)) := by
    simp only [s₂, s₁, Sys.setSubmission, Sys.appendWork, Sys.forget, hid, Function.update_idem,
      hsubs, hrows]
  exact hsame ▸ hs₃

/-! ### The course of the run -/

/-- The job was published, and seen from it nothing was cut off that was not read. -/
structure Late (cfg : Settings) (id : UUID) (s : Sys) : Prop where
  others : ∀ j, j ≠ id → s.submissions j = none
  ended : ∃ job outcome, s.submissions id = some (job, .finished outcome)
  uncut : ∃ cut dlq g, Uncut s cut g ∧ Steady cfg (s.uncut cut dlq g)

inductive Course (cfg : Settings) (id : UUID) (s : Sys) : Prop
  | early (h : Early id s) (hs : Steady cfg s.forget)
  | late (h : Late cfg id s)
  | lost (h : Lost id s) (hruns : WithinBudget cfg.toBrokerSettings (s.jobView id).outcomes)

theorem Early.of_worker (hs : Early id s) (hsteady : Steady cfg s.forget) {a₀ : Act}
    (hcalm : Calm s.forget a₀) (h : step cfg s.forget a₀ = some s'.forget)
    (hsubs : s'.submissions = s.submissions) (hrows : s'.rows = s.rows) : Course cfg id s' :=
  .early (hs.congr hsubs hrows) (hsteady.step hcalm h)

theorem Early.lost (hsteady : Steady cfg s.forget) {job : InferenceJob} {c : Choice}
    (hothers : ∀ j, j ≠ id → s.submissions j = none) (hid : job.id = id)
    (hgone : s.redis.group = none ∨ 0 < c.trim) :
    Lost id ((s.appendWork (some (.submission id)) (JobMessage.firstDelivery job).toFields
      c.trim).setSubmission job (.finished (.ok id))) := by
  obtain ⟨hentries, htasks, hnew⟩ := hsteady.vacant fun _ => rfl
  have htasks : ∀ t, s.tasks t = none := htasks
  have hentries : s.redis.work.entries = [] := hentries
  refine ⟨fun name p hstage => ⟨?_, hsteady.undisturbed.owners name p hstage⟩, ?_, ?_, ?_, ?_, ?_⟩
  · have hforget : s.forget.stageOf name = some (.looping p) := hstage
    rw [← Sys.newAt_of_looping hforget]
    exact hnew name
  · intro t τ htask
    cases (htasks t).symm.trans htask
  · intro hsome x hx
    rcases hgone with hnone | htrim
    · exact absurd hnone hsome
    · have hx : x ∈ (s.redis.work.entries ++ [Sys.nextEntry s.redis.work
          (JobMessage.firstDelivery job).toFields]).drop c.trim := hx
      rw [hentries, List.nil_append, List.drop_of_length_le (Nat.succ_le_of_lt htrim)] at hx
      cases hx
  · intro j job' p hsub
    by_cases hj : j = job.id
    · subst hj
      rw [Sys.setSubmission_submissions, Function.update_self] at hsub
      cases hsub
      exact ⟨_, rfl⟩
    · rw [Sys.setSubmission_submissions, Function.update_of_ne hj] at hsub
      cases (hothers j (hid ▸ hj)).symm.trans hsub
  · rw [Sys.setSubmission_submissions, hid, Function.update_self]
    exact Option.some_ne_none _
  · refine ⟨some (.submission id), Sys.nextEntry s.redis.work (JobMessage.firstDelivery job).toFields,
      .firstDelivery job, List.mem_append_right _ (List.mem_singleton_self _), ?_, ?_⟩
    · exact (messageFor_toFields _).trans (if_pos hid)
    · intro t τ htask
      cases (htasks t).symm.trans htask

theorem publish_course (hsteady : Steady cfg s.forget) (hothers : ∀ j, j ≠ id → s.submissions j = none)
    {ty : JobType} {payload : List (Text × Json)} {created updated : Time} {left : Nat} {c : Choice}
    {job : InferenceJob} (hjob : job = .new ty payload id created updated)
    (hsubs : s.submissions = Function.update (fun _ => none) id (some (job, .publishing left)))
    (hrows : s.rows = Function.update (fun _ => none) id (some job)) :
    Course cfg id ((s.appendWork (some (.submission id)) (JobMessage.firstDelivery job).toFields
      c.trim).setSubmission job (.finished (.ok id))) := by
  have hid : job.id = id := by rw [hjob]; rfl
  by_cases hgone : s.redis.group = none ∨ 0 < c.trim
  · refine .lost (Early.lost hsteady hothers hid hgone) ?_
    have hruns := hsteady.withinBudget id
    have hsame : (((s.appendWork (some (.submission id)) (JobMessage.firstDelivery job).toFields
        c.trim).setSubmission job (.finished (.ok id))).jobView id).outcomes =
        (s.forget.jobView id).outcomes := by
      simp [Sys.jobView, Sys.appendWork, Event.outcomeFor, Sys.forget]
    rwa [hsame]
  · obtain ⟨hgroup, htrim⟩ := not_or.mp hgone
    obtain ⟨g, hg⟩ := Option.ne_none_iff_exists'.mp hgroup
    have hpublished := Early.published hsteady hgroup hjob hsubs hrows
    rw [Nat.eq_zero_of_not_pos htrim]
    refine .late ⟨fun j hj => ?_, ⟨job, .ok id, ?_⟩, [], s.redis.dlq.entries, g,
      ⟨⟨g, hg, rfl, fun _ h => h⟩, by simp⟩, hpublished.uncut_nil hg⟩
    · rw [Sys.setSubmission_submissions, Function.update_of_ne (hid ▸ hj)]
      exact hothers j hj
    · rw [Sys.setSubmission_submissions, hid, Function.update_self]

theorem Early.step (hs : Early id s) (hsteady : Steady cfg s.forget) (ha : Alone id s a)
    (h : step cfg s a = some s') : Course cfg id s' := by
  cases Sys.step_cases h with
  | submit ty payload j created updated hfresh =>
    obtain rfl := ha.sole ty payload j created updated rfl
    cases hs with
    | absent hsubs hrows =>
      refine .early (.adding ty payload created updated ?_ hrows) hsteady
      rw [Sys.setSubmission_submissions, hsubs]
      rfl
    | adding _ _ _ _ hsubs | publishing _ _ _ _ _ hsubs =>
      rw [hsubs, Function.update_self] at hfresh
      cases hfresh
  | start name hfresh =>
    exact hs.of_worker hsteady calm_start (Sys.Stepped.start (s := s.forget) name hfresh).step rfl rfl
  | pass name w hw hstage =>
    exact hs.of_worker hsteady calm_pass (Sys.Stepped.pass (s := s.forget) name w hw hstage).step
      rfl rfl
  | submission j c job p e k r s₁ hsub hnode hperf =>
    have hfate : c.fate = .ok := ha.calls
    obtain rfl : j = id := by
      by_contra hj
      cases (hs.others hj).symm.trans hsub
    have hothers : ∀ i, i ≠ j → s.submissions i = none := fun i hi => hs.others hi
    cases hs with
    | absent hsubs =>
      rw [hsubs] at hsub
      cases hsub
    | adding ty payload created updated hsubs hrows =>
      rw [hsubs, Function.update_self] at hsub
      cases hsub
      cases hnode
      simp only [Sys.perform, Choice.reply, hfate, Sys.insertRow, hrows] at hperf
      obtain ⟨rfl, rfl⟩ := hperf
      refine .early (.publishing ty payload created updated (cfg.retryMaxAttempts - 1) ?_ rfl) hsteady
      rw [Sys.setSubmission_submissions]
      simp only [hsubs]
      exact Function.update_idem ..
    | publishing ty payload created updated left hsubs hrows =>
      rw [hsubs, Function.update_self] at hsub
      cases hsub
      cases hnode
      simp only [Sys.perform, Choice.reply, hfate] at hperf
      split at hperf
      · obtain ⟨rfl, rfl⟩ := hperf
        exact publish_course hsteady hothers rfl hsubs hrows
      · cases hperf
  | starting name c w p e k r s₁ hw hstage hnode hperf =>
    cases p <;> cases hnode
    have hperf' := Sys.perform_forget cfg s (.worker name) ha.calls
      (e := .xgroupCreate) rfl (by simp)
    rw [hperf] at hperf'
    have hcalm : Calm s.forget (.resume (.worker name) { c with trim := 0 }) := by
      refine calm_worker ha.calls rfl fun x rest hcheck => ?_
      rw [Sys.stageOf, show s.forget.workers name = some w from hw, Option.map_some, hstage] at hcheck
      cases hcheck
    have hstep := (Sys.Stepped.starting (s := s.forget) name _ w _ _ _ r s₁.forget hw hstage rfl
      hperf').step
    have hrows : s₁.rows = s.rows := Sys.rows_of_perform rfl hperf
    exact hs.of_worker hsteady hcalm hstep (Sys.perform_change hperf).submissions hrows
  | looping name c w p e k r s₁ hw hstage hnode hperf =>
    have hlooping : s.stageOf name = some (.looping p) := by
      rw [Sys.stageOf, hw, Option.map_some, hstage]
    obtain ⟨honRows, _, hadds⟩ :=
      PassPoint.effect_of_node (hsteady.undisturbed.owners name p hlooping) hnode
    have hperf' := Sys.perform_forget cfg s (.worker name) ha.calls honRows hadds
    rw [hperf] at hperf'
    have hcalm : Calm s.forget (.resume (.worker name) { c with trim := 0 }) :=
      calm_worker ha.calls rfl fun x rest hx => ha.takeover name c rfl x rest hx
    have hstep := (Sys.Stepped.looping (s := s.forget) name _ w p e k r s₁.forget hw hstage hnode
      hperf').step
    have hrows : s₁.rows = s.rows := Sys.rows_of_perform honRows hperf
    exact hs.of_worker hsteady hcalm hstep (Sys.perform_change hperf).submissions hrows
  | task t c name n m p w q e k r s₁ htask hw hstage hnode hperf =>
    cases ((hsteady.vacant fun _ => rfl).2.1 t).symm.trans htask
  | reap t τ htask hdone => cases ((hsteady.vacant fun _ => rfl).2.1 t).symm.trans htask
  | crash name w hw => exact ha.calls.elim
  | inject fields trim htrim => exact absurd rfl (ha.own fields trim)

/-! ### After the publication -/

theorem Handling.HandedOver.leaving {x : Handling} (h : x.HandedOver) : x.point.Leaving := by
  obtain ⟨entry, m, p, acked⟩ := x
  cases p with
  | retryAck | release outcome | finished outcome => trivial
  | _ => exact h.elim

theorem Steady.message_of_sole (hs : Steady cfg s) (hsole : ∀ j, j ≠ id → s.submissions j = none)
    {e : StreamEntry} (he : e ∈ s.redis.work.entries) {m : JobMessage}
    (hm : JobMessage.fromFields e.fields = .ok m) : m.jobId = id := by
  by_contra hne
  exact hs.submitted_of_message he hm (hsole m.jobId hne)

theorem Steady.handling_of_sole (hs : Steady cfg s) (hsole : ∀ j, j ≠ id → s.submissions j = none)
    {t : Nat} {τ : Task} (htask : s.tasks t = some τ) :
    ∃ m p, τ.body = .handling m p ∧
      (s.jobView id).handlings t = some ⟨τ.entry, m, p, s.ackedBy t τ.entry⟩ := by
  obtain ⟨name, entry, body⟩ := τ
  obtain ⟨e, he, m, _, hm, hmessage⟩ := hs.custody.tasks t _ htask
  cases body with
  | undecodable x => cases hmessage
  | handling m' p =>
    obtain rfl : m' = m := Option.some.inj hmessage
    exact ⟨m', p, rfl,
      Sys.handlingOf_eq_some.mpr ⟨name, htask, hs.message_of_sole hsole he hm, rfl⟩⟩

/-- When a task publishes the next attempt, the other tasks are leaving, and all entries have
tasks. -/
theorem Steady.alone_of_republish (hs : Steady cfg s)
    (hsole : ∀ j, j ≠ id → s.submissions j = none) {t n : Nat} {name : ConsumerName} {m : JobMessage}
    (htask : s.tasks t = some ⟨name, n, .handling m .republish⟩) :
    m.jobId = id ∧
    (∀ u τ, s.tasks u = some τ → u = t ∨ ∃ m' p, τ.body = .handling m' p ∧ p.Leaving) ∧
    ∀ e ∈ s.redis.work.entries, ∃ u τ, s.tasks u = some τ ∧ τ.entry = e.id := by
  obtain ⟨m', p', hbody, ht⟩ := hs.handling_of_sole hsole htask
  cases hbody
  obtain ⟨_, _, hown, _⟩ := Sys.handlingOf_eq_some.mp ht
  cases hs.journeys id with
  | absent _ _ hempty | adding _ _ _ _ _ hempty | publishing _ _ _ _ _ _ hempty =>
    cases (hempty.handlings t).symm.trans ht
  | travels job hsub past last hv =>
    have hlast : n = last.1 := by
      rcases hv.handled_cases ht with ⟨hlast, _⟩ | ⟨_, hover⟩
      · exact hlast
      · exact hover.elim
    refine ⟨hown, fun u τ hτ => ?_, fun e he => ?_⟩
    · obtain ⟨m', p, hbody, hu⟩ := hs.handling_of_sole hsole hτ
      rcases hv.handled_cases hu with ⟨hentry, _⟩ | ⟨_, hover⟩
      · exact .inl (hv.unique u t _ _ hu ht (hentry.trans hlast.symm))
      · exact .inr ⟨m', p, hbody, hover.leaving⟩
    · obtain ⟨m', hm'⟩ := hs.custody.decoded e he
      have hmem : (e.id, m') ∈ (s.jobView id).messages :=
        mem_messagesFor.mpr ⟨e, he, rfl, hm', hs.message_of_sole hsole he hm'⟩
      rw [hv.messages] at hmem
      rcases List.mem_append.mp hmem with hpast | hmem
      · obtain ⟨u, x, hx, hentry, _⟩ := hv.handed _ hpast
        obtain ⟨name', hu, _⟩ := Sys.handlingOf_eq_some.mp hx
        exact ⟨u, _, hu, hentry⟩
      · refine ⟨t, _, htask, ?_⟩
        rw [hlast, ← List.mem_singleton.mp hmem]

theorem Steady.lost {cut dlq : List StreamEntry} {g : Group} (hs : Steady cfg (s.uncut cut dlq g))
    (hsole : ∀ j, j ≠ id → s.submissions j = none)
    (hended : ∃ job outcome, s.submissions id = some (job, .finished outcome)) {t n : Nat}
    {name : ConsumerName} {m : JobMessage} {c : Choice}
    (htask : s.tasks t = some ⟨name, n, .handling m .republish⟩)
    (htrim : s.redis.work.entries.length < c.trim) :
    Lost id ((s.appendWork (some (.task t)) m.nextAttempt.toFields c.trim).setTask t
      ⟨name, n, .handling m .retryAck⟩) := by
  obtain ⟨hown, hothers, hall⟩ := hs.alone_of_republish hsole htask
  refine ⟨fun other p hstage => ⟨?_, hs.undisturbed.owners other p hstage⟩, ?_, ?_, ?_, ?_, ?_⟩
  · have hlooping : (s.uncut cut dlq g).stageOf other = some (.looping p) := hstage
    rw [← Sys.newAt_of_looping hlooping]
    refine List.eq_nil_iff_forall_not_mem.mpr fun e he => ?_
    obtain ⟨u, τ, hτ, hentry⟩ := hall e (hs.custody.listed other e he).1
    have hboth := hs.custody.unique e.id (.pass other) (.task u) ⟨e, he, rfl⟩ ⟨τ, hτ, hentry⟩
    cases hboth
  · intro u τ hτ
    rw [Sys.setTask_tasks, Function.update_apply] at hτ
    split at hτ
    · obtain rfl := Option.some.inj hτ
      exact ⟨m, .retryAck, rfl, trivial⟩
    · rename_i hu
      exact (hothers u τ hτ).resolve_left hu
  · intro _ x hx
    have hx : x ∈ (s.redis.work.entries ++ [Sys.nextEntry s.redis.work
      m.nextAttempt.toFields]).drop c.trim := hx
    have hlength : (s.redis.work.entries ++ [Sys.nextEntry s.redis.work
        m.nextAttempt.toFields]).length ≤ c.trim := by
      rw [List.length_append, List.length_singleton]
      exact htrim
    rw [List.drop_of_length_le hlength] at hx
    cases hx
  · intro j job p hsub
    obtain ⟨job', outcome, hended⟩ := hended
    by_cases hj : j = id
    · subst hj
      cases hsub.symm.trans hended
      exact ⟨outcome, rfl⟩
    · cases (hsole j hj).symm.trans hsub
  · obtain ⟨job', outcome, hended⟩ := hended
    exact fun hnone => Option.some_ne_none _ (hended.symm.trans hnone)
  · refine ⟨some (.task t), Sys.nextEntry s.redis.work m.nextAttempt.toFields, m.nextAttempt,
      List.mem_append_right _ (List.mem_singleton_self _), ?_, ?_⟩
    · exact (messageFor_toFields _).trans (if_pos hown)
    · have hold : ∀ u τ, s.tasks u = some τ → τ.entry ≠ s.redis.work.lastId + 1 := by
        intro u τ hτ
        obtain ⟨e, he, _, hid, _⟩ := hs.custody.tasks u τ hτ
        have hle := hs.regular.retained.window.num_le he
        have hlast : (s.uncut cut dlq g).redis.work.lastId = s.redis.work.lastId := rfl
        omega
      intro u τ hτ
      rw [Sys.setTask_tasks, Function.update_apply] at hτ
      split at hτ
      · obtain rfl := Option.some.inj hτ
        have hn := hold t _ htask
        exact hn
      · exact hold u τ hτ

namespace Late

theorem of_uncut (hs : Late cfg id s) {cut dlq cut' dlq' : List StreamEntry} {g g' : Group}
    (hsteady : Steady cfg (s.uncut cut dlq g)) {a₀ : Act} (hcalm : Calm (s.uncut cut dlq g) a₀)
    (h : step cfg (s.uncut cut dlq g) a₀ = some (s'.uncut cut' dlq' g')) (huncut : Uncut s' cut' g')
    (hsubs : s'.submissions = s.submissions) : Course cfg id s' := by
  refine .late ⟨?_, ?_, cut', dlq', g', huncut, hsteady.step hcalm h⟩
  · rw [hsubs]
    exact hs.others
  · rw [hsubs]
    exact hs.ended

theorem step (hs : Late cfg id s) (ha : Alone id s a)
    (h : InferenceEngine.step cfg s a = some s') : Course cfg id s' := by
  obtain ⟨cut, dlq, g, huncut, hsteady⟩ := hs.uncut
  have hsorted := hsteady.regular.retained.window.sorted
  have hapart : ∀ x ∈ cut, ∀ y ∈ s.redis.work.entries, x.id ≠ y.id :=
    fun x hx y hy => Nat.ne_of_lt ((List.pairwise_append.mp hsorted).2.2 x hx y hy)
  cases Sys.step_cases h with
  | submit ty payload j created updated hfresh =>
    obtain rfl := ha.sole ty payload j created updated rfl
    obtain ⟨job, outcome, hended⟩ := hs.ended
    cases hfresh.symm.trans hended
  | start name hfresh =>
    exact hs.of_uncut hsteady calm_start
      (Sys.Stepped.start (s := s.uncut cut dlq g) name hfresh).step (huncut.of_redis rfl) rfl
  | pass name w hw hstage =>
    exact hs.of_uncut hsteady calm_pass
      (Sys.Stepped.pass (s := s.uncut cut dlq g) name w hw hstage).step (huncut.of_redis rfl) rfl
  | submission j c job p e k r s₁ hsub hnode hperf =>
    obtain rfl : j = id := by
      by_contra hj
      cases (hs.others j hj).symm.trans hsub
    obtain ⟨job', outcome, hended⟩ := hs.ended
    cases hsub.symm.trans hended
    cases hnode
  | starting name c w p e k r s₁ hw hstage hnode hperf =>
    have hpending : ∀ n, e ≠ .xpending n := by
      rintro n rfl
      cases p <;> cases hnode
    have hwork : ∀ fields, e ≠ .xadd .work fields := by
      rintro fields rfl
      cases p <;> cases hnode
    obtain ⟨cut', dlq', g', huncut', hperf'⟩ :=
      huncut.perform hapart dlq ha.calls hpending (fun fields he => absurd he (hwork fields)) hperf
    have hcalm : Calm (s.uncut cut dlq g) (.resume (.worker name) (c.uncut s)) := by
      refine calm_worker ha.calls rfl fun x rest hcheck => ?_
      rw [Sys.stageOf, show (s.uncut cut dlq g).workers name = some w from hw, Option.map_some,
        hstage] at hcheck
      cases hcheck
    exact hs.of_uncut hsteady hcalm
      (Sys.Stepped.starting (s := s.uncut cut dlq g) name _ w p e k r _ hw hstage hnode hperf').step
      (huncut'.of_redis rfl) (Sys.perform_change hperf).submissions
  | looping name c w p e k r s₁ hw hstage hnode hperf =>
    have hlooping : (s.uncut cut dlq g).stageOf name = some (.looping p) := by
      rw [Sys.stageOf, show (s.uncut cut dlq g).workers name = some w from hw, Option.map_some, hstage]
    obtain ⟨_, hpending, hadds⟩ :=
      PassPoint.effect_of_node (hsteady.undisturbed.owners name p hlooping) hnode
    obtain ⟨cut', dlq', g', huncut', hperf'⟩ := huncut.perform hapart dlq ha.calls hpending
      (fun fields he => absurd he (hadds .work fields)) hperf
    have hcalm : Calm (s.uncut cut dlq g) (.resume (.worker name) (c.uncut s)) :=
      calm_worker ha.calls rfl fun x rest hx => ha.takeover name c rfl x rest hx
    exact hs.of_uncut hsteady hcalm
      (Sys.Stepped.looping (s := s.uncut cut dlq g) name _ w p e k r _ hw hstage hnode hperf').step
      (huncut'.of_redis rfl) (Sys.perform_change hperf).submissions
  | task t c name n m p w q e k r s₁ htask hw hstage hnode hperf =>
    have hfate : c.fate = .ok := ha.calls
    by_cases hlost : p = .republish ∧ s.redis.work.entries.length < c.trim
    · obtain ⟨rfl, htrim⟩ := hlost
      cases hnode
      simp only [Sys.perform, Choice.reply, hfate] at hperf
      split at hperf
      · obtain ⟨rfl, rfl⟩ := hperf
        refine .lost (hsteady.lost hs.others hs.ended htask htrim) ?_
        have hruns := hsteady.withinBudget id
        have hsame : (((s.appendWork (some (.task t)) m.nextAttempt.toFields c.trim).setTask t
            ⟨name, n, .handling m .retryAck⟩).jobView id).outcomes =
            ((s.uncut cut dlq g).jobView id).outcomes := by
          simp [Sys.jobView, Sys.appendWork, Event.outcomeFor, Sys.uncut]
        rwa [← hsame] at hruns
      · cases hperf
    · have hpending : ∀ i, e ≠ .xpending i := by
        rintro i rfl
        cases p <;> cases hnode
      have hwork : ∀ fields, e = .xadd .work fields → c.trim ≤ s.redis.work.entries.length ∧
          ∀ x ∈ s.redis.work.entries, x.id ≤ g.lastDelivered := by
        rintro fields rfl
        obtain rfl := TaskPoint.republish_of_node hnode
        refine ⟨Nat.le_of_not_lt fun hlt => hlost ⟨rfl, hlt⟩, fun x hx => ?_⟩
        obtain ⟨_, _, hall⟩ := hsteady.alone_of_republish hs.others htask
        obtain ⟨u, τ, hτ, hentry⟩ := hall x (List.mem_append_right _ hx)
        have hpassed := hsteady.regular.passed.tasks u τ hτ
        rw [hentry] at hpassed
        exact of_decide_eq_true hpassed
      obtain ⟨cut', dlq', g', huncut', hperf'⟩ :=
        huncut.perform hapart dlq hfate hpending hwork hperf
      have hcalm : Calm (s.uncut cut dlq g) (.resume (.task t) (c.uncut s)) := calm_task hfate rfl
      exact hs.of_uncut hsteady hcalm
        (Sys.Stepped.task (s := s.uncut cut dlq g) t _ name n m p w q e k r _ htask hw hstage hnode
          hperf').step
        (huncut'.of_redis rfl) (Sys.perform_change hperf).submissions
  | reap t τ htask hdone =>
    exact hs.of_uncut hsteady calm_reap
      (Sys.Stepped.reap (s := s.uncut cut dlq g) t τ htask hdone).step (huncut.of_redis rfl) rfl
  | crash name w hw => exact ha.calls.elim
  | inject fields trim htrim => exact absurd rfl (ha.own fields trim)

end Late

/-! ### The whole run -/

namespace Course

theorem init : Course cfg id Sys.init := .early (.absent rfl rfl) .init

theorem step (hreg : Regular cfg s) (hs : Course cfg id s) (ha : Alone id s a)
    (h : InferenceEngine.step cfg s a = some s') : Course cfg id s' := by
  cases hs with
  | early hearly hsteady => exact hearly.step hsteady ha h
  | late hlate => exact hlate.step ha h
  | lost hlost hruns =>
    refine .lost (hlost.step hreg ha h) ?_
    rwa [hlost.outcomes_eq hreg h]

theorem exec {acts : List Act} (h : Reaches cfg acts s)
    (hacts : Runs.Along (InferenceEngine.step cfg) (Alone id) Sys.init acts) : Course cfg id s :=
  (Runs.invariant (I := fun s => Regular cfg s ∧ Course cfg id s)
    (fun _ _ _ hs ha h => ⟨hs.1.step h, hs.2.step hs.1 ha h⟩) ⟨.init, .init⟩ hacts h).2

theorem withinBudget (hs : Course cfg id s) :
    WithinBudget cfg.toBrokerSettings (s.jobView id).outcomes := by
  cases hs with
  | early hearly hsteady => exact hsteady.withinBudget id
  | late hlate =>
    obtain ⟨cut, dlq, g, _, hsteady⟩ := hlate.uncut
    exact hsteady.withinBudget id
  | lost hlost hruns => exact hruns

theorem resolved (hs : Course cfg id s) (hdone : Completed s id) :
    ∃ o, Resolved cfg.toBrokerSettings s id o := by
  cases hs with
  | early hearly hsteady =>
    obtain ⟨job, outcome, hsub⟩ := hdone.submitted
    cases hearly with
    | absent hsubs =>
      rw [hsubs] at hsub
      cases hsub
    | adding ty payload created updated hsubs | publishing ty payload created updated left hsubs =>
      rw [hsubs, Function.update_self] at hsub
      cases hsub
  | late hlate =>
    obtain ⟨cut, dlq, g, _, hsteady⟩ := hlate.uncut
    have huncut : Completed (s.uncut cut dlq g) id := ⟨hdone.submitted, hdone.handled⟩
    obtain ⟨o, ho⟩ := hsteady.resolved huncut
    exact ⟨o, ho.last, ho.final, ho.row⟩
  | lost hlost => exact absurd hdone hlost.not_completed

end Course

end

end InferenceEngine
