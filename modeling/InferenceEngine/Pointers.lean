import InferenceEngine.Handlers
import InferenceEngine.Streams

/-!
# Where pointers lead

Rows are never deleted and never change their type, a row is inserted before its job is
published, and a retry is published only while attempts are left. Without foreign appends
every entry of the streams therefore points to a row of its own type.
-/

namespace InferenceEngine

set_option autoImplicit false

def HasType (s : Sys) (j : UUID) (ty : JobType) : Prop :=
  ∃ row, s.rows j = some row ∧ row.jobType = ty

/-- The row exists, has the type of the message, and the attempt is within the budget. -/
structure Pointer (cfg : Settings) (s : Sys) (m : JobMessage) : Prop where
  row : HasType s m.jobId m.jobType
  first : 1 ≤ m.attempt
  budget : m.attempt ≤ max 1 cfg.maxAttempts

def WellPointed (cfg : Settings) (s : Sys) (fields : Fields) : Prop :=
  ∃ m, JobMessage.fromFields fields = .ok m ∧ Pointer cfg s m

namespace TaskPoint

/-- The copies of the row that a point holds. -/
def copies : TaskPoint → List InferenceJob
  | writeRunning seen job | writeSuccess seen job | writePending seen job
  | writeFailed seen job => [seen, job]
  | running job => [job]
  | _ => []

def retries : TaskPoint → Bool
  | requeueGet | writePending _ _ | republish => true
  | _ => false

variable {cfg : BrokerSettings} {id : Nat} {m : JobMessage}

theorem copies_routed (cfg : BrokerSettings) (m : JobMessage) (x : Except Exn Unit) :
    (routed cfg m x).copies = [] := by
  rcases x with e | u
  · cases e with
    | transient msg =>
      simp only [routed]
      split <;> rfl
    | _ => rfl
  · rfl

theorem mem_copies_of_write {p : TaskPoint} {seen job : InferenceJob}
    (h : p.write = some (seen, job)) : job ∈ p.copies := by
  cases p <;> cases h <;> simp [copies]

def RowRead (Q : InferenceJob → Prop) (e : Effect) (r : e.Reply) : Prop :=
  match e, r with
  | .get _, r => ∀ job now, r = .ok (job, now) → Q job
  | _, _ => True

/-- What transitions keep, and the rows that are read have, all copies have. -/
theorem copies_next {Q : InferenceJob → Prop} (hQ : ∀ before after, Transition before after →
    Q before → Q after) {p : TaskPoint} {e : Effect} {k : e.Reply → TaskPoint} {r : e.Reply}
    (hp : ∀ job ∈ p.copies, Q job) (hnode : p.node cfg id m = .await e k)
    (hr : RowRead Q e r) : ∀ job ∈ (k r).copies, Q job := by
  have none : ∀ {q : TaskPoint}, q.copies = [] → ∀ job ∈ q.copies, Q job := by
    intro q hq job hjob
    rw [hq] at hjob
    cases hjob
  have pair : ∀ {seen job : InferenceJob}, Transition seen job → Q seen →
      ∀ x ∈ [seen, job], Q x := by
    intro seen job ht hseen x hx
    rcases List.mem_cons.mp hx with rfl | hx
    · exact hseen
    · rw [List.mem_singleton.mp hx]
      exact hQ seen job ht hseen
  cases p with
  | guard =>
    cases hnode
    rcases r with x | ⟨job, now⟩
    · cases x <;> exact none rfl
    · simp only [afterGuard]
      split <;> exact none rfl
  | load =>
    cases hnode
    rcases afterLoad_cases cfg m r with ⟨job, job', now, rfl, hrun, h⟩ | ⟨x, h, _⟩
    · rw [h]
      exact pair (.of_markRunning hrun) (hr job now rfl)
    · rw [h]
      exact none (copies_routed cfg m x)
  | writeRunning seen job =>
    cases hnode
    rcases r with x | u
    · exact none (copies_routed cfg m _)
    · intro x hx
      exact hp x (List.mem_cons_of_mem _ hx)
  | running job =>
    cases hnode
    rcases afterRun_cases cfg m job r with ⟨ref, d, now, job', rfl, hsucc, h⟩ | ⟨x, h⟩
    · rw [h]
      exact pair (.of_markSuccess hsucc) (hp job (List.mem_singleton_self _))
    · rw [h]
      exact none (copies_routed cfg m x)
  | writeSuccess seen job =>
    cases hnode
    exact none (copies_routed cfg m r)
  | requeueGet =>
    cases hnode
    rcases r with x | ⟨job, now⟩
    · cases x <;> exact none rfl
    · simp only [afterRequeueGet]
      cases hreq : job.requeue now with
      | ok job' => exact pair (.of_requeue hreq) (hr job now rfl)
      | error x => exact none rfl
  | failGet error =>
    cases hnode
    rcases r with x | ⟨job, now⟩
    · cases x <;> exact none rfl
    · simp only [afterFailGet]
      cases hfail : job.markFailed error Option.none now with
      | ok job' => exact pair (.of_markFailed hfail) (hr job now rfl)
      | error x => exact none rfl
  | republish | deadLetter reason error =>
    cases hnode
    rcases r with x | u
    · cases x <;> exact none rfl
    · exact none rfl
  | writePending seen job | deadLetterAck error =>
    cases hnode
    rcases r with x | u <;> exact none rfl
  | skipAck | successAck | retryAck | writeFailed seen job | release outcome =>
    cases hnode
    exact none rfl
  | finished outcome => cases hnode

theorem retries_routed {x : Except Exn Unit} (h : (routed cfg m x).retries = true) :
    m.attempt < cfg.maxAttempts := by
  rcases x with e | u
  · cases e with
    | transient msg =>
      by_cases hlast : cfg.maxAttempts ≤ m.attempt
      · simp only [routed, if_pos hlast] at h
        cases h
      · omega
    | _ => cases h
  · cases h

theorem retries_next {p : TaskPoint} {e : Effect} {k : e.Reply → TaskPoint} {r : e.Reply}
    (hp : p.retries = true → m.attempt < cfg.maxAttempts) (hnode : p.node cfg id m = .await e k)
    (h : (k r).retries = true) : m.attempt < cfg.maxAttempts := by
  cases p with
  | guard =>
    cases hnode
    rcases r with x | ⟨job, now⟩
    · cases x <;> cases h
    · simp only [afterGuard] at h
      split at h <;> cases h
  | load =>
    cases hnode
    rcases afterLoad_cases cfg m r with ⟨job, job', now, rfl, hrun, hk⟩ | ⟨x, hk, _⟩
    · rw [hk] at h
      cases h
    · exact retries_routed (hk ▸ h)
  | writeRunning seen job =>
    cases hnode
    rcases r with x | u
    · exact retries_routed h
    · cases h
  | running job =>
    cases hnode
    rcases afterRun_cases cfg m job r with ⟨ref, d, now, job', rfl, hsucc, hk⟩ | ⟨x, hk⟩
    · rw [hk] at h
      cases h
    · exact retries_routed (hk ▸ h)
  | writeSuccess seen job =>
    cases hnode
    exact retries_routed h
  | requeueGet | writePending seen job | republish => exact hp rfl
  | failGet error =>
    cases hnode
    rcases r with x | ⟨job, now⟩
    · cases x <;> cases h
    · simp only [afterFailGet] at h
      split at h <;> cases h
  | deadLetter reason error =>
    cases hnode
    rcases r with x | u
    · cases x <;> cases h
    · cases h
  | deadLetterAck error =>
    cases hnode
    rcases r with x | u <;> cases h
  | skipAck | successAck | retryAck | writeFailed seen job | release outcome =>
    cases hnode
    cases h
  | finished outcome => cases hnode

end TaskPoint

/-- In a run without foreign appends, pointers lead to rows of their type. -/
structure Pointers (cfg : Settings) (s : Sys) : Prop where
  submissions : ∀ id job left, s.submissions id = some (job, .publishing left) →
    HasType s job.id job.jobType
  appended : ∀ e, Appended s e → WellPointed cfg s e.fields
  dlq : ∀ e ∈ s.redis.dlq.entries, WellPointed cfg s e.fields
  copies : ∀ t name id m p, s.tasks t = some ⟨name, id, .handling m p⟩ →
    ∀ job ∈ p.copies, HasType s job.id job.jobType
  retries : ∀ t name id m p, s.tasks t = some ⟨name, id, .handling m p⟩ → p.retries = true →
    m.attempt < cfg.maxAttempts
  verdicts : ∀ name e m n rest, s.stageOf name = some (.looping (.poison e m n rest)) →
    JobMessage.fromFields e.fields = .ok m

def Act.isForeign : Act → Bool
  | .inject _ _ => true
  | _ => false

section
variable {cfg : Settings} {s s' : Sys} {a : Act}

theorem Pointers.init : Pointers cfg Sys.init where
  submissions := by
    intro id job left h
    cases h
  appended := by
    rintro e ⟨who, h⟩
    cases h
  dlq := by
    intro e he
    cases he
  copies := by
    intro t name id m p h
    cases h
  retries := by
    intro t name id m p h
    cases h
  verdicts := by
    intro name e m n rest h
    cases h

theorem HasType.of_step (hp : Pointers cfg s) (h : step cfg s a = some s')
    {j : UUID} {ty : JobType} (htype : HasType s j ty) : HasType s' j ty := by
  obtain ⟨row, hrow, rfl⟩ := htype
  rcases step_rows h with hr | ⟨id, c, job, _, _, hnone, hr⟩ |
    ⟨t, c, name, id, m, p, seen, job, row', _, _, htask, hwrite, hrow', hr⟩
  · exact ⟨row, hr ▸ hrow, rfl⟩
  · have hne : j ≠ job.id := by
      rintro rfl
      cases hnone.symm.trans hrow
    exact ⟨row, by rwa [hr, Function.update_of_ne hne], rfl⟩
  · by_cases hj : j = job.id
    · subst hj
      obtain ⟨row₁, hrow₁, htype⟩ :=
        hp.copies t name id m p htask job (TaskPoint.mem_copies_of_write hwrite)
      obtain rfl : row = row₁ := Option.some.inj (hrow.symm.trans hrow₁)
      exact ⟨job, by rw [hr, Function.update_self], htype.symm⟩
    · exact ⟨row, by rwa [hr, Function.update_of_ne hj], rfl⟩

theorem Pointer.of_step (hp : Pointers cfg s) (h : step cfg s a = some s')
    {m : JobMessage} (hm : Pointer cfg s m) : Pointer cfg s' m :=
  ⟨hm.row.of_step hp h, hm.first, hm.budget⟩

theorem WellPointed.of_step (hp : Pointers cfg s) (h : step cfg s a = some s')
    {fields : Fields} (hm : WellPointed cfg s fields) : WellPointed cfg s' fields := by
  obtain ⟨m, hdecode, hm⟩ := hm
  exact ⟨m, hdecode, hm.of_step hp h⟩

theorem Pointers.task (hp : Pointers cfg s) (ha : AllAppended s) {t id : Nat} {name : ConsumerName}
    {m : JobMessage} {p : TaskPoint} (htask : s.tasks t = some ⟨name, id, .handling m p⟩) :
    Pointer cfg s m := by
  obtain ⟨e, he, _, hdecoded⟩ := ha.tasks t _ htask
  obtain ⟨m', hm', hpointer⟩ := hp.appended e he
  obtain rfl : m' = m := Except.ok.inj (hm'.symm.trans hdecoded)
  exact hpointer

/-- An inserted row stands before the first publish. -/
theorem Sys.rows_of_add {who : Actor} {c : Choice} {job : InferenceJob}
    (h : s.perform cfg who c (.add job) = some ((.ok () : Effect.Reply (.add job)), s')) :
    s'.rows job.id = some job := by
  rcases Choice.reply_eq (Option.some.inj h) with ⟨_, hr, hs⟩ | ⟨_, hr, _⟩ | ⟨_, hr, _⟩
  · cases hrow : s.rows job.id with
    | none =>
      simp only [insertRow, hrow] at hs
      rw [hs]
      exact Function.update_self _ _ _
    | some row =>
      simp only [insertRow, hrow] at hr
      cases hr
  all_goals cases hr

theorem Pointers.step_submissions (hs : Coherent s) (hp : Pointers cfg s)
    (h : step cfg s a = some s') (id : UUID) (job : InferenceJob) (left : Nat)
    (hsub : s'.submissions id = some (job, .publishing left)) : HasType s' job.id job.jobType := by
  rcases step_submission hs h id with hr | ⟨ty, payload, created, updated, _, _, hr⟩ |
    ⟨c, job', p, e, k, r, s₁, _, hold, hnode, hperf, rfl, hr⟩
  · exact (hp.submissions id job left (hr ▸ hsub)).of_step hp h
  · cases hr.symm.trans hsub
  · have hpoint := Prod.mk.inj (Option.some.inj (hr.symm.trans hsub))
    obtain ⟨rfl, hk⟩ := hpoint
    cases p with
    | adding =>
      cases hnode
      rcases r with x | u
      · cases hk
      · have hrow : s₁.rows job'.id = some job' := Sys.rows_of_add hperf
        exact ⟨job', hrow, rfl⟩
    | publishing left' => exact (hp.submissions id job' left' hold).of_step hp h
    | finished outcome => cases hnode

theorem wellPointed_firstDelivery {job : InferenceJob} (h : HasType s job.id job.jobType) :
    WellPointed cfg s (JobMessage.firstDelivery job).toFields := by
  refine ⟨_, JobMessage.fromFields_toFields _, h, le_rfl, ?_⟩
  exact le_max_left _ _

theorem wellPointed_nextAttempt {m : JobMessage} (hm : Pointer cfg s m)
    (hlt : m.attempt < cfg.maxAttempts) : WellPointed cfg s m.nextAttempt.toFields := by
  have hfirst := hm.first
  refine ⟨_, JobMessage.fromFields_toFields _, hm.row, ?_, ?_⟩
  · simp only [JobMessage.nextAttempt]
    omega
  · simp only [JobMessage.nextAttempt]
    omega

theorem wellPointed_deadLetter {m : JobMessage} (hm : Pointer cfg s m) (reason : Text) :
    WellPointed cfg s (deadLetterFields m reason) :=
  ⟨m, fromFields_deadLetterFields m reason, hm⟩

theorem Pointers.step_appended (ha : AllAppended s) (hp : Pointers cfg s)
    (hown : a.isForeign = false) (h : step cfg s a = some s') (e : StreamEntry) (he : Appended s' e) :
    WellPointed cfg s' e.fields := by
  rcases InferenceEngine.step_appended h he with hold | ⟨id, c, job, left, _, hsub, hfields⟩ |
    ⟨t, c, name, id, m, _, htask, hfields⟩ | ⟨trim, rfl⟩
  · exact (hp.appended e hold).of_step hp h
  · rw [hfields]
    exact wellPointed_firstDelivery ((hp.submissions id job left hsub).of_step hp h)
  · rw [hfields]
    exact wellPointed_nextAttempt ((hp.task ha htask).of_step hp h)
      (hp.retries t name id m _ htask rfl)
  · cases hown

theorem Pointers.step_dlq (ha : AllAppended s) (hp : Pointers cfg s)
    (h : step cfg s a = some s') (e : StreamEntry) (he : e ∈ s'.redis.dlq.entries) :
    WellPointed cfg s' e.fields := by
  rcases InferenceEngine.step_dlq h he with hold | ⟨t, c, name, id, m, reason, _, _, htask, hfields⟩ |
    ⟨name, c, x, m, n, rest, _, hstage, hfields⟩
  · exact (hp.dlq e hold).of_step hp h
  · rw [hfields]
    exact wellPointed_deadLetter ((hp.task ha htask).of_step hp h) reason
  · rw [hfields]
    have hx := ha.passes name _ hstage x List.mem_cons_self
    obtain ⟨m', hm', hpointer⟩ := hp.appended x hx
    obtain rfl : m' = m := Except.ok.inj (hm'.symm.trans (hp.verdicts name x m n rest hstage))
    exact wellPointed_deadLetter (hpointer.of_step hp h) _

theorem Pointers.step_verdicts (hp : Pointers cfg s) (h : step cfg s a = some s')
    (name : ConsumerName) (e : StreamEntry) (m : JobMessage) (n : Nat) (rest : List StreamEntry)
    (hstage : s'.stageOf name = some (.looping (.poison e m n rest))) :
    JobMessage.fromFields e.fields = .ok m := by
  rcases step_stage h name with hr | ⟨_, _, hr⟩ | ⟨_, _, hr⟩ | ⟨_, _, _, _, _, _, _, _, _, _, _, hr⟩ |
    ⟨c, q, e', k, r, s₁, _, hold, hnode, hperf, _, hr⟩ | ⟨_, hr⟩
  · exact hp.verdicts name e m n rest (hr ▸ hstage)
  · cases hr.symm.trans hstage
  · cases hr.symm.trans hstage
  · cases hr.symm.trans hstage
  · have hk := Stage.looping.inj (Option.some.inj (hr.symm.trans hstage))
    exact (PassPoint.query_of_verdict hnode hk).2
  · cases hr.symm.trans hstage

theorem Sys.rowRead_of_perform (hs : Coherent s) {who : Actor} {c : Choice} {e : Effect}
    {r : e.Reply} (h : s.perform cfg who c e = some (r, s')) :
    TaskPoint.RowRead (fun job => HasType s job.id job.jobType) e r := by
  cases e with
  | get id =>
    intro job now hr
    obtain ⟨_, ⟨_, row, hrow, hreply⟩ | ⟨_, _, hreply⟩ | ⟨_, hreply⟩⟩ := perform_get h
    · rw [hr] at hreply
      obtain ⟨rfl, _⟩ := Prod.mk.inj (Except.ok.inj hreply)
      exact ⟨job, (hs.keyed id job hrow).symm ▸ hrow, rfl⟩
    · cases hr.symm.trans hreply
    · cases hr.symm.trans hreply
  | _ => trivial

theorem Pointers.step_tasks (hs : Coherent s) (hp : Pointers cfg s) (h : step cfg s a = some s')
    (t : Nat) (name : ConsumerName) (id : Nat) (m : JobMessage) (p : TaskPoint)
    (htask : s'.tasks t = some ⟨name, id, .handling m p⟩) :
    (∀ job ∈ p.copies, HasType s' job.id job.jobType) ∧
      (p.retries = true → m.attempt < cfg.maxAttempts) := by
  have old : s.tasks t = some ⟨name, id, .handling m p⟩ →
      (∀ job ∈ p.copies, HasType s' job.id job.jobType) ∧
        (p.retries = true → m.attempt < cfg.maxAttempts) := by
    intro hold
    exact ⟨fun job hjob => (hp.copies t name id m p hold job hjob).of_step hp h,
      hp.retries t name id m p hold⟩
  rcases InferenceEngine.step_tasks h with ⟨hr, _⟩ | ⟨name', c, w, q, e, _, _, _, _, _, hr⟩ |
    ⟨u, c, name', id', m', p', e, k, r, s₁, _, hold, hnode, hperf, _, hr⟩
  · exact old (hr ▸ htask)
  · by_cases ht : t = s.nextTask
    · subst ht
      rw [hr, Function.update_self] at htask
      have hbody := congrArg Task.body (Option.some.inj htask)
      rcases TaskBody.of_cases e.fields with ⟨m', _, hof⟩ | ⟨x, hof⟩
      · cases hof.symm.trans hbody
        refine ⟨fun job hjob => ?_, fun h => ?_⟩
        · cases hjob
        · cases h
      · cases hof.symm.trans hbody
    · exact old (by rwa [hr, Function.update_of_ne ht] at htask)
  · by_cases ht : t = u
    · subst ht
      rw [hr, Function.update_self] at htask
      cases htask
      constructor
      · intro job hjob
        have htype := TaskPoint.copies_next (Q := fun job => HasType s job.id job.jobType)
          (fun before after htrans hb => htrans.id ▸ htrans.jobType ▸ hb)
          (hp.copies t _ _ _ _ hold) hnode (Sys.rowRead_of_perform hs hperf) job hjob
        exact htype.of_step hp h
      · exact TaskPoint.retries_next (hp.retries t _ _ _ _ hold) hnode
    · exact old (by rwa [hr, Function.update_of_ne ht] at htask)

theorem Pointers.step (hs : Coherent s) (ha : AllAppended s) (hp : Pointers cfg s)
    (hown : a.isForeign = false) (h : step cfg s a = some s') : Pointers cfg s' where
  submissions := hp.step_submissions hs h
  appended := hp.step_appended ha hown h
  dlq := hp.step_dlq ha h
  copies := fun t name id m p htask => (hp.step_tasks hs h t name id m p htask).1
  retries := fun t name id m p htask => (hp.step_tasks hs h t name id m p htask).2
  verdicts := hp.step_verdicts h

def RowFound (e : Effect) (r : e.Reply) : Prop :=
  match e, r with
  | .get _, r => ∀ j, r ≠ .error (.jobNotFound j)
  | .update _, r => ∀ j, r ≠ .error (.jobNotFound j)
  | _, _ => True

/-- Every entry points to a row of its type, and no handler misses a row. -/
structure PointerIntegrity (cfg : Settings) (s : Sys) : Prop where
  stream : ∀ e ∈ s.redis.work.entries, WellPointed cfg s e.fields
  pending : ∀ id, s.redis.isPending id = true →
    ∃ e, Appended s e ∧ e.id = id ∧ WellPointed cfg s e.fields
  dlq : ∀ e ∈ s.redis.dlq.entries, WellPointed cfg s e.fields
  found : ∀ t c name id m p, ∀ (e : Effect) (k : e.Reply → TaskPoint) (r : e.Reply) (s₁ : Sys),
    s.tasks t = some ⟨name, id, .handling m p⟩ → p.node cfg.toBrokerSettings id m = .await e k →
    s.perform cfg (.task t) c e = some (r, s₁) → RowFound e r

theorem Sys.rowFound_of_get {who : Actor} {c : Choice} {j : UUID} {r : Effect.Reply (.get j)}
    (hrow : s.rows j ≠ none) (h : s.perform cfg who c (.get j) = some (r, s')) :
    RowFound (.get j) r := by
  rintro j' rfl
  obtain ⟨_, ⟨_, _, _, hr⟩ | ⟨_, hnone, _⟩ | ⟨_, hr⟩⟩ := perform_get h
  · cases hr
  · exact hrow hnone
  · cases hr

theorem Sys.rowFound_of_update {who : Actor} {c : Choice} {job : InferenceJob}
    {r : Effect.Reply (.update job)} (hrow : s.rows job.id ≠ none)
    (h : s.perform cfg who c (.update job) = some (r, s')) : RowFound (.update job) r := by
  rintro j rfl
  rcases perform_update h with ⟨_, ⟨_, hr⟩ | ⟨_, hr⟩, _⟩ | ⟨_, ⟨_, hr⟩ | ⟨hnone, _⟩⟩
  · cases hr
  · cases hr
  · cases hr
  · exact hrow hnone

theorem HasType.ne_none {j : UUID} {ty : JobType} (h : HasType s j ty) : s.rows j ≠ none := by
  obtain ⟨row, hrow, _⟩ := h
  simp [hrow]

theorem Pointers.rowFound (hp : Pointers cfg s) (ha : AllAppended s) {t id : Nat} {c : Choice}
    {name : ConsumerName} {m : JobMessage} {p : TaskPoint} {e : Effect} {k : e.Reply → TaskPoint}
    {r : e.Reply} {s₁ : Sys} (htask : s.tasks t = some ⟨name, id, .handling m p⟩)
    (hnode : p.node cfg.toBrokerSettings id m = .await e k)
    (hperf : s.perform cfg (.task t) c e = some (r, s₁)) : RowFound e r := by
  have hrow : s.rows m.jobId ≠ none := (hp.task ha htask).row.ne_none
  have hwrite : ∀ job ∈ p.copies, s.rows job.id ≠ none :=
    fun job hjob => (hp.copies t name id m p htask job hjob).ne_none
  cases p with
  | guard | load | requeueGet | failGet error =>
    cases hnode
    exact Sys.rowFound_of_get hrow hperf
  | writeRunning seen job | writeSuccess seen job | writePending seen job
  | writeFailed seen job =>
    cases hnode
    exact Sys.rowFound_of_update (hwrite job (by simp [TaskPoint.copies])) hperf
  | finished outcome => cases hnode
  | _ =>
    cases hnode
    trivial

/-- Pointers keep their integrity as long as only the engine writes the streams. -/
theorem pointerIntegrity_of_own {acts : List Act} (hs : Reaches cfg acts s)
    (hown : ∀ a ∈ acts, a.isForeign = false) : PointerIntegrity cfg s := by
  have hinv : Regular cfg s ∧ AllAppended s ∧ Pointers cfg s := by
    refine Runs.invariant (I := fun s => Regular cfg s ∧ AllAppended s ∧ Pointers cfg s)
      (P := fun _ a => a.isForeign = false) ?_ ⟨.init, .init, .init⟩
      (.of_forall (fun a ha _ => hown a ha) _) hs
    rintro s a s' ⟨hreg, happ, hp⟩ hown h
    exact ⟨hreg.step h, happ.step hreg.retained h, hp.step hreg.coherent happ hown h⟩
  obtain ⟨_, happ, hp⟩ := hinv
  refine ⟨fun e he => hp.appended e (happ.stream e he), ?_, hp.dlq, ?_⟩
  · intro id hid
    obtain ⟨e, he, heid⟩ := happ.pending id hid
    exact ⟨e, he, heid, hp.appended e he⟩
  · intro t c name id m p e k r s₁ htask hnode hperf
    exact hp.rowFound happ htask hnode hperf

end

/-- A job is read, raises a transient error and is published again. -/
def retriedOnce : List Act :=
  boot 0 ++ submitted 7 ++ readPass 0 1 ++ steps (.task 0) 3 ++
    .resume (.task 0) { outcome := .error (.transient []) } :: steps (.task 0) 3

theorem retriedOnce_pointerIntegrity : ∃ s, Reaches {} retriedOnce s ∧
    s.redis.work.entries.length = 2 ∧ s.redis.isPending 1 = true ∧ PointerIntegrity {} s := by
  obtain ⟨s, hs, hview⟩ := Runs.exec_of_map (step {}) Sys.init retriedOnce
    (fun s => (s.redis.work.entries.length, s.redis.isPending 1)) (2, true) (by decide +kernel)
  obtain ⟨hlength, hpending⟩ := Prod.mk.inj hview
  exact ⟨s, hs, hlength, hpending, pointerIntegrity_of_own hs (by decide)⟩

end InferenceEngine
