import InferenceEngine.System

/-!
# What one step can do

`Change` lists the state changes of the effects, whatever their reply. The `resume` lemmas
take a step of an actor apart into the effect it awaits, the reply and the next point.
-/

namespace InferenceEngine

set_option autoImplicit false

open Programs

namespace Choice

variable {α : Type} {c : Choice} {x : Exn} {s : Sys} {good : Except Exn α × Sys}

theorem reply_of_ok (h : c.fate = .ok) : c.reply x s good = good := by
  simp [reply, h]

theorem reply_cases (c : Choice) (x : Exn) (s : Sys) (good : Except Exn α × Sys) :
    c.reply x s good = good ∨ c.reply x s good = (.error x, s) ∨
      c.reply x s good = (.error x, good.2) := by
  cases h : c.fate <;> simp [reply, h]

theorem reply_eq {r : Except Exn α} {s' : Sys} (h : c.reply x s good = (r, s')) :
    (c.fate = .ok ∧ r = good.1 ∧ s' = good.2) ∨ (c.fate = .failed ∧ r = .error x ∧ s' = s) ∨
      (c.fate = .lost ∧ r = .error x ∧ s' = good.2) := by
  cases hf : c.fate <;> simp only [reply, hf] at h
  · exact .inl ⟨rfl, congrArg Prod.fst h.symm, congrArg Prod.snd h.symm⟩
  · exact .inr (.inl ⟨rfl, congrArg Prod.fst h.symm, congrArg Prod.snd h.symm⟩)
  · exact .inr (.inr ⟨rfl, congrArg Prod.fst h.symm, congrArg Prod.snd h.symm⟩)

theorem reply_fst (c : Choice) (x : Exn) (s : Sys) (good : Except Exn α × Sys) :
    (c.reply x s good).1 = good.1 ∨ (c.reply x s good).1 = .error x := by
  rcases reply_cases c x s good with h | h | h <;> simp [h]

end Choice

namespace Sys

variable {cfg : Settings} {who : Actor} {c : Choice} {s s' : Sys}

/-- The effects of a call on the state: none, or what the call is for. -/
inductive Change (cfg : Settings) (who : Actor) (c : Choice) (s : Sys) : Effect → Sys → Prop
  | refl (e : Effect) : Change cfg who c s e s
  | insert (job : InferenceJob) (hf : c.fate ≠ .failed) (h : s.rows job.id = none) :
      Change cfg who c s (.add job)
        { s with rows := Function.update s.rows job.id (some job) }
  | write (job row : InferenceJob) (hf : c.fate ≠ .failed) (h : s.rows job.id = some row) :
      Change cfg who c s (.update job)
        { s with rows := Function.update s.rows job.id (some job),
                 log := s.log ++ [.wrote who job] }
  | ran (t : Nat) (job : InferenceJob) (h : who = .task t) :
      Change cfg who c s (.run job) (s.record [.ran t job.id c.outcome])
  | xaddWork (fields : Fields) (hf : c.fate ≠ .failed)
      (h : s.redis.work.trimAllowed cfg.maxlen c.trim = true) :
      Change cfg who c s (.xadd .work fields) (s.appendWork (some who) fields c.trim)
  | xaddDlq (fields : Fields) (hf : c.fate ≠ .failed)
      (h : s.redis.dlq.trimAllowed cfg.maxlen c.trim = true) :
      Change cfg who c s (.xadd .dlq fields) (s.appendDlq who fields c.trim)
  | ack (id : Nat) (hf : c.fate ≠ .failed) : Change cfg who c s (.xack id) (s.ackEntry who id)
  | create (hf : c.fate ≠ .failed) (h : s.redis.group = none) :
      Change cfg who c s .xgroupCreate (s.setGroup { lastDelivered := s.redis.work.lastId })
  | claim (n : Int) (name : ConsumerName) (g : Group) (start : Nat) (f : Worker → Worker)
      (hf : c.fate ≠ .failed) (hc : s.consumer who = some name) (hg : s.redis.group = some g)
      (h : g.claimAllowed start n c.claimed = true)
      (hw : f = id ∨ ∃ cursor, f = fun w => { w with reclaimCursor := cursor }) :
      Change cfg who c s (.xautoclaim n) ((s.claimEntries name g c.claimed).2.modifyWorker name f)
  | read (n : Int) (name : ConsumerName) (g : Group) (hf : c.fate ≠ .failed)
      (hc : s.consumer who = some name) (hg : s.redis.group = some g) :
      Change cfg who c s (.xreadgroup n) (s.readGroup name g n).2
  | start (id : Nat) (fields : Fields) (name : ConsumerName)
      (hc : s.consumer who = some name) :
      Change cfg who c s (.dispatch id fields) (s.startTask name id fields)
  | discard (id : Nat) (name : ConsumerName) (hc : s.consumer who = some name) :
      Change cfg who c s (.discard id) (s.discardId name id)

theorem modifyWorker_id (s : Sys) (name : ConsumerName) : s.modifyWorker name id = s := by
  simp [modifyWorker]

theorem Change.of_reply {α : Type} {e : Effect} {x : Exn} {good : Except Exn α × Sys}
    (h : c.fate ≠ .failed → Change cfg who c s e good.2) :
    Change cfg who c s e (c.reply x s good).2 := by
  cases hf : c.fate with
  | ok =>
    simp only [Choice.reply, hf]
    exact h (by simp [hf])
  | failed =>
    simp only [Choice.reply, hf]
    exact .refl e
  | lost =>
    simp only [Choice.reply, hf]
    exact h (by simp [hf])

theorem perform_change {e : Effect} {r : e.Reply} (h : s.perform cfg who c e = some (r, s')) :
    Change cfg who c s e s' := by
  have out : ∀ {α : Type} {p : α × Sys} {q : α × Sys}, some p = some q → p.2 = q.2 :=
    fun h => congrArg Prod.snd (Option.some.inj h)
  cases e with
  | add job =>
    obtain rfl := out h
    refine Change.of_reply fun hf => ?_
    unfold insertRow
    split
    · exact .insert job hf ‹_›
    · exact .refl _
  | get id =>
    obtain rfl := out h
    exact Change.of_reply fun _ => .refl _
  | update job =>
    obtain rfl := out h
    refine Change.of_reply fun hf => ?_
    unfold writeRow
    split
    · exact .write job _ hf ‹_›
    · exact .refl _
  | run job =>
    cases who with
    | task t =>
      obtain rfl := out h
      exact .ran t job rfl
    | _ => cases h
  | xadd key fields =>
    cases key with
    | work =>
      simp only [perform] at h
      split at h
      · obtain rfl := out h
        exact Change.of_reply fun hf => .xaddWork fields hf ‹_›
      · cases h
    | dlq =>
      simp only [perform] at h
      split at h
      · obtain rfl := out h
        exact Change.of_reply fun hf => .xaddDlq fields hf ‹_›
      · cases h
  | xack id =>
    obtain rfl := out h
    exact Change.of_reply fun hf => .ack id hf
  | xgroupCreate =>
    simp only [perform] at h
    split at h
    · cases h
    · obtain rfl := out h
      refine Change.of_reply fun hf => ?_
      unfold createGroup
      split
      · exact .create hf ‹_›
      · exact .refl _
  | xautoclaim n =>
    simp only [perform] at h
    split at h
    · rename_i name g hc hg
      split at h
      · obtain rfl := out h
        refine Change.of_reply fun hf => ?_
        split
        · exact .claim n name g _ _ hf hc hg ‹_› (.inr ⟨_, rfl⟩)
        · have hid : Change cfg who c s (.xautoclaim n)
              ((s.claimEntries name g c.claimed).2.modifyWorker name id) :=
            .claim n name g _ id hf hc hg ‹_› (.inl rfl)
          rwa [modifyWorker_id] at hid
      · cases h
    · obtain rfl := out h
      exact .refl _
    · cases h
  | xpending id =>
    simp only [perform] at h
    split at h
    · obtain rfl := out h
      exact Change.of_reply fun _ => .refl _
    · obtain rfl := out h
      exact .refl _
  | xreadgroup n =>
    simp only [perform] at h
    split at h
    · rename_i name g hc hg
      obtain rfl := out h
      exact Change.of_reply fun hf => .read n name g hf hc hg
    · obtain rfl := out h
      exact .refl _
    · cases h
  | inFlight id =>
    simp only [perform, bind, Option.bind_eq_some_iff] at h
    obtain ⟨_, _, _, _, h⟩ := h
    obtain rfl := out h
    exact .refl _
  | freeCapacity =>
    simp only [perform, bind, Option.bind_eq_some_iff] at h
    obtain ⟨_, _, _, _, h⟩ := h
    obtain rfl := out h
    exact .refl _
  | dispatch id fields =>
    simp only [perform, bind, Option.bind_eq_some_iff] at h
    obtain ⟨name, hc, h⟩ := h
    obtain rfl := out h
    exact .start id fields name hc
  | discard id =>
    simp only [perform, bind, Option.bind_eq_some_iff] at h
    obtain ⟨name, hc, h⟩ := h
    obtain rfl := out h
    exact .discard id name hc

theorem writeRow_cases (s : Sys) (who : Actor) (job : InferenceJob) :
    (∃ row, s.rows job.id = some row ∧ s.writeRow who job =
      (.ok (), { s with rows := Function.update s.rows job.id (some job),
                        log := s.log ++ [.wrote who job] })) ∨
    (s.rows job.id = none ∧ s.writeRow who job = (.error (.jobNotFound job.id), s)) := by
  cases h : s.rows job.id with
  | some row => exact .inl ⟨row, rfl, by simp only [writeRow, h]⟩
  | none => exact .inr ⟨rfl, by simp only [writeRow, h]⟩

theorem readRow_cases (s : Sys) (id : UUID) (now : Time) :
    (∃ job, s.rows id = some job ∧ s.readRow id now = .ok (job, now)) ∨
    (s.rows id = none ∧ s.readRow id now = .error (.jobNotFound id)) := by
  cases h : s.rows id with
  | some job => exact .inl ⟨job, rfl, by simp only [readRow, h]⟩
  | none => exact .inr ⟨rfl, by simp only [readRow, h]⟩

theorem perform_get {id : UUID} {r : Effect.Reply (.get id)}
    (h : s.perform cfg who c (.get id) = some (r, s')) :
    s' = s ∧ ((c.fate = .ok ∧ ∃ job, s.rows id = some job ∧ r = .ok (job, c.now)) ∨
      (c.fate = .ok ∧ s.rows id = none ∧ r = .error (.jobNotFound id)) ∨
      (c.fate ≠ .ok ∧ r = .error (.other c.dbError c.dbRepr))) := by
  rcases Choice.reply_eq (Option.some.inj h) with ⟨hf, hr, hs⟩ | ⟨hf, hr, hs⟩ | ⟨hf, hr, hs⟩
  · refine ⟨hs, ?_⟩
    rcases s.readRow_cases id c.now with ⟨job, hrow, hread⟩ | ⟨hrow, hread⟩
    · exact .inl ⟨hf, job, hrow, hr.trans hread⟩
    · exact .inr (.inl ⟨hf, hrow, hr.trans hread⟩)
  · exact ⟨hs, .inr (.inr ⟨by simp [hf], hr⟩)⟩
  · exact ⟨hs, .inr (.inr ⟨by simp [hf], hr⟩)⟩

theorem perform_update {job : InferenceJob} {r : Effect.Reply (.update job)}
    (h : s.perform cfg who c (.update job) = some (r, s')) :
    (c.fate ≠ .failed ∧
      (c.fate = .ok ∧ r = .ok () ∨ c.fate = .lost ∧ r = .error (.other c.dbError c.dbRepr)) ∧
      ∃ row, s.rows job.id = some row ∧
        s' = { s with rows := Function.update s.rows job.id (some job),
                      log := s.log ++ [.wrote who job] }) ∨
    (s' = s ∧ ((c.fate ≠ .ok ∧ r = .error (.other c.dbError c.dbRepr)) ∨
      (s.rows job.id = none ∧ r = .error (.jobNotFound job.id)))) := by
  rcases Choice.reply_eq (Option.some.inj h) with ⟨hf, hr, hs⟩ | ⟨hf, hr, hs⟩ | ⟨hf, hr, hs⟩
  · rcases s.writeRow_cases who job with ⟨row, hrow, hw⟩ | ⟨hrow, hw⟩ <;> rw [hw] at hr hs
    · exact .inl ⟨by simp [hf], .inl ⟨hf, hr⟩, row, hrow, hs⟩
    · exact .inr ⟨hs, .inr ⟨hrow, hr⟩⟩
  · exact .inr ⟨hs, .inl ⟨by simp [hf], hr⟩⟩
  · rcases s.writeRow_cases who job with ⟨row, hrow, hw⟩ | ⟨hrow, hw⟩ <;> rw [hw] at hs
    · exact .inl ⟨by simp [hf], .inr ⟨hf, hr⟩, row, hrow, hs⟩
    · exact .inr ⟨hs, .inl ⟨by simp [hf], hr⟩⟩

theorem perform_xaddWork {fields : Fields} {r : Effect.Reply (.xadd .work fields)}
    (h : s.perform cfg who c (.xadd .work fields) = some (r, s')) :
    s.redis.work.trimAllowed cfg.maxlen c.trim = true ∧
    ((c.fate = .ok ∧ r = .ok (s.redis.work.lastId + 1) ∧
        s' = s.appendWork (some who) fields c.trim) ∨
      (c.fate = .failed ∧ r = .error (.redis c.redisError) ∧ s' = s) ∨
      (c.fate = .lost ∧ r = .error (.redis c.redisError) ∧
        s' = s.appendWork (some who) fields c.trim)) := by
  simp only [perform] at h
  split at h
  · exact ⟨‹_›, Choice.reply_eq (Option.some.inj h)⟩
  · cases h

/-- `ensure_group` returns only when the group exists. -/
theorem perform_xgroupCreate {r : Effect.Reply .xgroupCreate}
    (h : s.perform cfg who c .xgroupCreate = some (r, s'))
    (hr : StartPoint.afterCreate r = .finished (.ok ())) : s'.redis.group ≠ none := by
  simp only [perform] at h
  split at h
  · cases h
  · rename_i hbusy
    rcases Choice.reply_eq (Option.some.inj h) with ⟨hf, rfl, rfl⟩ | ⟨hf, rfl, _⟩ | ⟨hf, rfl, _⟩
    · unfold createGroup
      split
      · simp [setGroup]
      · rename_i g hg
        simp [hg]
    all_goals
      have hnot : c.redisError.isBusyGroup = false := by simpa [hf] using hbusy
      simp [StartPoint.afterCreate, hnot] at hr

/-! ### Steps of the actors -/

theorem await_eq_some {α X : Type} {put : X → Sys → Sys} {node : Step α X} :
    s.await cfg who c put node = some s' ↔
      ∃ e k r s₁, node = .await e k ∧ s.perform cfg who c e = some (r, s₁) ∧
        s' = put (k r) s₁ := by
  cases node with
  | done a => simp [await]
  | await e k =>
    simp only [await, Option.map_eq_some_iff]
    constructor
    · rintro ⟨⟨r, s₁⟩, h, rfl⟩
      exact ⟨e, k, r, s₁, rfl, h, rfl⟩
    · rintro ⟨_, _, r, s₁, hnode, h, rfl⟩
      cases hnode
      exact ⟨(r, s₁), h, rfl⟩

/-- What an action does, actor by actor. -/
inductive Stepped (cfg : Settings) (s : Sys) : Act → Sys → Prop
  | submit (ty : JobType) (payload : List (Text × Json)) (id : UUID) (created updated : Time)
      (hfresh : s.submissions id = none) :
      Stepped cfg s (.submit ty payload id created updated)
        (s.setSubmission (InferenceJob.new ty payload id created updated) .adding)
  | start (name : ConsumerName) (hfresh : s.workers name = none) :
      Stepped cfg s (.start name)
        { s with workers :=
            Function.update s.workers name (some { stage := .starting .creating }) }
  | pass (name : ConsumerName) (w : Worker) (hw : s.workers name = some w)
      (hstage : w.stage = .starting (.finished (.ok ())) ∨
        ∃ outcome, w.stage = .looping (.finished outcome)) :
      Stepped cfg s (.pass name) (s.setStage name (.looping .reclaimCapacity))
  | submission (id : UUID) (c : Choice) (job : InferenceJob) (p : SubmitPoint) (e : Effect)
      (k : e.Reply → SubmitPoint) (r : e.Reply) (s₁ : Sys)
      (hsub : s.submissions id = some (job, p))
      (hnode : p.node cfg.retryMaxAttempts job = .await e k)
      (hperf : s.perform cfg (.submission id) c e = some (r, s₁)) :
      Stepped cfg s (.resume (.submission id) c) (s₁.setSubmission job (k r))
  | starting (name : ConsumerName) (c : Choice) (w : Worker) (p : StartPoint) (e : Effect)
      (k : e.Reply → StartPoint) (r : e.Reply) (s₁ : Sys) (hw : s.workers name = some w)
      (hstage : w.stage = .starting p) (hnode : p.node = .await e k)
      (hperf : s.perform cfg (.worker name) c e = some (r, s₁)) :
      Stepped cfg s (.resume (.worker name) c) (s₁.setStage name (.starting (k r)))
  | looping (name : ConsumerName) (c : Choice) (w : Worker) (p : PassPoint) (e : Effect)
      (k : e.Reply → PassPoint) (r : e.Reply) (s₁ : Sys) (hw : s.workers name = some w)
      (hstage : w.stage = .looping p) (hnode : p.node cfg.toBrokerSettings = .await e k)
      (hperf : s.perform cfg (.worker name) c e = some (r, s₁)) :
      Stepped cfg s (.resume (.worker name) c) (s₁.setStage name (.looping (k r)))
  | task (t : Nat) (c : Choice) (name : ConsumerName) (id : Nat) (m : JobMessage)
      (p : TaskPoint) (w : Worker) (q : PassPoint) (e : Effect) (k : e.Reply → TaskPoint)
      (r : e.Reply) (s₁ : Sys) (htask : s.tasks t = some ⟨name, id, .handling m p⟩)
      (hw : s.workers name = some w) (hstage : w.stage = .looping q)
      (hnode : p.node cfg.toBrokerSettings id m = .await e k)
      (hperf : s.perform cfg (.task t) c e = some (r, s₁)) :
      Stepped cfg s (.resume (.task t) c) (s₁.setTask t ⟨name, id, .handling m (k r)⟩)
  | reap (t : Nat) (τ : Task) (htask : s.tasks t = some τ) (hdone : τ.body.isDone = true) :
      Stepped cfg s (.reap t) (s.modifyWorker τ.consumer fun w =>
        { w with inFlight := w.inFlight.filter (· ≠ t) })
  | crash (name : ConsumerName) (w : Worker) (hw : s.workers name = some w) :
      Stepped cfg s (.crash name) (s.setStage name .down)
  | inject (fields : Fields) (trim : Nat)
      (htrim : s.redis.work.trimAllowed cfg.maxlen trim = true) :
      Stepped cfg s (.inject fields trim) (s.appendWork none fields trim)

theorem resume_cases {who : Actor} (h : s.resume cfg c who = some s') :
    Stepped cfg s (.resume who c) s' := by
  cases who with
  | submission id =>
    simp only [resume] at h
    split at h
    · rename_i job p hsub
      obtain ⟨e, k, r, s₁, hnode, hperf, rfl⟩ := await_eq_some.mp h
      exact .submission id c job p e k r s₁ hsub hnode hperf
    · cases h
  | worker name =>
    simp only [resume] at h
    split at h
    · rename_i p _ _ _ hw
      obtain ⟨e, k, r, s₁, hnode, hperf, rfl⟩ := await_eq_some.mp h
      exact .starting name c _ p e k r s₁ hw rfl hnode hperf
    · rename_i p _ _ _ hw
      obtain ⟨e, k, r, s₁, hnode, hperf, rfl⟩ := await_eq_some.mp h
      exact .looping name c _ p e k r s₁ hw rfl hnode hperf
    · cases h
  | task t =>
    simp only [resume] at h
    split at h
    · rename_i name id m p htask
      split at h
      · rename_i q _ _ _ hw
        obtain ⟨e, k, r, s₁, hnode, hperf, rfl⟩ := await_eq_some.mp h
        exact .task t c name id m p _ q e k r s₁ htask hw rfl hnode hperf
      · cases h
    · cases h

theorem step_cases {a : Act} (h : step cfg s a = some s') : Stepped cfg s a s' := by
  cases a with
  | resume who c => exact resume_cases h
  | submit ty payload id created updated =>
    simp only [step] at h
    split at h
    · cases h
      exact .submit ty payload id created updated (Option.isNone_iff_eq_none.mp ‹_›)
    · cases h
  | start name =>
    simp only [step] at h
    split at h
    · cases h
      exact .start name (Option.isNone_iff_eq_none.mp ‹_›)
    · cases h
  | pass name =>
    simp only [step] at h
    split at h
    · rename_i hw
      cases h
      exact .pass name _ hw (.inl rfl)
    · rename_i hw
      cases h
      exact .pass name _ hw (.inr ⟨_, rfl⟩)
    · cases h
  | reap t =>
    simp only [step] at h
    split at h
    · split at h
      · cases h
        exact .reap t _ ‹_› ‹_›
      · cases h
    · cases h
  | crash name =>
    simp only [step] at h
    split at h
    · cases h
      obtain ⟨w, hw⟩ := Option.isSome_iff_exists.mp ‹_›
      exact .crash name w hw
    · cases h
  | inject fields trim =>
    simp only [step] at h
    split at h
    · cases h
      exact .inject fields trim ‹_›
    · cases h

theorem Stepped.step {a : Act} (h : Stepped cfg s a s') : InferenceEngine.step cfg s a = some s' := by
  cases h with
  | submit ty payload id created updated hfresh =>
    simp only [InferenceEngine.step, hfresh, Option.isNone_none, if_true]
  | start name hfresh => simp only [InferenceEngine.step, hfresh, Option.isNone_none, if_true]
  | pass name w hw hstage =>
    obtain ⟨stage, ids, flight, cursor⟩ := w
    rcases hstage with rfl | ⟨outcome, rfl⟩ <;> simp only [InferenceEngine.step, hw]
  | submission id c job p e k r s₁ hsub hnode hperf =>
    simp only [InferenceEngine.step, resume, hsub]
    exact await_eq_some.mpr ⟨e, k, r, s₁, hnode, hperf, rfl⟩
  | starting name c w p e k r s₁ hw hstage hnode hperf
  | looping name c w p e k r s₁ hw hstage hnode hperf =>
    obtain ⟨stage, ids, flight, cursor⟩ := w
    obtain rfl := hstage
    simp only [InferenceEngine.step, resume, hw]
    exact await_eq_some.mpr ⟨e, k, r, s₁, hnode, hperf, rfl⟩
  | task t c name id m p w q e k r s₁ htask hw hstage hnode hperf =>
    obtain ⟨stage, ids, flight, cursor⟩ := w
    obtain rfl := hstage
    simp only [InferenceEngine.step, resume, htask, hw]
    exact await_eq_some.mpr ⟨e, k, r, s₁, hnode, hperf, rfl⟩
  | reap t τ htask hdone => simp only [InferenceEngine.step, htask, hdone, if_true]
  | crash name w hw => simp only [InferenceEngine.step, hw, Option.isSome_some, if_true]
  | inject fields trim htrim => simp only [InferenceEngine.step, htrim, if_true]

/-! ### What stays -/

@[simp] theorem setSubmission_submissions (s : Sys) (job : InferenceJob) (p : SubmitPoint) :
    (s.setSubmission job p).submissions =
      Function.update s.submissions job.id (some (job, p)) := rfl
@[simp] theorem setSubmission_rows (s : Sys) (job : InferenceJob) (p : SubmitPoint) :
    (s.setSubmission job p).rows = s.rows := rfl
@[simp] theorem setSubmission_redis (s : Sys) (job : InferenceJob) (p : SubmitPoint) :
    (s.setSubmission job p).redis = s.redis := rfl
@[simp] theorem setSubmission_workers (s : Sys) (job : InferenceJob) (p : SubmitPoint) :
    (s.setSubmission job p).workers = s.workers := rfl
@[simp] theorem setSubmission_tasks (s : Sys) (job : InferenceJob) (p : SubmitPoint) :
    (s.setSubmission job p).tasks = s.tasks := rfl
@[simp] theorem setSubmission_nextTask (s : Sys) (job : InferenceJob) (p : SubmitPoint) :
    (s.setSubmission job p).nextTask = s.nextTask := rfl
@[simp] theorem setSubmission_log (s : Sys) (job : InferenceJob) (p : SubmitPoint) :
    (s.setSubmission job p).log = s.log := rfl

@[simp] theorem setTask_tasks (s : Sys) (t : Nat) (τ : Task) :
    (s.setTask t τ).tasks = Function.update s.tasks t (some τ) := rfl
@[simp] theorem setTask_submissions (s : Sys) (t : Nat) (τ : Task) :
    (s.setTask t τ).submissions = s.submissions := rfl
@[simp] theorem setTask_rows (s : Sys) (t : Nat) (τ : Task) :
    (s.setTask t τ).rows = s.rows := rfl
@[simp] theorem setTask_redis (s : Sys) (t : Nat) (τ : Task) :
    (s.setTask t τ).redis = s.redis := rfl
@[simp] theorem setTask_workers (s : Sys) (t : Nat) (τ : Task) :
    (s.setTask t τ).workers = s.workers := rfl
@[simp] theorem setTask_nextTask (s : Sys) (t : Nat) (τ : Task) :
    (s.setTask t τ).nextTask = s.nextTask := rfl
@[simp] theorem setTask_log (s : Sys) (t : Nat) (τ : Task) :
    (s.setTask t τ).log = s.log := rfl

@[simp] theorem modifyWorker_workers (s : Sys) (name : ConsumerName) (f : Worker → Worker) :
    (s.modifyWorker name f).workers =
      Function.update s.workers name ((s.workers name).map f) := rfl
@[simp] theorem modifyWorker_submissions (s : Sys) (name : ConsumerName) (f : Worker → Worker) :
    (s.modifyWorker name f).submissions = s.submissions := rfl
@[simp] theorem modifyWorker_rows (s : Sys) (name : ConsumerName) (f : Worker → Worker) :
    (s.modifyWorker name f).rows = s.rows := rfl
@[simp] theorem modifyWorker_redis (s : Sys) (name : ConsumerName) (f : Worker → Worker) :
    (s.modifyWorker name f).redis = s.redis := rfl
@[simp] theorem modifyWorker_tasks (s : Sys) (name : ConsumerName) (f : Worker → Worker) :
    (s.modifyWorker name f).tasks = s.tasks := rfl
@[simp] theorem modifyWorker_nextTask (s : Sys) (name : ConsumerName) (f : Worker → Worker) :
    (s.modifyWorker name f).nextTask = s.nextTask := rfl
@[simp] theorem modifyWorker_log (s : Sys) (name : ConsumerName) (f : Worker → Worker) :
    (s.modifyWorker name f).log = s.log := rfl

theorem Change.submissions {e : Effect} (h : Change cfg who c s e s') :
    s'.submissions = s.submissions := by
  cases h <;> rfl

theorem Change.rows {e : Effect} (h : Change cfg who c s e s') :
    s'.rows = s.rows ∨
      (∃ job, e = .add job ∧ s.rows job.id = none ∧
        s'.rows = Function.update s.rows job.id (some job)) ∨
      (∃ job row, e = .update job ∧ s.rows job.id = some row ∧
        s'.rows = Function.update s.rows job.id (some job)) := by
  cases h with
  | insert job hf h => exact .inr (.inl ⟨job, rfl, h, rfl⟩)
  | write job row hf h => exact .inr (.inr ⟨job, row, rfl, h, rfl⟩)
  | _ => exact .inl rfl

theorem Change.tasks {e : Effect} (h : Change cfg who c s e s') :
    (s'.tasks = s.tasks ∧ s'.nextTask = s.nextTask) ∨
      (∃ id fields name, e = .dispatch id fields ∧ s.consumer who = some name ∧
        s' = s.startTask name id fields) := by
  cases h with
  | start id fields name hc => exact .inr ⟨id, fields, name, rfl, hc, rfl⟩
  | _ => exact .inl ⟨rfl, rfl⟩

@[simp] theorem startTask_tasks (s : Sys) (name : ConsumerName) (id : Nat)
    (fields : Fields) :
    (s.startTask name id fields).tasks =
      Function.update s.tasks s.nextTask (some ⟨name, id, .of fields⟩) := rfl

theorem Change.stream {e : Effect} (h : Change cfg who c s e s') :
    (s'.redis.work = s.redis.work ∧
      ∃ es, s'.log = s.log ++ es ∧ ∀ who e, Event.appended who e ∉ es) ∨
    (∃ fields, e = .xadd .work fields ∧ s.redis.work.trimAllowed cfg.maxlen c.trim = true ∧
      s' = s.appendWork (some who) fields c.trim) := by
  have one : ∀ ev : Event, (∀ who e, ev ≠ .appended who e) →
      ∃ es, s.log ++ [ev] = s.log ++ es ∧ ∀ who e, Event.appended who e ∉ es := by
    intro ev hev
    exact ⟨[ev], rfl, fun who e he => hev who e (List.mem_singleton.mp he).symm⟩
  have same : ∃ es, s.log = s.log ++ es ∧ ∀ who e, Event.appended who e ∉ es :=
    ⟨[], (List.append_nil _).symm, fun _ _ h => by cases h⟩
  cases h with
  | xaddWork fields hf h => exact .inr ⟨fields, rfl, h, rfl⟩
  | write | ran | xaddDlq | ack => exact .inl ⟨rfl, one _ fun _ _ h => by cases h⟩
  | read n name g hf hc hg =>
    refine .inl ⟨rfl, _, rfl, fun who e he => ?_⟩
    obtain ⟨e', _, he'⟩ := List.mem_map.mp he
    cases he'
  | _ => exact .inl ⟨rfl, same⟩

theorem Change.group {e : Effect} (h : Change cfg who c s e s') :
    s'.redis.group.map (·.lastDelivered) = s.redis.group.map (·.lastDelivered) ∨
    (e = .xgroupCreate ∧ c.fate ≠ .failed ∧ s.redis.group = none ∧
      s' = s.setGroup { lastDelivered := s.redis.work.lastId }) ∨
    (∃ n name g, s.redis.group = some g ∧ s' = (s.readGroup name g n).2) := by
  cases h with
  | create hf h => exact .inr (.inl ⟨rfl, hf, h, rfl⟩)
  | read n name g hf hc hg => exact .inr (.inr ⟨n, name, g, hg, rfl⟩)
  | ack id hf =>
    left
    cases hg : s.redis.group <;> simp [Sys.ackEntry, hg]
  | claim n name g start f hf hc hg h hw =>
    left
    simp [Sys.claimEntries, Sys.setGroup, Sys.modifyWorker, hg]
  | _ => exact .inl rfl

/-- The pending list changes by `XACK`, by `XAUTOCLAIM` of entries that are gone, and by
`XREADGROUP`. -/
theorem Change.pending {e : Effect} (h : Change cfg who c s e s') (id : Nat) :
    s'.redis.isPending id = s.redis.isPending id ∨
    (e = .xack id ∧ c.fate ≠ .failed ∧ s' = s.ackEntry who id) ∨
    (∃ n, e = .xautoclaim n ∧ id ∈ c.claimed ∧
      s'.redis.isPending id = (s.redis.isPending id && s.redis.work.has id)) ∨
    (∃ n name g, e = .xreadgroup n ∧ s.redis.group = some g ∧ s' = (s.readGroup name g n).2) := by
  cases h with
  | ack id' hf =>
    by_cases hid : id = id'
    · subst hid
      exact .inr (.inl ⟨rfl, hf, rfl⟩)
    · left
      cases hg : s.redis.group <;> simp [Redis.isPending, ackEntry, hg, Group.isPending_ack, hid]
  | create hf h =>
    left
    simp [Redis.isPending, setGroup, h, Group.isPending]
  | claim n name g start f hf hc hg h hw =>
    by_cases hid : id ∈ c.claimed
    · refine .inr (.inr (.inl ⟨n, rfl, hid, ?_⟩))
      simp [Redis.isPending, claimEntries, setGroup, modifyWorker, hg, Group.isPending_claim, hid,
        Stream.has]
    · left
      simp [Redis.isPending, claimEntries, setGroup, modifyWorker, hg, Group.isPending_claim, hid]
  | read n name g hf hc hg => exact .inr (.inr (.inr ⟨n, name, g, rfl, hg, rfl⟩))
  | _ => exact .inl rfl

theorem Change.log {e : Effect} (h : Change cfg who c s e s') :
    ∃ es, s'.log = s.log ++ es ∧ ∀ ev ∈ es, ev.actor = none ∨ ev.actor = some who := by
  have one : ∀ ev : Event, ev.actor = some who →
      ∀ ev' ∈ [ev], ev'.actor = none ∨ ev'.actor = some who := by
    intro ev hev ev' hmem
    exact .inr (List.mem_singleton.mp hmem ▸ hev)
  cases h with
  | write | xaddWork | xaddDlq | ack => exact ⟨_, rfl, one _ rfl⟩
  | ran t job h => exact ⟨_, rfl, one _ (congrArg some h.symm)⟩
  | read n name g hf hc hg =>
    refine ⟨_, rfl, fun ev hev => .inl ?_⟩
    obtain ⟨e, _, rfl⟩ := List.mem_map.mp hev
    rfl
  | _ => exact ⟨[], (List.append_nil _).symm, fun _ h => by cases h⟩

theorem Change.stage {e : Effect} (h : Change cfg who c s e s') (name : ConsumerName) :
    s'.stageOf name = s.stageOf name := by
  have modify : ∀ (c : ConsumerName) (f : Worker → Worker), (∀ w, (f w).stage = w.stage) →
      (Function.update s.workers c ((s.workers c).map f) name).map (·.stage) =
        (s.workers name).map (·.stage) := by
    intro c f hf
    by_cases hn : name = c
    · subst hn
      simp [Function.comp_def, hf]
    · simp [Function.update_of_ne hn]
  cases h with
  | claim n c g start f hf hc hg h hw =>
    rcases hw with rfl | ⟨cursor, rfl⟩
    · exact modify c id fun _ => rfl
    · exact modify c _ fun _ => rfl
  | start id fields c hc => exact modify c _ fun _ => rfl
  | discard id c hc => exact modify c _ fun _ => rfl
  | _ => rfl

end Sys

/-! ### Rows and tasks across one action -/

/-- The copy a point is about to write, with the copy it was derived from. -/
def TaskPoint.write : TaskPoint → Option (InferenceJob × InferenceJob)
  | writeRunning seen job => some (seen, job)
  | writeSuccess seen job => some (seen, job)
  | writePending seen job => some (seen, job)
  | writeFailed seen job => some (seen, job)
  | _ => none

theorem TaskPoint.write_of_node {cfg : BrokerSettings} {id : Nat} {m : JobMessage}
    {p : TaskPoint} {job : InferenceJob} {k : Effect.Reply (.update job) → TaskPoint}
    (h : p.node cfg id m = .await (.update job) k) : ∃ seen, p.write = some (seen, job) := by
  cases p <;> cases h <;> exact ⟨_, rfl⟩

theorem TaskPoint.node_of_write (cfg : BrokerSettings) (id : Nat) (m : JobMessage)
    {p : TaskPoint} {seen job : InferenceJob} (h : p.write = some (seen, job)) :
    ∃ k, p.node cfg id m = .await (.update job) k := by
  cases p <;> cases h <;> exact ⟨_, rfl⟩

theorem SubmitPoint.node_ne_update {n : Nat} {job job' : InferenceJob} {p : SubmitPoint}
    {k : Effect.Reply (.update job') → SubmitPoint} : p.node n job ≠ .await (.update job') k := by
  intro h
  cases p <;> cases h

theorem SubmitPoint.adding_of_node {n : Nat} {job job' : InferenceJob} {p : SubmitPoint}
    {k : Effect.Reply (.add job') → SubmitPoint} (h : p.node n job = .await (.add job') k) :
    p = .adding ∧ job' = job := by
  cases p <;> cases h
  exact ⟨rfl, rfl⟩

section
variable {cfg : Settings} {s s' : Sys} {a : Act}

/-- The table changes by a submission's insert and by the writes of the tasks. -/
theorem step_rows (h : step cfg s a = some s') :
    s'.rows = s.rows ∨
      (∃ id c job, a = .resume (.submission id) c ∧ s.submissions id = some (job, .adding) ∧
        s.rows job.id = none ∧ s'.rows = Function.update s.rows job.id (some job)) ∨
      (∃ t c name id m p seen job row, a = .resume (.task t) c ∧
        c.fate ≠ .failed ∧ s.tasks t = some ⟨name, id, .handling m p⟩ ∧
        p.write = some (seen, job) ∧ s.rows job.id = some row ∧
        s'.rows = Function.update s.rows job.id (some job)) := by
  cases Sys.step_cases h with
  | submission id c job p e k r s₁ hsub hnode hperf =>
    rcases (Sys.perform_change hperf).rows with hr | ⟨job', rfl, hnone, hr⟩ |
      ⟨job', row, rfl, _, _⟩
    · exact .inl hr
    · obtain ⟨rfl, rfl⟩ := SubmitPoint.adding_of_node hnode
      exact .inr (.inl ⟨id, c, _, rfl, hsub, hnone, hr⟩)
    · exact absurd hnode SubmitPoint.node_ne_update
  | starting name c w p e k r s₁ hw hstage hnode hperf
  | looping name c w p e k r s₁ hw hstage hnode hperf =>
    rcases (Sys.perform_change hperf).rows with hr | ⟨job, rfl, _⟩ | ⟨job, row, rfl, _⟩
    · exact .inl hr
    all_goals cases p <;> cases hnode
  | task t c name id m p w q e k r s₁ htask hw hstage hnode hperf =>
    rcases (Sys.perform_change hperf).rows with hr | ⟨job, rfl, _⟩ | ⟨job, row, rfl, hrow, hr⟩
    · exact .inl hr
    · cases p <;> cases hnode
    · obtain ⟨seen, hwrite⟩ := TaskPoint.write_of_node hnode
      rcases Sys.perform_update hperf with ⟨hfate, _, _⟩ | ⟨rfl, _⟩
      · exact .inr (.inr
          ⟨t, c, name, id, m, p, seen, job, row, rfl, hfate, htask, hwrite, hrow, hr⟩)
      · exact .inl rfl
  | _ => exact .inl rfl

def PassPoint.dispatches : PassPoint → Option StreamEntry
  | dispatchClaimed e _ => some e
  | dispatchNew e _ _ => some e
  | _ => none

theorem step_tasks (h : step cfg s a = some s') :
    (s'.tasks = s.tasks ∧ s'.nextTask = s.nextTask) ∨
      (∃ name c w p e, a = .resume (.worker name) c ∧ s.workers name = some w ∧
        w.stage = .looping p ∧ p.dispatches = some e ∧ s'.nextTask = s.nextTask + 1 ∧
        s'.tasks = Function.update s.tasks s.nextTask (some ⟨name, e.id, .of e.fields⟩)) ∨
      (∃ t c name id m p, ∃ (e : Effect) (k : e.Reply → TaskPoint) (r : e.Reply) (s₁ : Sys),
        a = .resume (.task t) c ∧ s.tasks t = some ⟨name, id, .handling m p⟩ ∧
        p.node cfg.toBrokerSettings id m = .await e k ∧
        s.perform cfg (.task t) c e = some (r, s₁) ∧ s'.nextTask = s.nextTask ∧
        s'.tasks = Function.update s.tasks t (some ⟨name, id, .handling m (k r)⟩)) := by
  cases Sys.step_cases h with
  | submission id c job p e k r s₁ hsub hnode hperf =>
    rcases (Sys.perform_change hperf).tasks with hs | ⟨id, fields, name, rfl, _⟩
    · exact .inl hs
    · cases p <;> cases hnode
  | starting name c w p e k r s₁ hw hstage hnode hperf =>
    rcases (Sys.perform_change hperf).tasks with hs | ⟨id, fields, name, rfl, _⟩
    · exact .inl hs
    · cases p <;> cases hnode
  | looping name c w p e k r s₁ hw hstage hnode hperf =>
    rcases (Sys.perform_change hperf).tasks with hs | ⟨id, fields, name', rfl, hc, rfl⟩
    · exact .inl hs
    · cases hc
      cases p with
      | dispatchClaimed e rest =>
        cases hnode
        exact .inr (.inl ⟨name, c, w, _, e, rfl, hw, hstage, rfl, rfl, rfl⟩)
      | dispatchNew e rest total =>
        cases hnode
        exact .inr (.inl ⟨name, c, w, _, e, rfl, hw, hstage, rfl, rfl, rfl⟩)
      | _ => cases hnode
  | task t c name id m p w q e k r s₁ htask hw hstage hnode hperf =>
    rcases (Sys.perform_change hperf).tasks with ⟨hs, hn⟩ | ⟨id, fields, name, rfl, _⟩
    · refine .inr (.inr ⟨t, c, name, id, m, p, e, k, r, s₁, rfl, htask, hnode, hperf, hn, ?_⟩)
      rw [Sys.setTask_tasks, hs]
    · cases p <;> cases hnode
  | _ => exact .inl ⟨rfl, rfl⟩

/-- How many old entries an action may cut off a stream. -/
def Act.trim : Act → Nat
  | .resume _ c => c.trim
  | .inject _ trim => trim
  | _ => 0

theorem step_work (h : step cfg s a = some s') :
    (s'.redis.work = s.redis.work ∧
      ∃ es, s'.log = s.log ++ es ∧ ∀ who e, Event.appended who e ∉ es) ∨
    (∃ who fields, s.redis.work.trimAllowed cfg.maxlen a.trim = true ∧
      s'.redis = { s.redis with work := s.redis.work.add fields a.trim } ∧
      s'.log = s.log ++ [.appended who (Sys.nextEntry s.redis.work fields)]) := by
  have same : ∃ es, s.log = s.log ++ es ∧ ∀ who e, Event.appended who e ∉ es :=
    ⟨[], (List.append_nil _).symm, fun _ _ h => by cases h⟩
  cases Sys.step_cases h with
  | submission id c job p e k r s₁ hsub hnode hperf
  | starting name c w p e k r s₁ hw hstage hnode hperf
  | looping name c w p e k r s₁ hw hstage hnode hperf
  | task t c name id m p w q e k r s₁ htask hw hstage hnode hperf =>
    rcases (Sys.perform_change hperf).stream with hsame | ⟨fields, rfl, hallowed, rfl⟩
    · exact .inl hsame
    · exact .inr ⟨_, fields, hallowed, rfl, rfl⟩
  | inject fields trim htrim => exact .inr ⟨none, fields, htrim, rfl, rfl⟩
  | _ => exact .inl ⟨rfl, same⟩

theorem step_log (h : step cfg s a = some s') :
    ∃ es, s'.log = s.log ++ es ∧
      ∀ ev ∈ es, ev.actor = none ∨ ∃ who c, a = .resume who c ∧ ev.actor = some who := by
  have none : ∃ es, s.log = s.log ++ es ∧
      ∀ ev ∈ es, ev.actor = none ∨ ∃ who c, a = .resume who c ∧ ev.actor = some who :=
    ⟨[], (List.append_nil _).symm, fun _ h => by cases h⟩
  cases Sys.step_cases h with
  | submission id c job p e k r s₁ hsub hnode hperf
  | starting name c w p e k r s₁ hw hstage hnode hperf
  | looping name c w p e k r s₁ hw hstage hnode hperf
  | task t c name id m p w q e k r s₁ htask hw hstage hnode hperf =>
    obtain ⟨es, hes, hactor⟩ := (Sys.perform_change hperf).log
    refine ⟨es, hes, fun ev hev => ?_⟩
    rcases hactor ev hev with h | h
    · exact .inl h
    · exact .inr ⟨_, _, rfl, h⟩
  | inject fields trim htrim =>
    refine ⟨_, rfl, fun ev hev => .inl ?_⟩
    rw [List.mem_singleton.mp hev]
    rfl
  | _ => exact none

theorem log_mem_of_step (h : step cfg s a = some s') {ev : Event} (hev : ev ∈ s.log) :
    ev ∈ s'.log := by
  obtain ⟨es, hlog, _⟩ := step_log h
  exact hlog ▸ List.mem_append_left _ hev

theorem step_group (h : step cfg s a = some s') :
    s'.redis.group.map (·.lastDelivered) = s.redis.group.map (·.lastDelivered) ∨
    (∃ name c w, a = .resume (.worker name) c ∧ c.fate ≠ .failed ∧
      s.workers name = some w ∧ w.stage = .starting .creating ∧ s.redis.group = none ∧
      s'.redis = { s.redis with group := some { lastDelivered := s.redis.work.lastId } } ∧
      s'.log = s.log) ∨
    (∃ n name g, s.redis.group = some g ∧ s'.redis = (s.readGroup name g n).2.redis ∧
      s'.log = (s.readGroup name g n).2.log) := by
  cases Sys.step_cases h with
  | submission id c job p e k r s₁ hsub hnode hperf
  | looping name c w p e k r s₁ hw hstage hnode hperf
  | task t c name id m p w q e k r s₁ htask hw hstage hnode hperf =>
    rcases (Sys.perform_change hperf).group with hg | ⟨rfl, _⟩ | ⟨n, name, g, hg, rfl⟩
    · exact .inl hg
    · cases p <;> cases hnode
    · exact .inr (.inr ⟨n, name, g, hg, rfl, rfl⟩)
  | starting name c w p e k r s₁ hw hstage hnode hperf =>
    rcases (Sys.perform_change hperf).group with hg | ⟨rfl, hf, hnone, rfl⟩ |
      ⟨n, name, g, hg, rfl⟩
    · exact .inl hg
    · cases p <;> cases hnode
      exact .inr (.inl ⟨name, c, w, rfl, hf, hw, hstage, hnone, rfl, rfl⟩)
    · exact .inr (.inr ⟨n, name, g, hg, rfl, rfl⟩)
  | _ => exact .inl rfl

theorem group_ne_none_of_step (h : step cfg s a = some s') (hg : s.redis.group ≠ none) :
    s'.redis.group ≠ none := by
  intro hnone
  rcases step_group h with hmap | ⟨_, _, _, _, _, _, _, hnone', _⟩ | ⟨_, _, _, _, hredis, _⟩
  · rw [hnone, Option.map_none] at hmap
    exact hg (Option.map_eq_none_iff.mp hmap.symm)
  · exact hg hnone'
  · rw [hredis] at hnone
    cases hnone

def TaskPoint.acks : TaskPoint → Bool
  | skipAck | successAck | retryAck | deadLetterAck _ => true
  | _ => false

/-- An entry leaves the pending list by the `XACK` of a handler or of a pass, or when it is
claimed after it was trimmed; it enters the list by a read. -/
theorem step_pending (h : step cfg s a = some s') (id : Nat) :
    s'.redis.isPending id = s.redis.isPending id ∨
    (∃ t c name m p, a = .resume (.task t) c ∧ c.fate ≠ .failed ∧
      s.tasks t = some ⟨name, id, .handling m p⟩ ∧ p.acks = true ∧
      s'.redis.isPending id = false ∧ s'.log = s.log ++ [.acked (.task t) id]) ∨
    (∃ name c e rest, a = .resume (.worker name) c ∧ e.id = id ∧
      s.stageOf name = some (.looping (.poisonAck e rest)) ∧ s'.redis.isPending id = false) ∨
    (s'.redis.isPending id = (s.redis.isPending id && s.redis.work.has id)) ∨
    (∃ n name g, s.redis.group = some g ∧ s'.redis = (s.readGroup name g n).2.redis) := by
  have acked : ∀ who, (s.ackEntry who id).redis.isPending id = false := by
    intro who
    cases hg : s.redis.group <;> simp [Redis.isPending, Sys.ackEntry, hg, Group.isPending_ack]
  cases Sys.step_cases h with
  | submission id' c job p e k r s₁ hsub hnode hperf
  | starting name c w p e k r s₁ hw hstage hnode hperf =>
    rcases (Sys.perform_change hperf).pending id with hp | ⟨rfl, _, _⟩ | ⟨n, rfl, _, hp⟩ |
      ⟨n, name, g, rfl, hg, rfl⟩
    · exact .inl hp
    · cases p <;> cases hnode
    · exact .inr (.inr (.inr (.inl hp)))
    · exact .inr (.inr (.inr (.inr ⟨n, name, g, hg, rfl⟩)))
  | looping name c w p e k r s₁ hw hstage hnode hperf =>
    rcases (Sys.perform_change hperf).pending id with hp | ⟨rfl, _, rfl⟩ | ⟨n, rfl, _, hp⟩ |
      ⟨n, name, g, rfl, hg, rfl⟩
    · exact .inl hp
    · cases p with
      | poisonAck e rest =>
        cases hnode
        refine .inr (.inr (.inl ⟨name, c, e, rest, rfl, rfl, ?_, acked (.worker name)⟩))
        rw [Sys.stageOf, hw, Option.map_some, hstage]
      | _ => cases hnode
    · exact .inr (.inr (.inr (.inl hp)))
    · exact .inr (.inr (.inr (.inr ⟨n, name, g, hg, rfl⟩)))
  | task t c name id' m p w q e k r s₁ htask hw hstage hnode hperf =>
    rcases (Sys.perform_change hperf).pending id with hp | ⟨rfl, hf, rfl⟩ | ⟨n, rfl, _, hp⟩ |
      ⟨n, name, g, rfl, hg, rfl⟩
    · exact .inl hp
    · have hack : p.acks = true ∧ id' = id := by
        cases p <;> cases hnode <;> exact ⟨rfl, rfl⟩
      obtain ⟨hack, rfl⟩ := hack
      exact .inr (.inl ⟨t, c, name, m, p, rfl, hf, htask, hack, acked (.task t), rfl⟩)
    · exact .inr (.inr (.inr (.inl hp)))
    · exact .inr (.inr (.inr (.inr ⟨n, name, g, hg, rfl⟩)))
  | _ => exact .inl rfl

theorem Sys.stageOf_setStage (s : Sys) (name name' : ConsumerName) (stage : Stage) :
    (s.setStage name stage).stageOf name' =
      if name' = name then (s.workers name).map fun _ => stage else s.stageOf name' := by
  by_cases hn : name' = name
  · subst hn
    simp [stageOf, setStage, Function.comp_def]
  · simp [stageOf, setStage, hn]

theorem step_stage (h : step cfg s a = some s') (name : ConsumerName) :
    s'.stageOf name = s.stageOf name ∨
    (a = .start name ∧ s.stageOf name = none ∧
      s'.stageOf name = some (.starting .creating)) ∨
    (a = .pass name ∧ (s.stageOf name = some (.starting (.finished (.ok ()))) ∨
        ∃ outcome, s.stageOf name = some (.looping (.finished outcome))) ∧
      s'.stageOf name = some (.looping .reclaimCapacity)) ∨
    (∃ c p, ∃ (e : Effect) (k : e.Reply → StartPoint) (r : e.Reply) (s₁ : Sys),
      a = .resume (.worker name) c ∧ s.stageOf name = some (.starting p) ∧
      p.node = .await e k ∧ s.perform cfg (.worker name) c e = some (r, s₁) ∧
      s' = s₁.setStage name (.starting (k r)) ∧ s'.stageOf name = some (.starting (k r))) ∨
    (∃ c p, ∃ (e : Effect) (k : e.Reply → PassPoint) (r : e.Reply) (s₁ : Sys),
      a = .resume (.worker name) c ∧ s.stageOf name = some (.looping p) ∧
      p.node cfg.toBrokerSettings = .await e k ∧
      s.perform cfg (.worker name) c e = some (r, s₁) ∧
      s' = s₁.setStage name (.looping (k r)) ∧ s'.stageOf name = some (.looping (k r))) ∨
    (a = .crash name ∧ s'.stageOf name = some .down) := by
  have present : ∀ {w : Worker} {stage' : Stage} {s₁ : Sys}, s.workers name = some w →
      s₁.stageOf name = s.stageOf name →
      (s₁.setStage name stage').stageOf name = some stage' := by
    intro w stage' s₁ hw hs₁
    have hsome : s.stageOf name = some w.stage := by rw [Sys.stageOf, hw, Option.map_some]
    rw [hsome] at hs₁
    obtain ⟨w₁, hw₁, _⟩ := Option.map_eq_some_iff.mp hs₁
    rw [Sys.stageOf_setStage, if_pos rfl, hw₁, Option.map_some]
  cases Sys.step_cases h with
  | submission id c job p e k r s₁ hsub hnode hperf
  | task t c name' id m p w q e k r s₁ htask hw hstage hnode hperf =>
    exact .inl ((Sys.perform_change hperf).stage name)
  | start name' hfresh =>
    by_cases hn : name = name'
    · subst hn
      refine .inr (.inl ⟨rfl, by rw [Sys.stageOf, hfresh, Option.map_none], ?_⟩)
      simp [Sys.stageOf]
    · left
      simp [Sys.stageOf, Function.update_of_ne hn]
  | pass name' w hw hstage =>
    by_cases hn : name = name'
    · subst hn
      have hs : s.stageOf name = some w.stage := by rw [Sys.stageOf, hw, Option.map_some]
      refine .inr (.inr (.inl ⟨rfl, ?_, present hw rfl⟩))
      rcases hstage with h | ⟨outcome, h⟩
      · exact .inl (hs.trans (congrArg some h))
      · exact .inr ⟨outcome, hs.trans (congrArg some h)⟩
    · left
      rw [Sys.stageOf_setStage, if_neg hn]
  | starting name' c w p e k r s₁ hw hstage hnode hperf =>
    have hs₁ := (Sys.perform_change hperf).stage name
    by_cases hn : name = name'
    · subst hn
      refine .inr (.inr (.inr (.inl ⟨c, p, e, k, r, s₁, rfl, ?_, hnode, hperf, rfl,
        present hw hs₁⟩)))
      rw [Sys.stageOf, hw, Option.map_some, hstage]
    · left
      rw [Sys.stageOf_setStage, if_neg hn, hs₁]
  | looping name' c w p e k r s₁ hw hstage hnode hperf =>
    have hs₁ := (Sys.perform_change hperf).stage name
    by_cases hn : name = name'
    · subst hn
      refine .inr (.inr (.inr (.inr (.inl ⟨c, p, e, k, r, s₁, rfl, ?_, hnode, hperf, rfl,
        present hw hs₁⟩))))
      rw [Sys.stageOf, hw, Option.map_some, hstage]
    · left
      rw [Sys.stageOf_setStage, if_neg hn, hs₁]
  | crash name' w hw =>
    by_cases hn : name = name'
    · subst hn
      exact .inr (.inr (.inr (.inr (.inr ⟨rfl, present hw rfl⟩))))
    · left
      rw [Sys.stageOf_setStage, if_neg hn]
  | reap t τ htask hdone =>
    left
    by_cases hn : name = τ.consumer
    · subst hn
      simp [Sys.stageOf, Function.comp_def]
    · simp [Sys.stageOf, Function.update_of_ne hn]
  | _ => exact .inl rfl

theorem Sys.stageOf_of_perform {who : Actor} {c : Choice} {e : Effect} {r : e.Reply} {s₁ : Sys}
    {name : ConsumerName} {stage stage' : Stage} (hstage : s.stageOf name = some stage)
    (hperf : s.perform cfg who c e = some (r, s₁)) :
    (s₁.setStage name stage').stageOf name = some stage' := by
  obtain ⟨w₁, hw₁, _⟩ := Option.map_eq_some_iff.mp
    (((Sys.perform_change hperf).stage name).trans hstage)
  rw [Sys.stageOf_setStage, if_pos rfl, hw₁, Option.map_some]

/-- The step of a pass, taken apart. -/
theorem pass_of_step {name : ConsumerName} {c : Choice} {p : PassPoint}
    (hstage : s.stageOf name = some (.looping p))
    (h : step cfg s (.resume (.worker name) c) = some s') :
    ∃ (e : Effect) (k : e.Reply → PassPoint) (r : e.Reply) (s₁ : Sys),
      p.node cfg.toBrokerSettings = .await e k ∧
      s.perform cfg (.worker name) c e = some (r, s₁) ∧
      s' = s₁.setStage name (.looping (k r)) ∧ s'.stageOf name = some (.looping (k r)) := by
  obtain ⟨w, hw, hp⟩ := Option.map_eq_some_iff.mp hstage
  cases Sys.step_cases h with
  | starting _ _ w' q e k r s₁ hw' hq hnode hperf =>
    cases hw.symm.trans hw'
    cases hp.symm.trans hq
  | looping _ _ w' q e k r s₁ hw' hq hnode hperf =>
    cases hw.symm.trans hw'
    cases hp.symm.trans hq
    exact ⟨e, k, r, s₁, hnode, hperf, rfl, Sys.stageOf_of_perform hstage hperf⟩

end

end InferenceEngine
