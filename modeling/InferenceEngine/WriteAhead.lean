import InferenceEngine.Recovery
import InferenceEngine.Streams
import InferenceEngine.Tracking

/-!
# Write ahead, then acknowledge

A delivery that is not dead-lettered acknowledges its entry last: after its row is terminal,
or after the row was written PENDING and the next attempt appended. Wherever it is cut off,
the job can be found again, until trimming cuts off the entry that carries it.
-/

namespace InferenceEngine

set_option autoImplicit false

/-- No other delivery of the job is live. -/
def LoneDelivery (t : Nat) (j : UUID) (id : Nat) (s : Sys) (a : Act) : Prop :=
  SoleHandler t j s a ∧ OnlyAcker t id s a

def TerminalRow (s : Sys) (j : UUID) : Prop := ∃ row, s.rows j = some row ∧ row.isTerminal = true

/-- The entry was cut off the stream, after `maxlen` further appends. -/
def Trimmed (cfg : Settings) (s : Sys) (id : Nat) : Prop :=
  s.redis.work.has id = false ∧ cfg.maxlen ≤ s.redis.work.lastId - id

def RetryPublished (t : Nat) (m : JobMessage) (s : Sys) : Prop :=
  ∃ e, .appended (some (.task t)) e ∈ s.log ∧ JobMessage.fromFields e.fields = .ok m.nextAttempt

/-- The job is not lost: its row is terminal, its entry is still pending, or its next attempt is on
the stream; or the entry that carries it was trimmed. -/
def NotLost (cfg : Settings) (t id : Nat) (m : JobMessage) (s : Sys) : Prop :=
  TerminalRow s m.jobId ∨ s.redis.isPending id = true ∨
  (∃ e ∈ s.redis.work.entries, JobMessage.fromFields e.fields = .ok m.nextAttempt) ∨
  Trimmed cfg s id ∨
  ∃ e, .appended (some (.task t)) e ∈ s.log ∧
    JobMessage.fromFields e.fields = .ok m.nextAttempt ∧ Trimmed cfg s e.id

/-- When the handler appends the next attempt, the row is PENDING and can be set RUNNING. -/
def RetriesPending (t : Nat) (j : UUID) (s : Sys) (a : Act) : Prop :=
  ∀ c name id m, a = .resume (.task t) c → s.tasks t = some ⟨name, id, .handling m .republish⟩ →
    m.jobId = j → ∃ row, s.rows j = some row ∧ row.status = .pending ∧
      ∀ now, ∃ row', row.markRunning now = .ok row'

/-- The row exists, and the entry is pending while it is on the stream. -/
structure Retrievable (j : UUID) (id : Nat) (s : Sys) : Prop where
  row : ∃ row, s.rows j = some row
  appended : id ≤ s.redis.work.lastId
  pending : s.redis.work.has id = true → s.redis.isPending id = true

/-- Where the job of a delivery can be found, point by point. -/
def KeepsJob (t id : Nat) (m : JobMessage) (s : Sys) : TaskPoint → Prop
  | .skipAck | .successAck => TerminalRow s m.jobId
  | .republish => HasStatus s m.jobId .pending ∧ Retrievable m.jobId id s
  | .retryAck => RetryPublished t m s
  | .deadLetterAck _ | .failGet _ | .writeFailed _ _ => ¬ NotDeadLettered s t
  | .release _ | .finished _ => TerminalRow s m.jobId ∨ Retrievable m.jobId id s ∨
    RetryPublished t m s ∨ ¬ NotDeadLettered s t
  | _ => Retrievable m.jobId id s

section
variable {cfg : Settings} {s s' : Sys} {a : Act} {t : Nat} {j : UUID} {id : Nat} {m : JobMessage}

theorem has_of_step (h : step cfg s a = some s') (hid : id ≤ s.redis.work.lastId)
    (hhas : s'.redis.work.has id = true) : s.redis.work.has id = true := by
  rcases step_work h with ⟨hwork, _⟩ | ⟨who, fields, _, hredis, _⟩
  · rwa [hwork] at hhas
  · rw [hredis] at hhas
    obtain ⟨e, he, heid⟩ := List.any_eq_true.mp hhas
    have heid : e.id = id := of_decide_eq_true heid
    rcases List.mem_append.mp (List.mem_of_mem_drop he) with he | he
    · exact List.any_eq_true.mpr ⟨e, he, decide_eq_true heid⟩
    · obtain rfl := List.mem_singleton.mp he
      have hnext : s.redis.work.lastId + 1 = id := heid
      omega

theorem Retrievable.of_step (h : step cfg s a = some s')
    (htask : ∀ u c name m p, a = .resume (.task u) c →
      s.tasks u = some ⟨name, id, .handling m p⟩ → p.acks = false)
    (hpass : ∀ name c e rest, a = .resume (.worker name) c →
      s.stageOf name = some (.looping (.poisonAck e rest)) → e.id ≠ id)
    (hs : Retrievable j id s) : Retrievable j id s' where
  row := by
    obtain ⟨row, hrow⟩ := hs.row
    rcases step_rows h with hr | ⟨_, _, job, _, _, _, hr⟩ | ⟨_, _, _, _, _, _, _, job, _, _, _, _, _, _, hr⟩
    · exact ⟨row, hr ▸ hrow⟩
    all_goals
      rw [hr]
      by_cases hj : j = job.id
      · subst hj
        exact ⟨job, Function.update_self _ _ _⟩
      · exact ⟨row, by rwa [Function.update_of_ne hj]⟩
  appended := by
    rcases step_work h with ⟨hwork, _⟩ | ⟨_, _, _, hredis, _⟩
    · exact hwork ▸ hs.appended
    · rw [hredis]
      exact Nat.le_succ_of_le hs.appended
  pending := by
    intro hhas
    have hold := has_of_step h hs.appended hhas
    have hpend := hs.pending hold
    rcases step_pending h id with hsame | ⟨u, c, name, m, p, ha, _, hu, hack, _⟩ |
      ⟨name, c, e, rest, ha, hid, hstage, _⟩ | hsame | ⟨n, name, g, hg, hredis⟩
    · rwa [hsame]
    · cases hack.symm.trans (htask u c name m p ha hu)
    · exact absurd hid (hpass name c e rest ha hstage)
    · rw [hsame, hpend, hold, Bool.and_self]
    · rw [hredis]
      simp only [Redis.isPending, hg, Option.any_some] at hpend
      simp [Redis.isPending, Sys.readGroup, Group.isPending_deliver, hpend]

theorem Retrievable.of_notBy (honly : OnlyAcker t id s a) (ha : a.NotBy t)
    (h : step cfg s a = some s') (hs : Retrievable j id s) : Retrievable j id s' := by
  refine hs.of_step h ?_ ?_
  · rintro u c name m p rfl htask
    have hut : u ≠ t := by
      rintro rfl
      exact ha c rfl
    exact absurd rfl (honly hut _ htask)
  · rintro name c e rest rfl hstage
    exact honly e rest hstage

theorem Retrievable.of_own {c : Choice} {name : ConsumerName} {p : TaskPoint}
    (h : step cfg s (.resume (.task t) c) = some s')
    (htask : s.tasks t = some ⟨name, id, .handling m p⟩) (hack : p.acks = false)
    (hs : Retrievable j id s) : Retrievable j id s' := by
  refine hs.of_step h ?_ ?_
  · rintro u c' name' m' p' ha hu
    cases ha
    cases htask.symm.trans hu
    exact hack
  · rintro name' c' e rest ha
    cases ha

theorem TerminalRow.of_notBy (hs : Coherent s) (hsole : SoleHandler t j s a) (ha : a.NotBy t)
    (h : step cfg s a = some s') (hrow : TerminalRow s j) : TerminalRow s' j := by
  obtain ⟨row, hrow, hterm⟩ := hrow
  exact ⟨row, row_of_notBy hs hsole ha h hrow, hterm⟩

theorem RetryPublished.of_step (h : step cfg s a = some s') (hpub : RetryPublished t m s) :
    RetryPublished t m s' := by
  obtain ⟨e, hmem, hfields⟩ := hpub
  exact ⟨e, log_mem_of_step h hmem, hfields⟩

theorem deadLettered_of_step (h : step cfg s a = some s') (hdead : ¬ NotDeadLettered s t) :
    ¬ NotDeadLettered s' t :=
  fun hnot => hdead fun e hmem => hnot e (log_mem_of_step h hmem)

theorem deadLettered_of_perform {c : Choice} {e : Effect} {r : e.Reply} {s₁ : Sys}
    (hperf : s.perform cfg (.task t) c e = some (r, s₁)) (hdead : ¬ NotDeadLettered s t) :
    ¬ NotDeadLettered s₁ t := by
  obtain ⟨es, hlog, _⟩ := (Sys.perform_change hperf).log
  exact fun hnot => hdead fun e hmem => hnot e (hlog ▸ List.mem_append_left _ hmem)

theorem KeepsJob.of_notBy {p : TaskPoint} (hs : Coherent s) (hlone : LoneDelivery t j id s a)
    (hj : m.jobId = j) (ha : a.NotBy t) (h : step cfg s a = some s') (hp : KeepsJob t id m s p) :
    KeepsJob t id m s' p := by
  subst hj
  obtain ⟨hsole, honly⟩ := hlone
  cases p with
  | skipAck | successAck => exact TerminalRow.of_notBy hs hsole ha h hp
  | republish => exact ⟨hasStatus_of_notBy hs hsole ha h hp.1, hp.2.of_notBy honly ha h⟩
  | retryAck => exact RetryPublished.of_step h hp
  | deadLetterAck _ | failGet _ | writeFailed _ _ => exact deadLettered_of_step h hp
  | release _ | finished _ =>
    rcases hp with hterm | hret | hpub | hdead
    · exact .inl (hterm.of_notBy hs hsole ha h)
    · exact .inr (.inl (hret.of_notBy honly ha h))
    · exact .inr (.inr (.inl (hpub.of_step h)))
    · exact .inr (.inr (.inr (deadLettered_of_step h hdead)))
  | _ => exact Retrievable.of_notBy honly ha h hp

theorem Retrievable.setTask (hs : Retrievable j id s) (u : Nat) (τ : Task) :
    Retrievable j id (s.setTask u τ) :=
  ⟨hs.row, hs.appended, hs.pending⟩

theorem KeepsJob.setTask {p : TaskPoint} (hp : KeepsJob t id m s p) (u : Nat) (τ : Task) :
    KeepsJob t id m (s.setTask u τ) p := by
  cases p with
  | skipAck | successAck | retryAck | deadLetterAck _ | failGet _ | writeFailed _ _ => exact hp
  | republish => exact ⟨hp.1, hp.2.setTask u τ⟩
  | release _ | finished _ => exact hp.imp_right (.imp_left fun hret => hret.setTask u τ)
  | _ => exact Retrievable.setTask hp u τ

theorem KeepsJob.routed_error (hret : Retrievable m.jobId id s) (cfg : BrokerSettings) (x : Exn) :
    KeepsJob t id m s (.routed cfg m (.error x)) := by
  cases x with
  | transient msg =>
    simp only [TaskPoint.routed]
    split <;> exact hret
  | _ => exact hret

theorem KeepsJob.raised (hret : Retrievable m.jobId id s) (x : Exn) :
    KeepsJob t id m s (.raised x) := by
  cases x <;> exact .inr (.inl hret)

section
variable {c : Choice} {p : TaskPoint} {e : Effect} {k : e.Reply → TaskPoint} {r : e.Reply}
  {s₁ : Sys}

/-- One step of the handler: the job is found elsewhere before the entry is let go. -/
theorem KeepsJob.next (hsound : p.Sound m) (hp : KeepsJob t id m s p)
    (hnode : p.node cfg.toBrokerSettings id m = .await e k)
    (hperf : s.perform cfg (.task t) c e = some (r, s₁))
    (hkeep : p.acks = false → Retrievable m.jobId id s → Retrievable m.jobId id s₁) :
    KeepsJob t id m s₁ (k r) := by
  cases p with
  | guard =>
    cases hnode
    have hret := hkeep rfl hp
    obtain ⟨row, hrow⟩ := hret.row
    obtain ⟨rfl, ⟨_, job, hjob, rfl⟩ | ⟨_, hnone, _⟩ | ⟨_, rfl⟩⟩ := Sys.perform_get hperf
    · simp only [TaskPoint.afterGuard]
      split
      · exact ⟨job, hjob, ‹_›⟩
      · exact hret
    · cases hnone.symm.trans hrow
    · exact .inr (.inl hret)
  | load =>
    cases hnode
    have hret := hkeep rfl hp
    obtain ⟨row, hrow⟩ := hret.row
    obtain ⟨rfl, ⟨_, job, hjob, rfl⟩ | ⟨_, hnone, _⟩ | ⟨_, rfl⟩⟩ := Sys.perform_get hperf
    · simp only [TaskPoint.afterLoad]
      split
      · exact ⟨job, hjob, ‹_›⟩
      · cases job.markRunning c.now with
        | ok job' => exact hret
        | error x => exact .routed_error hret _ x
    · cases hnone.symm.trans hrow
    · exact .routed_error hret cfg.toBrokerSettings (.other c.dbError c.dbRepr)
  | writeRunning seen job =>
    cases hnode
    have hret := hkeep rfl hp
    rcases r with x | u
    · exact .routed_error hret _ x
    · exact hret
  | running job =>
    cases hnode
    have hret := hkeep rfl hp
    rcases r with x | ⟨ref, d, now⟩
    · cases x <;> simp only [TaskPoint.afterRun] <;> exact .routed_error hret _ _
    · simp only [TaskPoint.afterRun]
      cases job.markSuccess ref (some d) now with
      | ok job' => exact hret
      | error x => exact .routed_error hret _ x
  | writeSuccess seen job =>
    cases hnode
    have hret := hkeep rfl hp
    have hid : job.id = m.jobId := hsound.write_id rfl
    obtain ⟨_, ref, d, now, hsucc⟩ := hsound
    have hterm : job.isTerminal = true := by
      obtain ⟨_, rfl⟩ := InferenceJob.markSuccess_ok_iff.mp hsucc
      rfl
    rcases r with x | u
    · exact .routed_error hret _ x
    · rcases Sys.perform_update hperf with ⟨_, _, _, _, rfl⟩ | ⟨_, ⟨_, hr⟩ | ⟨_, hr⟩⟩
      · exact ⟨job, hid ▸ Function.update_self _ _ _, hterm⟩
      all_goals cases hr
  | skipAck | successAck =>
    cases hnode
    rcases Sys.perform_xack hperf with ⟨_, _, rfl⟩ | ⟨_, _, rfl⟩ | ⟨_, _, rfl⟩ <;> exact .inl hp
  | requeueGet =>
    cases hnode
    have hret := hkeep rfl hp
    obtain ⟨row, hrow⟩ := hret.row
    obtain ⟨rfl, ⟨_, job, _, rfl⟩ | ⟨_, hnone, _⟩ | ⟨_, rfl⟩⟩ := Sys.perform_get hperf
    · simp only [TaskPoint.afterRequeueGet]
      cases job.requeue c.now with
      | ok job' => exact hret
      | error x => exact .inr (.inl hret)
    · cases hnone.symm.trans hrow
    · exact .inr (.inl hret)
  | writePending seen job =>
    cases hnode
    have hret := hkeep rfl hp
    have hid : job.id = m.jobId := hsound.write_id rfl
    obtain ⟨_, now, hreq⟩ := hsound
    have hstatus : job.status = .pending := by
      obtain ⟨_, rfl⟩ := InferenceJob.requeue_ok_iff.mp hreq
      rfl
    rcases r with x | u
    · exact .inr (.inl hret)
    · rcases Sys.perform_update hperf with ⟨_, _, _, _, rfl⟩ | ⟨_, ⟨_, hr⟩ | ⟨_, hr⟩⟩
      · exact ⟨⟨job, hid ▸ Function.update_self _ _ _, hstatus⟩, hret⟩
      all_goals cases hr
  | republish =>
    cases hnode
    have hret := hkeep rfl hp.2
    rcases r with x | n
    · exact .raised hret x
    · rcases (Sys.perform_xaddWork hperf).2 with ⟨_, _, rfl⟩ | ⟨_, hr, _⟩ | ⟨_, hr, _⟩
      · exact ⟨_, List.mem_append_right _ (List.mem_singleton_self _),
          JobMessage.fromFields_toFields _⟩
      all_goals cases hr
  | retryAck =>
    cases hnode
    obtain ⟨e, hmem, hfields⟩ := hp
    have hpub : RetryPublished t m s₁ := by
      rcases Sys.perform_xack hperf with ⟨_, _, rfl⟩ | ⟨_, _, rfl⟩ | ⟨_, _, rfl⟩
      · exact ⟨e, List.mem_append_left _ hmem, hfields⟩
      · exact ⟨e, hmem, hfields⟩
      · exact ⟨e, List.mem_append_left _ hmem, hfields⟩
    exact .inr (.inr (.inl hpub))
  | deadLetter reason error =>
    cases hnode
    have hret := hkeep rfl hp
    rcases r with x | n
    · exact .raised hret x
    · rcases Sys.perform_xaddDlq hperf with ⟨_, _, rfl⟩ | ⟨_, hr, _⟩ | ⟨_, hr, _⟩
      · exact fun hnot => hnot _ (List.mem_append_right _ (List.mem_singleton_self _))
      all_goals cases hr
  | deadLetterAck error =>
    cases hnode
    have hdead := deadLettered_of_perform hperf hp
    rcases r with x | u
    · exact .inr (.inr (.inr hdead))
    · exact hdead
  | failGet error =>
    cases hnode
    have hdead := deadLettered_of_perform hperf hp
    rcases r with x | ⟨job, now⟩
    · cases x <;> exact .inr (.inr (.inr hdead))
    · simp only [TaskPoint.afterFailGet]
      cases job.markFailed error none now with
      | ok job' => exact hdead
      | error x => exact .inr (.inr (.inr hdead))
  | writeFailed seen job =>
    cases hnode
    exact .inr (.inr (.inr (deadLettered_of_perform hperf hp)))
  | release outcome =>
    cases hnode
    rcases hp with hterm | hret | hpub | hdead
    · have hchange := Sys.perform_change hperf
      cases hchange with
      | refl => exact .inl hterm
      | discard => exact .inl hterm
    · exact .inr (.inl (hkeep rfl hret))
    · obtain ⟨e, hmem, hfields⟩ := hpub
      obtain ⟨es, hlog, _⟩ := (Sys.perform_change hperf).log
      exact .inr (.inr (.inl ⟨e, hlog ▸ List.mem_append_left _ hmem, hfields⟩))
    · exact .inr (.inr (.inr (deadLettered_of_perform hperf hdead)))
  | finished outcome => cases hnode

end

theorem Retained.has_iff (hs : Retained cfg s) (hid : id ≤ s.redis.work.lastId) :
    s.redis.work.has id = true ↔ s.redis.work.lastId < id + s.redis.work.entries.length := by
  have hmem : (∃ e ∈ s.redis.work.entries, e.id = id) ↔ _ := hs.window.mem_nums id
  simp only [Stream.has, List.any_eq_true, decide_eq_true_eq, hmem]
  exact and_iff_left hid

theorem Retained.trimmed (hs : Retained cfg s) (hpos : 0 < id) (hid : id ≤ s.redis.work.lastId)
    (hhas : s.redis.work.has id = false) : Trimmed cfg s id := by
  refine ⟨hhas, ?_⟩
  have hcap := hs.capacity
  have hout : ¬ s.redis.work.lastId < id + s.redis.work.entries.length := by
    rw [← hs.has_iff hid, hhas]
    simp
  omega

theorem KeepsJob.notLost {p : TaskPoint} (hs : Retained cfg s) (hpos : 0 < id)
    (hnot : NotDeadLettered s t) (hp : KeepsJob t id m s p) : NotLost cfg t id m s := by
  have reach : Retrievable m.jobId id s → NotLost cfg t id m s := by
    intro hret
    cases hhas : s.redis.work.has id with
    | true => exact .inr (.inl (hret.pending hhas))
    | false => exact .inr (.inr (.inr (.inl (hs.trimmed hpos hret.appended hhas))))
  have published : RetryPublished t m s → NotLost cfg t id m s := by
    rintro ⟨e, hmem, hfields⟩
    obtain ⟨hepos, hele, hin⟩ := hs.appended _ e hmem
    cases hhas : s.redis.work.has e.id with
    | true => exact .inr (.inr (.inl ⟨e, hin ((hs.has_iff hele).mp hhas), hfields⟩))
    | false =>
      exact .inr (.inr (.inr (.inr ⟨e, hmem, hfields, hs.trimmed hepos hele hhas⟩)))
  cases p with
  | skipAck | successAck => exact .inl hp
  | republish => exact reach hp.2
  | retryAck => exact published hp
  | deadLetterAck _ | failGet _ | writeFailed _ _ => exact absurd hnot hp
  | release _ | finished _ =>
    rcases hp with hterm | hret | hpub | hdead
    · exact .inl hterm
    · exact reach hret
    · exact published hpub
    · exact absurd hnot hdead
  | _ => exact reach hp

theorem keepsJob_of_exec {acts : List Act} (hs : Coherent s) (hnew : s.tasks t = none)
    (hret : Retrievable j id s) (hP : Runs.Along (step cfg) (LoneDelivery t j id) s acts)
    (h : Runs.exec (step cfg) s acts = some s') :
    Follows t j (fun s => Retrievable j id s) (fun s id' m p => id' = id → KeepsJob t id m s p)
      s' := by
  refine Follows.exec ?_ ?_ ?_ ?_ hs (.of_new hnew hret) hP h
  · rintro s a s' hs ⟨_, honly⟩ ha h hret
    exact hret.of_notBy honly ha h
  · rintro s a s' id' m p hs hP ha h hj hp rfl
    exact (hp rfl).of_notBy hs hP hj ha h
  · rintro s id' m hB rfl _
    exact hB
  · rintro s c name id' m p e k r s₁ hs hP hj htask hp hnode hperf h rfl
    have hkeep : p.acks = false → Retrievable m.jobId id' s → Retrievable m.jobId id' s₁ := by
      intro hack hret
      obtain ⟨hrow, happ, hpend⟩ := hret.of_own h htask hack
      exact ⟨hrow, happ, hpend⟩
    have hnext := (hp rfl).next (hs.sound _ _ _ _ _ htask) hnode hperf hkeep
    exact hnext.setTask t _

/-- At every cut of a delivery that is not dead-lettered the job is not lost, and whenever it
appends the next attempt the row is PENDING. -/
theorem notLost_at_every_cut {acts later : List Act} {row : InferenceJob} {name : ConsumerName}
    {p : TaskPoint} (hs : Reaches cfg acts s) (hrow : s.rows j = some row)
    (hnew : s.tasks t = none) (hpending : s.redis.isPending id = true)
    (hP : Runs.Along (step cfg) (LoneDelivery t j id) s later)
    (h : Runs.exec (step cfg) s later = some s')
    (htask : s'.tasks t = some ⟨name, id, .handling m p⟩) (hj : m.jobId = j)
    (hnot : NotDeadLettered s' t) :
    NotLost cfg t id m s' ∧ Runs.Along (step cfg) (RetriesPending t j) s later := by
  obtain ⟨e, ⟨who, he⟩, rfl⟩ := hs.allAppended.pending id hpending
  obtain ⟨hpos, hle, _⟩ := hs.retained.appended who e he
  have hret : Retrievable j e.id s := ⟨⟨row, hrow⟩, hle, fun _ => hpending⟩
  have hs' : Reaches cfg (acts ++ later) s' := Runs.exec_append_iff.mpr ⟨s, hs, h⟩
  refine ⟨?_, .of_prefixes ?_⟩
  · have hkeeps := (keepsJob_of_exec hs.coherent hnew hret hP h).phase _ _ _ _ htask hj rfl
    exact hkeeps.notLost hs'.retained hpos hnot
  · rintro before a after u rfl hu c name' id' m' rfl hu' hj'
    obtain ⟨u₀, hu₀, hafter⟩ := Runs.exec_append_iff.mp h
    obtain rfl : u = u₀ := Option.some.inj (hu.symm.trans hu₀)
    have hid : e.id = id' := entry_of_exec (hs.coherent.exec hu) hafter hu' htask
    obtain ⟨row', hrow', hstatus⟩ :=
      ((keepsJob_of_exec hs.coherent hnew hret hP.append_left hu).phase _ _ _ _ hu' hj' hid.symm).1
    refine ⟨row', hj' ▸ hrow', hstatus, fun now => ?_⟩
    exact ⟨_, InferenceJob.markRunning_of_pending hstatus now⟩

end

def loneDelivery (t : Nat) (s : Sys) : Act → Bool
  | .resume (.task u) _ => decide (u = t)
  | .resume (.worker name) _ =>
    match s.stageOf name with
    | some (.looping (.poisonAck _ _)) => false
    | _ => true
  | _ => true

theorem loneDelivery_of_check {t : Nat} {j : UUID} {id : Nat} (s : Sys) (a : Act)
    (h : loneDelivery t s a = true) : LoneDelivery t j id s a := by
  cases a with
  | resume who c =>
    cases who with
    | submission _ => exact ⟨trivial, trivial⟩
    | worker name =>
      refine ⟨trivial, fun e rest hstage => ?_⟩
      simp only [loneDelivery, hstage] at h
      cases h
    | task u =>
      obtain rfl : u = t := of_decide_eq_true h
      exact ⟨fun hne => absurd rfl hne, fun hne => absurd rfl hne⟩
  | _ => exact ⟨trivial, trivial⟩

def Sys.handled (s : Sys) (t : Nat) : Option (Nat × UUID) :=
  match s.tasks t with
  | some { entry, body := .handling m _, .. } => some (entry, m.jobId)
  | _ => none

theorem Sys.handled_eq_some {s : Sys} {t id : Nat} {j : UUID} (h : s.handled t = some (id, j)) :
    ∃ name m p, s.tasks t = some ⟨name, id, .handling m p⟩ ∧ m.jobId = j := by
  unfold handled at h
  split at h
  · rename_i name id' m p htask
    cases h
    exact ⟨_, _, _, htask, rfl⟩
  · cases h

def Event.deadLetter : Event → Option Nat
  | .deadLettered _ e => some e.id
  | _ => none

theorem notDeadLettered_of_log {s : Sys} {t : Nat} (h : s.log.filterMap Event.deadLetter = []) :
    NotDeadLettered s t := by
  intro e hmem
  have hid : e.id ∈ s.log.filterMap Event.deadLetter := List.mem_filterMap.mpr ⟨_, hmem, rfl⟩
  rw [h] at hid
  cases hid

/-- A worker has read job 7, and the pointer of job 8 is about to be published. -/
def otherPublishing : List Act :=
  boot 0 ++ submitted 7 ++ [.submit .ragQuery [] 8 0 0, .resume (.submission 8) {}] ++
    .pass 0 :: steps (.worker 0) 4

def retryAppended : List Act :=
  steps (.worker 0) 1 ++ steps (.task 0) 3 ++
    .resume (.task 0) { outcome := .error (.transient []) } :: steps (.task 0) 3

/-- The pointer of job 8 trims the stream to one entry, job 7's is acknowledged. -/
def retryTrimmed : List Act :=
  retryAppended ++ [.resume (.submission 8) { trim := 2 }] ++ steps (.task 0) 1 ++ [.crash 0]

theorem retryAppended_notLost : ∃ s s' m, Reaches {} otherPublishing s ∧
    Runs.exec (step {}) s (retryAppended ++ [.crash 0]) = some s' ∧ m.jobId = 7 ∧
    NotLost {} 0 1 m s' ∧
    Runs.Along (step {}) (RetriesPending 0 7) s (retryAppended ++ [.crash 0]) := by
  obtain ⟨s, hs, hview⟩ := Runs.exec_of_map (step {}) Sys.init otherPublishing
    (fun s => ((s.rows 7).isSome && (s.tasks 0).isNone && s.redis.isPending 1 &&
        Runs.check (step {}) (loneDelivery 0) s (retryAppended ++ [.crash 0]),
      (Runs.exec (step {}) s (retryAppended ++ [.crash 0])).map fun s' : Sys =>
        (s'.handled 0, s'.log.filterMap Event.deadLetter)))
    (true, some (some (1, 7), [])) (by decide +kernel)
  obtain ⟨hstart, hafter⟩ : _ ∧ _ := by simpa only [Prod.mk.injEq] using hview
  simp only [Bool.and_eq_true, Option.isNone_iff_eq_none, Option.isSome_iff_exists] at hstart
  obtain ⟨⟨⟨⟨row, hrow⟩, hnew⟩, hpending⟩, hcheck⟩ := hstart
  obtain ⟨s', hs', hview'⟩ := Option.map_eq_some_iff.mp hafter
  obtain ⟨hhandled, hdlq⟩ : _ ∧ _ := by simpa only [Prod.mk.injEq] using hview'
  obtain ⟨name, m, p, htask, hj⟩ := Sys.handled_eq_some hhandled
  obtain ⟨hkept, hpend⟩ := notLost_at_every_cut hs hrow hnew hpending
    (.of_check loneDelivery_of_check hcheck) hs' htask hj (notDeadLettered_of_log hdlq)
  exact ⟨s, s', m, hs, hs', hj, hkept, hpend⟩

def pointsTo (j : UUID) (e : StreamEntry) : Bool :=
  match JobMessage.fromFields e.fields with
  | .ok m => decide (m.jobId = j)
  | .error _ => false

/-- The retry entry is trimmed before the entry of the first attempt is acknowledged. -/
theorem retryTrimmed_lost : ∃ s s' name m p, Reaches { maxlen := 1 } otherPublishing s ∧
    s.redis.isPending 1 = true ∧ s.tasks 0 = none ∧
    Runs.Along (step { maxlen := 1 }) (LoneDelivery 0 7 1) s retryTrimmed ∧
    Runs.exec (step { maxlen := 1 }) s retryTrimmed = some s' ∧
    s'.tasks 0 = some ⟨name, 1, .handling m p⟩ ∧ m.jobId = 7 ∧ NotDeadLettered s' 0 ∧
    HasStatus s' 7 .pending ∧ s'.redis.isPending 1 = false ∧
    ¬ ∃ e ∈ s'.redis.work.entries, JobMessage.fromFields e.fields = .ok m.nextAttempt := by
  obtain ⟨s, hs, hview⟩ := Runs.exec_of_map (step { maxlen := 1 }) Sys.init otherPublishing
    (fun s => ((s.tasks 0).isNone && s.redis.isPending 1 &&
        Runs.check (step { maxlen := 1 }) (loneDelivery 0) s retryTrimmed,
      (Runs.exec (step { maxlen := 1 }) s retryTrimmed).map fun s' : Sys =>
        (s'.handled 0, decide ((s'.rows 7).map (·.status) = some .pending) &&
          !s'.redis.isPending 1 && (s'.log.filterMap Event.deadLetter).isEmpty &&
          s'.redis.work.entries.all (!pointsTo 7 ·))))
    (true, some (some (1, 7), true)) (by decide +kernel)
  obtain ⟨hstart, hafter⟩ : _ ∧ _ := by simpa only [Prod.mk.injEq] using hview
  simp only [Bool.and_eq_true, Option.isNone_iff_eq_none] at hstart
  obtain ⟨⟨hnew, hpending⟩, hcheck⟩ := hstart
  obtain ⟨s', hs', hview'⟩ := Option.map_eq_some_iff.mp hafter
  obtain ⟨hhandled, hlost⟩ : _ ∧ _ := by simpa only [Prod.mk.injEq] using hview'
  obtain ⟨name, m, p, htask, hj⟩ := Sys.handled_eq_some hhandled
  simp only [Bool.and_eq_true, Bool.not_eq_true', List.isEmpty_iff, decide_eq_true_eq] at hlost
  obtain ⟨⟨⟨hrow, hacked⟩, hdlq⟩, hstream⟩ := hlost
  obtain ⟨row, hrow, hstatus⟩ := Option.map_eq_some_iff.mp hrow
  refine ⟨s, s', name, m, p, hs, hpending, hnew, .of_check loneDelivery_of_check hcheck, hs', htask,
    hj, notDeadLettered_of_log hdlq, ⟨row, hrow, hstatus⟩, hacked, ?_⟩
  rintro ⟨e, he, hfields⟩
  have hother := List.all_eq_true.mp hstream e he
  simp [pointsTo, hfields, JobMessage.nextAttempt, hj] at hother

end InferenceEngine
