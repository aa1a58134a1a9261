import InferenceEngine.Ledgers
import InferenceEngine.Library.Retries

/-!
# What becomes of a submitted job

When every entry of a job has been handled, its pipeline has run until the first outcome that is
not transient, or as often as the budget allows, and the row says how the last run ended.
-/

namespace InferenceEngine

set_option autoImplicit false

open Retries

/-- The submission has ended, and every entry of the job has a handler that has ended. -/
structure Over (s : Sys) (id : UUID) : Prop where
  submitted : ∃ job outcome, s.submissions id = some (job, .finished outcome)
  handled : ∀ e ∈ s.redis.work.entries, ∀ m, messageFor id e.fields = some m →
    ∃ t name outcome, s.tasks t = some ⟨name, e.id, .handling m (.finished outcome)⟩

/-- How the last outcome shows in the row, and how many dead letters there are. -/
def RecordsOutcome (row : InferenceJob) (letters : Nat) : Except Exn (Text × Int) → Prop
  | .ok (ref, _) =>
    row.status = .success ∧ row.resultRef = some ref ∧ row.error = none ∧ letters = 0
  | .error _ => row.status = .failed ∧ row.error ≠ none ∧ row.resultRef = none ∧ letters = 1

/-- The job has gone through `k` attempts with the outcomes `f`. -/
structure Concluded (f : Nat → Except Exn (Text × Int)) (s : Sys) (id : UUID) (k : Nat) : Prop where
  ran : s.log.filterMap (Event.outcomeFor id) = (List.range k).map f
  delivered : (messagesFor id (s.log.filterMap Event.deliveredEntry)).map (fun x => x.2.attempt) =
    (List.range k).map fun i => ((i + 1 : Nat) : Int)
  appended : (messagesFor id (s.log.filterMap Event.appendedEntry)).length = k
  acked : ∀ x ∈ messagesFor id (s.log.filterMap Event.appendedEntry),
    ∃ t, .acked (.task t) x.1 ∈ s.log
  final : ∃ row, s.rows id = some row ∧ row.attempts = k ∧
    RecordsOutcome row (s.redis.dlq.entries.filterMap fun e => messageFor id e.fields).length (f (k - 1))

section
variable {cfg : Settings} {s : Sys} {id : UUID} {f : Nat → Except Exn (Text × Int)}

/-! ### The steps of a submission -/

theorem step_adds (cfg : Settings) {job : InferenceJob} (hsub : s.submissions id = some (job, .adding))
    (hrow : s.rows job.id = none) :
    step cfg s (.resume (.submission id) {}) =
      some ({ s with rows := Function.update s.rows job.id (some job) }.setSubmission job
        (.publishing (cfg.retryMaxAttempts - 1))) := by
  have hperf : s.perform cfg (.submission id) {} (.add job) =
      some (.ok (), { s with rows := Function.update s.rows job.id (some job) }) := by
    simp only [Sys.perform, Sys.insertRow, hrow]
    rfl
  simp only [step, Sys.resume, hsub]
  exact Sys.await_eq_some.mpr ⟨_, _, _, _, rfl, hperf, rfl⟩

theorem step_publishes (cfg : Settings) {job : InferenceJob} {left : Nat}
    (hsub : s.submissions id = some (job, .publishing left)) :
    step cfg s (.resume (.submission id) {}) =
      some ((s.appendWork (some (.submission id)) (JobMessage.firstDelivery job).toFields
        0).setSubmission job (.finished (.ok job.id))) := by
  have hperf : s.perform cfg (.submission id) {}
      (.xadd .work (JobMessage.firstDelivery job).toFields) =
      some (.ok (s.redis.work.lastId + 1), s.appendWork (some (.submission id))
        (JobMessage.firstDelivery job).toFields 0) := by
    have htrim : s.redis.work.trimAllowed cfg.maxlen 0 = true := rfl
    simp only [Sys.perform, htrim, if_true]
    rfl
  simp only [step, Sys.resume, hsub]
  exact Sys.await_eq_some.mpr ⟨_, _, _, _, rfl, hperf, rfl⟩

/-! ### A finished job -/

theorem Over.handling (hover : Over s id) {x : Nat × JobMessage} (hx : x ∈ (s.jobView id).messages) :
    ∃ t outcome, (s.jobView id).handlings t =
      some ⟨x.1, x.2, .finished outcome, s.ackedBy t x.1⟩ := by
  obtain ⟨e, he, hid, hm, hjob⟩ := mem_messagesFor.mp hx
  obtain ⟨t, name, outcome, htask⟩ := hover.handled e he x.2 (messageFor_eq_some.mpr ⟨hm, hjob⟩)
  rw [hid] at htask
  exact ⟨t, outcome, Sys.handlingOf_eq_some.mpr ⟨name, htask, hjob, rfl⟩⟩

theorem Over.delivered (hs : Steady cfg s) (hover : Over s id) :
    messagesFor id (s.log.filterMap Event.deliveredEntry) = (s.jobView id).messages := by
  rw [hs.ledger.delivered]
  unfold Sys.jobView messagesFor
  rw [List.filterMap_filter]
  apply List.filterMap_congr
  intro e he
  split
  · rfl
  · rename_i hpassed
    cases hm : messageFor id e.fields with
    | none => rfl
    | some m =>
      obtain ⟨t, name, outcome, htask⟩ := hover.handled e he m hm
      exact absurd (hs.regular.passed.tasks t _ htask) hpassed

theorem JobRecord.Ended.recorded {cfg : BrokerSettings} {v : JobRecord} {n : Nat}
    (h : v.Ended cfg n) :
    ∃ row o, v.row = some row ∧ row.attempts = (n + 1 : Nat) ∧ v.outcomes[n]? = some o ∧
      v.outcomes.length = n + 1 ∧ (isTransient o = true → cfg.budget ≤ n + 1) ∧
      RecordsOutcome row v.deadLetters.length o := by
  cases h with
  | success row hrow h houtcomes hletters =>
    obtain ⟨ref, ms, hlast, href⟩ := h.outcome
    refine ⟨row, _, hrow, h.attempts, hlast, houtcomes, ?_, h.status, href, h.error, hletters⟩
    intro htransient
    cases htransient
  | failed row hrow h herror hgives houtcomes hletters =>
    obtain ⟨x, hlast, hbudget⟩ := hgives
    exact ⟨row, _, hrow, h.attempts, hlast, houtcomes, hbudget, h.status, herror, h.result, hletters⟩

theorem Over.concluded {f : UUID → Nat → Except Exn (Text × Int)} (hs : Steady cfg s)
    (hf : Outcomes f s) (hover : Over s id) :
    ∃ k, LastTry isTransient (f id) cfg.budget k ∧ Concluded (f id) s id k := by
  obtain ⟨job, outcome, hsub⟩ := hover.submitted
  cases hs.journeys id with
  | absent hsub' | adding job' hsub' | publishing job' left hsub' => cases hsub.symm.trans hsub'
  | travels job' hsub' past last hv =>
    have hlast : last ∈ (s.jobView id).messages :=
      hv.messages ▸ List.mem_append_right _ (List.mem_singleton_self _)
    have hended : (s.jobView id).toJobRecord.Ended cfg.toBrokerSettings past.length := by
      obtain ⟨t, outcome, ht⟩ := hover.handling hlast
      rcases hv.handled_cases ht with ⟨_, _, hat⟩ | ⟨hpast, _⟩
      · exact hat.1
      · exact absurd rfl (hv.past_ne_last hpast)
    obtain ⟨row, o, hrow, hattempts, ho, hlength, hbudget, hrecorded⟩ := hended.recorded
    have houtcomes := hf id
    rw [hlength] at houtcomes
    have hfo : f id past.length = o := by
      rw [houtcomes] at ho
      simpa using ho
    refine ⟨past.length + 1, ⟨Nat.succ_pos _, hv.within, ?_, ?_⟩, houtcomes, ?_, ?_, ?_, ?_⟩
    · intro i hi
      apply hv.transients
      rw [houtcomes, ← List.map_take, List.take_range]
      exact List.mem_map_of_mem (List.mem_range.mpr (by omega))
    · intro htransient
      rw [Nat.add_sub_cancel, hfo] at htransient
      have hwithin := hv.within
      have hle := hbudget htransient
      omega
    · rw [hover.delivered hs, hv.numbered, hv.messages, List.length_append, List.length_singleton]
    · rw [hs.ledger.appended]
      show (s.jobView id).messages.length = _
      rw [hv.messages, List.length_append, List.length_singleton]
    · rw [hs.ledger.appended]
      intro x hx
      obtain ⟨t, outcome, ht⟩ := hover.handling hx
      refine ⟨t, Sys.ackedBy_iff ?_⟩
      rcases hv.handled_cases ht with ⟨_, _, hat⟩ | ⟨_, hdone⟩
      · exact hat.2
      · exact hdone
    · exact ⟨row, hrow, hattempts, hfo ▸ hrecorded⟩

end

end InferenceEngine
