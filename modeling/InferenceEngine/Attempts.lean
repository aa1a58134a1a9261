import InferenceEngine.JobViews

/-!
# The attempts of one job

Only the last entry of a job is at work: the handlers of the earlier ones have handed over to it.
While it waits or is handled, the row counts the attempts that were started, and it becomes
terminal with the outcome of the last one.
-/

namespace InferenceEngine

set_option autoImplicit false

/-- `max(1, max_attempts)`. -/
def BrokerSettings.budget (cfg : BrokerSettings) : Nat := (max 1 cfg.maxAttempts).toNat

/-- The outcome that another attempt may follow. -/
def isTransient {α : Type} : Except Exn α → Bool
  | .error (.transient _) => true
  | _ => false

/-- A job without result after some attempts. -/
structure InferenceJob.Stands (job : InferenceJob) (status : JobStatus) (tries : Nat) : Prop where
  status : job.status = status
  attempts : job.attempts = tries
  result : job.resultRef = none

namespace JobRecord

/-- The row of a job without result, and how many outcomes and dead letters there are. -/
structure Counts (v : JobRecord) (status : JobStatus) (tries outcomes letters : Nat) : Prop where
  row : ∃ row, v.row = some row ∧ row.Stands status tries
  outcomes : v.outcomes.length = outcomes
  letters : v.deadLetters.length = letters

structure Succeeded (v : JobRecord) (n : Nat) (job : InferenceJob) : Prop where
  outcome : ∃ ref ms, v.outcomes[n]? = some (.ok (ref, ms)) ∧ job.resultRef = some ref
  status : job.status = .success
  attempts : job.attempts = (n + 1 : Nat)
  error : job.error = none

/-- The outcome of attempt `n + 1` was a transient error, and another attempt follows. -/
def Retries (cfg : BrokerSettings) (v : JobRecord) (n : Nat) : Prop :=
  (∃ msg, v.outcomes[n]? = some (.error (.transient msg))) ∧ n + 1 < cfg.budget

/-- The outcome of attempt `n + 1` was an error, and no other attempt follows. -/
def GivesUp (cfg : BrokerSettings) (v : JobRecord) (n : Nat) : Prop :=
  ∃ x : Exn, v.outcomes[n]? = some (.error x) ∧
    (isTransient (α := Text × Int) (.error x) = true → cfg.budget ≤ n + 1)

/-- The row is terminal with the outcome of attempt `n + 1`. -/
inductive Ended (cfg : BrokerSettings) (v : JobRecord) (n : Nat) : Prop
  | success (row : InferenceJob) (hrow : v.row = some row) (h : v.Succeeded n row)
      (houtcomes : v.outcomes.length = n + 1) (hletters : v.deadLetters.length = 0)
  | failed (row : InferenceJob) (hrow : v.row = some row) (h : row.Stands .failed (n + 1))
      (herror : row.error ≠ none) (hgives : v.GivesUp cfg n) (houtcomes : v.outcomes.length = n + 1)
      (hletters : v.deadLetters.length = 1)

end JobRecord

/-- Where the handler of attempt `n + 1` stands, and whether it has acknowledged its entry. -/
def TaskPoint.At (cfg : BrokerSettings) (n : Nat) (v : JobRecord) (acked : Bool) : TaskPoint → Prop
  | guard | load => v.Counts .pending n n 0 ∧ acked = false
  | writeRunning _ job =>
    v.Counts .pending n n 0 ∧ job.Stands .running (n + 1) ∧ job.error = none ∧ acked = false
  | running job =>
    v.Counts .running (n + 1) n 0 ∧ job.Stands .running (n + 1) ∧ job.error = none ∧ acked = false
  | writeSuccess _ job =>
    v.Counts .running (n + 1) (n + 1) 0 ∧ v.Succeeded n job ∧ acked = false
  | successAck =>
    (∃ row, v.row = some row ∧ v.Succeeded n row) ∧ v.outcomes.length = n + 1 ∧
      v.deadLetters.length = 0 ∧ acked = false
  | requeueGet => v.Counts .running (n + 1) (n + 1) 0 ∧ v.Retries cfg n ∧ acked = false
  | writePending _ job =>
    v.Counts .running (n + 1) (n + 1) 0 ∧ v.Retries cfg n ∧ job.Stands .pending (n + 1) ∧
      acked = false
  | republish => v.Counts .pending (n + 1) (n + 1) 0 ∧ v.Retries cfg n ∧ acked = false
  | deadLetter _ _ => v.Counts .running (n + 1) (n + 1) 0 ∧ v.GivesUp cfg n ∧ acked = false
  | deadLetterAck _ => v.Counts .running (n + 1) (n + 1) 1 ∧ v.GivesUp cfg n ∧ acked = false
  | failGet _ => v.Counts .running (n + 1) (n + 1) 1 ∧ v.GivesUp cfg n ∧ acked = true
  | writeFailed _ job =>
    v.Counts .running (n + 1) (n + 1) 1 ∧ v.GivesUp cfg n ∧ job.Stands .failed (n + 1) ∧
      job.error ≠ none ∧ acked = true
  | release _ | finished _ => v.Ended cfg n ∧ acked = true
  | skipAck | retryAck => False

/-- The handler has appended the next attempt and has only its own entry left to acknowledge, or
has done that too. -/
def Handling.HandedOver (h : Handling) : Prop :=
  match h.point with
  | .retryAck => h.acked = false
  | .release _ | .finished _ => h.acked = true
  | _ => False

/-- A published job: its attempts before the last one are handed over, the last one waits or is
handled. -/
structure JobView.Travels (cfg : BrokerSettings) (id : UUID) (v : JobView)
    (past : List (Nat × JobMessage)) (last : Nat × JobMessage) : Prop where
  messages : v.messages = past ++ [last]
  own : ∀ x ∈ v.messages, x.2.jobId = id
  numbered : v.messages.map (fun x => x.2.attempt) =
    (List.range v.messages.length).map fun i => ((i + 1 : Nat) : Int)
  entries : (v.messages.map Prod.fst).Nodup
  listed : ∀ t h, v.handlings t = some h → (h.entry, h.message) ∈ v.messages
  unique : ∀ t u h h', v.handlings t = some h → v.handlings u = some h' → h.entry = h'.entry → t = u
  handed : ∀ x ∈ past, ∃ t h, v.handlings t = some h ∧ h.entry = x.1 ∧ h.HandedOver
  transients : ∀ o ∈ v.outcomes.take past.length, isTransient o = true
  within : past.length < cfg.budget
  current : (v.Counts .pending past.length past.length 0 ∧
      ∀ t h, v.handlings t = some h → h.entry ≠ last.1) ∨
    ∃ t h, v.handlings t = some h ∧ h.entry = last.1 ∧ h.point.At cfg past.length v.toJobRecord h.acked

structure JobView.Unpublished (v : JobView) : Prop where
  messages : v.messages = []
  handlings : ∀ t, v.handlings t = none
  outcomes : v.outcomes = []
  letters : v.deadLetters = []

/-- Where a job is, from its submission on. -/
inductive Journey (cfg : BrokerSettings) (id : UUID) (v : JobView) : Prop
  | absent (hsub : v.submission = none) (hrow : v.row = none) (hempty : v.Unpublished)
  | adding (job : InferenceJob) (hsub : v.submission = some (job, .adding)) (hid : job.id = id)
      (hnew : job.Stands .pending 0) (hrow : v.row = none) (hempty : v.Unpublished)
  | publishing (job : InferenceJob) (left : Nat) (hsub : v.submission = some (job, .publishing left))
      (hid : job.id = id) (hnew : job.Stands .pending 0) (hrow : v.row = some job)
      (hempty : v.Unpublished)
  | travels (job : InferenceJob) (hsub : v.submission = some (job, .finished (.ok id)))
      (past : List (Nat × JobMessage)) (last : Nat × JobMessage) (h : v.Travels cfg id past last)

section
variable {cfg : BrokerSettings} {id : UUID} {n : Nat} {v v₁ : JobView} {acked : Bool}

theorem BrokerSettings.budget_le_iff : cfg.budget ≤ n + 1 ↔ cfg.maxAttempts ≤ (n + 1 : Nat) := by
  unfold budget
  omega

theorem JobRecord.Counts.update {v : JobRecord} {status status' : JobStatus}
    {tries tries' outcomes letters : Nat} {job : InferenceJob} (h : v.Counts status tries outcomes letters)
    (hjob : job.Stands status' tries') :
    Counts { v with row := some job } status' tries' outcomes letters :=
  ⟨⟨job, rfl, hjob⟩, h.outcomes, h.letters⟩

theorem JobView.Served.get_eq {status : JobStatus} {tries outcomes letters : Nat} {c : Choice}
    {r : Effect.Reply (.get id)} (hcounts : v.Counts status tries outcomes letters)
    (h : JobView.Served id c v (.get id) r v₁) :
    v₁ = v ∧ ∃ row, r = .ok (row, c.now) ∧ v.row = some row ∧ row.Stands status tries := by
  obtain ⟨row, hrow, hstands⟩ := hcounts.row
  cases h with
  | found row' hrow' =>
    obtain rfl : row' = row := Option.some.inj (hrow'.symm.trans hrow)
    exact ⟨rfl, row', rfl, hrow, hstands⟩
  | missing hnone => cases hnone.symm.trans hrow

theorem JobView.Served.update_eq {status : JobStatus} {tries outcomes letters : Nat} {c : Choice}
    {job : InferenceJob} {r : Effect.Reply (.update job)}
    (hcounts : v.Counts status tries outcomes letters)
    (h : JobView.Served id c v (.update job) r v₁) :
    v₁ = { v with row := some job } ∧ r = .ok () := by
  obtain ⟨row, hrow, _⟩ := hcounts.row
  cases h with
  | update _ row' hrow' => exact ⟨rfl, rfl⟩
  | notUpdated _ hnone => cases hnone.symm.trans hrow

theorem JobView.Served.xack_eq {c : Choice} {entry : Nat} {r : Effect.Reply (.xack entry)}
    (h : JobView.Served id c v (.xack entry) r v₁) : v₁ = v ∧ r = .ok () := by
  cases h
  exact ⟨rfl, rfl⟩

theorem TaskPoint.At.length_le {v : JobRecord} {p : TaskPoint} (hp : p.At cfg n v acked) :
    n ≤ v.outcomes.length := by
  cases p with
  | skipAck | retryAck => exact hp.elim
  | successAck =>
    have hlength := hp.2.1
    omega
  | release outcome | finished outcome =>
    cases hp.1 with
    | success row hrow h houtcomes hletters => omega
    | failed row hrow h herror hgives houtcomes hletters => omega
  | _ =>
    have hlength := hp.1.outcomes
    omega

theorem TaskPoint.at_afterRun {m : JobMessage} {job : InferenceJob} {c : Choice}
    (hattempt : m.attempt = (n + 1 : Nat)) (hcounts : v.Counts .running (n + 1) n 0)
    (hjob : job.Stands .running (n + 1)) (herror : job.error = none) :
    (afterRun cfg m job (c.outcome.map fun (ref, ms) => (ref, ms, c.now))).At cfg n
      { v with outcomes := v.outcomes ++ [c.outcome] } false := by
  have hcounts' : JobRecord.Counts { v with outcomes := v.outcomes ++ [c.outcome] } .running (n + 1)
      (n + 1) 0 := ⟨hcounts.row, by simp [hcounts.outcomes], hcounts.letters⟩
  have hlast : (v.outcomes ++ [c.outcome])[n]? = some c.outcome := by
    simp [← hcounts.outcomes]
  have hgives : ∀ x, c.outcome = .error x →
      (isTransient (α := Text × Int) (.error x) = true → cfg.budget ≤ n + 1) →
      JobRecord.GivesUp cfg { v with outcomes := v.outcomes ++ [c.outcome] } n := by
    intro x hx hbudget
    exact ⟨x, hx ▸ hlast, hbudget⟩
  cases hc : c.outcome with
  | ok out =>
    obtain ⟨ref, ms⟩ := out
    simp only [Except.map, afterRun, InferenceJob.markSuccess_of_running hjob.status]
    exact ⟨hc ▸ hcounts', ⟨⟨ref, ms, hc ▸ hlast, rfl⟩, rfl, hjob.attempts, herror⟩, rfl⟩
  | error x =>
    rw [hc] at hcounts' hlast hgives
    cases x with
    | transient msg =>
      simp only [Except.map, afterRun, routed]
      split
      · rename_i hle
        rw [hattempt] at hle
        exact ⟨hcounts', hgives _ rfl fun _ => BrokerSettings.budget_le_iff.mpr hle, rfl⟩
      · rename_i hlt
        rw [hattempt] at hlt
        refine ⟨hcounts', ⟨⟨msg, hlast⟩, ?_⟩, rfl⟩
        exact Nat.lt_of_not_le fun hle => hlt (BrokerSettings.budget_le_iff.mp hle)
    | permanent msg | invalidTransition cur target | jobNotFound id | redis x | other msg =>
      exact ⟨hcounts', hgives _ rfl (by simp [isTransient]), rfl⟩

theorem TaskPoint.At.next {p : TaskPoint} {m : JobMessage} {c : Choice} {entry : Nat} {e : Effect}
    {k : e.Reply → TaskPoint} {r : e.Reply} (hp : p.At cfg n v.toJobRecord acked) (hrep : p ≠ .republish)
    (hattempt : m.attempt = (n + 1 : Nat)) (hnode : p.node cfg entry m = .await e k)
    (hserved : JobView.Served m.jobId c v e r v₁) : (k r).At cfg n v₁.toJobRecord (acked || e.isXack) := by
  cases p with
  | guard =>
    cases hnode
    obtain ⟨hcounts, rfl⟩ := hp
    obtain ⟨rfl, row, rfl, hrow, hstands⟩ := hserved.get_eq hcounts
    have hlive : row.isTerminal = false :=
      (InferenceJob.isTerminal_eq_false_iff row).mpr (.inl hstands.status)
    simp only [afterGuard, hlive]
    exact ⟨hcounts, rfl⟩
  | load =>
    cases hnode
    obtain ⟨hcounts, rfl⟩ := hp
    obtain ⟨rfl, row, rfl, hrow, hstands⟩ := hserved.get_eq hcounts
    have hlive : row.isTerminal = false :=
      (InferenceJob.isTerminal_eq_false_iff row).mpr (.inl hstands.status)
    simp only [afterLoad, hlive, InferenceJob.markRunning_of_pending hstands.status]
    refine ⟨hcounts, ⟨rfl, ?_, hstands.result⟩, rfl, rfl⟩
    simp [hstands.attempts]
  | writeRunning seen job =>
    cases hnode
    obtain ⟨hcounts, hjob, herror, rfl⟩ := hp
    obtain ⟨rfl, rfl⟩ := hserved.update_eq hcounts
    exact ⟨hcounts.update hjob, hjob, herror, rfl⟩
  | running job =>
    cases hnode
    obtain ⟨hcounts, hjob, herror, rfl⟩ := hp
    cases hserved with
    | run _ => exact at_afterRun hattempt hcounts hjob herror
  | writeSuccess seen job =>
    cases hnode
    obtain ⟨hcounts, hjob, rfl⟩ := hp
    obtain ⟨rfl, rfl⟩ := hserved.update_eq hcounts
    exact ⟨⟨job, rfl, hjob.outcome, hjob.status, hjob.attempts, hjob.error⟩, hcounts.outcomes,
      hcounts.letters, rfl⟩
  | successAck =>
    cases hnode
    obtain ⟨⟨row, hrow, hjob⟩, houtcomes, hletters, rfl⟩ := hp
    obtain ⟨rfl, rfl⟩ := hserved.xack_eq
    exact ⟨.success row hrow hjob houtcomes hletters, rfl⟩
  | requeueGet =>
    cases hnode
    obtain ⟨hcounts, hretries, rfl⟩ := hp
    obtain ⟨rfl, row, rfl, hrow, hstands⟩ := hserved.get_eq hcounts
    simp only [afterRequeueGet, InferenceJob.requeue_of_running hstands.status]
    exact ⟨hcounts, hretries, ⟨rfl, hstands.attempts, hstands.result⟩, rfl⟩
  | writePending seen job =>
    cases hnode
    obtain ⟨hcounts, hretries, hjob, rfl⟩ := hp
    obtain ⟨rfl, rfl⟩ := hserved.update_eq hcounts
    exact ⟨hcounts.update hjob, hretries, rfl⟩
  | republish => exact absurd rfl hrep
  | deadLetter reason error =>
    cases hnode
    obtain ⟨hcounts, hgives, rfl⟩ := hp
    cases hserved with
    | deadLetter fields m' number hm =>
      exact ⟨⟨hcounts.row, hcounts.outcomes, by simp [hcounts.letters]⟩, hgives, rfl⟩
  | deadLetterAck error =>
    cases hnode
    obtain ⟨hcounts, hgives, rfl⟩ := hp
    obtain ⟨rfl, rfl⟩ := hserved.xack_eq
    exact ⟨hcounts, hgives, rfl⟩
  | failGet error =>
    cases hnode
    obtain ⟨hcounts, hgives, rfl⟩ := hp
    obtain ⟨rfl, row, rfl, hrow, hstands⟩ := hserved.get_eq hcounts
    simp only [afterFailGet, InferenceJob.markFailed_of_running hstands.status]
    exact ⟨hcounts, hgives, ⟨rfl, hstands.attempts, hstands.result⟩, by simp, rfl⟩
  | writeFailed seen job =>
    cases hnode
    obtain ⟨hcounts, hgives, hjob, herror, rfl⟩ := hp
    obtain ⟨rfl, rfl⟩ := hserved.update_eq hcounts
    exact ⟨.failed job rfl hjob herror hgives hcounts.outcomes hcounts.letters, rfl⟩
  | release outcome =>
    cases hnode
    obtain ⟨hended, rfl⟩ := hp
    cases hserved with
    | discard _ => exact ⟨hended, rfl⟩
  | finished outcome => cases hnode
  | skipAck | retryAck => exact hp.elim

theorem Handling.HandedOver.next {h : Handling} {c : Choice} {e : Effect}
    {k : e.Reply → TaskPoint} {r : e.Reply} (hh : h.HandedOver)
    (hnode : h.point.node cfg h.entry h.message = .await e k)
    (hserved : JobView.Served id c v e r v₁) :
    v₁ = v ∧ Handling.HandedOver { h with point := k r, acked := h.acked || e.isXack } := by
  obtain ⟨entry, m, p, acked⟩ := h
  cases p with
  | retryAck =>
    cases hnode
    obtain ⟨rfl, rfl⟩ := hserved.xack_eq
    exact ⟨rfl, Bool.or_true acked⟩
  | release outcome =>
    cases hnode
    cases hserved with
    | discard _ =>
      have hacked : acked = true := hh
      exact ⟨rfl, by simp [HandedOver, hacked]⟩
  | finished outcome => cases hnode
  | _ => exact hh.elim

theorem JobView.Served.frame {c : Choice} {e : Effect} {r : e.Reply}
    (h : JobView.Served id c v e r v₁) (he : ∀ fields, e ≠ .xadd .work fields) :
    v₁.messages = v.messages ∧ v₁.handlings = v.handlings ∧
      ∃ new, v₁.outcomes = v.outcomes ++ new := by
  cases h with
  | append fields m number hm hfresh => exact absurd rfl (he fields)
  | run job => exact ⟨rfl, rfl, _, rfl⟩
  | _ => exact ⟨rfl, rfl, [], (List.append_nil _).symm⟩

theorem JobView.Served.submission_eq {c : Choice} {e : Effect} {r : e.Reply}
    (h : JobView.Served id c v e r v₁) : v₁.submission = v.submission := by
  cases h <;> rfl

namespace JobView.Travels

variable {past : List (Nat × JobMessage)} {last : Nat × JobMessage}

theorem attempt_last (h : v.Travels cfg id past last) :
    last.2.attempt = (past.length + 1 : Nat) := by
  have hnumbered := h.numbered
  rw [h.messages, List.length_append, List.length_singleton, List.range_succ] at hnumbered
  simp only [List.map_append, List.map_cons, List.map_nil] at hnumbered
  have hlast := (List.append_inj' hnumbered rfl).2
  exact (List.cons.inj hlast).1

theorem handled_cases (h : v.Travels cfg id past last) {t : Nat} {x : Handling}
    (hx : v.handlings t = some x) :
    (x.entry = last.1 ∧ x.message = last.2 ∧ x.point.At cfg past.length v.toJobRecord x.acked) ∨
      ((x.entry, x.message) ∈ past ∧ x.HandedOver) := by
  have hmem := h.listed t x hx
  rw [h.messages] at hmem
  rcases List.mem_append.mp hmem with hpast | hlast
  · obtain ⟨u, y, hy, heq, hover⟩ := h.handed _ hpast
    obtain rfl : u = t := h.unique u t y x hy hx heq
    obtain rfl : y = x := Option.some.inj (hy.symm.trans hx)
    exact .inr ⟨hpast, hover⟩
  · have heq := List.mem_singleton.mp hlast
    obtain ⟨hentry, hmessage⟩ := Prod.ext_iff.mp heq
    refine .inl ⟨hentry, hmessage, ?_⟩
    rcases h.current with ⟨_, hfree⟩ | ⟨u, y, hy, hyentry, hat⟩
    · exact absurd hentry (hfree t x hx)
    · obtain rfl : u = t := h.unique u t y x hy hx (hyentry.trans hentry.symm)
      obtain rfl : y = x := Option.some.inj (hy.symm.trans hx)
      exact hat

end JobView.Travels

namespace JobView.Travels

variable {past : List (Nat × JobMessage)} {last : Nat × JobMessage}

theorem take (hv : v.Travels cfg id past last) {t entry : Nat} {m : JobMessage}
    (hm : (entry, m) ∈ v.messages) (hfree : ∀ u h, v.handlings u = some h → h.entry ≠ entry)
    (ht : v.handlings t = none) :
    (v.setHandling t ⟨entry, m, .guard, false⟩).Travels cfg id past last := by
  have hself : (v.setHandling t ⟨entry, m, .guard, false⟩).handlings t =
      some ⟨entry, m, .guard, false⟩ := Function.update_self ..
  have hother : ∀ {u y}, v.handlings u = some y →
      (v.setHandling t ⟨entry, m, .guard, false⟩).handlings u = some y := by
    intro u y hy
    have hne : u ≠ t := by
      rintro rfl
      cases ht.symm.trans hy
    exact (Function.update_of_ne hne ..).trans hy
  have hcases : ∀ {u y}, (v.setHandling t ⟨entry, m, .guard, false⟩).handlings u = some y →
      (u = t ∧ y = ⟨entry, m, .guard, false⟩) ∨ v.handlings u = some y := by
    intro u y hy
    simp only [setHandling, Function.update_apply] at hy
    split at hy
    · exact .inl ⟨‹_›, (Option.some.inj hy).symm⟩
    · exact .inr hy
  have hlast : entry = last.1 := by
    rw [hv.messages] at hm
    rcases List.mem_append.mp hm with hpast | hlast
    · obtain ⟨u, y, hy, heq, _⟩ := hv.handed _ hpast
      exact absurd heq (hfree u y hy)
    · exact congrArg Prod.fst (List.mem_singleton.mp hlast)
  have hcounts : v.Counts .pending past.length past.length 0 := by
    rcases hv.current with ⟨hcounts, _⟩ | ⟨u, y, hy, heq, _⟩
    · exact hcounts
    · exact absurd (heq.trans hlast.symm) (hfree u y hy)
  refine ⟨hv.messages, hv.own, hv.numbered, hv.entries, ?_, ?_, ?_, hv.transients, hv.within, ?_⟩
  · intro u y hy
    rcases hcases hy with ⟨_, rfl⟩ | hy
    · exact hm
    · exact hv.listed u y hy
  · intro u u' y y' hy hy' heq
    rcases hcases hy with ⟨rfl, rfl⟩ | hy
    · rcases hcases hy' with ⟨rfl, _⟩ | hy'
      · rfl
      · exact absurd heq.symm (hfree u' y' hy')
    · rcases hcases hy' with ⟨_, rfl⟩ | hy'
      · exact absurd heq (hfree u y hy)
      · exact hv.unique u u' y y' hy hy' heq
  · intro x hx
    obtain ⟨u, y, hy, heq, hover⟩ := hv.handed x hx
    exact ⟨u, y, hother hy, heq, hover⟩
  · exact .inr ⟨t, _, hself, hlast, hcounts, rfl⟩

theorem past_ne_last (hv : v.Travels cfg id past last) {x : Nat × JobMessage} (hx : x ∈ past) :
    x.1 ≠ last.1 := by
  have hnodup := hv.entries
  rw [hv.messages, List.map_append, List.nodup_append] at hnodup
  exact hnodup.2.2 x.1 (List.mem_map_of_mem hx) last.1 (by simp)

theorem kept (hv : v.Travels cfg id past last) {t : Nat} {h h' : Handling}
    (ht : v.handlings t = some h) (hentry : h'.entry = h.entry) (hmessage : h'.message = h.message)
    (hhandlings : v₁.handlings = v.handlings) :
    (∀ u y, (v₁.setHandling t h').handlings u = some y → (y.entry, y.message) ∈ v.messages) ∧
      ∀ u u' y y', (v₁.setHandling t h').handlings u = some y →
        (v₁.setHandling t h').handlings u' = some y' → y.entry = y'.entry → u = u' := by
  have hcases : ∀ u y, (v₁.setHandling t h').handlings u = some y →
      ∃ y₀, v.handlings u = some y₀ ∧ y₀.entry = y.entry ∧ y₀.message = y.message := by
    intro u y hy
    simp only [setHandling, Function.update_apply, hhandlings] at hy
    split at hy
    · rename_i hu
      obtain rfl := Option.some.inj hy
      exact ⟨h, hu ▸ ht, hentry.symm, hmessage.symm⟩
    · exact ⟨y, hy, rfl, rfl⟩
  constructor
  · intro u y hy
    obtain ⟨y₀, hy₀, heq, hmsg⟩ := hcases u y hy
    rw [← heq, ← hmsg]
    exact hv.listed u y₀ hy₀
  · intro u u' y y' hy hy' heq
    obtain ⟨y₀, hy₀, heq₀, _⟩ := hcases u y hy
    obtain ⟨y₁, hy₁, heq₁, _⟩ := hcases u' y' hy'
    exact hv.unique u u' y₀ y₁ hy₀ hy₁ (heq₀.trans (heq.trans heq₁.symm))

theorem over_of_step (hv : v.Travels cfg id past last) {t : Nat} {h h' : Handling}
    (ht : v.handlings t = some h) (hentry : h'.entry = h.entry)
    (hhandlings : v₁.handlings = v.handlings)
    (hover : h.entry ≠ last.1 → h.HandedOver → h'.HandedOver) (x : Nat × JobMessage)
    (hx : x ∈ past) :
    ∃ u y, (v₁.setHandling t h').handlings u = some y ∧ y.entry = x.1 ∧ y.HandedOver := by
  obtain ⟨u, y, hy, heq, hdone⟩ := hv.handed x hx
  by_cases hu : u = t
  · subst hu
    obtain rfl : y = h := Option.some.inj (hy.symm.trans ht)
    refine ⟨u, h', Function.update_self .., hentry.trans heq, hover ?_ hdone⟩
    exact heq ▸ hv.past_ne_last hx
  · refine ⟨u, y, ?_, heq, hdone⟩
    exact (Function.update_of_ne hu ..).trans (hhandlings ▸ hy)

/-- A handler of an earlier attempt does not touch the last one. -/
theorem handle_past (hv : v.Travels cfg id past last) {t : Nat} {h h' : Handling}
    (ht : v.handlings t = some h) (hentry : h'.entry = h.entry) (hmessage : h'.message = h.message)
    (hpast : (h.entry, h.message) ∈ past) (hover : h'.HandedOver) :
    (v.setHandling t h').Travels cfg id past last := by
  obtain ⟨hlisted, hunique⟩ := hv.kept ht hentry hmessage rfl
  have hne : h.entry ≠ last.1 := hv.past_ne_last hpast
  refine ⟨hv.messages, hv.own, hv.numbered, hv.entries, hlisted, hunique,
    hv.over_of_step ht hentry rfl fun _ _ => hover, hv.transients, hv.within, ?_⟩
  rcases hv.current with ⟨hcounts, hfree⟩ | ⟨u, y, hy, heq, hat⟩
  · refine .inl ⟨hcounts, ?_⟩
    intro u y hy
    simp only [setHandling, Function.update_apply] at hy
    split at hy
    · obtain rfl := Option.some.inj hy
      rw [hentry]
      exact hne
    · exact hfree u y hy
  · have hu : u ≠ t := by
      rintro rfl
      obtain rfl : y = h := Option.some.inj (hy.symm.trans ht)
      exact hne heq
    exact .inr ⟨u, y, (Function.update_of_ne hu ..).trans hy, heq, hat⟩

theorem handle_last (hv : v.Travels cfg id past last) {t : Nat} {h h' : Handling}
    (ht : v.handlings t = some h) (hentry : h'.entry = h.entry) (hmessage : h'.message = h.message)
    (hlast : h.entry = last.1) (hmessages : v₁.messages = v.messages)
    (hhandlings : v₁.handlings = v.handlings) (hnew : ∃ new, v₁.outcomes = v.outcomes ++ new)
    (hlength : past.length ≤ v.outcomes.length)
    (hat : h'.point.At cfg past.length v₁.toJobRecord h'.acked) :
    (v₁.setHandling t h').Travels cfg id past last := by
  obtain ⟨hlisted, hunique⟩ := hv.kept ht hentry hmessage hhandlings
  obtain ⟨new, hnew⟩ := hnew
  refine ⟨hmessages.trans hv.messages, ?_, ?_, ?_, ?_, hunique,
    hv.over_of_step ht hentry hhandlings fun hne => absurd hlast hne, ?_, hv.within, ?_⟩
  · exact hmessages ▸ hv.own
  · exact hmessages ▸ hv.numbered
  · exact hmessages ▸ hv.entries
  · exact hmessages ▸ hlisted
  · have htake : v₁.outcomes.take past.length = v.outcomes.take past.length := by
      rw [hnew, List.take_append_of_le_length hlength]
    exact htake ▸ hv.transients
  · exact .inr ⟨t, h', Function.update_self .., hentry.trans hlast, hat⟩

theorem handle_republish (hv : v.Travels cfg id past last) {t n : Nat} {h h' : Handling}
    (ht : v.handlings t = some h) (hentry : h'.entry = h.entry) (hmessage : h'.message = h.message)
    (hlast : h.entry = last.1) (hmsg : h.message = last.2) (hpoint : h.point = .republish)
    (hat : h.point.At cfg past.length v.toJobRecord h.acked) (hover : h'.HandedOver)
    (hfresh : ∀ x ∈ v.messages, x.1 < n)
    (hv₁ : v₁ = { v with messages := v.messages ++ [(n, last.2.nextAttempt)] }) :
    (v₁.setHandling t h').Travels cfg id (past ++ [last]) (n, last.2.nextAttempt) := by
  obtain ⟨hlisted, hunique⟩ := hv.kept ht hentry hmessage (show v₁.handlings = _ by rw [hv₁])
  rw [hpoint] at hat
  obtain ⟨hcounts, ⟨⟨msg, htransient⟩, hbudget⟩, _⟩ := hat
  have hmessages : (v₁.setHandling t h').messages = v.messages ++ [(n, last.2.nextAttempt)] := by
    rw [hv₁]
    rfl
  have hlen : v.messages.length = past.length + 1 := by
    rw [hv.messages, List.length_append, List.length_singleton]
  have hne : ∀ x ∈ v.messages, x.1 ≠ n := fun x hx => Nat.ne_of_lt (hfresh x hx)
  refine ⟨?_, ?_, ?_, ?_, ?_, hunique, ?_, ?_, ?_, ?_⟩
  · rw [hmessages, hv.messages]
  · rw [hmessages]
    intro x hx
    rcases List.mem_append.mp hx with hx | hx
    · exact hv.own x hx
    · obtain rfl := List.mem_singleton.mp hx
      exact hv.own last (hv.messages ▸ List.mem_append_right _ (List.mem_singleton_self _))
  · rw [hmessages, List.length_append, List.length_singleton, List.range_succ, List.map_append,
      List.map_append, hv.numbered, hlen]
    simp [JobMessage.nextAttempt, hv.attempt_last]
  · rw [hmessages, List.map_append, List.nodup_append]
    refine ⟨hv.entries, List.nodup_singleton _, ?_⟩
    intro a ha b hb
    obtain ⟨x, hx, rfl⟩ := List.mem_map.mp ha
    obtain rfl := List.mem_singleton.mp hb
    exact hne x hx
  · rw [hmessages]
    exact fun u y hy => List.mem_append_left _ (hlisted u y hy)
  · intro x hx
    rcases List.mem_append.mp hx with hx | hx
    · exact hv.over_of_step ht hentry (show v₁.handlings = _ by rw [hv₁]) (fun _ _ => hover) x hx
    · obtain rfl := List.mem_singleton.mp hx
      exact ⟨t, h', Function.update_self .., hentry.trans hlast, hover⟩
  · rw [hv₁, List.length_append, List.length_singleton]
    intro o ho
    rw [List.take_add_one] at ho
    rcases List.mem_append.mp ho with ho | ho
    · exact hv.transients o ho
    · have hlast : v.outcomes[past.length]? = some o := by simpa [setHandling] using ho
      rw [Option.some.inj (hlast.symm.trans htransient)]
      rfl
  · rw [List.length_append, List.length_singleton]
    exact hbudget
  · refine .inl ⟨?_, ?_⟩
    · rw [hv₁, List.length_append, List.length_singleton]
      exact hcounts
    · intro u y hy heq
      exact hne _ (hlisted u y hy) heq

end JobView.Travels

theorem JobView.Unpublished.travels (hempty : v.Unpublished) {job : InferenceJob} {entry : Nat}
    (hid : job.id = id) (hnew : job.Stands .pending 0) (hrow : v.row = some job)
    (hv₁ : v₁ = { v with submission := some (job, .finished (.ok job.id)),
                         messages := v.messages ++ [(entry, JobMessage.firstDelivery job)] }) :
    v₁.Travels cfg id [] (entry, JobMessage.firstDelivery job) := by
  have hmessages : v₁.messages = [(entry, JobMessage.firstDelivery job)] := by
    rw [hv₁, hempty.messages]
    rfl
  have hnone : ∀ t h, v₁.handlings t ≠ some h := by
    intro t h hh
    rw [hv₁] at hh
    cases (hempty.handlings t).symm.trans hh
  refine ⟨hmessages, ?_, ?_, ?_, ?_, ?_, by simp, by simp, ?_, .inl ⟨?_, ?_⟩⟩
  · simp [hmessages, JobMessage.firstDelivery, hid]
  · simp [hmessages, JobMessage.firstDelivery]
  · simp [hmessages]
  · exact fun t h hh => absurd hh (hnone t h)
  · exact fun t u h h' hh => absurd hh (hnone t h)
  · simp only [List.length_nil, BrokerSettings.budget]
    omega
  · rw [hv₁]
    exact ⟨⟨job, hrow, hnew⟩, by simp [hempty.outcomes], by simp [hempty.letters]⟩
  · exact fun t h hh => absurd hh (hnone t h)

theorem TaskPoint.republish_of_node {p : TaskPoint} {entry : Nat} {m : JobMessage} {fields : Fields}
    {k : Effect.Reply (.xadd .work fields) → TaskPoint}
    (h : p.node cfg entry m = .await (.xadd .work fields) k) : p = .republish := by
  cases p <;> cases h
  rfl

theorem JobView.Travels.served {past : List (Nat × JobMessage)} {last : Nat × JobMessage}
    (hv : v.Travels cfg id past last) {t : Nat} {h : Handling} {c : Choice} {e : Effect}
    {k : e.Reply → TaskPoint} {r : e.Reply} (ht : v.handlings t = some h)
    (hnode : h.point.node cfg h.entry h.message = .await e k)
    (hserved : JobView.Served id c v e r v₁) :
    ∃ past' last', (v₁.setHandling t { h with point := k r, acked := h.acked || e.isXack }).Travels
      cfg id past' last' := by
  rcases hv.handled_cases ht with ⟨hlast, hmsg, hat⟩ | ⟨hpast, hover⟩
  · have hown : h.message.jobId = id := by
      rw [hmsg]
      exact hv.own last (hv.messages ▸ List.mem_append_right _ (List.mem_singleton_self _))
    by_cases hrep : h.point = .republish
    · obtain ⟨entry, m, p, acked⟩ := h
      obtain rfl : p = .republish := hrep
      obtain rfl : m = last.2 := hmsg
      have hacked : acked = false := hat.2.2
      cases hnode
      cases hserved with
      | append fields m' n hm hfresh =>
        have hm' : m' = last.2.nextAttempt := by
          rw [messageFor_toFields] at hm
          split at hm
          · exact (Option.some.inj hm).symm
          · cases hm
        refine ⟨past ++ [last], (n, last.2.nextAttempt), ?_⟩
        exact hv.handle_republish ht rfl rfl hlast rfl rfl hat (by simp [hacked, Effect.isXack,
          TaskPoint.afterXadd, Handling.HandedOver]) hfresh (by rw [hm'])
    · have hwork : ∀ fields, e ≠ .xadd .work fields := by
        rintro fields rfl
        exact hrep (TaskPoint.republish_of_node hnode)
      obtain ⟨hmessages, hhandlings, hnew⟩ := hserved.frame hwork
      refine ⟨past, last, hv.handle_last ht rfl rfl hlast hmessages hhandlings hnew hat.length_le ?_⟩
      exact hat.next hrep (hmsg ▸ hv.attempt_last) hnode (hown ▸ hserved)
  · obtain ⟨rfl, hover'⟩ := hover.next hnode hserved
    exact ⟨past, last, hv.handle_past ht rfl rfl hpast hover'⟩

theorem Journey.step {cfg : Settings} (hj : Journey cfg.toBrokerSettings id v)
    (h : JobView.Moves cfg id v v₁) : Journey cfg.toBrokerSettings id v₁ := by
  cases h with
  | submit ty payload created updated hsub =>
    cases hj with
    | absent _ hrow hempty =>
      refine .adding _ rfl rfl ⟨rfl, rfl, rfl⟩ hrow ?_
      exact ⟨hempty.messages, hempty.handlings, hempty.outcomes, hempty.letters⟩
    | adding job hsub' | publishing job left hsub' | travels job hsub' =>
      cases hsub.symm.trans hsub'
  | insert job hsub hrow =>
    cases hj with
    | adding job' hsub' hid hnew _ hempty =>
      cases hsub.symm.trans hsub'
      refine .publishing job _ rfl hid hnew rfl ?_
      exact ⟨hempty.messages, hempty.handlings, hempty.outcomes, hempty.letters⟩
    | absent hsub' | publishing job' left hsub' | travels job' hsub' =>
      cases hsub.symm.trans hsub'
  | clash job row x hsub hrow =>
    cases hj with
    | adding job' hsub' hid hnew hnone hempty => cases hnone.symm.trans hrow
    | absent hsub' | publishing job' left hsub' | travels job' hsub' =>
      cases hsub.symm.trans hsub'
  | publish job left n hsub hfresh =>
    cases hj with
    | publishing job' left' hsub' hid hnew hrow hempty =>
      cases hsub.symm.trans hsub'
      exact .travels job (hid ▸ rfl) [] _ (hempty.travels hid hnew hrow rfl)
    | absent hsub' | adding job' hsub' | travels job' hsub' => cases hsub.symm.trans hsub'
  | take t entry m hm hfree ht =>
    cases hj with
    | travels job hsub past last hv => exact .travels job hsub past last (hv.take hm hfree ht)
    | absent _ _ hempty | adding _ _ _ _ _ hempty | publishing _ _ _ _ _ _ hempty =>
      rw [hempty.messages] at hm
      cases hm
  | handle t h c e k r v₁ ht hnode hserved =>
    cases hj with
    | travels job hsub past last hv =>
      obtain ⟨past', last', hv'⟩ := hv.served ht hnode hserved
      exact .travels job (hserved.submission_eq.trans hsub) past' last' hv'
    | absent _ _ hempty | adding _ _ _ _ _ hempty | publishing _ _ _ _ _ _ hempty =>
      cases (hempty.handlings t).symm.trans ht

end

end InferenceEngine
