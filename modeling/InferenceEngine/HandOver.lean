import InferenceEngine.Recovery

/-!
# From the processor to the consumer

`JobProcessor.process` leaves a job that it could not finish RUNNING, for the consumer to
requeue or to fail. It does so once it has written RUNNING. When the read before that write or
the write itself fails, it raises with the row still PENDING, which has no edge to FAILED.
-/

namespace InferenceEngine

set_option autoImplicit false

namespace TaskPoint

def inProcessor : TaskPoint → Bool
  | load | writeRunning _ _ | running _ | writeSuccess _ _ => true
  | _ => false

/-- The calls of the processor up to its RUNNING write. -/
def startsJob : TaskPoint → Bool
  | load | writeRunning _ _ => true
  | _ => false

/-- The calls by which the consumer reads the row again. -/
def rereads : TaskPoint → Bool
  | requeueGet | failGet _ => true
  | _ => false

end TaskPoint

def FindsRunning (t : Nat) (j : UUID) (s : Sys) (a : Act) : Prop :=
  ∀ c name id m p, a = .resume (.task t) c → s.tasks t = some ⟨name, id, .handling m p⟩ →
    m.jobId = j → p.rereads = true → HasStatus s j .running

def NotRetried (s : Sys) (t : Nat) : Prop := ∀ e, .appended (some (.task t)) e ∉ s.log

/-- The consumer's transition was legal, and the row ends as the routing decided. -/
structure HandedOver (cfg : Settings) (t : Nat) (j : UUID) (s : Sys) (acts : List Act) (s' : Sys) :
    Prop where
  legal : Runs.Along (step cfg) (FindsRunning t j) s acts
  quiet : ∃ name id m, s'.tasks t = some ⟨name, id, .handling m (.finished (.ok ()))⟩
  requeued : (∃ e, .appended (some (.task t)) e ∈ s'.log) → HasStatus s' j .pending
  failed : (∃ e, .deadLettered (.task t) e ∈ s'.log) → HasStatus s' j .failed

/-- A delivery that found the row with `status`, point by point. -/
def HandsOver (t : Nat) (j : UUID) (status : JobStatus) (s : Sys) : TaskPoint → Prop
  | .guard | .load => HasStatus s j status ∧ NotRetried s t ∧ NotDeadLettered s t
  | .writeRunning _ _ =>
    status = .pending ∧ HasStatus s j .pending ∧ NotRetried s t ∧ NotDeadLettered s t
  | .running _ | .writeSuccess _ _ | .requeueGet | .writePending _ _ | .deadLetter _ _ =>
    HasStatus s j .running ∧ NotRetried s t ∧ NotDeadLettered s t
  | .successAck => NotRetried s t ∧ NotDeadLettered s t
  | .republish => HasStatus s j .pending ∧ NotDeadLettered s t
  | .retryAck => HasStatus s j .pending ∧ NotDeadLettered s t
  | .deadLetterAck _ | .failGet _ | .writeFailed _ _ => HasStatus s j .running ∧ NotRetried s t
  | .release outcome | .finished outcome => outcome = .ok () ∧
    (NotRetried s t ∨ HasStatus s j .pending) ∧ (NotDeadLettered s t ∨ HasStatus s j .failed)
  | .skipAck => False

/-- A delivery whose processor has raised before its RUNNING write, point by point. -/
def Stranded (j : UUID) (s : Sys) : TaskPoint → Prop
  | .deadLetter _ _ | .deadLetterAck _ | .failGet _ => HasStatus s j .pending
  | _ => False

/-- A delivery that found the row PENDING, before its RUNNING write. -/
def NotStarted (j : UUID) (s : Sys) (p : TaskPoint) : Prop :=
  p = .guard ∨ p.startsJob = true → HasStatus s j .pending

section
variable {cfg : Settings} {s s' : Sys} {a : Act} {t : Nat} {j : UUID} {status : JobStatus}

theorem HandsOver.of_notBy {p : TaskPoint} (hs : Coherent s) (hsole : SoleHandler t j s a)
    (ha : a.NotBy t) (h : step cfg s a = some s') (hp : HandsOver t j status s p) :
    HandsOver t j status s' p := by
  have row : ∀ {status}, HasStatus s j status → HasStatus s' j status :=
    fun hrow => hasStatus_of_notBy hs hsole ha h hrow
  have retry : NotRetried s t → NotRetried s' t := unrecorded_of_notBy (fun _ => rfl) ha h
  have dead : NotDeadLettered s t → NotDeadLettered s' t := .of_notBy ha h
  cases p with
  | guard | load | running _ | writeSuccess _ _ | requeueGet | writePending _ _
  | deadLetter _ _ => exact ⟨row hp.1, retry hp.2.1, dead hp.2.2⟩
  | writeRunning _ _ => exact ⟨hp.1, row hp.2.1, retry hp.2.2.1, dead hp.2.2.2⟩
  | successAck => exact ⟨retry hp.1, dead hp.2⟩
  | republish | retryAck => exact ⟨row hp.1, dead hp.2⟩
  | deadLetterAck _ | failGet _ | writeFailed _ _ => exact ⟨row hp.1, retry hp.2⟩
  | release _ | finished _ => exact ⟨hp.1, hp.2.1.imp retry row, hp.2.2.imp dead row⟩
  | skipAck => exact hp

theorem HandsOver.routed (hrow : HasStatus s j .running) (hretry : NotRetried s t)
    (hdead : NotDeadLettered s t) (cfg : BrokerSettings) (m : JobMessage) (x : Except Exn Unit) :
    HandsOver t j status s (.routed cfg m x) := by
  rcases x with e | u
  · cases e with
    | transient msg =>
      simp only [TaskPoint.routed]
      split <;> exact ⟨hrow, hretry, hdead⟩
    | _ => exact ⟨hrow, hretry, hdead⟩
  · exact ⟨hretry, hdead⟩

section
variable {c : Choice} {name : ConsumerName} {id : Nat} {m : JobMessage} {p : TaskPoint}
  {e : Effect} {k : e.Reply → TaskPoint} {r : e.Reply} {s₁ : Sys}

theorem HandsOver.next (hst : status = .pending ∨ status = .running)
    (hc : c.fate = .ok ∨ c.fate = .failed ∧ p.inProcessor = true)
    (hstarts : status = .pending → p.startsJob = true → c.fate = .ok)
    (hj : m.jobId = j) (hsound : p.Sound m) (hp : HandsOver t j status s p)
    (hnode : p.node cfg.toBrokerSettings id m = .await e k)
    (hperf : s.perform cfg (.task t) c e = some (r, s₁)) : HandsOver t j status s₁ (k r) := by
  subst hj
  have ok : p.inProcessor = false → c.fate = .ok := by
    intro hout
    rcases hc with hc | ⟨_, hin⟩
    · exact hc
    · cases hout.symm.trans hin
  cases p with
  | guard =>
    cases hnode
    obtain ⟨⟨row, hrow, hstatus⟩, hsilent⟩ := hp
    obtain ⟨rfl, rfl⟩ := Sys.perform_get_ok (ok rfl) hperf hrow
    have hterm : row.isTerminal = false := by
      rw [InferenceJob.isTerminal_eq_false_iff, hstatus]
      exact hst
    simp only [TaskPoint.afterGuard, hterm]
    exact ⟨⟨row, hrow, hstatus⟩, hsilent⟩
  | load =>
    cases hnode
    obtain ⟨⟨row, hrow, hstatus⟩, hretry, hdead⟩ := hp
    obtain ⟨rfl, ⟨_, row', hrow', rfl⟩ | ⟨_, hnone, _⟩ | ⟨hfail, rfl⟩⟩ := Sys.perform_get hperf
    · obtain rfl : row' = row := Option.some.inj (hrow'.symm.trans hrow)
      have hterm : row'.isTerminal = false := by
        rw [InferenceJob.isTerminal_eq_false_iff, hstatus]
        exact hst
      rcases hst with rfl | rfl
      · simp only [TaskPoint.afterLoad, hterm, InferenceJob.markRunning_of_pending hstatus]
        exact ⟨rfl, ⟨row', hrow, hstatus⟩, hretry, hdead⟩
      · have hne : row'.status ≠ .pending := by simp [hstatus]
        simp only [TaskPoint.afterLoad, hterm, Bool.false_eq_true, if_false,
          InferenceJob.markRunning_of_ne hne]
        exact .routed ⟨row', hrow, hstatus⟩ hretry hdead _ _ _
    · cases hnone.symm.trans hrow
    · rcases hst with rfl | rfl
      · exact absurd (hstarts rfl rfl) hfail
      · exact .routed ⟨row, hrow, hstatus⟩ hretry hdead cfg.toBrokerSettings m
          (.error (.other c.dbError c.dbRepr))
  | writeRunning seen job =>
    cases hnode
    obtain ⟨hpending, ⟨row, hrow, _⟩, hretry, hdead⟩ := hp
    have hid : job.id = m.jobId := hsound.write_id rfl
    obtain ⟨rfl, rfl⟩ := Sys.perform_update_ok (hstarts hpending rfl) hperf hid hrow
    obtain ⟨_, now, hrun⟩ := hsound
    have hstatus : job.status = .running := by
      obtain ⟨_, rfl⟩ := InferenceJob.markRunning_ok_iff.mp hrun
      rfl
    exact ⟨⟨job, Function.update_self _ _ _, hstatus⟩, unrecorded_append hretry rfl (by simp),
      hdead.append rfl (by simp)⟩
  | running job =>
    cases hnode
    obtain ⟨hrow, hretry, hdead⟩ := hp
    obtain ⟨_, rfl⟩ := Sys.perform_run hperf
    have hrow' : HasStatus (s.record [.ran t job.id c.outcome]) m.jobId .running := hrow
    have hretry' : NotRetried (s.record [.ran t job.id c.outcome]) t :=
      unrecorded_append hretry rfl (by simp)
    have hdead' : NotDeadLettered (s.record [.ran t job.id c.outcome]) t :=
      hdead.append rfl (by simp)
    rcases TaskPoint.afterRun_cases cfg.toBrokerSettings m job r with
      ⟨_, _, _, _, _, _, hafter⟩ | ⟨x, hafter⟩
    · rw [hafter]
      exact ⟨hrow', hretry', hdead'⟩
    · rw [hafter]
      exact .routed hrow' hretry' hdead' _ _ x
  | writeSuccess seen job =>
    cases hnode
    obtain ⟨hrow, hretry, hdead⟩ := hp
    rcases Sys.perform_update hperf with ⟨hne, ⟨_, rfl⟩ | ⟨hlost, rfl⟩, _, _, rfl⟩ | ⟨rfl, _⟩
    · exact ⟨unrecorded_append hretry rfl (by simp), hdead.append rfl (by simp)⟩
    · rcases hc with hc | ⟨hc, _⟩
      · cases hlost.symm.trans hc
      · cases hlost.symm.trans hc
    · exact .routed hrow hretry hdead _ _ r
  | successAck =>
    cases hnode
    obtain ⟨rfl, rfl⟩ := Sys.perform_xack_ok (ok rfl) hperf
    exact ⟨rfl, .inl (unrecorded_append hp.1 rfl (by simp)), .inl (hp.2.append rfl (by simp))⟩
  | requeueGet =>
    cases hnode
    obtain ⟨⟨row, hrow, hstatus⟩, hsilent⟩ := hp
    obtain ⟨rfl, rfl⟩ := Sys.perform_get_ok (ok rfl) hperf hrow
    simp only [TaskPoint.afterRequeueGet, InferenceJob.requeue_of_running hstatus]
    exact ⟨⟨row, hrow, hstatus⟩, hsilent⟩
  | writePending seen job =>
    cases hnode
    obtain ⟨⟨row, hrow, _⟩, _, hdead⟩ := hp
    have hid : job.id = m.jobId := hsound.write_id rfl
    obtain ⟨rfl, rfl⟩ := Sys.perform_update_ok (ok rfl) hperf hid hrow
    obtain ⟨_, now, hreq⟩ := hsound
    have hstatus : job.status = .pending := by
      obtain ⟨_, rfl⟩ := InferenceJob.requeue_ok_iff.mp hreq
      rfl
    exact ⟨⟨job, Function.update_self _ _ _, hstatus⟩, hdead.append rfl (by simp)⟩
  | republish =>
    cases hnode
    obtain ⟨rfl, rfl⟩ := Sys.perform_xaddWork_ok (ok rfl) hperf
    exact ⟨hp.1, hp.2.append rfl (by simp)⟩
  | retryAck =>
    cases hnode
    obtain ⟨rfl, rfl⟩ := Sys.perform_xack_ok (ok rfl) hperf
    exact ⟨rfl, .inr hp.1, .inl (hp.2.append rfl (by simp))⟩
  | deadLetter reason error =>
    cases hnode
    obtain ⟨rfl, rfl⟩ := Sys.perform_xaddDlq_ok (ok rfl) hperf
    exact ⟨hp.1, unrecorded_append hp.2.1 rfl (by simp)⟩
  | deadLetterAck error =>
    cases hnode
    obtain ⟨rfl, rfl⟩ := Sys.perform_xack_ok (ok rfl) hperf
    exact ⟨hp.1, unrecorded_append hp.2 rfl (by simp)⟩
  | failGet error =>
    cases hnode
    obtain ⟨⟨row, hrow, hstatus⟩, hretry⟩ := hp
    obtain ⟨rfl, rfl⟩ := Sys.perform_get_ok (ok rfl) hperf hrow
    simp only [TaskPoint.afterFailGet, InferenceJob.markFailed_of_running hstatus]
    exact ⟨⟨row, hrow, hstatus⟩, hretry⟩
  | writeFailed seen job =>
    cases hnode
    obtain ⟨⟨row, hrow, _⟩, hretry⟩ := hp
    have hid : job.id = m.jobId := hsound.write_id rfl
    obtain ⟨rfl, rfl⟩ := Sys.perform_update_ok (ok rfl) hperf hid hrow
    obtain ⟨_, error, now, hfail⟩ := hsound
    have hstatus : job.status = .failed := by
      obtain ⟨_, rfl⟩ := InferenceJob.markFailed_ok_iff.mp hfail
      rfl
    exact ⟨rfl, .inl (unrecorded_append hretry rfl (by simp)),
      .inr ⟨job, Function.update_self _ _ _, hstatus⟩⟩
  | release outcome =>
    cases hnode
    have hchange := Sys.perform_change hperf
    cases hchange with
    | refl => exact hp
    | discard => exact hp
  | finished outcome => cases hnode
  | skipAck => exact hp.elim

theorem Stranded.next (hc : c.fate = .ok) (hlegal : p.rereads = true → HasStatus s j .running)
    (hp : Stranded j s p) (hnode : p.node cfg.toBrokerSettings id m = .await e k)
    (hperf : s.perform cfg (.task t) c e = some (r, s₁)) : Stranded j s₁ (k r) := by
  cases p with
  | deadLetter reason error =>
    cases hnode
    obtain ⟨rfl, rfl⟩ := Sys.perform_xaddDlq_ok hc hperf
    exact hp
  | deadLetterAck error =>
    cases hnode
    obtain ⟨rfl, rfl⟩ := Sys.perform_xack_ok hc hperf
    exact hp
  | failGet error =>
    obtain ⟨row, hrow, hpending⟩ := hp
    obtain ⟨row', hrow', hrunning⟩ := hlegal rfl
    obtain rfl : row' = row := Option.some.inj (hrow'.symm.trans hrow)
    cases hpending.symm.trans hrunning
  | _ => exact hp.elim

theorem NotStarted.next (hp : NotStarted j s p)
    (hnode : p.node cfg.toBrokerSettings id m = .await e k)
    (hperf : s.perform cfg (.task t) c e = some (r, s₁)) : NotStarted j s₁ (k r) := by
  intro hq
  have hrank : 8 ≤ (k r).rank := by
    rcases hq with hq | hq
    · simp [hq, TaskPoint.rank]
    · cases hkr : k r <;> simp [hkr, TaskPoint.startsJob, TaskPoint.rank] at hq ⊢
  have hlt := TaskPoint.rank_next hnode r
  generalize (k r).rank = n at hrank hlt
  cases p with
  | guard =>
    cases hnode
    obtain ⟨rfl, _⟩ := Sys.perform_get hperf
    exact hp (.inl rfl)
  | load =>
    cases hnode
    obtain ⟨rfl, _⟩ := Sys.perform_get hperf
    exact hp (.inr rfl)
  | _ =>
    simp only [TaskPoint.rank] at hlt
    omega

end

theorem Stranded.of_notBy {p : TaskPoint} (hs : Coherent s) (hsole : SoleHandler t j s a)
    (ha : a.NotBy t) (h : step cfg s a = some s') (hp : Stranded j s p) : Stranded j s' p := by
  cases p with
  | deadLetter _ _ | deadLetterAck _ | failGet _ => exact hasStatus_of_notBy hs hsole ha h hp
  | _ => exact hp

theorem NotStarted.of_notBy {p : TaskPoint} (hs : Coherent s) (hsole : SoleHandler t j s a)
    (ha : a.NotBy t) (h : step cfg s a = some s') (hp : NotStarted j s p) :
    NotStarted j s' p :=
  fun hq => hasStatus_of_notBy hs hsole ha h (hp hq)

section
variable {acts : List Act}

end

end

end InferenceEngine
