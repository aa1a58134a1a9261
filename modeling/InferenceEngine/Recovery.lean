import InferenceEngine.Handlers

/-!
# Taking over the job of a dead worker

What the handler of a takeover does depends on the row the dead worker left behind: a PENDING
row is executed again; a RUNNING row has no edge to RUNNING, so the job is failed.
-/

namespace InferenceEngine

set_option autoImplicit false

def NotDeadLettered (s : Sys) (t : Nat) : Prop := ∀ e, .deadLettered (.task t) e ∉ s.log

/-- A takeover of a PENDING row, point by point. -/
def Reexecutes (t : Nat) (j : UUID) (s : Sys) : TaskPoint → Prop
  | .guard | .load | .writeRunning _ _ => HasStatus s j .pending
  | .running _ => HasStatus s j .running
  | .writeSuccess _ _ => HasStatus s j .running ∧ ∃ outcome, .ran t j outcome ∈ s.log
  | .successAck | .release _ | .finished _ =>
    HasStatus s j .success ∧ ∃ outcome, .ran t j outcome ∈ s.log
  | _ => False

/-- A takeover of a RUNNING row, point by point. -/
def Abandons (j : UUID) (s : Sys) : TaskPoint → Prop
  | .guard | .load | .deadLetter _ _ | .deadLetterAck _ | .failGet _ | .writeFailed _ _ =>
    HasStatus s j .running
  | .release _ | .finished _ => HasStatus s j .failed
  | _ => False

section
variable {cfg : Settings} {s s' : Sys} {a : Act} {t : Nat} {j : UUID}

theorem hasStatus_of_notBy {status : JobStatus} (hs : Coherent s) (hsole : SoleHandler t j s a)
    (ha : a.NotBy t) (h : step cfg s a = some s') (hrow : HasStatus s j status) :
    HasStatus s' j status := by
  obtain ⟨row, hrow, hstatus⟩ := hrow
  exact ⟨row, row_of_notBy hs hsole ha h hrow, hstatus⟩

theorem unrecorded_of_notBy {f : StreamEntry → Event} (hf : ∀ e, (f e).actor = some (.task t))
    (ha : a.NotBy t) (h : step cfg s a = some s') (hnot : ∀ e, f e ∉ s.log) :
    ∀ e, f e ∉ s'.log := by
  intro e hmem
  obtain ⟨es, hlog, hes⟩ := log_of_notBy ha h
  rcases List.mem_append.mp (hlog ▸ hmem) with hmem | hmem
  · exact hnot e hmem
  · exact hes _ hmem (hf e)

theorem unrecorded_append {f : StreamEntry → Event} {ev : Event} (hnot : ∀ e, f e ∉ s.log)
    (hlog : s'.log = s.log ++ [ev]) (hev : ∀ e, ev ≠ f e) : ∀ e, f e ∉ s'.log := by
  intro e hmem
  rcases List.mem_append.mp (hlog ▸ hmem) with hmem | hmem
  · exact hnot e hmem
  · exact hev e (List.mem_singleton.mp hmem).symm

theorem NotDeadLettered.of_notBy (ha : a.NotBy t) (h : step cfg s a = some s')
    (hnot : NotDeadLettered s t) : NotDeadLettered s' t :=
  unrecorded_of_notBy (fun _ => rfl) ha h hnot

theorem NotDeadLettered.append {ev : Event} (hnot : NotDeadLettered s t)
    (hlog : s'.log = s.log ++ [ev]) (hev : ∀ e, ev ≠ .deadLettered (.task t) e) :
    NotDeadLettered s' t :=
  unrecorded_append hnot hlog hev

theorem NotDeadLettered.of_new (hs : Coherent s) (hnew : s.tasks t = none) :
    NotDeadLettered s t :=
  fun _ hmem => hs.logged t hnew _ hmem rfl

theorem Reexecutes.of_notBy {p : TaskPoint} (hs : Coherent s) (hsole : SoleHandler t j s a)
    (ha : a.NotBy t) (h : step cfg s a = some s') (hp : Reexecutes t j s p) :
    Reexecutes t j s' p := by
  have row : ∀ status, HasStatus s j status → HasStatus s' j status :=
    fun status hrow => hasStatus_of_notBy hs hsole ha h hrow
  have ran : (∃ outcome, Event.ran t j outcome ∈ s.log) → ∃ outcome, .ran t j outcome ∈ s'.log :=
    fun ⟨outcome, hran⟩ => ⟨outcome, log_mem_of_step h hran⟩
  cases p with
  | guard | load | writeRunning _ _ | running _ => exact row _ hp
  | writeSuccess _ _ | successAck | release _ | finished _ => exact ⟨row _ hp.1, ran hp.2⟩
  | _ => exact hp

theorem Abandons.of_notBy {p : TaskPoint} (hs : Coherent s) (hsole : SoleHandler t j s a)
    (ha : a.NotBy t) (h : step cfg s a = some s') (hp : Abandons j s p) : Abandons j s' p := by
  cases p with
  | guard | load | deadLetter _ _ | deadLetterAck _ | failGet _ | writeFailed _ _
  | release _ | finished _ => exact hasStatus_of_notBy hs hsole ha h hp
  | _ => exact hp

section
variable {c : Choice} {name : ConsumerName} {id : Nat} {m : JobMessage} {p : TaskPoint}
  {e : Effect} {k : e.Reply → TaskPoint} {r : e.Reply} {s₁ : Sys}

theorem Reexecutes.next (hc : c.fate = .ok) (hout : ∃ out, c.outcome = .ok out)
    (hj : m.jobId = j) (hsound : p.Sound m) (hp : Reexecutes t j s p)
    (hnode : p.node cfg.toBrokerSettings id m = .await e k)
    (hperf : s.perform cfg (.task t) c e = some (r, s₁)) (hkept : NotDeadLettered s t) :
    Reexecutes t j s₁ (k r) ∧ NotDeadLettered s₁ t := by
  subst hj
  cases p with
  | guard =>
    cases hnode
    obtain ⟨row, hrow, hstatus⟩ := hp
    obtain ⟨rfl, rfl⟩ := Sys.perform_get_ok hc hperf hrow
    have hterm : row.isTerminal = false :=
      (InferenceJob.isTerminal_eq_false_iff row).mpr (.inl hstatus)
    simp only [TaskPoint.afterGuard, hterm]
    exact ⟨⟨row, hrow, hstatus⟩, hkept⟩
  | load =>
    cases hnode
    obtain ⟨row, hrow, hstatus⟩ := hp
    obtain ⟨rfl, rfl⟩ := Sys.perform_get_ok hc hperf hrow
    have hterm : row.isTerminal = false :=
      (InferenceJob.isTerminal_eq_false_iff row).mpr (.inl hstatus)
    simp only [TaskPoint.afterLoad, hterm, InferenceJob.markRunning_of_pending hstatus]
    exact ⟨⟨row, hrow, hstatus⟩, hkept⟩
  | writeRunning seen job =>
    cases hnode
    have hid : job.id = m.jobId := hsound.write_id rfl
    obtain ⟨row, hrow, _⟩ := hp
    obtain ⟨_, now, hrun⟩ := hsound
    obtain ⟨rfl, rfl⟩ := Sys.perform_update_ok hc hperf hid hrow
    have hstatus : job.status = .running := by
      obtain ⟨_, rfl⟩ := InferenceJob.markRunning_ok_iff.mp hrun
      rfl
    exact ⟨⟨job, Function.update_self _ _ _, hstatus⟩, hkept.append rfl fun _ h => by cases h⟩
  | running job =>
    cases hnode
    obtain ⟨hid, hstatus⟩ := hsound
    obtain ⟨⟨ref, ms⟩, hout⟩ := hout
    obtain ⟨hr, rfl⟩ := Sys.perform_run hperf
    obtain rfl : r = .ok (ref, ms, c.now) := by rw [hr, hout]; rfl
    have hran : Event.ran t m.jobId c.outcome ∈ (s.record [.ran t job.id c.outcome]).log :=
      List.mem_append_right _ (hid ▸ List.mem_singleton_self _)
    simp only [TaskPoint.afterRun, InferenceJob.markSuccess_of_running hstatus]
    exact ⟨⟨hp, c.outcome, hran⟩, hkept.append rfl fun _ h => by cases h⟩
  | writeSuccess seen job =>
    cases hnode
    have hid : job.id = m.jobId := hsound.write_id rfl
    obtain ⟨⟨row, hrow, _⟩, outcome, hran⟩ := hp
    obtain ⟨_, ref, d, now, hsucc⟩ := hsound
    obtain ⟨rfl, rfl⟩ := Sys.perform_update_ok hc hperf hid hrow
    have hstatus : job.status = .success := by
      obtain ⟨_, rfl⟩ := InferenceJob.markSuccess_ok_iff.mp hsucc
      rfl
    exact ⟨⟨⟨job, Function.update_self _ _ _, hstatus⟩, outcome, List.mem_append_left _ hran⟩,
      hkept.append rfl fun _ h => by cases h⟩
  | successAck =>
    cases hnode
    obtain ⟨hrow, outcome, hran⟩ := hp
    obtain ⟨rfl, rfl⟩ := Sys.perform_xack_ok hc hperf
    exact ⟨⟨hrow, outcome, List.mem_append_left _ hran⟩, hkept.append rfl fun _ h => by cases h⟩
  | release outcome =>
    cases hnode
    have hchange := Sys.perform_change hperf
    cases hchange with
    | refl => exact ⟨hp, hkept⟩
    | discard => exact ⟨hp, hkept⟩
  | finished outcome => cases hnode
  | _ => exact hp.elim

theorem Abandons.next (hc : c.fate = .ok) (hj : m.jobId = j) (hsound : p.Sound m)
    (hp : Abandons j s p) (hnode : p.node cfg.toBrokerSettings id m = .await e k)
    (hperf : s.perform cfg (.task t) c e = some (r, s₁)) : Abandons j s₁ (k r) := by
  subst hj
  cases p with
  | guard =>
    cases hnode
    obtain ⟨row, hrow, hstatus⟩ := hp
    obtain ⟨rfl, rfl⟩ := Sys.perform_get_ok hc hperf hrow
    have hterm : row.isTerminal = false :=
      (InferenceJob.isTerminal_eq_false_iff row).mpr (.inr hstatus)
    simp only [TaskPoint.afterGuard, hterm]
    exact ⟨row, hrow, hstatus⟩
  | load =>
    cases hnode
    obtain ⟨row, hrow, hstatus⟩ := hp
    obtain ⟨rfl, rfl⟩ := Sys.perform_get_ok hc hperf hrow
    have hterm : row.isTerminal = false :=
      (InferenceJob.isTerminal_eq_false_iff row).mpr (.inr hstatus)
    have hne : row.status ≠ .pending := by simp [hstatus]
    simp only [TaskPoint.afterLoad, hterm, InferenceJob.markRunning_of_ne hne]
    exact ⟨row, hrow, hstatus⟩
  | deadLetter reason error =>
    cases hnode
    obtain ⟨rfl, rfl⟩ := Sys.perform_xaddDlq_ok hc hperf
    exact hp
  | deadLetterAck error =>
    cases hnode
    obtain ⟨rfl, rfl⟩ := Sys.perform_xack_ok hc hperf
    exact hp
  | failGet error =>
    cases hnode
    obtain ⟨row, hrow, hstatus⟩ := hp
    obtain ⟨rfl, rfl⟩ := Sys.perform_get_ok hc hperf hrow
    simp only [TaskPoint.afterFailGet, InferenceJob.markFailed_of_running hstatus]
    exact ⟨row, hrow, hstatus⟩
  | writeFailed seen job =>
    cases hnode
    have hid : job.id = m.jobId := hsound.write_id rfl
    obtain ⟨row, hrow, _⟩ := hp
    obtain ⟨_, error, now, hfail⟩ := hsound
    obtain ⟨rfl, rfl⟩ := Sys.perform_update_ok hc hperf hid hrow
    have hstatus : job.status = .failed := by
      obtain ⟨_, rfl⟩ := InferenceJob.markFailed_ok_iff.mp hfail
      rfl
    exact ⟨job, Function.update_self _ _ _, hstatus⟩
  | release outcome =>
    cases hnode
    have hchange := Sys.perform_change hperf
    cases hchange with
    | refl => exact hp
    | discard => exact hp
  | finished outcome => cases hnode
  | _ => exact hp.elim

end

end

def takeover : List Act := boot 1 ++ claimPass 1 1

end InferenceEngine
