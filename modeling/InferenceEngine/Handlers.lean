import InferenceEngine.Coherence
import InferenceEngine.Calls

/-!
# One delivery on its own

When no other delivery of a job is live, the row of the job and the state of its handler are
changed by the handler's own steps only.
-/

namespace InferenceEngine

set_option autoImplicit false

open Programs

/-- No other task that handles the job takes a step. -/
def SoleHandler (t : Nat) (j : UUID) (s : Sys) : Act → Prop
  | .resume (.task u) _ => u ≠ t →
    ∀ name id m p, s.tasks u = some ⟨name, id, .handling m p⟩ → m.jobId ≠ j
  | _ => True

def Act.NotBy (t : Nat) (a : Act) : Prop := ∀ c, a ≠ .resume (.task t) c

section
variable {cfg : Settings} {s s' : Sys} {a : Act} {t : Nat} {j : UUID}

theorem row_of_notBy (hs : Coherent s) (hsole : SoleHandler t j s a) (ha : a.NotBy t)
    (h : step cfg s a = some s') {row : InferenceJob} (hrow : s.rows j = some row) :
    s'.rows j = some row := by
  rcases step_rows h with hr | ⟨id, c, job, _, _, hnone, hr⟩ |
    ⟨u, c, name, id, m, p, seen, job, row', rfl, _, htask, hwrite, _, hr⟩
  · rwa [hr]
  · have hne : j ≠ job.id := by
      rintro rfl
      cases hnone.symm.trans hrow
    rwa [hr, Function.update_of_ne hne]
  · have hut : u ≠ t := by
      rintro rfl
      exact ha c rfl
    have hne : j ≠ job.id := by
      intro hj
      have hid : job.id = m.jobId := (hs.sound _ _ _ _ _ htask).write_id hwrite
      exact hsole hut name id m p htask (hj.trans hid).symm
    rwa [hr, Function.update_of_ne hne]

theorem task_of_notBy (hs : Coherent s) (ha : a.NotBy t) (h : step cfg s a = some s') {τ : Task}
    (htask : s.tasks t = some τ) : s'.tasks t = some τ := by
  rcases step_tasks h with ⟨hr, _⟩ | ⟨name, c, w, p, e, _, _, _, _, _, hr⟩ |
    ⟨u, c, name, id, m, p, e, k, r, s₁, rfl, _, _, _, _, hr⟩
  · rwa [hr]
  · have hne : t ≠ s.nextTask := by
      rintro rfl
      cases (hs.fresh _ le_rfl).symm.trans htask
    rwa [hr, Function.update_of_ne hne]
  · have hne : t ≠ u := by
      rintro rfl
      exact ha c rfl
    rwa [hr, Function.update_of_ne hne]

theorem task_of_new (h : step cfg s a = some s') (hnone : s.tasks t = none) :
    s'.tasks t = none ∨ ∃ name id fields, s'.tasks t = some ⟨name, id, .of fields⟩ := by
  rcases step_tasks h with ⟨hr, _⟩ | ⟨name, c, w, p, e, _, _, _, _, _, hr⟩ |
    ⟨u, c, name, id, m, p, e, k, r, s₁, rfl, htask, _, _, _, hr⟩
  · exact .inl (hr ▸ hnone)
  · by_cases ht : t = s.nextTask
    · subst ht
      exact .inr ⟨name, e.id, e.fields, by rw [hr, Function.update_self]⟩
    · exact .inl (by rw [hr, Function.update_of_ne ht, hnone])
  · have hne : t ≠ u := by
      rintro rfl
      cases htask.symm.trans hnone
    exact .inl (by rw [hr, Function.update_of_ne hne, hnone])

theorem log_of_notBy (ha : a.NotBy t) (h : step cfg s a = some s') :
    ∃ es, s'.log = s.log ++ es ∧ ∀ ev ∈ es, ev.actor ≠ some (.task t) := by
  obtain ⟨es, hlog, hactor⟩ := step_log h
  refine ⟨es, hlog, fun ev hev hev' => ?_⟩
  rcases hactor ev hev with hnone | ⟨who, c, rfl, hwho⟩
  · cases hnone.symm.trans hev'
  · obtain rfl : who = .task t := Option.some.inj (hwho.symm.trans hev')
    exact ha c rfl

theorem TaskBody.of_cases (fields : Fields) :
    (∃ m, JobMessage.fromFields fields = .ok m ∧ TaskBody.of fields = .handling m .guard) ∨
      ∃ x, TaskBody.of fields = .undecodable x := by
  unfold TaskBody.of
  cases h : JobMessage.fromFields fields with
  | ok m => exact .inl ⟨m, rfl, rfl⟩
  | error x => exact .inr ⟨x, rfl⟩

/-- A task stands where it stood, at its start, or one step further. -/
theorem handling_of_step (h : step cfg s a = some s') {name : ConsumerName} {id : Nat}
    {m : JobMessage} {p : TaskPoint} (htask : s'.tasks t = some ⟨name, id, .handling m p⟩) :
    s.tasks t = some ⟨name, id, .handling m p⟩ ∨ p = .guard ∨
    ∃ c q, ∃ (e : Effect) (k : e.Reply → TaskPoint) (r : e.Reply) (s₁ : Sys),
      a = .resume (.task t) c ∧ s.tasks t = some ⟨name, id, .handling m q⟩ ∧
      q.node cfg.toBrokerSettings id m = .await e k ∧
      s.perform cfg (.task t) c e = some (r, s₁) ∧ p = k r := by
  rcases step_tasks h with ⟨hr, _⟩ | ⟨_, _, _, _, x, _, _, _, _, _, hr⟩ |
    ⟨u, c, name', id', m', q, e, k, r, s₁, ha, hu, hnode, hperf, _, hr⟩
  · exact .inl (hr ▸ htask)
  · by_cases ht : t = s.nextTask
    · subst ht
      rw [hr, Function.update_self] at htask
      have hbody := congrArg Task.body (Option.some.inj htask)
      rcases TaskBody.of_cases x.fields with ⟨_, _, hof⟩ | ⟨_, hof⟩ <;> cases hof.symm.trans hbody
      exact .inr (.inl rfl)
    · rw [hr, Function.update_of_ne ht] at htask
      exact .inl htask
  · by_cases htu : t = u
    · subst htu
      rw [hr, Function.update_self] at htask
      injection htask with htask
      injection htask with hname hid hbody
      injection hbody with hm hk
      subst hname hid hm
      exact .inr (.inr ⟨c, q, e, k, r, s₁, ha, hu, hnode, hperf, hk.symm⟩)
    · rw [hr, Function.update_of_ne htu] at htask
      exact .inl htask

/-- `B` holds before the handler exists, `Phase` at each of its points. -/
structure Follows (t : Nat) (j : UUID) (B : Sys → Prop)
    (Phase : Sys → Nat → JobMessage → TaskPoint → Prop) (s : Sys) : Prop where
  before : s.tasks t = none → B s
  phase : ∀ name id m p, s.tasks t = some ⟨name, id, .handling m p⟩ → m.jobId = j → Phase s id m p

/-- What holds of a handler in a run: what other steps keep and its own steps establish. -/
theorem Follows.exec {B : Sys → Prop} {Phase : Sys → Nat → JobMessage → TaskPoint → Prop}
    {P : Sys → Act → Prop}
    (before : ∀ s a s', Coherent s → P s a → a.NotBy t → step cfg s a = some s' → B s → B s')
    (other : ∀ s a s' id m p, Coherent s → P s a → a.NotBy t → step cfg s a = some s' →
      m.jobId = j → Phase s id m p → Phase s' id m p)
    (start : ∀ s id m, B s → m.jobId = j → Phase s id m .guard)
    (own : ∀ s c name id m p, ∀ (e : Effect) (k : e.Reply → TaskPoint) (r : e.Reply) (s₁ : Sys),
      Coherent s → P s (.resume (.task t) c) → m.jobId = j →
      s.tasks t = some ⟨name, id, .handling m p⟩ → Phase s id m p →
      p.node cfg.toBrokerSettings id m = .await e k →
      s.perform cfg (.task t) c e = some (r, s₁) →
      step cfg s (.resume (.task t) c) = some (s₁.setTask t ⟨name, id, .handling m (k r)⟩) →
      Phase (s₁.setTask t ⟨name, id, .handling m (k r)⟩) id m (k r))
    {s s' : Sys} {acts : List Act} (hs : Coherent s) (hF : Follows t j B Phase s)
    (hP : Runs.Along (step cfg) P s acts) (h : Runs.exec (step cfg) s acts = some s') :
    Follows t j B Phase s' := by
  refine (Runs.invariant (I := fun s => Coherent s ∧ Follows t j B Phase s) (P := P) ?_
    ⟨hs, hF⟩ hP h).2
  rintro s a s' ⟨hs, hbefore, hphase⟩ hP h
  refine ⟨hs.step h, ?_, ?_⟩
  · intro hnone'
    have hnone : s.tasks t = none := by
      by_contra hne
      exact tasks_ne_none_of_step h hne hnone'
    have hnot : a.NotBy t := by
      rintro c rfl
      cases Sys.step_cases h with
      | task t c name id m p w q e k r s₁ htask => cases hnone.symm.trans htask
    exact before s a s' hs hP hnot h (hbefore hnone)
  · intro name id m p htask hj
    by_cases hnot : a.NotBy t
    · cases hold : s.tasks t with
      | none =>
        have hB' := before s a s' hs hP hnot h (hbefore hold)
        rcases task_of_new h hold with hnone | ⟨name', id', fields, hnew⟩
        · cases hnone.symm.trans htask
        · have hbody := congrArg Task.body (Option.some.inj (hnew.symm.trans htask))
          rcases TaskBody.of_cases fields with ⟨m', _, hof⟩ | ⟨x, hof⟩
          · cases hof.symm.trans hbody
            exact start s' id m hB' hj
          · cases hof.symm.trans hbody
      | some τ =>
        cases (task_of_notBy hs hnot h hold).symm.trans htask
        exact other s a s' id m p hs hP hnot h hj (hphase name id m p hold hj)
    · simp only [Act.NotBy, ne_eq, not_forall, not_not] at hnot
      obtain ⟨c, rfl⟩ := hnot
      cases Sys.step_cases h with
      | task t c name' id' m' p' w q e k r s₁ hold hw hstage hnode hperf =>
        rw [Sys.setTask_tasks, Function.update_self] at htask
        cases htask
        exact own s c _ _ m p' e k r s₁ hs hP hj hold (hphase _ _ m p' hold hj) hnode hperf h

theorem Follows.of_new {B : Sys → Prop} {Phase : Sys → Nat → JobMessage → TaskPoint → Prop}
    {s : Sys} (hnew : s.tasks t = none) (hB : B s) : Follows t j B Phase s where
  before := fun _ => hB
  phase := by
    intro name id m p htask
    cases hnew.symm.trans htask

end

namespace TaskPoint

/-- An upper bound on the steps that are left. -/
def rank : TaskPoint → Nat
  | guard => 10
  | load => 9
  | writeRunning _ _ => 8
  | running _ => 7
  | writeSuccess _ _ => 6
  | requeueGet | deadLetter _ _ => 5
  | writePending _ _ | deadLetterAck _ => 4
  | republish | failGet _ => 3
  | skipAck | successAck | retryAck | writeFailed _ _ => 2
  | release _ => 1
  | finished _ => 0

variable {cfg : BrokerSettings} {id : Nat} {m : JobMessage}

theorem rank_routed (cfg : BrokerSettings) (m : JobMessage) (x : Except Exn Unit) :
    (routed cfg m x).rank ≤ 5 := by
  rcases x with e | u
  · cases e with
    | transient msg =>
      simp only [routed]
      split <;> simp [rank]
    | _ => simp [routed, rank]
  · simp [routed, rank]

theorem rank_raised (e : Exn) : (raised e).rank = 1 := by
  cases e <;> rfl

theorem rank_next {p : TaskPoint} {e : Effect} {k : e.Reply → TaskPoint}
    (hnode : p.node cfg id m = .await e k) (r : e.Reply) : (k r).rank < p.rank := by
  have routed_lt : ∀ x n, 6 ≤ n → (routed cfg m x).rank < n := by
    intro x n hn
    have hle := rank_routed cfg m x
    omega
  cases p with
  | guard =>
    cases hnode
    rcases r with x | ⟨job, now⟩
    · cases x <;> simp [afterGuard, rank]
    · simp only [afterGuard]
      split <;> simp [rank]
  | load =>
    cases hnode
    rcases afterLoad_cases cfg m r with ⟨_, _, _, _, _, h⟩ | ⟨x, h, _⟩
    · simp [h, rank]
    · rw [h]
      exact routed_lt x 9 (by omega)
  | writeRunning seen job =>
    cases hnode
    rcases r with x | u
    · exact routed_lt (.error x) 8 (by omega)
    · simp [afterWriteRunning, rank]
  | running job =>
    cases hnode
    rcases afterRun_cases cfg m job r with ⟨_, _, _, _, _, _, h⟩ | ⟨x, h⟩
    · simp [h, rank]
    · rw [h]
      exact routed_lt x 7 (by omega)
  | writeSuccess seen job =>
    cases hnode
    exact routed_lt r 6 (by omega)
  | requeueGet =>
    cases hnode
    rcases r with x | ⟨job, now⟩
    · cases x <;> simp [afterRequeueGet, rank]
    · simp only [afterRequeueGet]
      cases job.requeue now <;> simp [rank]
  | failGet error =>
    cases hnode
    rcases r with x | ⟨job, now⟩
    · cases x <;> simp [afterFailGet, rank]
    · simp only [afterFailGet]
      cases job.markFailed error none now <;> simp [rank]
  | republish | deadLetter reason error =>
    cases hnode
    rcases r with x | u
    · have hone : (raised x).rank = 1 := rank_raised x
      simp only [afterXadd, hone]
      simp [rank]
    · simp [afterXadd, rank]
  | writePending seen job | deadLetterAck error =>
    cases hnode
    rcases r with x | u <;> simp [andThen, rank]
  | skipAck | successAck | retryAck | writeFailed seen job | release outcome =>
    cases hnode
    simp [rank]
  | finished outcome => cases hnode

end TaskPoint

section
variable {cfg : Settings} {s : Sys} {t : Nat} {name : ConsumerName} {id : Nat} {m : JobMessage}
  {p : TaskPoint}

theorem perform_of_task {c : Choice} {e : Effect} {k : e.Reply → TaskPoint} (hc : c.trim = 0)
    (htask : s.tasks t = some ⟨name, id, .handling m p⟩)
    (hnode : p.node cfg.toBrokerSettings id m = .await e k) :
    ∃ r s₁, s.perform cfg (.task t) c e = some (r, s₁) ∧ s₁.stageOf name = s.stageOf name := by
  have htrim : ∀ st : Stream, st.trimAllowed cfg.maxlen c.trim = true := by
    intro st
    simp [Stream.trimAllowed, hc]
  have hconsumer : s.consumer (.task t) = some name := by simp [Sys.consumer, htask]
  have hsome : ∃ out, s.perform cfg (.task t) c e = some out := by
    cases p <;> cases hnode
    case republish => exact ⟨_, if_pos (htrim _)⟩
    case deadLetter => exact ⟨_, if_pos (htrim _)⟩
    case release =>
      exact ⟨((), s.discardId name id), by simp only [Sys.perform, hconsumer]; rfl⟩
    all_goals exact ⟨_, rfl⟩
  obtain ⟨⟨r, s₁⟩, hperf⟩ := hsome
  exact ⟨r, s₁, hperf, (Sys.perform_change hperf).stage name⟩

theorem step_of_task (cfg : Settings) {c : Choice} {q : PassPoint} (hc : c.trim = 0)
    (htask : s.tasks t = some ⟨name, id, .handling m p⟩)
    (hstage : s.stageOf name = some (.looping q)) (hp : 0 < p.rank) :
    ∃ p' s', step cfg s (.resume (.task t) c) = some s' ∧ p'.rank < p.rank ∧
      s'.tasks t = some ⟨name, id, .handling m p'⟩ ∧ s'.stageOf name = some (.looping q) := by
  cases hnode : p.node cfg.toBrokerSettings id m with
  | done outcome =>
    cases p <;> cases hnode
    cases hp
  | await e k =>
    obtain ⟨r, s₁, hperf, hs₁⟩ := perform_of_task hc htask hnode
    obtain ⟨w, hw, hq⟩ := Option.map_eq_some_iff.mp hstage
    refine ⟨k r, s₁.setTask t ⟨name, id, .handling m (k r)⟩, ?_, TaskPoint.rank_next hnode r,
      Function.update_self _ _ _, hs₁.trans hstage⟩
    obtain ⟨stage, ids, flight, cursor⟩ := w
    obtain rfl : stage = .looping q := hq
    simp only [step, Sys.resume, htask, hw]
    exact Sys.await_eq_some.mpr ⟨e, k, r, s₁, hnode, hperf, rfl⟩

end

end InferenceEngine
