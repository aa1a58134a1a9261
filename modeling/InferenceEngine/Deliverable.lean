import InferenceEngine.Coherence
import InferenceEngine.Retention

/-!
# Published pointers and the start of the group

The group is created at `$`, the end of the stream. When the stream is still empty then, every
entry lies after the position up to which the group has read, until it is delivered.
-/

namespace InferenceEngine

set_option autoImplicit false

open Programs Windows

/-- The worker has returned from `start`. -/
def Stage.started : Stage → Bool
  | .starting (.finished (.ok ())) => true
  | .looping _ => true
  | _ => false

/-- The group is created before the first entry is appended, and nothing is trimmed. -/
def GroupFirst (s : Sys) (a : Act) : Prop :=
  a.trim = 0 ∧ ∀ name c, a = .resume (.worker name) c → c.fate ≠ .failed →
    s.stageOf name = some (.starting .creating) → s.redis.group = none → s.redis.work.lastId = 0

/-- Every appended entry is delivered or lies after what the group has read. -/
structure Covered (s : Sys) : Prop where
  kept : ∀ who e, .appended who e ∈ s.log → e ∈ s.redis.work.entries
  covered : ∀ g, s.redis.group = some g → ∀ who e, .appended who e ∈ s.log →
    (∃ c, .delivered c e ∈ s.log) ∨ g.lastDelivered < e.id
  started : ∀ name stage, s.stageOf name = some stage → stage.started = true →
    s.redis.group ≠ none
  published : ∀ id job r, s.submissions id = some (job, .finished (.ok r)) →
    ∃ e, .appended (some (.submission id)) e ∈ s.log ∧
      e.fields = (JobMessage.firstDelivery job).toFields

section
variable {cfg : Settings} {s s' : Sys} {a : Act}

theorem Covered.init : Covered Sys.init where
  kept := by
    intro who e he
    cases he
  covered := by
    intro g hg
    cases hg
  started := by
    intro name stage hstage
    cases hstage
  published := by
    intro id job r hsub
    cases hsub

theorem Covered.step_kept (hs : Covered s) (hcond : a.trim = 0) (h : step cfg s a = some s') :
    ∀ who e, .appended who e ∈ s'.log → e ∈ s'.redis.work.entries := by
  intro who e he
  rcases step_work h with ⟨hwork, es, hlog, hes⟩ | ⟨who', fields, _, hredis, hlog⟩
  · rw [hlog] at he
    rw [hwork]
    rcases List.mem_append.mp he with he | he
    · exact hs.kept who e he
    · exact absurd he (hes who e)
  · have hentries : s'.redis.work.entries =
        s.redis.work.entries ++ [Sys.nextEntry s.redis.work fields] := by
      rw [hredis, hcond]
      rfl
    rw [hlog] at he
    rw [hentries]
    rcases List.mem_append.mp he with he | he
    · exact List.mem_append_left _ (hs.kept who e he)
    · cases List.mem_singleton.mp he
      exact List.mem_append_right _ (List.mem_singleton.mpr rfl)

theorem Covered.step_covered (hr : Retained cfg s) (hs : Covered s) (hcond : GroupFirst s a)
    (h : step cfg s a = some s') : ∀ g, s'.redis.group = some g → ∀ who e,
      .appended who e ∈ s'.log → (∃ c, .delivered c e ∈ s'.log) ∨ g.lastDelivered < e.id := by
  intro g' hg' who e he
  obtain ⟨es, hlog, _⟩ := step_log h
  have keeps : ∀ ev, ev ∈ s.log → ev ∈ s'.log := by
    intro ev hev
    rw [hlog]
    exact List.mem_append_left _ hev
  -- the entry is an old one, or it has just been appended after the last id
  have hcases : .appended who e ∈ s.log ∨ e.id = s.redis.work.lastId + 1 := by
    rcases step_work h with ⟨_, es', hlog', hes⟩ | ⟨who', fields, _, _, hlog'⟩
    · rw [hlog'] at he
      rcases List.mem_append.mp he with he | he
      · exact .inl he
      · exact absurd he (hes who e)
    · rw [hlog'] at he
      rcases List.mem_append.mp he with he | he
      · exact .inl he
      · cases List.mem_singleton.mp he
        exact .inr rfl
  rcases step_group h with hg | ⟨name, c, w, rfl, hf, hw, hstage, hnone, hredis, hlog'⟩ |
    ⟨n, name, g, hg, hredis, hlog'⟩
  · rw [hg'] at hg
    obtain ⟨g, hgs, hgl⟩ := Option.map_eq_some_iff.mp hg.symm
    have hgl : g.lastDelivered = g'.lastDelivered := hgl
    rcases hcases with hold | hnew
    · rcases hs.covered g hgs who e hold with ⟨c, hc⟩ | hlt
      · exact .inl ⟨c, keeps _ hc⟩
      · exact .inr (hgl ▸ hlt)
    · have hbound := hr.bound g hgs
      right
      omega
  · have hzero := hcond.2 name c rfl hf (by rw [Sys.stageOf, hw, Option.map_some, hstage]) hnone
    rw [hredis] at hg'
    cases hg'
    rw [hlog'] at he
    obtain ⟨hpos, _, _⟩ := hr.appended who e he
    right
    show s.redis.work.lastId < e.id
    omega
  · rw [hredis] at hg'
    cases hg'
    have hold : .appended who e ∈ s.log := by
      rw [hlog'] at he
      rcases List.mem_append.mp he with he | he
      · exact he
      · obtain ⟨_, _, hev⟩ := List.mem_map.mp he
        cases hev
    rcases hs.covered g hg who e hold with ⟨c, hc⟩ | hlt
    · exact .inl ⟨c, keeps _ hc⟩
    · have hunread : e ∈ g.unread s.redis.work :=
        List.mem_filter.mpr ⟨hs.kept who e hold, by simpa using hlt⟩
      rw [← List.take_append_drop n.toNat (g.unread s.redis.work)] at hunread
      rcases List.mem_append.mp hunread with hread | hleft
      · refine .inl ⟨name, ?_⟩
        rw [hlog']
        exact List.mem_append_right _ (List.mem_map.mpr ⟨e, hread, rfl⟩)
      · exact .inr (Group.lastDelivered_lt_of_mem_drop hr.window.sorted hleft)

theorem Covered.step_started (hs : Covered s) (h : step cfg s a = some s') :
    ∀ name stage, s'.stageOf name = some stage → stage.started = true → s'.redis.group ≠ none := by
  intro name stage hstage hstarted
  rcases step_stage h name with hsame | ⟨_, _, hnew⟩ | ⟨_, hold, hnew⟩ |
    ⟨c, p, e, k, r, s₁, _, hold, hnode, hperf, rfl, hnew⟩ |
    ⟨c, p, e, k, r, s₁, _, hold, hnode, hperf, _, hnew⟩ | ⟨_, hnew⟩
  · rw [hsame] at hstage
    exact group_ne_none_of_step h (hs.started name stage hstage hstarted)
  · rw [hnew] at hstage
    cases hstage
    cases hstarted
  · have hgroup : s.redis.group ≠ none := by
      rcases hold with hold | ⟨outcome, hold⟩
      · exact hs.started name _ hold rfl
      · exact hs.started name _ hold rfl
    exact group_ne_none_of_step h hgroup
  · rw [hnew] at hstage
    cases hstage
    cases p with
    | creating =>
      cases hnode
      have hdone : StartPoint.afterCreate r = .finished (.ok ()) := by
        cases hk : StartPoint.afterCreate r with
        | creating =>
          rw [hk] at hstarted
          cases hstarted
        | finished outcome =>
          rw [hk] at hstarted
          rcases outcome with x | u
          · cases hstarted
          · rfl
      have hgroup := Sys.perform_xgroupCreate hperf hdone
      exact hgroup
    | finished outcome => cases hnode
  · exact group_ne_none_of_step h (hs.started name _ hold rfl)
  · rw [hnew] at hstage
    cases hstage
    cases hstarted

theorem Covered.step_published (hcoh : Coherent s) (hs : Covered s) (h : step cfg s a = some s') :
    ∀ id job r, s'.submissions id = some (job, .finished (.ok r)) →
      ∃ e, .appended (some (.submission id)) e ∈ s'.log ∧
        e.fields = (JobMessage.firstDelivery job).toFields := by
  intro id job r hsub
  obtain ⟨es, hlog, _⟩ := step_log h
  rcases step_submission hcoh h id with hsame | ⟨_, _, _, _, _, _, hnew⟩ |
    ⟨c, job', p, e, k, reply, s₁, rfl, hold, hnode, hperf, rfl, hnew⟩
  · rw [hsame] at hsub
    obtain ⟨e, he, hfields⟩ := hs.published id job r hsub
    rw [hlog]
    exact ⟨e, List.mem_append_left _ he, hfields⟩
  · rw [hnew] at hsub
    cases hsub
  · rw [hnew] at hsub
    obtain ⟨rfl, hk⟩ := Prod.mk.inj (Option.some.inj hsub)
    cases p with
    | adding =>
      cases hnode
      rcases reply with x | u <;> cases hk
    | publishing left =>
      cases hnode
      obtain ⟨_, ⟨_, rfl, rfl⟩ | ⟨_, rfl, _⟩ | ⟨_, rfl, _⟩⟩ := Sys.perform_xaddWork hperf
      · exact ⟨_, List.mem_append_right _ (List.mem_singleton.mpr rfl), rfl⟩
      all_goals
        cases left <;> simp only [SubmitPoint.afterPublish, SubmitPoint.retryOrRaise] at hk
        · cases hk
        · split at hk <;> cases hk
    | finished outcome => cases hnode

theorem Covered.step (hcoh : Coherent s) (hr : Retained cfg s) (hs : Covered s)
    (hcond : GroupFirst s a) (h : InferenceEngine.step cfg s a = some s') : Covered s' where
  kept := hs.step_kept hcond.1 h
  covered := hs.step_covered hr hcond h
  started := hs.step_started h
  published := hs.step_published hcoh h

/-- The pointer is delivered, or the next reads of new entries will return it. -/
def Deliverable (s : Sys) (e : StreamEntry) : Prop :=
  (∃ c, .delivered c e ∈ s.log) ∨
    ∃ g, s.redis.group = some g ∧ g.lastDelivered < e.id ∧ e ∈ g.unread s.redis.work

/-- When the group was created first, the pointer of every accepted job is deliverable. -/
theorem deliverable_of_groupFirst {acts : List Act} {name : ConsumerName} {stage : Stage}
    {id : UUID} {job : InferenceJob} {r : UUID} (h : Reaches cfg acts s)
    (hfirst : Runs.Along (InferenceEngine.step cfg) GroupFirst Sys.init acts)
    (hstage : s.stageOf name = some stage) (hstarted : stage.started = true)
    (hsub : s.submissions id = some (job, .finished (.ok r))) :
    ∃ e, .appended (some (.submission id)) e ∈ s.log ∧
      JobMessage.fromFields e.fields = .ok (JobMessage.firstDelivery job) ∧ Deliverable s e := by
  have hinv : Coherent s ∧ Retained cfg s ∧ Covered s :=
    Runs.invariant (I := fun s => Coherent s ∧ Retained cfg s ∧ Covered s) (P := GroupFirst)
      (fun _ _ _ hs hcond h =>
        ⟨hs.1.step h, hs.2.1.step h, hs.2.2.step hs.1 hs.2.1 hcond h⟩)
      ⟨Coherent.init, Retained.init, Covered.init⟩ hfirst h
  obtain ⟨_, _, hs⟩ := hinv
  obtain ⟨e, he, hfields⟩ := hs.published id job r hsub
  obtain ⟨g, hg⟩ := Option.ne_none_iff_exists'.mp (hs.started name stage hstage hstarted)
  refine ⟨e, he, by rw [hfields, JobMessage.fromFields_toFields], ?_⟩
  rcases hs.covered g hg _ e he with hdelivered | hlt
  · exact .inl hdelivered
  · exact .inr ⟨g, hg, hlt, List.mem_filter.mpr ⟨hs.kept _ e he, by simpa using hlt⟩⟩

end

def groupFirst (s : Sys) (a : Act) : Bool :=
  decide (a.trim = 0) &&
    match a with
    | .resume (.worker _) _ => s.redis.group.isSome || decide (s.redis.work.lastId = 0)
    | _ => true

theorem groupFirst_sound (s : Sys) (a : Act) (h : groupFirst s a = true) : GroupFirst s a := by
  obtain ⟨htrim, hcond⟩ := Bool.and_eq_true_iff.mp h
  refine ⟨of_decide_eq_true htrim, ?_⟩
  rintro name c rfl _ _ hnone
  simpa [hnone] using hcond

theorem published_deliverable : ∃ s e job, Reaches {} published s ∧
    s.submissions 7 = some (job, .finished (.ok 7)) ∧
    .appended (some (.submission 7)) e ∈ s.log ∧
    JobMessage.fromFields e.fields = .ok (JobMessage.firstDelivery job) ∧ Deliverable s e := by
  obtain ⟨s, hs, hview⟩ := Runs.exec_of_map (step {}) Sys.init published
    (fun s => ((s.stageOf 0).map Stage.started, (s.submissions 7).map (·.2.accepted)))
    (some true, some (some 7)) (by decide +kernel)
  obtain ⟨hstage, hsub⟩ : _ ∧ _ := by simpa only [Prod.mk.injEq] using hview
  obtain ⟨stage, hstage, hstarted⟩ := Option.map_eq_some_iff.mp hstage
  obtain ⟨⟨job, p⟩, hsub, hp⟩ := Option.map_eq_some_iff.mp hsub
  cases SubmitPoint.accepted_eq_some.mp hp
  obtain ⟨e, he, hfields, hdel⟩ := deliverable_of_groupFirst hs
    (.of_check groupFirst_sound (p := groupFirst) (by decide +kernel)) hstage hstarted hsub
  exact ⟨s, e, job, hs, hsub, he, hfields, hdel⟩

/-- The job is accepted before the first worker starts. -/
def submittedFirst : List Act := submitted 7 ++ boot 0

/-- The group starts after the pointer, which it will never read. -/
theorem submittedFirst_not_deliverable : ∃ s e job, Reaches {} submittedFirst s ∧
    s.submissions 7 = some (job, .finished (.ok 7)) ∧
    .appended (some (.submission 7)) e ∈ s.log ∧
    (s.stageOf 0).any Stage.started = true ∧ ¬ Deliverable s e := by
  obtain ⟨s, hs, hview⟩ := Runs.exec_of_map (step {}) Sys.init submittedFirst
    (fun s => ((s.stageOf 0).any Stage.started && decide (s.log.filterMap Event.deliveredId = []) &&
        decide (s.redis.group.map (·.lastDelivered) = some 1),
      (s.submissions 7).map (·.2.accepted), s.log.filterMap Event.append))
    (true, some (some 7), [(some (.submission 7), 1)]) (by decide +kernel)
  obtain ⟨hgroup, hsub, hlog⟩ : _ ∧ _ ∧ _ := by simpa only [Prod.mk.injEq] using hview
  simp only [Bool.and_eq_true, decide_eq_true_eq] at hgroup
  obtain ⟨⟨hstage, hdelivered⟩, hgroup⟩ := hgroup
  obtain ⟨⟨job, p⟩, hsub, hp⟩ := Option.map_eq_some_iff.mp hsub
  cases SubmitPoint.accepted_eq_some.mp hp
  obtain ⟨e, he, hid⟩ := exists_appended (by rw [hlog]; exact List.mem_cons_self)
  refine ⟨s, e, job, hs, hsub, he, hstage, ?_⟩
  rintro (⟨c, hc⟩ | ⟨g, hg, hlt, _⟩)
  · have hmem : e.id ∈ s.log.filterMap Event.deliveredId := List.mem_filterMap.mpr ⟨_, hc, rfl⟩
    rw [hdelivered] at hmem
    cases hmem
  · rw [hg] at hgroup
    have hlast : g.lastDelivered = 1 := Option.some.inj hgroup
    omega

end InferenceEngine
