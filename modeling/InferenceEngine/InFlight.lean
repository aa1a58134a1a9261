import InferenceEngine.Redispatch

/-!
# The in-flight ids of a consumer

`_in_flight_ids` is the set of the entries whose tasks have not left their `finally`. A pass
starts a task only for an entry outside the set, so no entry has two. Decoding stands before the
`try`: a task whose fields do not decode raises without the `finally`, and its id stays.
-/

namespace InferenceEngine

set_option autoImplicit false

/-- A task of the consumer has been created for the entry and has not left its `finally`. -/
def Unfinished (s : Sys) (name : ConsumerName) (t id : Nat) : Prop :=
  ∃ τ, s.tasks t = some τ ∧ τ.consumer = name ∧ τ.entry = id ∧
    ∀ m outcome, τ.body ≠ .handling m (.finished outcome)

/-- What a pass knows of the entries that it may start. -/
def Undispatched (s : Sys) (name : ConsumerName) : PassPoint → Prop
  | .query e _ | .dispatchClaimed e _ => ∀ t, ¬ Unfinished s name t e.id
  | .dispatchNew e rest _ => ((e :: rest).map (·.id)).Nodup ∧
    ∀ x ∈ e :: rest, ∀ t τ, s.tasks t = some τ → τ.consumer = name → τ.entry ≠ x.id
  | _ => True

/-- The set is that of the entries with an unfinished task, and each of them has one. -/
structure TracksTasks (name : ConsumerName) (s : Sys) : Prop where
  listed : ∀ id, id ∈ s.inFlightAt name ↔ ∃ t, Unfinished s name t id
  unique : ∀ t u id, Unfinished s name t id → Unfinished s name u id → t = u
  pass : ∀ p, s.stageOf name = some (.looping p) → Undispatched s name p

namespace TaskPoint

variable {cfg : BrokerSettings} {id : Nat} {m : JobMessage}

theorem routed_ne_finished (x : Except Exn Unit) (outcome : Except Exn Unit) :
    routed cfg m x ≠ .finished outcome := by
  intro h
  cases x with
  | ok u => cases h
  | error x =>
    cases x with
    | transient msg =>
      simp only [routed] at h
      split at h <;> cases h
    | _ => cases h

theorem release_of_next {p : TaskPoint} {e : Effect} {k : e.Reply → TaskPoint} {r : e.Reply}
    {outcome : Except Exn Unit} (hnode : p.node cfg id m = .await e k)
    (h : k r = .finished outcome) : ∃ outcome', p = .release outcome' := by
  have hroute : ∀ x, routed cfg m x ≠ .finished outcome := fun x => routed_ne_finished x outcome
  cases p with
  | guard =>
    cases hnode
    rcases r with x | ⟨job, now⟩
    · cases x <;> cases h
    · simp only [afterGuard] at h
      split at h <;> cases h
  | load =>
    cases hnode
    rcases afterLoad_cases cfg m r with ⟨_, _, _, _, _, hload⟩ | ⟨x, hload, _⟩
    · cases hload.symm.trans h
    · exact absurd (hload.symm.trans h) (hroute x)
  | writeRunning seen job =>
    cases hnode
    rcases r with x | u
    · exact absurd h (hroute (.error x))
    · cases h
  | running job =>
    cases hnode
    rcases afterRun_cases cfg m job r with ⟨_, _, _, _, _, _, hrun⟩ | ⟨x, hrun⟩
    · cases hrun.symm.trans h
    · exact absurd (hrun.symm.trans h) (hroute x)
  | writeSuccess seen job =>
    cases hnode
    exact absurd h (hroute r)
  | requeueGet =>
    cases hnode
    rcases r with x | ⟨job, now⟩
    · cases x <;> cases h
    · simp only [afterRequeueGet] at h
      split at h <;> cases h
  | failGet error =>
    cases hnode
    rcases r with x | ⟨job, now⟩
    · cases x <;> cases h
    · simp only [afterFailGet] at h
      split at h <;> cases h
  | writePending seen job | deadLetterAck error =>
    cases hnode
    rcases r with x | u <;> cases h
  | republish | deadLetter reason error =>
    cases hnode
    rcases r with x | n
    · cases x <;> cases h
    · cases h
  | skipAck | successAck | retryAck | writeFailed seen job =>
    cases hnode
    cases h
  | release outcome' => exact ⟨outcome', rfl⟩
  | finished outcome' => cases hnode

end TaskPoint

section
variable {cfg : Settings} {s s' : Sys} {a : Act} {name : ConsumerName}

theorem LiveOn.unfinished {t id : Nat} (h : LiveOn s name t id) : Unfinished s name t id := by
  obtain ⟨m, p, htask, hne⟩ := h
  refine ⟨_, htask, rfl, rfl, fun m' outcome hbody => ?_⟩
  cases hbody
  exact hne outcome rfl

theorem unfinished_of_step (h : step cfg s a = some s') {t id : Nat}
    (hun : Unfinished s' name t id) :
    Unfinished s name t id ∨
    (∃ c p e, a = .resume (.worker name) c ∧ s.stageOf name = some (.looping p) ∧
      p.dispatches = some e ∧ e.id = id ∧ t = s.nextTask) := by
  obtain ⟨τ, htask, hname, hentry, hne⟩ := hun
  rcases step_tasks h with ⟨hr, _⟩ | ⟨other, c, w, q, e, ha, hw, hstage, hd, _, hr⟩ |
    ⟨u, c, other, id', m', p', e, k, r, s₁, _, hold, hnode, _, _, hr⟩
  · exact .inl ⟨τ, hr ▸ htask, hname, hentry, hne⟩
  · by_cases ht : t = s.nextTask
    · subst ht
      rw [hr, Function.update_self] at htask
      cases htask
      subst hname hentry
      refine .inr ⟨c, q, e, ha, ?_, hd, rfl, rfl⟩
      rw [Sys.stageOf, hw, Option.map_some, hstage]
    · rw [hr, Function.update_of_ne ht] at htask
      exact .inl ⟨τ, htask, hname, hentry, hne⟩
  · by_cases ht : t = u
    · subst ht
      rw [hr, Function.update_self] at htask
      cases htask
      refine .inl ⟨_, hold, hname, hentry, fun m outcome hbody => ?_⟩
      cases hbody
      cases hnode
    · rw [hr, Function.update_of_ne ht] at htask
      exact .inl ⟨τ, htask, hname, hentry, hne⟩

theorem Unfinished.of_step (hcoh : Coherent s) (h : step cfg s a = some s') {t id : Nat}
    (hun : Unfinished s name t id) :
    Unfinished s' name t id ∨
    ∃ c m outcome, a = .resume (.task t) c ∧
      s.tasks t = some ⟨name, id, .handling m (.release outcome)⟩ := by
  obtain ⟨τ, htask, hname, hentry, hne⟩ := hun
  rcases step_tasks h with ⟨hr, _⟩ | ⟨other, c, w, q, e, ha, hw, hstage, hd, _, hr⟩ |
    ⟨u, c, other, id', m', p', e, k, r, s₁, ha, hold, hnode, _, _, hr⟩
  · exact .inl ⟨τ, hr ▸ htask, hname, hentry, hne⟩
  · have ht : t ≠ s.nextTask := by
      intro ht
      rw [hcoh.fresh t (Nat.le_of_eq ht.symm)] at htask
      cases htask
    exact .inl ⟨τ, by rwa [hr, Function.update_of_ne ht], hname, hentry, hne⟩
  · by_cases ht : t = u
    · subst ht
      cases htask.symm.trans hold
      subst hname hentry
      by_cases hfin : ∃ outcome, k r = .finished outcome
      · obtain ⟨outcome, hfin⟩ := hfin
        obtain ⟨outcome', rfl⟩ := TaskPoint.release_of_next hnode hfin
        exact .inr ⟨c, m', outcome', ha, hold⟩
      · refine .inl ⟨⟨other, id', .handling m' (k r)⟩, ?_, rfl, rfl, fun m outcome hbody => ?_⟩
        · rw [hr, Function.update_self]
        · exact hfin ⟨outcome, (TaskBody.handling.inj hbody).2⟩
    · exact .inl ⟨τ, by rwa [hr, Function.update_of_ne ht], hname, hentry, hne⟩

theorem task_of_dispatch {c : Choice} {p : PassPoint} {e : StreamEntry}
    (h : step cfg s (.resume (.worker name) c) = some s')
    (hstage : s.stageOf name = some (.looping p)) (hd : p.dispatches = some e) :
    s'.tasks s.nextTask = some ⟨name, e.id, .of e.fields⟩ := by
  obtain ⟨f, k, r, s₁, hnode, hperf, rfl, _⟩ := pass_of_step hstage h
  have dispatched : ∀ {r : Effect.Reply (.dispatch e.id e.fields)},
      s.perform cfg (.worker name) c (.dispatch e.id e.fields) = some (r, s₁) →
      s₁.tasks s.nextTask = some ⟨name, e.id, .of e.fields⟩ := by
    intro r hperf
    obtain rfl : s.startTask name e.id e.fields = s₁ := congrArg Prod.snd (Option.some.inj hperf)
    rw [Sys.startTask_tasks, Function.update_self]
  cases p with
  | dispatchClaimed e' rest =>
    cases hd
    cases hnode
    exact dispatched hperf
  | dispatchNew e' rest total =>
    cases hd
    cases hnode
    exact dispatched hperf
  | _ => cases hd

theorem TaskBody.of_ne_finished (fields : Fields) (m : JobMessage) (outcome : Except Exn Unit) :
    TaskBody.of fields ≠ .handling m (.finished outcome) := by
  rcases TaskBody.of_cases fields with ⟨m', _, h⟩ | ⟨x, h⟩
  · rw [h]
    exact nofun
  · rw [h]
    exact nofun

theorem inFlight_of_release {c : Choice} {t id : Nat} {m : JobMessage}
    {outcome : Except Exn Unit} (h : step cfg s (.resume (.task t) c) = some s')
    (htask : s.tasks t = some ⟨name, id, .handling m (.release outcome)⟩) :
    s'.inFlightAt name = (s.inFlightAt name).filter (· ≠ id) ∧
      ∀ id', ¬ Unfinished s' name t id' := by
  cases Sys.step_cases h with
  | task t c other id'' m'' p w q e k r s₁ hold hw hstage hnode hperf =>
    cases htask.symm.trans hold
    cases hnode
    constructor
    · have hs₁ : s₁ = s.discardId name id := by
        simp only [Sys.perform, Sys.consumer, htask, Option.map_some] at hperf
        exact (congrArg Prod.snd (Option.some.inj hperf)).symm
      change s₁.inFlightAt name = _
      rw [hs₁]
      cases hworker : s.workers name <;>
        simp [Sys.inFlightAt, Sys.discardId, Sys.modifyWorker, hworker]
    · rintro id' ⟨τ, hτ, _, _, hne⟩
      rw [Sys.setTask_tasks, Function.update_self] at hτ
      cases hτ
      exact hne m outcome rfl

theorem TracksTasks.undispatched (hs : TracksTasks name s) {p : PassPoint} {e : StreamEntry}
    (hstage : s.stageOf name = some (.looping p)) (hd : p.dispatches = some e) (t : Nat) :
    ¬ Unfinished s name t e.id := by
  have hready := hs.pass p hstage
  cases p with
  | dispatchClaimed e' rest =>
    cases hd
    exact hready t
  | dispatchNew e' rest total =>
    cases hd
    rintro ⟨τ, htask, hname, hentry, _⟩
    exact hready.2 e List.mem_cons_self t τ htask hname hentry
  | _ => cases hd

theorem TracksTasks.step_unique (hs : TracksTasks name s) (h : step cfg s a = some s')
    (t u id : Nat) (ht : Unfinished s' name t id) (hu : Unfinished s' name u id) : t = u := by
  rcases unfinished_of_step h ht with hold | ⟨c, p, e, _, hstage, hd, rfl, rfl⟩
  · rcases unfinished_of_step h hu with hold' | ⟨c, p, e, _, hstage, hd, rfl, rfl⟩
    · exact hs.unique t u id hold hold'
    · exact absurd hold (hs.undispatched hstage hd t)
  · rcases unfinished_of_step h hu with hold' | ⟨_, _, _, _, _, _, _, rfl⟩
    · exact absurd hold' (hs.undispatched hstage hd u)
    · rfl

theorem TracksTasks.step_listed (hcoh : Coherent s) (hs : TracksTasks name s)
    (h : step cfg s a = some s') (id : Nat) :
    id ∈ s'.inFlightAt name ↔ ∃ t, Unfinished s' name t id := by
  -- an unfinished task of an entry that stays in the set is still unfinished
  have kept : ∀ t, Unfinished s name t id → id ∈ s'.inFlightAt name → Unfinished s' name t id := by
    intro t hun hmem
    rcases hun.of_step hcoh h with hun' | ⟨c, m, outcome, rfl, htask⟩
    · exact hun'
    · rw [(inFlight_of_release h htask).1] at hmem
      simp at hmem
  constructor
  · intro hmem
    rcases step_inFlight h name with hr | ⟨c, p, e, rfl, hstage, hd, hr⟩ |
      ⟨u, c, id', m, outcome, rfl, htask, hr⟩
    · obtain ⟨t, hun⟩ := (hs.listed id).mp (hr ▸ hmem)
      exact ⟨t, kept t hun hmem⟩
    · by_cases hid : id = e.id
      · subst hid
        exact ⟨s.nextTask, _, task_of_dispatch h hstage hd, rfl, rfl, TaskBody.of_ne_finished e.fields⟩
      · have hold : id ∈ s.inFlightAt name := by
          rw [hr] at hmem
          exact List.mem_of_mem_erase ((List.mem_cons.mp hmem).resolve_left hid)
        obtain ⟨t, hun⟩ := (hs.listed id).mp hold
        exact ⟨t, kept t hun hmem⟩
    · have hold : id ∈ s.inFlightAt name := by
        rw [hr] at hmem
        exact List.mem_of_mem_filter hmem
      obtain ⟨t, hun⟩ := (hs.listed id).mp hold
      exact ⟨t, kept t hun hmem⟩
  · rintro ⟨t, hun'⟩
    rcases unfinished_of_step h hun' with hold | ⟨c, p, e, rfl, hstage, hd, rfl, rfl⟩
    · have hmem := (hs.listed id).mpr ⟨t, hold⟩
      rcases step_inFlight h name with hr | ⟨c, p, e, _, _, _, hr⟩ | ⟨u, c, id', m, outcome, rfl, htask, hr⟩
      · rwa [hr]
      · rw [hr]
        by_cases hid : id = e.id
        · exact hid ▸ List.mem_cons_self
        · exact List.mem_cons_of_mem _ ((List.mem_erase_of_ne hid).mpr hmem)
      · rw [hr]
        apply List.mem_filter.mpr
        refine ⟨hmem, decide_eq_true ?_⟩
        rintro rfl
        have hu : Unfinished s name u id := ⟨_, htask, rfl, rfl, fun _ _ hbody => by cases hbody⟩
        obtain rfl := hs.unique t u id hold hu
        exact (inFlight_of_release h htask).2 id hun'
    · rw [inFlight_of_dispatch h hstage hd]
      exact List.mem_cons_self

theorem Undispatched.nextClaimed (es : List StreamEntry) : Undispatched s name (.nextClaimed es) := by
  cases es <;> exact True.intro

theorem Undispatched.of_step (h : step cfg s a = some s')
    (ha : ∀ c, a ≠ .resume (.worker name) c) {p : PassPoint} (hp : Undispatched s name p) :
    Undispatched s' name p := by
  have idle : ∀ id, (∀ t, ¬ Unfinished s name t id) → ∀ t, ¬ Unfinished s' name t id := by
    intro id hidle t hun
    rcases unfinished_of_step h hun with hold | ⟨c, _, _, hc, _⟩
    · exact hidle t hold
    · exact ha c hc
  cases p with
  | query e rest | dispatchClaimed e rest => exact idle e.id hp
  | dispatchNew e rest total =>
    refine ⟨hp.1, fun x hx t τ' htask' hname => ?_⟩
    rcases task_of_step h htask' with ⟨τ, htask, hc, he⟩ | ⟨c, _, _, hc, _⟩
    · exact he ▸ hp.2 x hx t τ htask (hc.trans hname)
    · exact absurd (hname ▸ hc) (ha c)
  | _ => exact True.intro

/-- The entries of a read are new to the group and to the consumer. -/
theorem undispatched_read (hreg : Regular cfg s) {g : Group} (hg : s.redis.group = some g) (n : Nat)
    (htasks : s'.tasks = s.tasks) (total : Nat) :
    Undispatched s' name (.nextNew total ((g.unread s.redis.work).take n)) := by
  have hpair : ((g.unread s.redis.work).take n).Pairwise fun a b => a.id < b.id :=
    (hreg.retained.window.sorted.sublist List.filter_sublist).sublist (List.take_sublist _ _)
  have hnodup : (((g.unread s.redis.work).take n).map (·.id)).Nodup :=
    List.pairwise_map.mpr (hpair.imp fun hlt => Nat.ne_of_lt hlt)
  have hnew : ∀ x ∈ (g.unread s.redis.work).take n, ∀ t τ, s'.tasks t = some τ →
      τ.consumer = name → τ.entry ≠ x.id := by
    intro x hx t τ htask _ hid
    have hpassed := hreg.passed.tasks t τ (htasks ▸ htask)
    have hlt := Group.lt_of_mem_unread hx
    simp only [Redis.passed, hg, Option.any_some, decide_eq_true_eq] at hpassed
    omega
  cases hes : (g.unread s.redis.work).take n with
  | nil => exact True.intro
  | cons x rest =>
    rw [hes] at hnodup hnew
    exact ⟨hnodup, hnew⟩

theorem TracksTasks.next {c : Choice} {p : PassPoint} {e : Effect} {k : e.Reply → PassPoint}
    {r : e.Reply} {s₁ : Sys} (hreg : Regular cfg s) (hs : TracksTasks name s)
    (hstage : s.stageOf name = some (.looping p)) (hnode : p.node cfg.toBrokerSettings = .await e k)
    (hperf : s.perform cfg (.worker name) c e = some (r, s₁)) (htasks : s'.tasks = s₁.tasks) :
    Undispatched s' name (k r) := by
  have hp := hs.pass p hstage
  have idle : ∀ id, s₁.tasks = s.tasks → (∀ t, ¬ Unfinished s name t id) →
      ∀ t, ¬ Unfinished s' name t id := by
    rintro id hsame hidle t ⟨τ, htask, hun⟩
    rw [htasks, hsame] at htask
    exact hidle t ⟨τ, htask, hun⟩
  cases p with
  | reclaimCapacity | readCapacity =>
    cases hnode
    change Int at r
    dsimp only
    split <;> exact True.intro
  | autoclaim n =>
    cases hnode
    cases r with
    | error x => exact True.intro
    | ok es => exact .nextClaimed es
  | check x rest =>
    cases hnode
    obtain ⟨rfl, hin⟩ := Sys.perform_inFlight hperf
    change Bool at r
    cases r with
    | true => exact .nextClaimed rest
    | false =>
      have hnot : x.id ∉ s₁.inFlightAt name := of_decide_eq_false hin.symm
      exact idle x.id rfl fun t hun => hnot ((hs.listed x.id).mpr ⟨t, hun⟩)
  | query x rest =>
    cases hnode
    have hsame : s₁ = s := by
      have hchange := Sys.perform_change hperf
      cases hchange
      rfl
    subst hsame
    cases r with
    | error y => exact True.intro
    | ok pending =>
      simp only [PassPoint.afterQuery]
      split
      · cases JobMessage.fromFields x.fields <;> exact True.intro
      · exact idle x.id rfl hp
  | dispatchClaimed x rest =>
    cases hnode
    exact .nextClaimed rest
  | poison x m n rest =>
    cases hnode
    rcases r with y | _
    · cases y <;> exact True.intro
    · exact True.intro
  | poisonAck x rest =>
    cases hnode
    rcases r with y | _
    · exact True.intro
    · exact .nextClaimed rest
  | read n =>
    cases hnode
    cases r with
    | error y => exact True.intro
    | ok es =>
      obtain ⟨other, g, hg, rfl, rfl⟩ := Sys.perform_xreadgroup hperf
      exact undispatched_read hreg hg n.toNat htasks _
  | dispatchNew x rest total =>
    cases hnode
    obtain ⟨hnodup, hnone⟩ := hp
    obtain rfl : s.startTask name x.id x.fields = s₁ := congrArg Prod.snd (Option.some.inj hperf)
    obtain ⟨hx, hnodup⟩ := List.nodup_cons.mp hnodup
    cases rest with
    | nil => exact True.intro
    | cons y rest =>
      refine ⟨hnodup, fun z hz t τ htask hname => ?_⟩
      rw [htasks, Sys.startTask_tasks] at htask
      by_cases ht : t = s.nextTask
      · subst ht
        rw [Function.update_self] at htask
        cases htask
        intro hid
        exact hx (List.mem_map.mpr ⟨z, hz, hid.symm⟩)
      · rw [Function.update_of_ne ht] at htask
        exact hnone z (List.mem_cons_of_mem _ hz) t τ htask hname
  | finished outcome => cases hnode

theorem TracksTasks.init : TracksTasks name Sys.init where
  listed := by
    intro id
    constructor
    · intro hmem
      cases hmem
    · rintro ⟨t, τ, htask, _⟩
      cases htask
  unique := by
    rintro t u id ⟨τ, htask, _⟩
    cases htask
  pass := by
    intro p hstage
    cases hstage

theorem TracksTasks.step_pass (hreg : Regular cfg s) (hs : TracksTasks name s)
    (h : step cfg s a = some s') (p : PassPoint) (hstage' : s'.stageOf name = some (.looping p)) :
    Undispatched s' name p := by
  by_cases ha : ∃ c, a = .resume (.worker name) c
  · obtain ⟨c, rfl⟩ := ha
    rcases step_stage h name with hsame | ⟨hc, _⟩ | ⟨hc, _⟩ | ⟨_, _, _, _, _, _, _, _, _, _, _, hr⟩ |
      ⟨c', q, e, k, r, s₁, _, hstage, hnode, hperf, rfl, hr⟩ | ⟨hc, _⟩
    · obtain ⟨e, k, r, s₁, hnode, hperf, rfl, hr⟩ := pass_of_step (hsame ▸ hstage') h
      cases hr.symm.trans hstage'
      exact hs.next hreg (hsame ▸ hstage') hnode hperf rfl
    · cases hc
    · cases hc
    · cases hr.symm.trans hstage'
    · cases hr.symm.trans hstage'
      exact hs.next hreg hstage hnode hperf rfl
    · cases hc
  · have hothers : ∀ c, a ≠ .resume (.worker name) c := fun c hc => ha ⟨c, hc⟩
    rcases step_stage h name with hsame | ⟨_, _, hr⟩ | ⟨_, _, hr⟩ | ⟨c, _, _, _, _, _, hc, _⟩ |
      ⟨c, _, _, _, _, _, hc, _⟩ | ⟨_, hr⟩
    · exact (hs.pass p (hsame ▸ hstage')).of_step h hothers
    · cases hr.symm.trans hstage'
    · cases hr.symm.trans hstage'
      exact True.intro
    · exact absurd hc (hothers c)
    · exact absurd hc (hothers c)
    · cases hr.symm.trans hstage'

theorem TracksTasks.step (hreg : Regular cfg s) (hs : TracksTasks name s)
    (h : step cfg s a = some s') : TracksTasks name s' where
  listed := hs.step_listed hreg.coherent h
  unique := hs.step_unique h
  pass := hs.step_pass hreg h

theorem Reaches.tracksTasks {acts : List Act} (h : Reaches cfg acts s) (name : ConsumerName) :
    TracksTasks name s := by
  have keep : ∀ s a s', Regular cfg s ∧ TracksTasks name s → True →
      InferenceEngine.step cfg s a = some s' → Regular cfg s' ∧ TracksTasks name s' :=
    fun _ _ _ hs _ h => ⟨hs.1.step h, hs.2.step hs.1 h⟩
  exact (Runs.invariant keep ⟨.init, .init⟩ (Runs.Along.trivial _ _) h).2

/-- Two tasks of one consumer that handle one entry are one task. -/
theorem noDoubleDispatch {acts : List Act} (h : Reaches cfg acts s) {name : ConsumerName}
    {t u id : Nat} (ht : Unfinished s name t id) (hu : Unfinished s name u id) : t = u :=
  (h.tracksTasks name).unique t u id ht hu

/-! ### The set after a task has ended -/

/-- What the removal in the `finally` is for. -/
structure IdsReleased (cfg : Settings) (name : ConsumerName) (s : Sys) : Prop where
  /-- The id of a done task has left the set, unless a later task handles the entry. -/
  finished : ∀ t τ, s.tasks t = some τ → τ.consumer = name → τ.body.isDone = true →
    τ.entry ∈ s.inFlightAt name → ∃ u, LiveOn s name u τ.entry
  empty : (∀ t τ, s.tasks t = some τ → τ.consumer = name → τ.body.isDone = true) →
    s.inFlightAt name = []
  /-- The pass goes on to judge a claimed entry that no task handles. -/
  judged : ∀ e rest, s.stageOf name = some (.looping (.check e rest)) →
    (∀ t, ¬ LiveOn s name t e.id) → ∀ c, ∃ s', step cfg s (.resume (.worker name) c) = some s' ∧
      s'.stageOf name = some (.looping (.query e rest))

/-- An entry that the consumer starts a task for has fields that decode. -/
def DispatchesDecode (name : ConsumerName) (s : Sys) (a : Act) : Prop :=
  ∀ c p e, a = .resume (.worker name) c → s.stageOf name = some (.looping p) →
    p.dispatches = some e → ∃ m, JobMessage.fromFields e.fields = .ok m

/-- A task of the consumer ended at the decoding. -/
def Garbled (name : ConsumerName) (s : Sys) : Prop :=
  ∃ t τ x, s.tasks t = some τ ∧ τ.consumer = name ∧ τ.body = .undecodable x

theorem LiveOn.of_unfinished (hclean : ¬ Garbled name s) {t id : Nat}
    (hun : Unfinished s name t id) : LiveOn s name t id := by
  obtain ⟨⟨other, id', body⟩, htask, rfl, rfl, hne⟩ := hun
  cases body with
  | handling m p => exact ⟨m, p, htask, fun outcome hp => hne m outcome (congrArg _ hp)⟩
  | undecodable x => exact absurd ⟨t, _, x, htask, rfl, rfl⟩ hclean

theorem LiveOn.not_done {t id : Nat} (h : LiveOn s name t id) {τ : Task}
    (htask : s.tasks t = some τ) : τ.body.isDone = false := by
  obtain ⟨m, p, hp, hne⟩ := h
  cases htask.symm.trans hp
  cases p with
  | finished outcome => exact absurd rfl (hne outcome)
  | _ => rfl

theorem Garbled.of_step (hcoh : Coherent s) (h : step cfg s a = some s') (hg : Garbled name s) :
    Garbled name s' := by
  obtain ⟨t, τ, x, htask, hname, hbody⟩ := hg
  refine ⟨t, τ, x, ?_, hname, hbody⟩
  rcases step_tasks h with ⟨hr, _⟩ | ⟨_, _, _, _, _, _, _, _, _, _, hr⟩ |
    ⟨u, c, other, id', m', p', e, k, r, s₁, _, hold, _, _, _, hr⟩
  · rwa [hr]
  · have ht : t ≠ s.nextTask := by
      intro ht
      rw [hcoh.fresh t (Nat.le_of_eq ht.symm)] at htask
      cases htask
    rwa [hr, Function.update_of_ne ht]
  · have ht : t ≠ u := by
      rintro rfl
      cases htask.symm.trans hold
      cases hbody
    rwa [hr, Function.update_of_ne ht]

theorem garbled_of_step (h : step cfg s a = some s') (hg : Garbled name s') :
    Garbled name s ∨ ¬ DispatchesDecode name s a := by
  obtain ⟨t, τ, x, htask, hname, hbody⟩ := hg
  rcases step_tasks h with ⟨hr, _⟩ | ⟨other, c, w, q, e, ha, hw, hstage, hd, _, hr⟩ |
    ⟨u, c, other, id', m', p', e, k, r, s₁, _, hold, _, _, _, hr⟩
  · exact .inl ⟨t, τ, x, hr ▸ htask, hname, hbody⟩
  · by_cases ht : t = s.nextTask
    · subst ht
      rw [hr, Function.update_self] at htask
      cases htask
      subst hname
      refine .inr fun hdec => ?_
      have hstageOf : s.stageOf other = some (.looping q) := by
        rw [Sys.stageOf, hw, Option.map_some, hstage]
      obtain ⟨m, hm⟩ := hdec c q e ha hstageOf hd
      rw [TaskBody.of, hm] at hbody
      cases hbody
    · rw [hr, Function.update_of_ne ht] at htask
      exact .inl ⟨t, τ, x, htask, hname, hbody⟩
  · by_cases ht : t = u
    · subst ht
      rw [hr, Function.update_self] at htask
      cases htask
      cases hbody
    · rw [hr, Function.update_of_ne ht] at htask
      exact .inl ⟨t, τ, x, htask, hname, hbody⟩

theorem garbled_of_dispatch (h : step cfg s a = some s') (hd : ¬ DispatchesDecode name s a) :
    Garbled name s' := by
  simp only [DispatchesDecode, not_forall] at hd
  obtain ⟨c, p, e, rfl, hstage, hd, hnone⟩ := hd
  have htask := task_of_dispatch h hstage hd
  rcases TaskBody.of_cases e.fields with ⟨m, hm, _⟩ | ⟨x, hbody⟩
  · exact absurd ⟨m, hm⟩ hnone
  · exact ⟨s.nextTask, _, x, htask, rfl, hbody⟩

theorem not_garbled_iff (hcoh : Coherent s) (hclean : ¬ Garbled name s) {acts : List Act}
    (h : Runs.exec (step cfg) s acts = some s') :
    ¬ Garbled name s' ↔ Runs.Along (step cfg) (DispatchesDecode name) s acts := by
  constructor
  · intro hend
    induction acts generalizing s with
    | nil => exact True.intro
    | cons a as ih =>
      obtain ⟨s₁, hstep, hrest⟩ := Runs.exec_cons_iff.mp h
      have hclean₁ : ¬ Garbled name s₁ := by
        intro hg
        have keep : ∀ s a s', (Coherent s ∧ Garbled name s) → True → step cfg s a = some s' →
            Coherent s' ∧ Garbled name s' := fun _ _ _ hs _ h => ⟨hs.1.step h, hs.2.of_step hs.1 h⟩
        exact hend (Runs.invariant keep ⟨hcoh.step hstep, hg⟩ (Runs.Along.trivial _ _) hrest).2
      refine ⟨?_, fun s₂ hs₂ => ?_⟩
      · by_contra hd
        exact hclean₁ (garbled_of_dispatch hstep hd)
      · cases hstep.symm.trans hs₂
        exact ih (hcoh.step hstep) hclean₁ hrest
  · intro halong
    have keep : ∀ s a s', ¬ Garbled name s → DispatchesDecode name s a → step cfg s a = some s' →
        ¬ Garbled name s' :=
      fun s a s' hs hd h hg => (garbled_of_step h hg).elim hs (not_not_intro hd)
    exact Runs.invariant keep hclean halong h

theorem query_of_check {e : StreamEntry} {rest : List StreamEntry}
    (hstage : s.stageOf name = some (.looping (.check e rest))) (hid : e.id ∉ s.inFlightAt name)
    (c : Choice) : ∃ s', step cfg s (.resume (.worker name) c) = some s' ∧
      s'.stageOf name = some (.looping (.query e rest)) := by
  cases hworker : s.workers name with
  | none =>
    rw [Sys.stageOf, hworker] at hstage
    cases hstage
  | some w =>
    obtain ⟨stage, ids, inFlight, cursor⟩ := w
    obtain rfl : stage = .looping (.check e rest) := by
      rw [Sys.stageOf, hworker] at hstage
      exact Option.some.inj hstage
    have hnot : e.id ∉ ids := by
      rwa [Sys.inFlightAt, hworker] at hid
    refine ⟨s.setStage name (.looping (.query e rest)), ?_, ?_⟩
    · simp [step, Sys.resume, hworker, Sys.await, PassPoint.node, Sys.perform, Sys.consumer, hnot]
    · simp [Sys.stageOf, Sys.setStage, hworker]

theorem TracksTasks.released_iff (hs : TracksTasks name s) :
    IdsReleased cfg name s ↔ ¬ Garbled name s := by
  constructor
  · rintro hrel ⟨t, ⟨other, id, body⟩, x, htask, rfl, rfl⟩
    have hun : Unfinished s other t id := ⟨_, htask, rfl, rfl, fun _ _ hbody => by cases hbody⟩
    obtain ⟨u, hlive⟩ := hrel.finished t _ htask rfl rfl ((hs.listed id).mpr ⟨t, hun⟩)
    obtain rfl := hs.unique t u id hun hlive.unfinished
    have hnot := hlive.not_done htask
    cases hnot
  · intro hclean
    have live : ∀ id, id ∈ s.inFlightAt name → ∃ u, LiveOn s name u id := by
      intro id hmem
      obtain ⟨u, hun⟩ := (hs.listed id).mp hmem
      exact ⟨u, .of_unfinished hclean hun⟩
    refine ⟨fun t τ _ _ _ => live τ.entry, fun hdone => ?_, fun e rest hstage hnone c => ?_⟩
    · apply List.eq_nil_iff_forall_not_mem.mpr
      intro id hmem
      obtain ⟨u, hlive⟩ := live id hmem
      have ⟨m, p, htask, _⟩ := hlive
      cases (hlive.not_done htask).symm.trans (hdone u _ htask rfl)
    · apply query_of_check hstage
      intro hmem
      obtain ⟨u, hlive⟩ := live e.id hmem
      exact hnone u hlive

/-- The ids of a consumer's done tasks leave its set exactly if every entry it started a task for
had fields that decode. -/
theorem idsReleased_iff {acts : List Act} (h : Reaches cfg acts s) (name : ConsumerName) :
    IdsReleased cfg name s ↔ Runs.Along (step cfg) (DispatchesDecode name) Sys.init acts := by
  have hclean : ¬ Garbled name Sys.init := by
    rintro ⟨t, τ, x, htask, _⟩
    cases htask
  exact (h.tracksTasks name).released_iff.trans (not_garbled_iff Coherent.init hclean h)

end

/-- A consumer claims the entry of its own running task. -/
def selfClaimed : List Act :=
  boot 0 ++ submitted 7 ++ readPass 0 1 ++ steps (.task 0) 3 ++ .pass 0 :: steps (.worker 0) 1 ++
    [.resume (.worker 0) { claimed := [1] }] ++ steps (.worker 0) 1

theorem Unfinished.of_hasTask {s : Sys} {name : ConsumerName} {t id : Nat}
    (h : s.hasTask t name id false = true) : Unfinished s name t id := by
  obtain ⟨τ, htask, hname, hentry, hlive⟩ := Sys.hasTask_iff h
  refine ⟨τ, htask, hname, hentry, fun m outcome hbody => ?_⟩
  rw [hbody] at hlive
  cases hlive

theorem selfClaimed_one : ∃ s, Reaches {} selfClaimed s ∧ Unfinished s 0 0 1 ∧
    ∀ t, Unfinished s 0 t 1 → t = 0 := by
  obtain ⟨s, hs, htask⟩ := Runs.exec_of_map (step {}) Sys.init selfClaimed
    (fun s => s.hasTask 0 0 1 false) true (by decide +kernel)
  have hun := Unfinished.of_hasTask htask
  exact ⟨s, hs, hun, fun t ht => noDoubleDispatch hs ht hun⟩

def dispatchesDecode (name : ConsumerName) (s : Sys) : Act → Bool
  | .resume (.worker other) _ =>
    decide (other ≠ name) ||
      match s.stageOf name with
      | some (.looping p) => p.dispatches.all fun e => (JobMessage.fromFields e.fields).isOk
      | _ => true
  | _ => true

theorem dispatchesDecode_sound {name : ConsumerName} (s : Sys) (a : Act)
    (h : dispatchesDecode name s a = true) : DispatchesDecode name s a := by
  rintro c p e rfl hstage hd
  simp only [dispatchesDecode, hstage, hd, ne_eq, not_true_eq_false, decide_false,
    Bool.false_or, Option.all_some] at h
  cases hm : JobMessage.fromFields e.fields with
  | ok m => exact ⟨m, rfl⟩
  | error x =>
    rw [hm] at h
    cases h

theorem selfClaimed_released : ∃ s, Reaches {} selfClaimed s ∧ IdsReleased {} 0 s := by
  obtain ⟨s, hs, _⟩ := Runs.exec_of_map (step {}) Sys.init selfClaimed
    (fun s => s.hasTask 0 0 1 false) true (by decide +kernel)
  exact ⟨s, hs, (idsReleased_iff hs 0).mpr (.of_check dispatchesDecode_sound (by decide +kernel))⟩

/-- A foreign entry is read; its task ends at once, and the consumer claims the entry again. -/
def undecodableClaimed : List Act :=
  boot 0 ++ [.inject [(.str "job_id".toList, .str "x".toList)] 0] ++ readPass 0 1 ++
    .reap 0 :: .pass 0 :: steps (.worker 0) 1 ++ [.resume (.worker 0) { claimed := [1] }]

theorem undecodable_leaks : ∃ s s', Reaches {} undecodableClaimed s ∧
    s.hasTask 0 0 1 true = true ∧ s.nextTask = 1 ∧ s.inFlightAt 0 = [1] ∧
    s.redis.isPending 1 = true ∧ ¬ IdsReleased {} 0 s ∧
    Runs.exec (step {}) s (steps (.worker 0) 1) = some s' ∧
    s'.stageOf 0 = some (.looping .readCapacity) := by
  obtain ⟨s, hs, hview⟩ := Runs.exec_of_map (step {}) Sys.init undecodableClaimed
    (fun s => (s.hasTask 0 0 1 true && s.redis.isPending 1, s.nextTask, s.inFlightAt 0,
      (Runs.exec (step {}) s (steps (.worker 0) 1)).map fun s' : Sys =>
        (s'.passAt 0).any PassPoint.asksToRead))
    (true, 1, [1], some true) (by decide +kernel)
  obtain ⟨htask, hnext, hset, hafter⟩ : _ ∧ _ ∧ _ ∧ _ := by simpa only [Prod.mk.injEq] using hview
  obtain ⟨htask, hpending⟩ := (Bool.and_eq_true _ _).mp htask
  obtain ⟨s', hs', hstage'⟩ := Option.map_eq_some_iff.mp hafter
  refine ⟨s, s', hs, htask, hnext, hset, hpending, fun hrel => ?_, hs', ?_⟩
  · obtain ⟨τ, hτ, hname, hentry, hdone⟩ := Sys.hasTask_iff htask
    have hempty : s.inFlightAt 0 = [] := by
      apply hrel.empty
      intro t τ' hτ' _
      have hlt : t < 1 := by
        by_contra hle
        have hnone := (Reaches.coherent hs).fresh t (by omega)
        cases hnone.symm.trans hτ'
      obtain rfl : t = 0 := by omega
      cases hτ.symm.trans hτ'
      exact hdone
    cases hset.symm.trans hempty
  · exact Sys.asksToRead_of_passAt hstage'

end InferenceEngine
