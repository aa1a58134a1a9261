import InferenceEngine.Calls
import InferenceEngine.Redispatch

/-!
# Who holds an entry

In a run without faults, trimming and takeovers every entry that the group has passed has one
holder: the pass that has read it and not yet started its task, then that task.
-/

namespace InferenceEngine

set_option autoImplicit false

/-- The step of a run without crash, fault, trimming, foreign append and takeover, whose
submissions find the group. -/
structure Calm (s : Sys) (a : Act) : Prop where
  calls : a.NoFault
  trim : a.trim = 0
  own : ∀ fields trim, a ≠ .inject fields trim
  group : ∀ ty payload id created updated, a = .submit ty payload id created updated →
    s.redis.group ≠ none
  takeover : ∀ name c, a = .resume (.worker name) c → ∀ e rest,
    s.stageOf name = some (.looping (.check e rest)) → e.id ∈ s.inFlightAt name

namespace PassPoint

/-- The new entries that a pass still has to start. -/
def newEntries : PassPoint → List StreamEntry
  | dispatchNew e rest _ => e :: rest
  | _ => []

/-- The pass is about to judge or start an entry it has claimed. -/
def takesOver : PassPoint → Bool
  | query _ _ | dispatchClaimed _ _ | poison _ _ _ _ | poisonAck _ _ => true
  | _ => false

theorem newEntries_nextClaimed (es : List StreamEntry) :
    (nextClaimed es).newEntries = [] ∧ (nextClaimed es).takesOver = false := by
  cases es <;> exact ⟨rfl, rfl⟩

theorem newEntries_nextNew (total : Nat) (es : List StreamEntry) :
    (nextNew total es).newEntries = es ∧ (nextNew total es).takesOver = false := by
  cases es <;> exact ⟨rfl, rfl⟩

end PassPoint

def TaskBody.message : TaskBody → Option JobMessage
  | .handling m _ => some m
  | .undecodable _ => none

/-- What of a task does not change. -/
def Task.ident (τ : Task) : ConsumerName × Nat × Option JobMessage :=
  (τ.consumer, τ.entry, τ.body.message)

def Sys.newAt (s : Sys) (name : ConsumerName) : List StreamEntry :=
  match s.stageOf name with
  | some (.looping p) => p.newEntries
  | _ => []

inductive Holder where
  | pass (name : ConsumerName)
  | task (t : Nat)

/-- The holder has the entry in hand. -/
def Holds (s : Sys) (id : Nat) : Holder → Prop
  | .pass name => ∃ e ∈ s.newAt name, e.id = id
  | .task t => ∃ τ, s.tasks t = some τ ∧ τ.entry = id

/-- What a step does to the holders: nothing, a read, or the start of a task. -/
inductive Handover (s s' : Sys) : Prop
  | keep (hnew : ∀ name, s'.newAt name = s.newAt name)
      (htasks : ∀ t, (s'.tasks t).map Task.ident = (s.tasks t).map Task.ident)
      (hpassed : ∀ e ∈ s'.redis.work.entries, s'.redis.passed e.id = s.redis.passed e.id)
  | read (name : ConsumerName) (g : Group) (n : Nat) (hg : s.redis.group = some g)
      (hempty : s.newAt name = []) (hwork : s'.redis.work = s.redis.work)
      (hnew : ∀ other, s'.newAt other =
        if other = name then (g.unread s.redis.work).take n else s.newAt other)
      (htasks : s'.tasks = s.tasks)
      (hg' : s'.redis.group = some (g.deliver name ((g.unread s.redis.work).take n)))
  | dispatch (name : ConsumerName) (e : StreamEntry) (rest : List StreamEntry)
      (hold : s.newAt name = e :: rest) (hredis : s'.redis = s.redis)
      (hnew : ∀ other, s'.newAt other = if other = name then rest else s.newAt other)
      (htasks : s'.tasks = Function.update s.tasks s.nextTask (some ⟨name, e.id, .of e.fields⟩))

/-- In a calm run, before the group exists nothing was submitted, and no pass takes over. -/
structure Undisturbed (s : Sys) : Prop where
  closed : s.redis.group = none → s.redis.work.entries = [] ∧ ∀ id, s.submissions id = none
  owners : ∀ name p, s.stageOf name = some (.looping p) → p.takesOver = false

section
variable {cfg : Settings} {s s' : Sys} {a : Act}

theorem Sys.newAt_setStage (s : Sys) (name other : ConsumerName) (p : PassPoint)
    (h : s.stageOf name ≠ none) :
    (s.setStage name (.looping p)).newAt other =
      if other = name then p.newEntries else s.newAt other := by
  unfold newAt
  rw [stageOf_setStage]
  by_cases hn : other = name
  · subst hn
    obtain ⟨stage, hstage⟩ := Option.ne_none_iff_exists'.mp h
    obtain ⟨w, hw, _⟩ := Option.map_eq_some_iff.mp hstage
    simp [hw]
  · simp [hn]

theorem Sys.Change.passed {who : Actor} {c : Choice} {e : Effect}
    (h : Sys.Change cfg who c s e s') (hcreate : e ≠ .xgroupCreate)
    (hread : ∀ n, e ≠ .xreadgroup n) (id : Nat) : s'.redis.passed id = s.redis.passed id := by
  refine Redis.passed_congr ?_ id
  cases h with
  | create hf hnone => exact absurd rfl hcreate
  | read n name g hf hc hg => exact absurd rfl (hread n)
  | ack id hf => cases hg : s.redis.group <;> simp [Sys.ackEntry, hg]
  | claim n name g start f hf hc hg h hw =>
    simp [Sys.claimEntries, Sys.setGroup, Sys.modifyWorker, hg]
  | _ => rfl

theorem Sys.perform_quiet {who : Actor} {c : Choice} {e : Effect} {r : e.Reply} {s₁ : Sys}
    (hperf : s.perform cfg who c e = some (r, s₁)) (hdispatch : ∀ id fields, e ≠ .dispatch id fields)
    (hxadd : ∀ fields, e ≠ .xadd .work fields) (hcreate : e ≠ .xgroupCreate)
    (hread : ∀ n, e ≠ .xreadgroup n) :
    s₁.tasks = s.tasks ∧ s₁.redis.work = s.redis.work ∧
      ∀ id, s₁.redis.passed id = s.redis.passed id := by
  have hchange := Sys.perform_change hperf
  refine ⟨?_, ?_, hchange.passed hcreate hread⟩
  · rcases hchange.tasks with ⟨htasks, _⟩ | ⟨id, fields, _, he, _⟩
    · exact htasks
    · exact absurd he (hdispatch id fields)
  · rcases hchange.stream with ⟨hwork, _⟩ | ⟨fields, he, _⟩
    · exact hwork
    · exact absurd he (hxadd fields)

theorem Calm.mine {name : ConsumerName} {c : Choice} {p : PassPoint}
    (hcalm : Calm s (.resume (.worker name) c)) (hstage : s.stageOf name = some (.looping p))
    (x : StreamEntry) (rest : List StreamEntry) (hp : p = .check x rest) :
    x.id ∈ s.inFlightAt name :=
  hcalm.takeover name c rfl x rest (hp ▸ hstage)

theorem calm_of_ne (hcalls : a.NoFault) (htrim : a.trim = 0)
    (hown : ∀ fields trim, a ≠ .inject fields trim)
    (hsubmit : ∀ ty payload id created updated, a ≠ .submit ty payload id created updated)
    (hworker : ∀ name c, a ≠ .resume (.worker name) c) : Calm s a where
  calls := hcalls
  trim := htrim
  own := hown
  group := fun ty payload id created updated h => absurd h (hsubmit ty payload id created updated)
  takeover := fun name c h => absurd h (hworker name c)

theorem calm_start {name : ConsumerName} : Calm s (.start name) :=
  calm_of_ne trivial rfl (by simp) (by simp) (by simp)

theorem calm_pass {name : ConsumerName} : Calm s (.pass name) :=
  calm_of_ne trivial rfl (by simp) (by simp) (by simp)

theorem calm_reap {t : Nat} : Calm s (.reap t) :=
  calm_of_ne trivial rfl (by simp) (by simp) (by simp)

theorem calm_submission {id : UUID} : Calm s (.resume (.submission id) {}) :=
  calm_of_ne rfl rfl (by simp) (by simp) (by simp)

theorem calm_task {t : Nat} {c : Choice} (hfate : c.fate = .ok) (htrim : c.trim = 0) :
    Calm s (.resume (.task t) c) :=
  calm_of_ne hfate htrim (by simp) (by simp) (by simp)

theorem calm_worker {name : ConsumerName} {c : Choice} (hfate : c.fate = .ok) (htrim : c.trim = 0)
    (hmine : ∀ e rest, s.stageOf name = some (.looping (.check e rest)) →
      e.id ∈ s.inFlightAt name) : Calm s (.resume (.worker name) c) := by
  refine ⟨hfate, htrim, by simp, by simp, fun other c' h e rest hstage => ?_⟩
  cases h
  exact hmine e rest hstage

theorem PassPoint.newEntries_next {name : ConsumerName} {c : Choice} {p : PassPoint} {e : Effect}
    {k : e.Reply → PassPoint} {r : e.Reply} {s₁ : Sys} (hfate : c.fate = .ok)
    (hmine : ∀ x rest, p = .check x rest → x.id ∈ s.inFlightAt name) (howner : p.takesOver = false)
    (hnode : p.node cfg.toBrokerSettings = .await e k)
    (hperf : s.perform cfg (.worker name) c e = some (r, s₁)) :
    (k r).takesOver = false ∧
    ((p.newEntries = [] ∧ (k r).newEntries = [] ∧ s₁.tasks = s.tasks ∧
        s₁.redis.work = s.redis.work ∧ ∀ id, s₁.redis.passed id = s.redis.passed id) ∨
      (∃ n g, p.newEntries = [] ∧ s.redis.group = some g ∧ s₁ = (s.readGroup name g n).2 ∧
        (k r).newEntries = (g.unread s.redis.work).take n.toNat) ∨
      (∃ x rest, p.newEntries = x :: rest ∧ (k r).newEntries = rest ∧
        s₁ = s.startTask name x.id x.fields)) := by
  cases p with
  | reclaimCapacity | readCapacity =>
    cases hnode
    have hquiet := Sys.perform_quiet hperf (fun _ _ h => by cases h) (fun _ h => by cases h)
      (fun h => by cases h) (fun _ h => by cases h)
    change Int at r
    by_cases hn : r ≤ 0
    · simp only [hn, if_true]
      exact ⟨rfl, .inl ⟨rfl, rfl, hquiet⟩⟩
    · simp only [hn, if_false]
      exact ⟨rfl, .inl ⟨rfl, rfl, hquiet⟩⟩
  | autoclaim n =>
    cases hnode
    have hquiet := Sys.perform_quiet hperf (fun _ _ h => by cases h) (fun _ h => by cases h)
      (fun h => by cases h) (fun _ h => by cases h)
    rcases r with x | es
    · exact ⟨rfl, .inl ⟨rfl, rfl, hquiet⟩⟩
    · obtain ⟨hnew, hown⟩ := newEntries_nextClaimed es
      exact ⟨hown, .inl ⟨rfl, hnew, hquiet⟩⟩
  | check x rest =>
    cases hnode
    obtain ⟨rfl, hin⟩ := Sys.perform_inFlight hperf
    obtain rfl : r = true := by rw [hin]; exact decide_eq_true (hmine x rest rfl)
    obtain ⟨hnew, hown⟩ := newEntries_nextClaimed rest
    exact ⟨hown, .inl ⟨rfl, hnew, rfl, rfl, fun _ => rfl⟩⟩
  | read n =>
    cases hnode
    simp only [Sys.perform, Sys.consumer] at hperf
    cases hg : s.redis.group with
    | none =>
      simp only [hg, Option.some.injEq] at hperf
      obtain ⟨rfl, rfl⟩ := hperf
      exact ⟨rfl, .inl ⟨rfl, rfl, rfl, rfl, fun _ => rfl⟩⟩
    | some g =>
      simp only [hg, Choice.reply_of_ok hfate] at hperf
      obtain ⟨rfl, rfl⟩ := hperf
      obtain ⟨hnew, hown⟩ := newEntries_nextNew ((s.readGroup name g n).1).length
        (s.readGroup name g n).1
      exact ⟨hown, .inr (.inl ⟨n, g, rfl, rfl, rfl, hnew⟩)⟩
  | dispatchNew x rest total =>
    cases hnode
    obtain rfl : s.startTask name x.id x.fields = s₁ := congrArg Prod.snd (Option.some.inj hperf)
    obtain ⟨hnew, hown⟩ := newEntries_nextNew total rest
    exact ⟨hown, .inr (.inr ⟨x, rest, rfl, hnew, rfl⟩)⟩
  | query x rest | dispatchClaimed x rest | poison x m n rest | poisonAck x rest => cases howner
  | finished outcome => cases hnode

theorem Sys.newAt_of_stage {name : ConsumerName} {stage : Stage}
    (h : s.stageOf name = some stage) (hnot : ∀ p, stage ≠ .looping p) : s.newAt name = [] := by
  unfold newAt
  split
  · rename_i p hp
    exact absurd (Option.some.inj (h.symm.trans hp)) (hnot p)
  · rfl

theorem Sys.newAt_of_looping {name : ConsumerName} {p : PassPoint}
    (h : s.stageOf name = some (.looping p)) : s.newAt name = p.newEntries := by
  unfold newAt
  rw [h]

theorem Sys.newAt_congr {name : ConsumerName} (h : s'.stageOf name = s.stageOf name) :
    s'.newAt name = s.newAt name := by
  unfold newAt
  rw [h]

theorem handover_of_step (hcalm : Calm s a) (hs : Undisturbed s) (h : step cfg s a = some s') :
    Handover s s' := by
  cases Sys.step_cases h with
  | submission id c job p e k r s₁ hsub hnode hperf =>
    have hchange := Sys.perform_change hperf
    have hother : (∀ id fields, e ≠ .dispatch id fields) ∧ e ≠ .xgroupCreate ∧
        ∀ n, e ≠ .xreadgroup n := by
      cases p <;> cases hnode <;> exact ⟨by simp, by simp, by simp⟩
    have htasks : s₁.tasks = s.tasks := by
      rcases hchange.tasks with ⟨htasks, _⟩ | ⟨id, fields, _, he, _⟩
      · exact htasks
      · exact absurd he (hother.1 id fields)
    refine .keep (fun name => Sys.newAt_congr (hchange.stage name))
      (fun t => congrArg (fun f => (f t).map Task.ident) htasks) fun e _ => ?_
    exact hchange.passed hother.2.1 hother.2.2 e.id
  | starting name c w p e k r s₁ hw hst hnode hperf =>
    have hchange := Sys.perform_change hperf
    have hstarting : s.stageOf name = some (.starting p) := by
      rw [Sys.stageOf, hw, Option.map_some, hst]
    have htasks : s₁.tasks = s.tasks := by
      rcases hchange.tasks with ⟨htasks, _⟩ | ⟨id, fields, _, rfl, _⟩
      · exact htasks
      · cases p <;> cases hnode
    refine .keep (fun other => ?_) (fun t => congrArg (fun f => (f t).map Task.ident) htasks) ?_
    · by_cases hn : other = name
      · subst hn
        have hafter : (s₁.setStage other (.starting (k r))).stageOf other =
            some (.starting (k r)) := by
          have hs₁ := (hchange.stage other).trans hstarting
          obtain ⟨w', hw', _⟩ := Option.map_eq_some_iff.mp hs₁
          rw [Sys.stageOf_setStage, if_pos rfl, hw', Option.map_some]
        rw [Sys.newAt_of_stage hafter (by simp), Sys.newAt_of_stage hstarting (by simp)]
      · refine Sys.newAt_congr ?_
        rw [Sys.stageOf_setStage, if_neg hn]
        exact hchange.stage other
    · intro x hx
      cases hg : s.redis.group with
      | none =>
        have hwork : s₁.redis.work = s.redis.work := by
          rcases hchange.stream with ⟨hwork, _⟩ | ⟨fields, rfl, _⟩
          · exact hwork
          · cases p <;> cases hnode
        have hx : x ∈ s₁.redis.work.entries := hx
        rw [hwork, (hs.closed hg).1] at hx
        cases hx
      | some g =>
        refine Redis.passed_congr ?_ x.id
        rcases hchange.group with hsame | ⟨_, _, hnone, _⟩ | ⟨n, other, g', hg', hread⟩
        · exact hsame
        · cases hnone.symm.trans hg
        · cases p <;> cases hnode
          have hcreate := hchange
          cases hcreate with
          | refl => rfl
          | create hf hnone => cases hnone.symm.trans hg
  | looping name c w p e k r s₁ hw hst hnode hperf =>
    have hlooping : s.stageOf name = some (.looping p) := by
      rw [Sys.stageOf, hw, Option.map_some, hst]
    have hchange := Sys.perform_change hperf
    have hs₁ : s₁.stageOf name ≠ none := by
      rw [hchange.stage name, hlooping]
      simp
    have hnew : ∀ other, (s₁.setStage name (.looping (k r))).newAt other =
        if other = name then (k r).newEntries else s.newAt other := by
      intro other
      rw [Sys.newAt_setStage s₁ name other (k r) hs₁]
      split
      · rfl
      · exact Sys.newAt_congr (hchange.stage other)
    obtain ⟨_, ⟨hempty, hnext, htasks, hwork, hpassed⟩ | ⟨n, g, hempty, hg, rfl, hnext⟩ |
      ⟨x, rest, hold, hnext, rfl⟩⟩ :=
      PassPoint.newEntries_next hcalm.calls (hcalm.mine hlooping) (hs.owners name p hlooping) hnode
        hperf
    · refine .keep (fun other => ?_) (fun t => congrArg (fun f => (f t).map Task.ident) htasks)
        fun e _ => hpassed e.id
      rw [hnew]
      split
      · rename_i hother
        rw [hother, Sys.newAt_of_looping hlooping, hempty, hnext]
      · rfl
    · refine .read name g n.toNat hg (by rw [Sys.newAt_of_looping hlooping, hempty]) rfl ?_ rfl rfl
      intro other
      rw [hnew, hnext]
    · refine .dispatch name x rest (by rw [Sys.newAt_of_looping hlooping, hold]) rfl ?_ rfl
      intro other
      rw [hnew, hnext]
  | task t c name id m p w q e k r s₁ htask hw hst hnode hperf =>
    have hchange := Sys.perform_change hperf
    have hother : (∀ id fields, e ≠ .dispatch id fields) ∧ e ≠ .xgroupCreate ∧
        ∀ n, e ≠ .xreadgroup n := by
      cases p <;> cases hnode <;> exact ⟨by simp, by simp, by simp⟩
    have htasks : s₁.tasks = s.tasks := by
      rcases hchange.tasks with ⟨htasks, _⟩ | ⟨id, fields, _, he, _⟩
      · exact htasks
      · exact absurd he (hother.1 id fields)
    refine .keep (fun other => Sys.newAt_congr (hchange.stage other)) (fun u => ?_) fun e _ => ?_
    · rw [Sys.setTask_tasks, htasks]
      by_cases hu : u = t
      · subst hu
        rw [Function.update_self, htask]
        rfl
      · rw [Function.update_of_ne hu]
    · exact hchange.passed hother.2.1 hother.2.2 e.id
  | start name hfresh =>
    refine .keep (fun other => ?_) (fun _ => rfl) fun _ _ => rfl
    by_cases hn : other = name
    · subst hn
      simp [Sys.newAt, Sys.stageOf, hfresh]
    · refine Sys.newAt_congr ?_
      simp [Sys.stageOf, Function.update_of_ne hn]
  | pass name w hw hst =>
    refine .keep (fun other => ?_) (fun _ => rfl) fun _ _ => rfl
    have hstage : s.stageOf name = some w.stage := by rw [Sys.stageOf, hw, Option.map_some]
    rw [Sys.newAt_setStage s name other .reclaimCapacity (by simp [hstage])]
    split
    · rename_i hn
      subst hn
      rcases hst with h | ⟨outcome, h⟩
      · rw [h] at hstage
        rw [Sys.newAt_of_stage hstage (by simp)]
        rfl
      · rw [h] at hstage
        rw [Sys.newAt_of_looping hstage]
        rfl
    · rfl
  | submit ty payload id created updated hfresh =>
    exact .keep (fun _ => rfl) (fun _ => rfl) fun _ _ => rfl
  | reap t τ htask hdone =>
    refine .keep (fun other => Sys.newAt_congr ?_) (fun _ => rfl) fun _ _ => rfl
    by_cases hn : other = τ.consumer
    · subst hn
      simp [Sys.stageOf, Function.comp_def]
    · simp [Sys.stageOf, Function.update_of_ne hn]
  | crash name w hw => exact hcalm.calls.elim
  | inject fields trim htrim => exact absurd rfl (hcalm.own fields trim)

theorem work_of_calm (hcalm : Calm s a) (h : step cfg s a = some s') :
    s'.redis.work = s.redis.work ∨
    ∃ m : JobMessage,
      s'.redis.work.entries = s.redis.work.entries ++ [⟨s.redis.work.lastId + 1, m.toFields⟩] ∧
      ((∃ id c job left, a = .resume (.submission id) c ∧
          s.submissions id = some (job, .publishing left) ∧ m = .firstDelivery job) ∨
        (∃ t c name id m₀, a = .resume (.task t) c ∧
          s.tasks t = some ⟨name, id, .handling m₀ .republish⟩ ∧ m = m₀.nextAttempt)) := by
  cases Sys.step_cases h with
  | submission id c job p e k r s₁ hsub hnode hperf =>
    rcases (Sys.perform_change hperf).stream with ⟨hwork, _⟩ | ⟨fields, rfl, _, rfl⟩
    · exact .inl hwork
    · have htrim : c.trim = 0 := hcalm.trim
      cases p with
      | publishing left =>
        cases hnode
        refine .inr ⟨_, ?_, .inl ⟨id, c, job, left, rfl, hsub, rfl⟩⟩
        simp [Sys.appendWork, Stream.add, htrim]
      | _ => cases hnode
  | starting name c w p e k r s₁ hw hst hnode hperf
  | looping name c w p e k r s₁ hw hst hnode hperf =>
    rcases (Sys.perform_change hperf).stream with ⟨hwork, _⟩ | ⟨fields, rfl, _, _⟩
    · exact .inl hwork
    · cases p <;> cases hnode
  | task t c name id m p w q e k r s₁ htask hw hst hnode hperf =>
    rcases (Sys.perform_change hperf).stream with ⟨hwork, _⟩ | ⟨fields, rfl, _, rfl⟩
    · exact .inl hwork
    · have htrim : c.trim = 0 := hcalm.trim
      cases p with
      | republish =>
        cases hnode
        refine .inr ⟨_, ?_, .inr ⟨t, c, name, id, m, rfl, htask, rfl⟩⟩
        simp [Sys.appendWork, Stream.add, htrim]
      | _ => cases hnode
  | inject fields trim htrim => exact absurd rfl (hcalm.own fields trim)
  | _ => exact .inl rfl

theorem entries_of_calm (hcalm : Calm s a) (h : step cfg s a = some s') {e : StreamEntry}
    (he : e ∈ s.redis.work.entries) : e ∈ s'.redis.work.entries := by
  rcases work_of_calm hcalm h with hwork | ⟨m, hentries, _⟩
  · rwa [hwork]
  · rw [hentries]
    exact List.mem_append_left _ he

theorem Undisturbed.init : Undisturbed Sys.init where
  closed := fun _ => ⟨rfl, fun _ => rfl⟩
  owners := by
    intro name p hstage
    cases hstage

theorem Undisturbed.step (hreg : Regular cfg s) (hs : Undisturbed s) (hcalm : Calm s a)
    (h : step cfg s a = some s') : Undisturbed s' where
  closed := by
    intro hnone'
    have hnone : s.redis.group = none := by
      by_contra hne
      exact group_ne_none_of_step h hne hnone'
    obtain ⟨hentries, hsubs⟩ := hs.closed hnone
    constructor
    · rcases work_of_calm hcalm h with hwork | ⟨m, _, ⟨id, _, _, _, _, hsub, _⟩ |
        ⟨t, _, name, id, m₀, _, htask, _⟩⟩
      · rw [hwork, hentries]
      · cases (hsubs id).symm.trans hsub
      · have hpassed := hreg.passed.tasks t _ htask
        simp [Redis.passed, hnone] at hpassed
    · intro id
      rcases step_submission hreg.coherent h id with hsame | ⟨ty, payload, created, updated, ha, _⟩ |
        ⟨_, _, _, _, _, _, _, _, hsub, _⟩
      · rw [hsame, hsubs id]
      · exact absurd hnone (hcalm.group ty payload id created updated ha)
      · cases (hsubs id).symm.trans hsub
  owners := by
    intro name p hstage
    rcases step_stage h name with hsame | ⟨_, _, hnew⟩ | ⟨_, _, hnew⟩ |
      ⟨_, _, _, _, _, _, _, _, _, _, _, hnew⟩ |
      ⟨c, q, e, k, r, s₁, rfl, hold, hnode, hperf, _, hnew⟩ | ⟨_, hnew⟩
    · exact hs.owners name p (hsame ▸ hstage)
    · cases hnew.symm.trans hstage
    · cases hnew.symm.trans hstage
      rfl
    · cases hnew.symm.trans hstage
    · cases hnew.symm.trans hstage
      exact (PassPoint.newEntries_next hcalm.calls (hcalm.mine hold) (hs.owners name q hold) hnode
        hperf).1
    · cases hnew.symm.trans hstage

/-- Every entry that the group has passed has one holder. -/
structure Custody (s : Sys) : Prop where
  held : ∀ e ∈ s.redis.work.entries, s.redis.passed e.id = true → ∃ h, Holds s e.id h
  unique : ∀ id h h', Holds s id h → Holds s id h' → h = h'
  nodup : ∀ name, ((s.newAt name).map (·.id)).Nodup
  listed : ∀ name, ∀ e ∈ s.newAt name, e ∈ s.redis.work.entries ∧ s.redis.passed e.id = true
  decoded : ∀ e ∈ s.redis.work.entries, ∃ m, JobMessage.fromFields e.fields = .ok m
  tasks : ∀ t τ, s.tasks t = some τ → ∃ e ∈ s.redis.work.entries, ∃ m, e.id = τ.entry ∧
    JobMessage.fromFields e.fields = .ok m ∧ τ.body.message = some m

theorem Custody.init : Custody Sys.init where
  held := by
    intro e he
    cases he
  unique := by
    rintro id h h' hid
    cases h with
    | pass name =>
      obtain ⟨e, he, _⟩ := hid
      cases he
    | task t =>
      obtain ⟨τ, htask, _⟩ := hid
      cases htask
  nodup := fun _ => List.nodup_nil
  listed := by
    intro name e he
    cases he
  decoded := by
    intro e he
    cases he
  tasks := by
    intro t τ htask
    cases htask

theorem Holds.passed (hreg : Regular cfg s) (hs : Custody s) {id : Nat} {h : Holder}
    (hid : Holds s id h) : s.redis.passed id = true := by
  cases h with
  | pass name =>
    obtain ⟨e, he, rfl⟩ := hid
    exact (hs.listed name e he).2
  | task t =>
    obtain ⟨τ, htask, rfl⟩ := hid
    exact hreg.passed.tasks t τ htask

theorem holds_of_keep (hnew : ∀ name, s'.newAt name = s.newAt name)
    (htasks : ∀ t, (s'.tasks t).map Task.ident = (s.tasks t).map Task.ident) (id : Nat)
    (h : Holder) : Holds s' id h ↔ Holds s id h := by
  have entries : ∀ (u : Sys) (t : Nat), (∃ τ, u.tasks t = some τ ∧ τ.entry = id) ↔
      ∃ v, (u.tasks t).map Task.ident = some v ∧ v.2.1 = id := by
    intro u t
    simp only [Option.map_eq_some_iff, Task.ident]
    constructor
    · rintro ⟨τ, htask, hid⟩
      exact ⟨_, ⟨τ, htask, rfl⟩, hid⟩
    · rintro ⟨_, ⟨τ, htask, rfl⟩, hid⟩
      exact ⟨τ, htask, hid⟩
  cases h with
  | pass name => simp only [Holds, hnew]
  | task t =>
    simp only [Holds]
    rw [entries, entries, htasks]

theorem holds_of_read {name : ConsumerName} {es : List StreamEntry} (hempty : s.newAt name = [])
    (hnew : ∀ other, s'.newAt other = if other = name then es else s.newAt other)
    (htasks : s'.tasks = s.tasks) (id : Nat) (h : Holder) :
    Holds s' id h ↔ Holds s id h ∨ (h = .pass name ∧ ∃ e ∈ es, e.id = id) := by
  cases h with
  | pass other =>
    simp only [Holds, hnew, Holder.pass.injEq]
    by_cases hn : other = name
    · subst hn
      simp [hempty]
    · simp [hn]
  | task t => simp [Holds, htasks]

theorem holds_of_dispatch {name : ConsumerName} {e : StreamEntry} {rest : List StreamEntry}
    {τ : Task} (hfresh : s.tasks s.nextTask = none) (hold : s.newAt name = e :: rest)
    (hnodup : ((e :: rest).map (·.id)).Nodup) (hτ : τ.entry = e.id)
    (hnew : ∀ other, s'.newAt other = if other = name then rest else s.newAt other)
    (htasks : s'.tasks = Function.update s.tasks s.nextTask (some τ)) (id : Nat) (h : Holder) :
    Holds s' id h ↔ (Holds s id h ∧ ¬ (h = .pass name ∧ id = e.id)) ∨
      (h = .task s.nextTask ∧ id = e.id) := by
  cases h with
  | pass other =>
    simp only [Holds, hnew, Holder.pass.injEq, reduceCtorEq, false_and, or_false]
    by_cases hn : other = name
    · subst hn
      obtain ⟨hnot, _⟩ := List.nodup_cons.mp hnodup
      simp only [if_true, hold, List.mem_cons, exists_eq_or_imp, true_and]
      constructor
      · rintro ⟨x, hx, rfl⟩
        exact ⟨.inr ⟨x, hx, rfl⟩, fun hid => hnot (List.mem_map.mpr ⟨x, hx, hid⟩)⟩
      · rintro ⟨rfl | hx, hne⟩
        · exact absurd rfl hne
        · exact hx
    · simp [hn]
  | task t =>
    simp only [Holds, htasks, reduceCtorEq, false_and, not_false_eq_true, and_true,
      Holder.task.injEq]
    by_cases ht : t = s.nextTask
    · subst ht
      simp [hfresh, hτ, eq_comm]
    · simp [ht]

theorem Custody.step_unique (hreg : Regular cfg s) (hs : Custody s) (hand : Handover s s') (id : Nat)
    (h h' : Holder) (hid : Holds s' id h) (hid' : Holds s' id h') : h = h' := by
  cases hand with
  | keep hnew htasks hpassed =>
    rw [holds_of_keep hnew htasks] at hid hid'
    exact hs.unique id h h' hid hid'
  | read name g n hg hempty hwork hnew htasks hg' =>
    rw [holds_of_read hempty hnew htasks] at hid hid'
    -- what was held before was passed before, what is read now was not
    have apart : ∀ h, Holds s id h → ¬ ∃ e ∈ (g.unread s.redis.work).take n, e.id = id := by
      rintro h hold ⟨e, he, rfl⟩
      have hpassed := hold.passed hreg hs
      have hlt := Group.lt_of_mem_unread he
      simp only [Redis.passed, hg, Option.any_some, decide_eq_true_eq] at hpassed
      omega
    rcases hid with hid | ⟨rfl, hread⟩
    · rcases hid' with hid' | ⟨_, hread⟩
      · exact hs.unique id h h' hid hid'
      · exact absurd hread (apart h hid)
    · rcases hid' with hid' | ⟨rfl, _⟩
      · exact absurd hread (apart h' hid')
      · rfl
  | dispatch name e rest hold hredis hnew htasks =>
    have hnodup : ((e :: rest).map (·.id)).Nodup := hold ▸ hs.nodup name
    have hfresh := hreg.coherent.fresh _ le_rfl
    rw [holds_of_dispatch hfresh hold hnodup rfl hnew htasks] at hid hid'
    have hpass : Holds s e.id (.pass name) := ⟨e, hold ▸ List.mem_cons_self, rfl⟩
    rcases hid with ⟨hid, hnot⟩ | ⟨rfl, rfl⟩
    · rcases hid' with ⟨hid', _⟩ | ⟨_, rfl⟩
      · exact hs.unique id h h' hid hid'
      · exact absurd ⟨hs.unique _ _ _ hid hpass, rfl⟩ hnot
    · rcases hid' with ⟨hid', hnot⟩ | ⟨rfl, _⟩
      · exact absurd ⟨hs.unique _ _ _ hid' hpass, rfl⟩ hnot
      · rfl

theorem Custody.step_held (hreg : Regular cfg s) (hs : Custody s) (hcalm : Calm s a)
    (hand : Handover s s') (h : step cfg s a = some s') (e : StreamEntry)
    (he : e ∈ s'.redis.work.entries) (hpassed : s'.redis.passed e.id = true) :
    ∃ h, Holds s' e.id h := by
  cases hand with
  | keep hnew htasks hsame =>
    rw [hsame e he] at hpassed
    have hold : e ∈ s.redis.work.entries := by
      rcases work_of_calm hcalm h with hwork | ⟨m, hentries, _⟩
      · rwa [hwork] at he
      · rw [hentries] at he
        rcases List.mem_append.mp he with he | he
        · exact he
        · -- the appended entry lies after everything the group has passed
          rw [List.mem_singleton.mp he] at hpassed
          simp only [Redis.passed, Option.any_eq_true, decide_eq_true_eq] at hpassed
          obtain ⟨g, hg, hle⟩ := hpassed
          have hbound := hreg.retained.bound g hg
          omega
    obtain ⟨h₀, hh⟩ := hs.held e hold hpassed
    exact ⟨h₀, (holds_of_keep hnew htasks e.id h₀).mpr hh⟩
  | read name g n hg hempty hwork hnew htasks hg' =>
    rw [hwork] at he
    by_cases hbefore : s.redis.passed e.id = true
    · obtain ⟨h₀, hh⟩ := hs.held e he hbefore
      exact ⟨h₀, (holds_of_read hempty hnew htasks e.id h₀).mpr (.inl hh)⟩
    · have hunread : e ∈ g.unread s.redis.work := by
        refine List.mem_filter.mpr ⟨he, decide_eq_true ?_⟩
        simp only [Redis.passed, hg, Option.any_some, decide_eq_true_eq] at hbefore
        omega
      rw [← List.take_append_drop n (g.unread s.redis.work)] at hunread
      rcases List.mem_append.mp hunread with hread | hleft
      · exact ⟨.pass name, (holds_of_read hempty hnew htasks e.id _).mpr (.inr ⟨rfl, e, hread, rfl⟩)⟩
      · have hlt := Group.lastDelivered_lt_of_mem_drop (c := name) hreg.retained.window.sorted hleft
        simp only [Redis.passed, hg', Option.any_some, decide_eq_true_eq] at hpassed
        omega
  | dispatch name x rest hold hredis hnew htasks =>
    rw [hredis] at he hpassed
    have hnodup : ((x :: rest).map (·.id)).Nodup := hold ▸ hs.nodup name
    have hiff := holds_of_dispatch (hreg.coherent.fresh _ le_rfl) hold hnodup rfl hnew htasks e.id
    obtain ⟨h₀, hh⟩ := hs.held e he hpassed
    by_cases hx : h₀ = .pass name ∧ e.id = x.id
    · exact ⟨.task s.nextTask, (hiff _).mpr (.inr ⟨rfl, hx.2⟩)⟩
    · exact ⟨h₀, (hiff _).mpr (.inl ⟨hh, hx⟩)⟩

theorem TaskBody.message_of {fields : Fields} {m : JobMessage}
    (h : JobMessage.fromFields fields = .ok m) : (TaskBody.of fields).message = some m := by
  simp only [TaskBody.of, h, message]

theorem Custody.step (hreg : Regular cfg s) (hs : Custody s) (hu : Undisturbed s)
    (hcalm : Calm s a) (h : step cfg s a = some s') : Custody s' := by
  have hand := handover_of_step hcalm hu h
  have hsub : ∀ e ∈ s.redis.work.entries, e ∈ s'.redis.work.entries :=
    fun e he => entries_of_calm hcalm h he
  have hpass : ∀ e : StreamEntry, s.redis.passed e.id = true → s'.redis.passed e.id = true :=
    fun e he => passed_of_step h he
  refine ⟨hs.step_held hreg hcalm hand h, hs.step_unique hreg hand, ?_, ?_, ?_, ?_⟩
  · intro other
    cases hand with
    | keep hnew _ _ => exact hnew other ▸ hs.nodup other
    | read name g n hg hempty hwork hnew htasks hg' =>
      rw [hnew]
      split
      · have hpair : ((g.unread s.redis.work).take n).Pairwise fun a b => a.id < b.id :=
          (hreg.retained.window.sorted.sublist List.filter_sublist).sublist (List.take_sublist _ _)
        exact List.pairwise_map.mpr (hpair.imp fun hlt => Nat.ne_of_lt hlt)
      · exact hs.nodup other
    | dispatch name e rest hold hredis hnew htasks =>
      rw [hnew]
      split
      · have hnodup : ((e :: rest).map (·.id)).Nodup := hold ▸ hs.nodup name
        exact (List.nodup_cons.mp hnodup).2
      · exact hs.nodup other
  · intro other e he
    have old : e ∈ s.newAt other →
        e ∈ s'.redis.work.entries ∧ s'.redis.passed e.id = true :=
      fun he => ⟨hsub e (hs.listed other e he).1, hpass e (hs.listed other e he).2⟩
    cases hand with
    | keep hnew _ _ => exact old (hnew other ▸ he)
    | read name g n hg hempty hwork hnew htasks hg' =>
      rw [hnew] at he
      split at he
      · refine ⟨hsub e (List.mem_filter.mp (List.mem_of_mem_take he)).1, ?_⟩
        simp only [Redis.passed, hg', Option.any_some, decide_eq_true_eq]
        exact Group.le_deliver_of_mem hreg.retained.window.sorted he
      · exact old he
    | dispatch name x rest hold hredis hnew htasks =>
      rw [hnew] at he
      split at he
      · rename_i hn
        exact old (by rw [hn, hold]; exact List.mem_cons_of_mem _ he)
      · exact old he
  · intro e he
    rcases work_of_calm hcalm h with hwork | ⟨m, hentries, _⟩
    · exact hs.decoded e (hwork ▸ he)
    · rw [hentries] at he
      rcases List.mem_append.mp he with he | he
      · exact hs.decoded e he
      · rw [List.mem_singleton.mp he]
        exact ⟨m, JobMessage.fromFields_toFields m⟩
  · intro t τ htask
    have old : ∀ τ₀ : Task, s.tasks t = some τ₀ → τ₀.entry = τ.entry →
        τ₀.body.message = τ.body.message → ∃ e ∈ s'.redis.work.entries, ∃ m, e.id = τ.entry ∧
          JobMessage.fromFields e.fields = .ok m ∧ τ.body.message = some m := by
      intro τ₀ hτ₀ hentry hmessage
      obtain ⟨e, he, m, hid, hm, hbody⟩ := hs.tasks t τ₀ hτ₀
      exact ⟨e, hsub e he, m, hid.trans hentry, hm, hmessage ▸ hbody⟩
    cases hand with
    | keep hnew htasks _ =>
      have hident := htasks t
      rw [htask, Option.map_some] at hident
      obtain ⟨τ₀, hτ₀, heq⟩ := Option.map_eq_some_iff.mp hident.symm
      simp only [Task.ident, Prod.mk.injEq] at heq
      exact old τ₀ hτ₀ heq.2.1 heq.2.2
    | read name g n hg hempty hwork hnew htasks hg' => exact old τ (htasks ▸ htask) rfl rfl
    | dispatch name e rest hold hredis hnew htasks =>
      rw [htasks] at htask
      by_cases ht : t = s.nextTask
      · subst ht
        rw [Function.update_self] at htask
        cases htask
        have he := (hs.listed name e (hold ▸ List.mem_cons_self)).1
        obtain ⟨m, hm⟩ := hs.decoded e he
        exact ⟨e, hsub e he, m, rfl, hm, TaskBody.message_of hm⟩
      · rw [Function.update_of_ne ht] at htask
        exact old τ htask rfl rfl

end

end InferenceEngine
