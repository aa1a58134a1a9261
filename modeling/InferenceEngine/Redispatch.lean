import InferenceEngine.Handlers
import InferenceEngine.Pending

/-!
# One consumer's tasks and its reclaim pass

A consumer keeps the ids of its running tasks. Its reclaim pass walks over the snapshot that
`XAUTOCLAIM` returned: an entry that its own task acknowledged in the meantime is no longer in
flight, counts zero deliveries and is dispatched again.
-/

namespace InferenceEngine

set_option autoImplicit false

/-- `self._in_flight_ids` of a consumer. -/
def Sys.inFlightAt (s : Sys) (name : ConsumerName) : List Nat :=
  ((s.workers name).map (·.inFlightIds)).getD []

def LiveOn (s : Sys) (name : ConsumerName) (t id : Nat) : Prop :=
  ∃ m p, s.tasks t = some ⟨name, id, .handling m p⟩ ∧ ∀ outcome, p ≠ .finished outcome

def OwnAcked (s : Sys) (name : ConsumerName) (id : Nat) : Prop :=
  ∃ t τ, s.tasks t = some τ ∧ τ.consumer = name ∧ .acked (.task t) id ∈ s.log

namespace Sys

variable {cfg : Settings} {who : Actor} {c : Choice} {s s' : Sys}

theorem Change.inFlight {e : Effect} (h : Change cfg who c s e s') (name : ConsumerName) :
    s'.inFlightAt name = s.inFlightAt name ∨
    (∃ id fields, e = .dispatch id fields ∧ s.consumer who = some name ∧
      ((s.workers name).isSome = true →
        s'.inFlightAt name = id :: (s.inFlightAt name).erase id)) ∨
    (∃ id, e = .discard id ∧ s.consumer who = some name ∧
      s'.inFlightAt name = (s.inFlightAt name).filter (· ≠ id)) := by
  cases h with
  | claim n other g start f hf hc hg h hw =>
    left
    by_cases hn : name = other
    · subst hn
      rcases hw with rfl | ⟨cursor, rfl⟩ <;>
        simp [inFlightAt, modifyWorker, claimEntries, setGroup, Function.comp_def]
    · simp [inFlightAt, modifyWorker, claimEntries, setGroup, Function.update_of_ne hn]
  | start id fields other hc =>
    by_cases hn : name = other
    · subst hn
      refine .inr (.inl ⟨id, fields, rfl, hc, fun hw => ?_⟩)
      obtain ⟨w, hw⟩ := Option.isSome_iff_exists.mp hw
      simp [inFlightAt, startTask, modifyWorker, hw]
    · left
      simp [inFlightAt, startTask, modifyWorker, Function.update_of_ne hn]
  | discard id other hc =>
    by_cases hn : name = other
    · subst hn
      refine .inr (.inr ⟨id, rfl, hc, ?_⟩)
      cases hw : s.workers name <;> simp [inFlightAt, discardId, modifyWorker, hw]
    · left
      simp [inFlightAt, discardId, modifyWorker, Function.update_of_ne hn]
  | _ => exact .inl rfl

theorem Change.acked {e : Effect} (h : Change cfg who c s e s') {who' : Actor} {id : Nat}
    (hmem : .acked who' id ∈ s'.log) :
    .acked who' id ∈ s.log ∨ (who' = who ∧ e = .xack id ∧ s' = s.ackEntry who id) := by
  have one : ∀ {ev : Event}, Event.acked who' id ∈ s.log ++ [ev] → Event.acked who' id ≠ ev →
      .acked who' id ∈ s.log := by
    intro ev hmem hne
    rcases List.mem_append.mp hmem with hmem | hmem
    · exact hmem
    · exact absurd (List.mem_singleton.mp hmem) hne
  cases h with
  | ack id' hf =>
    rcases List.mem_append.mp hmem with hmem | hmem
    · exact .inl hmem
    · cases List.mem_singleton.mp hmem
      exact .inr ⟨rfl, rfl, rfl⟩
  | write | ran | xaddWork | xaddDlq => exact .inl (one hmem (by simp))
  | read n name g hf hc hg =>
    rcases List.mem_append.mp hmem with hmem | hmem
    · exact .inl hmem
    · obtain ⟨e, _, he⟩ := List.mem_map.mp hmem
      cases he
  | _ => exact .inl hmem

theorem perform_inFlight {name : ConsumerName} {id : Nat} {r : Effect.Reply (.inFlight id)}
    (h : s.perform cfg (.worker name) c (.inFlight id) = some (r, s')) :
    s' = s ∧ r = decide (id ∈ s.inFlightAt name) := by
  simp only [perform, consumer, bind, Option.bind_some, Option.bind_eq_some_iff] at h
  obtain ⟨w, hw, h⟩ := h
  obtain ⟨hr, hs⟩ := Prod.mk.inj (Option.some.inj h)
  refine ⟨hs.symm, ?_⟩
  rw [← hr, inFlightAt, hw]
  rfl

end Sys

section
variable {cfg : Settings} {s s' : Sys} {a : Act} {name : ConsumerName}

theorem Sys.inFlightAt_setStage (s : Sys) (other : ConsumerName) (stage : Stage) :
    (s.setStage other stage).inFlightAt name = s.inFlightAt name := by
  by_cases hn : name = other
  · subst hn
    simp [inFlightAt, setStage, Function.comp_def]
  · simp [inFlightAt, setStage, Function.update_of_ne hn]

theorem step_inFlight (h : step cfg s a = some s') (name : ConsumerName) :
    s'.inFlightAt name = s.inFlightAt name ∨
    (∃ c p e, a = .resume (.worker name) c ∧ s.stageOf name = some (.looping p) ∧
      p.dispatches = some e ∧ s'.inFlightAt name = e.id :: (s.inFlightAt name).erase e.id) ∨
    (∃ t c id m outcome, a = .resume (.task t) c ∧
      s.tasks t = some ⟨name, id, .handling m (.release outcome)⟩ ∧
      s'.inFlightAt name = (s.inFlightAt name).filter (· ≠ id)) := by
  cases Sys.step_cases h with
  | submission id c job p e k r s₁ hsub hnode hperf =>
    rcases (Sys.perform_change hperf).inFlight name with hr | ⟨_, _, rfl, _⟩ | ⟨_, rfl, _⟩
    · exact .inl hr
    all_goals cases p <;> cases hnode
  | starting other c w p e k r s₁ hw hstage hnode hperf =>
    rw [Sys.inFlightAt_setStage]
    rcases (Sys.perform_change hperf).inFlight name with hr | ⟨_, _, rfl, _⟩ | ⟨_, rfl, _⟩
    · exact .inl hr
    all_goals cases p <;> cases hnode
  | looping other c w p e k r s₁ hw hstage hnode hperf =>
    rw [Sys.inFlightAt_setStage]
    rcases (Sys.perform_change hperf).inFlight name with hr | ⟨id, fields, rfl, hc, hr⟩ | ⟨id, rfl, _⟩
    · exact .inl hr
    · obtain rfl : other = name := Option.some.inj hc
      have hlooping : s.stageOf other = some (.looping p) := by
        rw [Sys.stageOf, hw, Option.map_some, hstage]
      have hr := hr (by rw [hw]; rfl)
      cases p with
      | dispatchClaimed e rest =>
        cases hnode
        exact .inr (.inl ⟨c, _, e, rfl, hlooping, rfl, hr⟩)
      | dispatchNew e rest total =>
        cases hnode
        exact .inr (.inl ⟨c, _, e, rfl, hlooping, rfl, hr⟩)
      | _ => cases hnode
    · cases p <;> cases hnode
  | task t c other id m p w q e k r s₁ htask hw hstage hnode hperf =>
    rcases (Sys.perform_change hperf).inFlight name with hr | ⟨_, _, rfl, _⟩ | ⟨id', rfl, hc, hr⟩
    · exact .inl hr
    · cases p <;> cases hnode
    · have hother : other = name := by simpa [Sys.consumer, htask] using hc
      subst hother
      cases p with
      | release outcome =>
        cases hnode
        exact .inr (.inr ⟨t, c, id, m, outcome, rfl, htask, hr⟩)
      | _ => cases hnode
  | start other hfresh =>
    left
    by_cases hn : name = other
    · subst hn
      simp [Sys.inFlightAt, hfresh]
    · simp [Sys.inFlightAt, Function.update_of_ne hn]
  | pass other w hw hstage => exact .inl (s.inFlightAt_setStage other _)
  | crash other w hw => exact .inl (s.inFlightAt_setStage other _)
  | reap t τ htask hdone =>
    left
    by_cases hn : name = τ.consumer
    · subst hn
      simp [Sys.inFlightAt, Function.comp_def]
    · simp [Sys.inFlightAt, Function.update_of_ne hn]
  | _ => exact .inl rfl

theorem step_acked (h : step cfg s a = some s') {t id : Nat} (hmem : .acked (.task t) id ∈ s'.log) :
    .acked (.task t) id ∈ s.log ∨
    (∃ c other m p, a = .resume (.task t) c ∧ s.tasks t = some ⟨other, id, .handling m p⟩ ∧
      p.acks = true ∧ s'.redis.isPending id = false) := by
  have acked : (s.ackEntry (.task t) id).redis.isPending id = false := by
    cases hg : s.redis.group <;> simp [Redis.isPending, Sys.ackEntry, hg, Group.isPending_ack]
  cases Sys.step_cases h with
  | submission id' c job p e k r s₁ hsub hnode hperf
  | starting other c w p e k r s₁ hw hstage hnode hperf
  | looping other c w p e k r s₁ hw hstage hnode hperf =>
    rcases (Sys.perform_change hperf).acked hmem with hold | ⟨hwho, _⟩
    · exact .inl hold
    · cases hwho
  | task u c other id' m p w q e k r s₁ htask hw hstage hnode hperf =>
    rcases (Sys.perform_change hperf).acked hmem with hold | ⟨hwho, rfl, rfl⟩
    · exact .inl hold
    · cases hwho
      have hack : p.acks = true ∧ id' = id := by
        cases p <;> cases hnode <;> exact ⟨rfl, rfl⟩
      obtain ⟨hack, rfl⟩ := hack
      exact .inr ⟨c, other, m, p, rfl, htask, hack, acked⟩
  | inject fields trim htrim =>
    rcases List.mem_append.mp hmem with hmem | hmem
    · exact .inl hmem
    · cases List.mem_singleton.mp hmem
  | _ => exact .inl hmem

theorem live_of_step (h : step cfg s a = some s') {t id : Nat} (hlive : LiveOn s' name t id) :
    LiveOn s name t id ∨
    (∃ c p e, a = .resume (.worker name) c ∧ s.stageOf name = some (.looping p) ∧
      p.dispatches = some e ∧ e.id = id ∧ t = s.nextTask) := by
  obtain ⟨m, p, htask, hne⟩ := hlive
  rcases step_tasks h with ⟨hr, _⟩ | ⟨other, c, w, q, e, ha, hw, hstage, hd, _, hr⟩ |
    ⟨u, c, other, id', m', p', e, k, r, s₁, _, hold, hnode, _, _, hr⟩
  · exact .inl ⟨m, p, hr ▸ htask, hne⟩
  · by_cases ht : t = s.nextTask
    · subst ht
      rw [hr, Function.update_self] at htask
      have hconsumer : other = name := congrArg Task.consumer (Option.some.inj htask)
      have hentry : e.id = id := congrArg Task.entry (Option.some.inj htask)
      subst hconsumer
      refine .inr ⟨c, q, e, ha, ?_, hd, hentry, rfl⟩
      rw [Sys.stageOf, hw, Option.map_some, hstage]
    · rw [hr, Function.update_of_ne ht] at htask
      exact .inl ⟨m, p, htask, hne⟩
  · by_cases ht : t = u
    · subst ht
      rw [hr, Function.update_self] at htask
      cases htask
      refine .inl ⟨m, p', hold, ?_⟩
      rintro outcome rfl
      cases hnode
    · rw [hr, Function.update_of_ne ht] at htask
      exact .inl ⟨m, p, htask, hne⟩

/-- When a reclaim pass reaches a claimed entry that is not in flight, it is still pending. -/
def FreshClaims (name : ConsumerName) (s : Sys) : Act → Prop
  | .resume (.worker other) _ => other = name → ∀ e rest,
    s.stageOf name = some (.looping (.check e rest)) → e.id ∉ s.inFlightAt name →
    s.redis.isPending e.id = true
  | _ => True

/-- Nothing of this consumer stands in the way of a new task for the entry. -/
structure Startable (s : Sys) (name : ConsumerName) (id : Nat) : Prop where
  idle : ∀ t, ¬ LiveOn s name t id
  unacked : ¬ OwnAcked s name id

/-- What a pass knows of the entries it is about to start. -/
def PassReady (s : Sys) (name : ConsumerName) : PassPoint → Prop
  | .query e _ | .dispatchClaimed e _ => Startable s name e.id
  | .dispatchNew e rest _ => ((e :: rest).map (·.id)).Nodup ∧
    ∀ x ∈ e :: rest, ∀ t τ, s.tasks t = some τ → τ.consumer = name → τ.entry ≠ x.id
  | _ => True

/-- One live task per entry and consumer, known to the register, and none after the ack. -/
structure OneTaskPerEntry (name : ConsumerName) (s : Sys) : Prop where
  inFlight : ∀ t id, LiveOn s name t id → id ∈ s.inFlightAt name
  unique : ∀ t u id, LiveOn s name t id → LiveOn s name u id → t = u
  acked : ∀ t id, .acked (.task t) id ∈ s.log → s.redis.isPending id = false ∧
    ∃ τ, s.tasks t = some τ ∧ τ.entry = id
  ackedLast : ∀ t τ u, s.tasks t = some τ → τ.consumer = name →
    .acked (.task t) τ.entry ∈ s.log → LiveOn s name u τ.entry → u = t
  pass : ∀ p, s.stageOf name = some (.looping p) → PassReady s name p

theorem OneTaskPerEntry.init : OneTaskPerEntry name Sys.init where
  inFlight := by
    rintro t id ⟨m, p, htask, _⟩
    cases htask
  unique := by
    rintro t u id ⟨m, p, htask, _⟩
    cases htask
  acked := by
    intro t id hmem
    cases hmem
  ackedLast := by
    intro t τ u htask
    cases htask
  pass := by
    intro p hstage
    cases hstage

theorem LiveOn.task {t id : Nat} (h : LiveOn s name t id) :
    ∃ τ, s.tasks t = some τ ∧ τ.consumer = name ∧ τ.entry = id := by
  obtain ⟨m, p, htask, _⟩ := h
  exact ⟨_, htask, rfl, rfl⟩

theorem OneTaskPerEntry.startable (hs : OneTaskPerEntry name s) {p : PassPoint} {e : StreamEntry}
    (hstage : s.stageOf name = some (.looping p)) (hd : p.dispatches = some e) :
    Startable s name e.id := by
  have hready := hs.pass p hstage
  cases p with
  | dispatchClaimed e' rest =>
    cases hd
    exact hready
  | dispatchNew e' rest total =>
    cases hd
    have hnone := hready.2 e List.mem_cons_self
    constructor
    · intro t hlive
      obtain ⟨τ, htask, hc, he⟩ := hlive.task
      exact hnone t τ htask hc he
    · rintro ⟨t, τ, htask, hc, hmem⟩
      obtain ⟨_, τ', htask', he⟩ := hs.acked t e.id hmem
      cases htask.symm.trans htask'
      exact hnone t τ htask hc he
  | _ => cases hd

theorem inFlight_of_dispatch {c : Choice} {p : PassPoint} {e : StreamEntry}
    (h : step cfg s (.resume (.worker name) c) = some s')
    (hstage : s.stageOf name = some (.looping p)) (hd : p.dispatches = some e) :
    s'.inFlightAt name = e.id :: (s.inFlightAt name).erase e.id := by
  cases Sys.step_cases h with
  | starting other c w q e k r s₁ hw hq hnode hperf =>
    rw [Sys.stageOf, hw, Option.map_some, hq] at hstage
    cases hstage
  | looping other c w q e' k r s₁ hw hq hnode hperf =>
    rw [Sys.stageOf, hw, Option.map_some, hq] at hstage
    cases hstage
    rw [Sys.inFlightAt_setStage]
    have hsome : (s.workers name).isSome = true := by rw [hw]; rfl
    have dispatched : ∀ {r : Effect.Reply (.dispatch e.id e.fields)},
        s.perform cfg (.worker name) c (.dispatch e.id e.fields) = some (r, s₁) →
        s₁.inFlightAt name = e.id :: (s.inFlightAt name).erase e.id := by
      intro r hperf
      obtain rfl : s.startTask name e.id e.fields = s₁ := congrArg Prod.snd (Option.some.inj hperf)
      simp [Sys.inFlightAt, Sys.startTask, Sys.modifyWorker, hw]
    cases p with
    | dispatchClaimed e' rest =>
      cases hd
      cases hnode
      exact dispatched hperf
    | dispatchNew e' rest total =>
      cases hd
      cases hnode
      exact dispatched hperf
    | _ => cases hd

theorem not_live_of_release {c : Choice} {t id : Nat} {other : ConsumerName} {m : JobMessage}
    {outcome : Except Exn Unit} (h : step cfg s (.resume (.task t) c) = some s')
    (htask : s.tasks t = some ⟨other, id, .handling m (.release outcome)⟩) (id' : Nat) :
    ¬ LiveOn s' name t id' := by
  rintro ⟨m', p', htask', hne⟩
  cases Sys.step_cases h with
  | task t c other' id'' m'' p w q e k r s₁ hold hw hstage hnode hperf =>
    cases htask.symm.trans hold
    cases hnode
    rw [Sys.setTask_tasks, Function.update_self] at htask'
    cases htask'
    exact hne outcome rfl

theorem OneTaskPerEntry.step_inFlight (hs : OneTaskPerEntry name s) (h : step cfg s a = some s')
    (t id : Nat) (hlive : LiveOn s' name t id) : id ∈ s'.inFlightAt name := by
  rcases live_of_step h hlive with hold | ⟨c, p, e, rfl, hstage, hd, rfl, rfl⟩
  · have hmem := hs.inFlight t id hold
    rcases InferenceEngine.step_inFlight h name with hr | ⟨c, p, e, _, _, _, hr⟩ |
      ⟨u, c, id', m, outcome, rfl, htask, hr⟩
    · rwa [hr]
    · rw [hr]
      by_cases hid : id = e.id
      · exact hid ▸ List.mem_cons_self
      · exact List.mem_cons_of_mem _ ((List.mem_erase_of_ne hid).mpr hmem)
    · rw [hr]
      refine List.mem_filter.mpr ⟨hmem, decide_eq_true ?_⟩
      rintro rfl
      have hu : LiveOn s name u id := ⟨m, _, htask, fun _ h => by cases h⟩
      obtain rfl := hs.unique t u id hold hu
      exact not_live_of_release h htask id hlive
  · rw [inFlight_of_dispatch h hstage hd]
    exact List.mem_cons_self

theorem OneTaskPerEntry.step_unique (hs : OneTaskPerEntry name s) (h : step cfg s a = some s')
    (t u id : Nat) (ht : LiveOn s' name t id) (hu : LiveOn s' name u id) : t = u := by
  rcases live_of_step h ht with hold | ⟨c, p, e, _, hstage, hd, rfl, rfl⟩
  · rcases live_of_step h hu with hold' | ⟨c, p, e, _, hstage, hd, rfl, rfl⟩
    · exact hs.unique t u id hold hold'
    · exact absurd hold ((hs.startable hstage hd).idle t)
  · rcases live_of_step h hu with hold' | ⟨_, _, _, _, _, _, _, rfl⟩
    · exact absurd hold' ((hs.startable hstage hd).idle u)
    · rfl

theorem OneTaskPerEntry.step_acked (hreg : Regular cfg s) (hs : OneTaskPerEntry name s)
    (h : step cfg s a = some s') (t id : Nat) (hmem : .acked (.task t) id ∈ s'.log) :
    s'.redis.isPending id = false ∧ ∃ τ, s'.tasks t = some τ ∧ τ.entry = id := by
  rcases InferenceEngine.step_acked h hmem with hold | ⟨c, other, m, p, _, htask, _, hpend⟩
  · obtain ⟨hpend, τ, htask, rfl⟩ := hs.acked t id hold
    obtain ⟨τ', htask', _, he⟩ := task_kept_of_step hreg.coherent h htask
    exact ⟨not_pending_of_step h (hreg.passed.tasks t τ htask) hpend, τ', htask', he⟩
  · obtain ⟨τ', htask', _, he⟩ := task_kept_of_step hreg.coherent h htask
    exact ⟨hpend, τ', htask', he⟩

theorem OneTaskPerEntry.step_ackedLast (hcoh : Coherent s) (hs : OneTaskPerEntry name s)
    (h : step cfg s a = some s') (t : Nat) (τ : Task) (u : Nat) (htask : s'.tasks t = some τ)
    (hname : τ.consumer = name) (hmem : .acked (.task t) τ.entry ∈ s'.log)
    (hlive : LiveOn s' name u τ.entry) : u = t := by
  rcases InferenceEngine.step_acked h hmem with hold | ⟨c, other, m, p, rfl, hτ, hack, _⟩
  · obtain ⟨_, τ₀, hτ₀, he₀⟩ := hs.acked t _ hold
    obtain ⟨τ', htask', hc, he⟩ := task_kept_of_step hcoh h hτ₀
    obtain rfl : τ' = τ := Option.some.inj (htask'.symm.trans htask)
    have hname₀ : τ₀.consumer = name := hc.symm.trans hname
    rcases live_of_step h hlive with hlive | ⟨c, p, e, _, hstage, hd, hid, _⟩
    · rw [← he₀] at hold hlive
      exact hs.ackedLast t τ₀ u hτ₀ hname₀ hold hlive
    · have hun := (hs.startable hstage hd).unacked
      exact absurd ⟨t, τ₀, hτ₀, hname₀, hid ▸ hold⟩ hun
  · rcases live_of_step h hlive with hlive | ⟨c', _, _, ha, _⟩
    · obtain ⟨τ', htask', hc, _⟩ := task_kept_of_step hcoh h hτ
      obtain rfl : τ' = τ := Option.some.inj (htask'.symm.trans htask)
      obtain rfl : other = name := hc.symm.trans hname
      have ht : LiveOn s other t τ'.entry := by
        refine ⟨m, p, hτ, ?_⟩
        rintro outcome rfl
        cases hack
      exact hs.unique u t _ hlive ht
    · cases ha

theorem PassReady.of_step (hs : OneTaskPerEntry name s) (h : step cfg s a = some s')
    (ha : ∀ c, a ≠ .resume (.worker name) c) {p : PassPoint} (hp : PassReady s name p) :
    PassReady s' name p := by
  have live : ∀ t id, LiveOn s' name t id → LiveOn s name t id := by
    intro t id hlive
    rcases live_of_step h hlive with hold | ⟨c, _, _, hc, _⟩
    · exact hold
    · exact absurd hc (ha c)
  have startable : ∀ id, Startable s name id → Startable s' name id := by
    intro id hstart
    refine ⟨fun t hlive => hstart.idle t (live t id hlive), ?_⟩
    rintro ⟨t, τ', htask', hname, hmem⟩
    rcases step_acked h hmem with hold | ⟨c, other, m, p, rfl, htask, hack, _⟩
    · rcases task_of_step h htask' with ⟨τ, htask, hc, _⟩ | ⟨c, _, _, hc, _⟩
      · exact hstart.unacked ⟨t, τ, htask, hc.trans hname, hold⟩
      · exact absurd (hname ▸ hc) (ha c)
    · rcases task_of_step h htask' with ⟨τ, hτ, hc, _⟩ | ⟨_, _, _, hc, _⟩
      · cases htask.symm.trans hτ
        obtain rfl : other = name := hc.trans hname
        refine hstart.idle t ⟨m, p, htask, ?_⟩
        rintro outcome rfl
        cases hack
      · cases hc
  cases p with
  | query e rest | dispatchClaimed e rest => exact startable e.id hp
  | dispatchNew e rest total =>
    refine ⟨hp.1, fun x hx t τ' htask' hname => ?_⟩
    rcases task_of_step h htask' with ⟨τ, htask, hc, he⟩ | ⟨c, _, _, hc, _⟩
    · exact he ▸ hp.2 x hx t τ htask (hc.trans hname)
    · exact absurd (hname ▸ hc) (ha c)
  | _ => trivial

theorem PassReady.nextClaimed (es : List StreamEntry) : PassReady s name (.nextClaimed es) := by
  cases es <;> trivial

theorem Startable.congr {id : Nat} (htasks : s'.tasks = s.tasks) (hlog : s'.log = s.log)
    (hs : Startable s name id) : Startable s' name id where
  idle := by
    rintro t ⟨m, p, htask, hne⟩
    exact hs.idle t ⟨m, p, htasks ▸ htask, hne⟩
  unacked := by
    rintro ⟨t, τ, htask, hname, hmem⟩
    exact hs.unacked ⟨t, τ, htasks ▸ htask, hname, hlog ▸ hmem⟩

theorem PassReady.next {c : Choice} {p : PassPoint} {e : Effect} {k : e.Reply → PassPoint}
    {r : e.Reply} {s₁ : Sys} (hreg : Regular cfg s)
    (hs : OneTaskPerEntry name s) (hcond : FreshClaims name s (.resume (.worker name) c))
    (hstage : s.stageOf name = some (.looping p)) (hnode : p.node cfg.toBrokerSettings = .await e k)
    (hperf : s.perform cfg (.worker name) c e = some (r, s₁)) (htasks : s'.tasks = s₁.tasks)
    (hlog : s'.log = s₁.log) : PassReady s' name (k r) := by
  have hp := hs.pass p hstage
  cases p with
  | reclaimCapacity | readCapacity =>
    cases hnode
    change Int at r
    by_cases hn : r ≤ 0
    · simp only [hn, if_true]
      trivial
    · simp only [hn, if_false]
      trivial
  | autoclaim n =>
    cases hnode
    rcases r with x | es
    · trivial
    · exact .nextClaimed es
  | check x rest =>
    cases hnode
    obtain ⟨rfl, hin⟩ := Sys.perform_inFlight hperf
    change Bool at r
    cases r
    · have hnot : x.id ∉ s₁.inFlightAt name := of_decide_eq_false hin.symm
      have hpend := hcond rfl x rest hstage hnot
      refine Startable.congr htasks hlog ⟨fun t hlive => hnot (hs.inFlight t _ hlive), ?_⟩
      rintro ⟨t, τ, _, _, hmem⟩
      cases (hs.acked t _ hmem).1.symm.trans hpend
    · exact .nextClaimed rest
  | query x rest =>
    cases hnode
    have hsame : s₁ = s := by
      have hchange := Sys.perform_change hperf
      cases hchange
      rfl
    subst hsame
    rcases r with y | pending
    · trivial
    · simp only [PassPoint.afterQuery]
      split
      · cases JobMessage.fromFields x.fields <;> trivial
      · exact Startable.congr htasks hlog hp
  | dispatchClaimed x rest =>
    cases hnode
    exact .nextClaimed rest
  | poison x m n rest =>
    cases hnode
    rcases r with y | _
    · cases y <;> trivial
    · trivial
  | poisonAck x rest =>
    cases hnode
    rcases r with y | _
    · trivial
    · exact .nextClaimed rest
  | read n =>
    cases hnode
    rcases r with y | es
    · trivial
    · obtain ⟨other, g, hg, rfl, rfl⟩ := Sys.perform_xreadgroup hperf
      have hpair : ((g.unread s.redis.work).take n.toNat).Pairwise fun a b => a.id < b.id :=
        (hreg.retained.window.sorted.sublist List.filter_sublist).sublist (List.take_sublist _ _)
      have hnodup : (((g.unread s.redis.work).take n.toNat).map (·.id)).Nodup :=
        List.pairwise_map.mpr (hpair.imp fun hlt => Nat.ne_of_lt hlt)
      have hnew : ∀ x ∈ (g.unread s.redis.work).take n.toNat, ∀ t τ, s'.tasks t = some τ →
          τ.consumer = name → τ.entry ≠ x.id := by
        intro x hx t τ htask _ hid
        have hpassed := hreg.passed.tasks t τ (htasks ▸ htask)
        have hlt := Group.lt_of_mem_unread hx
        simp only [Redis.passed, hg, Option.any_some, decide_eq_true_eq] at hpassed
        omega
      simp only [PassPoint.afterRead]
      cases hes : (g.unread s.redis.work).take n.toNat with
      | nil => trivial
      | cons x rest =>
        rw [hes] at hnodup hnew
        exact ⟨hnodup, hnew⟩
  | dispatchNew x rest total =>
    cases hnode
    obtain ⟨hnodup, hnone⟩ := hp
    obtain rfl : s.startTask name x.id x.fields = s₁ := congrArg Prod.snd (Option.some.inj hperf)
    obtain ⟨hx, hnodup⟩ := List.nodup_cons.mp hnodup
    cases rest with
    | nil => trivial
    | cons y rest =>
      refine ⟨hnodup, fun z hz t τ htask hname => ?_⟩
      rw [htasks, Sys.startTask_tasks] at htask
      by_cases ht : t = s.nextTask
      · subst ht
        rw [Function.update_self] at htask
        cases htask
        intro hid
        exact hx (List.mem_map.mpr ⟨z, hz, hid.symm⟩)
      · rw [Function.update_of_ne ht] at htask
        exact hnone z (List.mem_cons_of_mem _ hz) t τ htask hname
  | finished outcome => cases hnode

theorem OneTaskPerEntry.step_pass (hreg : Regular cfg s) (hs : OneTaskPerEntry name s)
    (hcond : FreshClaims name s a) (h : step cfg s a = some s')
    (p : PassPoint) (hstage : s'.stageOf name = some (.looping p)) : PassReady s' name p := by
  by_cases ha : ∀ c, a ≠ .resume (.worker name) c
  · rcases step_stage h name with hsame | ⟨_, _, hnew⟩ | ⟨_, _, hnew⟩ |
      ⟨c, _, _, _, _, _, hc, _⟩ | ⟨c, _, _, _, _, _, hc, _⟩ | ⟨_, hnew⟩
    · exact (hs.pass p (hsame ▸ hstage)).of_step hs h ha
    · cases hnew.symm.trans hstage
    · cases hnew.symm.trans hstage
      trivial
    · exact absurd hc (ha c)
    · exact absurd hc (ha c)
    · cases hnew.symm.trans hstage
  · simp only [ne_eq, not_forall, not_not] at ha
    obtain ⟨c, rfl⟩ := ha
    have hstepped := Sys.step_cases h
    cases hstepped with
    | starting other c w q e k r s₁ hw hq hnode hperf =>
      have hs₁ := (Sys.perform_change hperf).stage name
      rw [Sys.stageOf_setStage, if_pos rfl] at hstage
      obtain ⟨w', _, hw'⟩ := Option.map_eq_some_iff.mp hstage
      cases hw'
    | looping other c w q e k r s₁ hw hq hnode hperf =>
      rw [Sys.stageOf_setStage, if_pos rfl] at hstage
      obtain ⟨w', _, hw'⟩ := Option.map_eq_some_iff.mp hstage
      cases hw'
      have hold : s.stageOf name = some (.looping q) := by
        rw [Sys.stageOf, hw, Option.map_some, hq]
      exact PassReady.next hreg hs hcond hold hnode hperf rfl rfl

theorem OneTaskPerEntry.step (hreg : Regular cfg s) (hs : OneTaskPerEntry name s)
    (hcond : FreshClaims name s a) (h : step cfg s a = some s') : OneTaskPerEntry name s' where
  inFlight := hs.step_inFlight h
  unique := hs.step_unique h
  acked := hs.step_acked hreg h
  ackedLast := hs.step_ackedLast hreg.coherent h
  pass := hs.step_pass hreg hcond h

/-- Once a task of the consumer has acknowledged an entry, it starts no other for it. -/
def NeverRestarted (name : ConsumerName) (s s' : Sys) : Prop :=
  ∀ id, OwnAcked s name id → ∀ t τ, s.tasks t = none → s'.tasks t = some τ →
    τ.consumer = name → τ.entry ≠ id

/-- Once a task has published the next attempt, no other task handles its entry. -/
def OldAttemptsOver (s : Sys) : Prop :=
  ∀ t u τ τ' e, s.tasks t = some τ → s.tasks u = some τ' → τ'.entry = τ.entry → u ≠ t →
    .appended (some (.task t)) e ∈ s.log → τ'.body.isDone = true

def RetryCallsSucceed (s : Sys) : Act → Prop
  | .resume (.task t) c => ∀ name id m p, s.tasks t = some ⟨name, id, .handling m p⟩ →
    p = .republish ∨ p = .retryAck → c.fate = .ok
  | _ => True

def OnlyConsumer (name : ConsumerName) : Act → Prop
  | .start other => other = name
  | _ => True

/-- A task that has published the next attempt has acknowledged its entry or does so next. -/
def RetriesAcked (s : Sys) : Prop :=
  ∀ t τ e, s.tasks t = some τ → .appended (some (.task t)) e ∈ s.log →
    (∃ m, τ.body = .handling m .retryAck) ∨ .acked (.task t) τ.entry ∈ s.log

/-- All workers and tasks are those of one consumer. -/
structure SoleConsumer (name : ConsumerName) (s : Sys) : Prop where
  workers : ∀ other, s.stageOf other ≠ none → other = name
  tasks : ∀ t τ, s.tasks t = some τ → τ.consumer = name

theorem SoleConsumer.step (hs : SoleConsumer name s) (hcond : OnlyConsumer name a)
    (h : step cfg s a = some s') : SoleConsumer name s' where
  workers := by
    intro other hne
    rcases step_stage h other with hsame | ⟨rfl, _, _⟩ | ⟨_, hold, _⟩ |
      ⟨_, _, _, _, _, _, _, hold, _⟩ | ⟨_, _, _, _, _, _, _, hold, _⟩ | ⟨rfl, _⟩
    · exact hs.workers other (hsame ▸ hne)
    · exact hcond
    · refine hs.workers other ?_
      rcases hold with hold | ⟨_, hold⟩ <;> simp [hold]
    · exact hs.workers other (by simp [hold])
    · exact hs.workers other (by simp [hold])
    · cases Sys.step_cases h with
      | crash _ w hw => exact hs.workers other (by simp [Sys.stageOf, hw])
  tasks := by
    intro t τ htask
    rcases task_of_step h htask with ⟨τ₀, hτ₀, hc, _⟩ | ⟨_, _, _, _, hstage, _⟩
    · exact hc ▸ hs.tasks t τ₀ hτ₀
    · exact hs.workers _ (by simp [hstage])

theorem RetriesAcked.step (hcoh : Coherent s) (hs : RetriesAcked s) (hcond : RetryCallsSucceed s a)
    (h : step cfg s a = some s') : RetriesAcked s' := by
  intro t τ' e htask' hmem
  by_cases hnot : a.NotBy t
  · obtain ⟨es, hlog, hes⟩ := log_of_notBy hnot h
    have hold : .appended (some (.task t)) e ∈ s.log := by
      rcases List.mem_append.mp (hlog ▸ hmem) with hmem | hmem
      · exact hmem
      · exact absurd rfl (hes _ hmem)
    cases htask : s.tasks t with
    | none => exact absurd rfl (hcoh.logged t htask _ hold)
    | some τ =>
      cases (task_of_notBy hcoh hnot h htask).symm.trans htask'
      exact (hs t τ' e htask hold).imp_right (log_mem_of_step h)
  · simp only [Act.NotBy, ne_eq, not_forall, not_not] at hnot
    obtain ⟨c, rfl⟩ := hnot
    have hstepped := Sys.step_cases h
    cases hstepped with
    | task t c other' id' m' p w q eff k r s₁ htask hw hstage hnode hperf =>
      rw [Sys.setTask_tasks, Function.update_self] at htask'
      cases htask'
      have hfate := hcond _ _ _ _ htask
      rcases (Sys.perform_change hperf).stream with ⟨_, es, hlog, hes⟩ | ⟨fields, rfl, _, _⟩
      · have hold : .appended (some (.task t)) e ∈ s.log := by
          rcases List.mem_append.mp (hlog ▸ hmem) with hmem | hmem
          · exact hmem
          · exact absurd hmem (hes _ _)
        rcases hs t _ e htask hold with ⟨m₀, hbody⟩ | hacked
        · cases hbody
          cases hnode
          obtain ⟨_, rfl⟩ := Sys.perform_xack_ok (hfate (.inr rfl)) hperf
          exact .inr (List.mem_append_right _ (List.mem_singleton_self _))
        · exact .inr (log_mem_of_step h hacked)
      · left
        cases p with
        | republish =>
          cases hnode
          obtain ⟨rfl, _⟩ := Sys.perform_xaddWork_ok (hfate (.inl rfl)) hperf
          exact ⟨m', rfl⟩
        | _ => cases hnode

structure FreshRun (cfg : Settings) (name : ConsumerName) (s : Sys) : Prop where
  regular : Regular cfg s
  entries : OneTaskPerEntry name s

theorem FreshRun.step (hs : FreshRun cfg name s) (hcond : FreshClaims name s a)
    (h : step cfg s a = some s') : FreshRun cfg name s' :=
  ⟨hs.regular.step h, hs.entries.step hs.regular hcond h⟩

theorem FreshRun.exec {acts : List Act} (hs : FreshRun cfg name s)
    (hfresh : Runs.Along (InferenceEngine.step cfg) (FreshClaims name) s acts)
    (h : Runs.exec (InferenceEngine.step cfg) s acts = some s') : FreshRun cfg name s' :=
  Runs.invariant (fun _ _ _ hs hcond h => hs.step hcond h) hs hfresh h

theorem neverRestarted_of_exec {acts : List Act} (hs : FreshRun cfg name s)
    (hfresh : Runs.Along (step cfg) (FreshClaims name) s acts)
    (h : Runs.exec (step cfg) s acts = some s') : NeverRestarted name s s' := by
  intro id hacked
  refine (Runs.invariant (P := FreshClaims name)
    (I := fun u => FreshRun cfg name u ∧ OwnAcked u name id ∧
      ∀ t τ, s.tasks t = none → u.tasks t = some τ → τ.consumer = name → τ.entry ≠ id) ?_
    ⟨hs, hacked, fun t τ hnew htask => by cases hnew.symm.trans htask⟩ hfresh h).2.2
  rintro u a u' ⟨hu, ⟨v, τv, hv, hname, hmem⟩, hnew⟩ hcond h
  have hacked' : OwnAcked u' name id := by
    obtain ⟨τ', hτ', hc, _⟩ := task_kept_of_step hu.regular.coherent h hv
    exact ⟨v, τ', hτ', hc.trans hname, log_mem_of_step h hmem⟩
  refine ⟨hu.step hcond h, hacked', ?_⟩
  intro t τ ht htask hc
  rcases task_of_step h htask with ⟨τ₀, hτ₀, hc₀, he₀⟩ | ⟨_, p, e, _, hstage, hd, he, _⟩
  · exact he₀ ▸ hnew t τ₀ ht hτ₀ (hc₀.trans hc)
  · have hun := (hu.entries.startable (hc ▸ hstage) hd).unacked
    intro hid
    exact hun (he.trans hid ▸ ⟨v, τv, hv, hname, hmem⟩)

theorem oldAttemptsOver_of_oneTaskPerEntry (hs : OneTaskPerEntry name s) (hsole : SoleConsumer name s)
    (hretry : RetriesAcked s) : OldAttemptsOver s := by
  rintro t u ⟨ct, id, bt⟩ ⟨cu, id', bu⟩ e ht hu hid hne hmem
  obtain rfl : id' = id := hid
  obtain rfl : ct = name := hsole.tasks t _ ht
  obtain rfl : cu = ct := hsole.tasks u _ hu
  by_contra hlive
  have hu' : LiveOn s cu u id' := by
    cases bu with
    | undecodable x => exact absurd rfl hlive
    | handling m p =>
      refine ⟨m, p, hu, ?_⟩
      rintro outcome rfl
      exact hlive rfl
  rcases hretry t _ e ht hmem with ⟨m, hbody⟩ | hacked
  · cases hbody
    exact hne (hs.unique u t _ hu' ⟨m, _, ht, fun _ h => by cases h⟩)
  · exact hne (hs.ackedLast t _ u ht rfl hacked hu')

/-- While no pass meets a stale claim, a consumer never restarts an entry that it has
acknowledged, and on its own it never handles an old attempt after the next one was published. -/
theorem neverRestarted_of_freshClaims {acts later : List Act} (hs : Reaches cfg acts s)
    (h : Runs.exec (step cfg) s later = some s')
    (hfresh : Runs.Along (step cfg) (FreshClaims name) Sys.init (acts ++ later)) :
    NeverRestarted name s s' ∧
      (Runs.Along (step cfg) (fun s a => OnlyConsumer name a ∧ RetryCallsSucceed s a) Sys.init
        (acts ++ later) → OldAttemptsOver s') := by
  have hmid : FreshRun cfg name s := FreshRun.exec ⟨.init, .init⟩ hfresh.append_left hs
  have hlater := hfresh.append_right hs
  refine ⟨neverRestarted_of_exec hmid hlater h, fun hcond => ?_⟩
  have hend := (hmid.exec hlater h).entries
  have hsole : SoleConsumer name Sys.init :=
    ⟨fun _ hne => absurd rfl hne, fun t τ htask => by cases htask⟩
  have hretries : RetriesAcked Sys.init := fun t τ e htask => by cases htask
  have hfinal := Runs.invariant (I := fun s => Coherent s ∧ SoleConsumer name s ∧ RetriesAcked s)
    (fun s a s' ⟨hcoh, hsole, hretries⟩ ⟨honly, hcalls⟩ h =>
      ⟨hcoh.step h, hsole.step honly h, hretries.step hcoh hcalls h⟩)
    ⟨.init, hsole, hretries⟩ hcond (Runs.exec_append_iff.mpr ⟨s, hs, h⟩)
  exact oldAttemptsOver_of_oneTaskPerEntry hend hfinal.2.1 hfinal.2.2

end

/-- A worker reads the only entry of a job, and its pipeline raises `TransientUpstreamError`;
its reclaim pass claims the entry before the handler publishes the next attempt. -/
def claimedBeforeRetry : List Act :=
  boot 0 ++ submitted 7 ++ readPass 0 1 ++ steps (.task 0) 3 ++
    .resume (.task 0) { outcome := .error (.transient []) } :: .pass 0 :: steps (.worker 0) 1 ++
    [.resume (.worker 0) { claimed := [1] }]

/-- The handler publishes the next attempt, acknowledges its entry and ends. -/
def retried : List Act := steps (.task 0) 5

def passResumes (n : Nat) : List Act := steps (.worker 0) (3 + n)

def freshClaims (s : Sys) (a : Act) : Bool :=
  match a with
  | .resume (.worker name) c =>
    decide (c.fate = .ok) &&
      match s.stageOf name with
      | some (.looping (.check e _)) =>
        decide (e.id ∈ s.inFlightAt name) || s.redis.isPending e.id
      | _ => true
  | .resume _ c => decide (c.fate = .ok)
  | .start name => decide (name = 0)
  | _ => true

theorem freshClaims_sound {name : ConsumerName} (s : Sys) (a : Act) (h : freshClaims s a = true) :
    FreshClaims name s a := by
  cases a with
  | resume who c =>
    cases who with
    | worker other =>
      rintro rfl e rest hstage hnot
      simp only [freshClaims, hstage, hnot, decide_false, Bool.false_or, Bool.and_eq_true] at h
      exact h.2
    | _ => trivial
  | _ => trivial

theorem oneConsumer_of_freshClaims (s : Sys) (a : Act) (h : freshClaims s a = true) :
    OnlyConsumer 0 a ∧ RetryCallsSucceed s a := by
  cases a with
  | resume who c =>
    cases who with
    | task t =>
      refine ⟨trivial, ?_⟩
      intro _ _ _ _ _ _
      exact of_decide_eq_true h
    | _ => exact ⟨trivial, trivial⟩
  | start other =>
    have hother : other = 0 := of_decide_eq_true h
    exact ⟨hother, trivial⟩
  | _ => exact ⟨trivial, trivial⟩

def Sys.ackedBy (s : Sys) (t id : Nat) : Bool :=
  s.log.any fun ev => decide (ev.actor = some (.task t) ∧ ev.ackedId = some id)

theorem Sys.ackedBy_iff {s : Sys} {t id : Nat} (h : s.ackedBy t id = true) :
    .acked (.task t) id ∈ s.log := by
  obtain ⟨ev, hmem, hev⟩ := List.any_eq_true.mp h
  obtain ⟨hactor, hid⟩ := of_decide_eq_true hev
  cases ev <;> cases hid
  cases hactor
  exact hmem

def Sys.publishedBy (s : Sys) (t : Nat) : Bool :=
  s.log.any fun ev => decide (ev.append.map Prod.fst = some (some (.task t)))

theorem Sys.publishedBy_iff {s : Sys} {t : Nat} (h : s.publishedBy t = true) :
    ∃ e, .appended (some (.task t)) e ∈ s.log := by
  obtain ⟨ev, hmem, hev⟩ := List.any_eq_true.mp h
  have hactor := of_decide_eq_true hev
  cases ev <;> cases hactor
  exact ⟨_, hmem⟩

def Sys.hasTask (s : Sys) (t : Nat) (name : ConsumerName) (id : Nat) (done : Bool) : Bool :=
  (s.tasks t).any fun τ => decide (τ.consumer = name ∧ τ.entry = id ∧ τ.body.isDone = done)

theorem Sys.hasTask_iff {s : Sys} {t : Nat} {name : ConsumerName} {id : Nat} {done : Bool}
    (h : s.hasTask t name id done = true) :
    ∃ τ, s.tasks t = some τ ∧ τ.consumer = name ∧ τ.entry = id ∧ τ.body.isDone = done := by
  obtain ⟨τ, htask, hτ⟩ := (Option.any_eq_true _ _).mp h
  exact ⟨τ, htask, of_decide_eq_true hτ⟩

theorem retried_neverRestarted : ∃ s s',
    Reaches {} (claimedBeforeRetry ++ passResumes 0 ++ retried) s ∧
    .acked (.task 0) 1 ∈ s.log ∧ Runs.exec (step {}) s (readPass 0 1) = some s' ∧
    NeverRestarted 0 s s' ∧ OldAttemptsOver s' := by
  have hcheck : Runs.check (step {}) freshClaims Sys.init
      (claimedBeforeRetry ++ passResumes 0 ++ retried ++ readPass 0 1) = true := by decide +kernel
  obtain ⟨s, hs, hview⟩ := Runs.exec_of_map (step {}) Sys.init
    (claimedBeforeRetry ++ passResumes 0 ++ retried)
    (fun s => (s.ackedBy 0 1, (Runs.exec (step {}) s (readPass 0 1)).isSome)) (true, true)
    (by decide +kernel)
  obtain ⟨hacked, hsome⟩ : _ ∧ _ := by simpa only [Prod.mk.injEq] using hview
  obtain ⟨s', hs'⟩ := Option.isSome_iff_exists.mp hsome
  obtain ⟨hnever, hold⟩ := neverRestarted_of_freshClaims hs hs'
    (.of_check freshClaims_sound hcheck)
  exact ⟨s, s', hs, Sys.ackedBy_iff hacked, hs', hnever, hold (.of_check oneConsumer_of_freshClaims hcheck)⟩

/-- The pass meets a claim that became stale: the acknowledged entry is handled again, next to
the attempt that was published for it. -/
theorem staleClaim_restarts : ∃ s s', Reaches {} (claimedBeforeRetry ++ retried) s ∧
    Runs.exec (step {}) s (passResumes 3) = some s' ∧ ¬ NeverRestarted 0 s s' ∧
    ¬ OldAttemptsOver s' := by
  obtain ⟨s, hs, hview⟩ := Runs.exec_of_map (step {}) Sys.init (claimedBeforeRetry ++ retried)
    (fun s => (s.hasTask 0 0 1 true && s.ackedBy 0 1 && (s.tasks 1).isNone,
      (Runs.exec (step {}) s (passResumes 3)).map fun s' =>
        s'.hasTask 0 0 1 true && s'.hasTask 1 0 1 false && s'.publishedBy 0))
    (true, some true) (by decide +kernel)
  obtain ⟨hbefore, hafter⟩ : _ ∧ _ := by simpa only [Prod.mk.injEq] using hview
  simp only [Bool.and_eq_true, Option.isNone_iff_eq_none] at hbefore
  obtain ⟨⟨htask, hacked⟩, hnew⟩ := hbefore
  obtain ⟨s', hs', hview'⟩ := Option.map_eq_some_iff.mp hafter
  simp only [Bool.and_eq_true] at hview'
  obtain ⟨⟨htask₀, htask₁⟩, hpublished⟩ := hview'
  obtain ⟨τ, htask, hc, _, _⟩ := Sys.hasTask_iff htask
  obtain ⟨τ₀, hτ₀, _, he₀, _⟩ := Sys.hasTask_iff htask₀
  obtain ⟨τ₁, hτ₁, hc₁, he₁, hlive⟩ := Sys.hasTask_iff htask₁
  refine ⟨s, s', hs, hs', ?_, ?_⟩
  · intro hnever
    exact hnever 1 ⟨0, τ, htask, hc, Sys.ackedBy_iff hacked⟩ 1 τ₁ hnew hτ₁ hc₁ he₁
  · intro hover
    obtain ⟨e, hmem⟩ := Sys.publishedBy_iff hpublished
    have hdone := hover 0 1 τ₀ τ₁ e hτ₀ hτ₁ (he₁.trans he₀.symm) (by decide) hmem
    cases hlive.symm.trans hdone

end InferenceEngine
