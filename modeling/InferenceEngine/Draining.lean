import InferenceEngine.Processes
import InferenceEngine.InFlight

/-!
# What a closing process leaves running

`drain` awaits the tasks that are in flight when it is called. Every unfinished task of a consumer
is among them, and nobody starts another one afterwards: when `aclose` releases the first resource
no coroutine of the process is left that could use it.
-/

namespace InferenceEngine

set_option autoImplicit false

section
variable {cfg : Settings} {s s' : Sys} {a : Act} {name : ConsumerName}

theorem takenBy_of_step (h : step cfg s a = some s') (name : ConsumerName) :
    (∃ c p e, a = .resume (.worker name) c ∧ s.stageOf name = some (.looping p) ∧
      p.dispatches = some e ∧ s'.takenBy name = s.nextTask :: s.takenBy name) ∨
    (∃ t τ, a = .reap t ∧ s.tasks t = some τ ∧ τ.body.isDone = true ∧ s'.tasks = s.tasks ∧
      s'.takenBy name = (s.takenBy name).filter (· ≠ t)) ∨
    s'.takenBy name = s.takenBy name := by
  have quiet : ∀ {who : Actor} {c : Choice} {e : Effect} {r : e.Reply} {s₁ : Sys},
      s.perform cfg who c e = some (r, s₁) → (∀ id fields, e ≠ .dispatch id fields) →
      s₁.takenBy name = s.takenBy name := by
    intro who c e r s₁ hperf hne
    exact (Sys.perform_change hperf).taken name fun id fields he => absurd he (hne id fields)
  cases Sys.step_cases h with
  | submission id c job p e k r s₁ hsub hnode hperf =>
    right; right
    apply quiet hperf
    intro id fields he
    subst he
    cases p <;> cases hnode
  | starting other c w p e k r s₁ hw hstage hnode hperf =>
    right; right
    rw [Sys.takenBy_setStage]
    apply quiet hperf
    intro id fields he
    subst he
    cases p <;> cases hnode
  | task t c other id m p w q e k r s₁ htask hw hstage hnode hperf =>
    right; right
    apply quiet hperf
    intro id fields he
    subst he
    cases p <;> cases hnode
  | looping other c w p e k r s₁ hw hstage hnode hperf =>
    rw [Sys.takenBy_setStage]
    have hlooping : s.stageOf other = some (.looping p) := by
      rw [Sys.stageOf, hw, Option.map_some, hstage]
    by_cases hd : ∃ x, p.dispatches = some x ∧ other = name
    · obtain ⟨x, hd, rfl⟩ := hd
      refine .inl ⟨c, p, x, rfl, hlooping, hd, ?_⟩
      cases p with
      | dispatchClaimed x rest | dispatchNew x rest total =>
        cases hnode
        cases hperf
        exact Sys.takenBy_startTask hw _ _
      | _ => cases hd
    · right; right
      apply (Sys.perform_change hperf).taken name
      intro id fields he hc
      subst he
      apply hd
      have hother : other = name := Option.some.inj hc
      cases p with
      | dispatchClaimed x rest => exact ⟨x, rfl, hother⟩
      | dispatchNew x rest total => exact ⟨x, rfl, hother⟩
      | _ => cases hnode
  | start other hfresh =>
    right; right
    by_cases hn : name = other
    · subst hn
      simp [Sys.takenBy, hfresh]
    · simp [Sys.takenBy, Function.update_of_ne hn]
  | pass other w hw hstage => exact .inr (.inr (s.takenBy_setStage other _))
  | crash other w hw => exact .inr (.inr (s.takenBy_setStage other _))
  | reap t τ htask hdone =>
    right
    by_cases hn : name = τ.consumer
    · subst hn
      refine .inl ⟨t, τ, rfl, htask, hdone, rfl, ?_⟩
      cases hw : s.workers τ.consumer with
      | none => simp [Sys.takenBy, hw]
      | some w => simp [Sys.takenBy, hw]
    · right
      simp [Sys.takenBy, Function.update_of_ne hn]
  | _ => exact .inr (.inr rfl)

theorem takenBy_of_dispatch {c : Choice} {p : PassPoint} {x : StreamEntry}
    (h : step cfg s (.resume (.worker name) c) = some s')
    (hstage : s.stageOf name = some (.looping p)) (hd : p.dispatches = some x) :
    s'.takenBy name = s.nextTask :: s.takenBy name := by
  obtain ⟨e, k, r, s₁, hnode, hperf, rfl, _⟩ := pass_of_step hstage h
  obtain ⟨w, hw, _⟩ := Option.map_eq_some_iff.mp hstage
  rw [Sys.takenBy_setStage]
  cases p with
  | dispatchClaimed y rest | dispatchNew y rest total =>
    cases hnode
    cases hperf
    exact Sys.takenBy_startTask hw _ _
  | _ => cases hd

theorem done_of_step (hcoh : Coherent s) (h : step cfg s a = some s') {t : Nat} {τ : Task}
    (htask : s.tasks t = some τ) (hdone : τ.body.isDone = true) : s'.tasks t = some τ := by
  apply task_of_notBy hcoh ?_ h htask
  rintro c rfl
  cases Sys.step_cases h with
  | task t c other id m p w q e k r s₁ hold hw hstage hnode hperf =>
    cases htask.symm.trans hold
    cases p <;> cases hdone
    cases hnode

/-- The worker has entered its loop. -/
def Sys.hasBegun (s : Sys) (name : ConsumerName) : Bool :=
  match s.stageOf name with
  | some (.looping _) | some .down => true
  | _ => false

theorem Sys.hasBegun_of_looping {p : PassPoint} (h : s.stageOf name = some (.looping p)) :
    s.hasBegun name = true := by
  rw [hasBegun, h]

theorem hasBegun_of_step (h : step cfg s a = some s') (hb : s.hasBegun name = true) :
    s'.hasBegun name = true := by
  rcases step_stage h name with hr | ⟨_, hnone, _⟩ | ⟨_, _, hr⟩ | ⟨_, p, _, _, _, _, _, hp, _⟩ |
    ⟨_, _, _, _, _, _, _, _, _, _, _, hr⟩ | ⟨_, hr⟩
  · rwa [Sys.hasBegun, hr]
  · rw [Sys.hasBegun, hnone] at hb
    cases hb
  · exact Sys.hasBegun_of_looping hr
  · rw [Sys.hasBegun, hp] at hb
    cases hb
  · exact Sys.hasBegun_of_looping hr
  · rw [Sys.hasBegun, hr]

/-- What is registered is a task, unfinished tasks are registered, and a worker has tasks only once
it has entered its loop. -/
structure Manned (s : Sys) : Prop where
  real : ∀ name t, t ∈ s.takenBy name → ∃ τ, s.tasks t = some τ ∧ τ.consumer = name
  listed : ∀ t τ, s.tasks t = some τ → τ.body.isDone = false → t ∈ s.takenBy τ.consumer
  staffed : ∀ t τ, s.tasks t = some τ → s.hasBegun τ.consumer = true

theorem Manned.init : Manned Sys.init where
  real := by
    intro name t ht
    cases ht
  listed := by
    intro t τ htask
    cases htask
  staffed := by
    intro t τ htask
    cases htask

theorem Manned.step_listed (hcoh : Coherent s) (hs : Manned s) (h : step cfg s a = some s')
    (t : Nat) (τ' : Task) (htask' : s'.tasks t = some τ') (hdone : τ'.body.isDone = false) :
    t ∈ s'.takenBy τ'.consumer := by
  rcases task_of_step h htask' with ⟨τ, htask, hc, _⟩ | ⟨c, p, e, ha, hp, hd, _, rfl⟩
  · have hrun : τ.body.isDone = false := by
      by_contra hne
      have hkept := done_of_step hcoh h htask (Bool.eq_true_of_not_eq_false hne)
      cases hkept.symm.trans htask'
      exact hne hdone
    have hmem : t ∈ s.takenBy τ'.consumer := hc ▸ hs.listed t τ htask hrun
    rcases takenBy_of_step h τ'.consumer with ⟨_, _, _, _, _, _, hr⟩ |
      ⟨u, υ, _, hu, hdone', _, hr⟩ | hr
    · rw [hr]
      exact List.mem_cons_of_mem _ hmem
    · rw [hr]
      apply List.mem_filter.mpr
      refine ⟨hmem, decide_eq_true ?_⟩
      rintro rfl
      cases hu.symm.trans htask
      cases hdone'.symm.trans hrun
    · rwa [hr]
  · subst ha
    rw [takenBy_of_dispatch h hp hd]
    exact List.mem_cons_self

theorem Manned.step_real (hcoh : Coherent s) (hs : Manned s) (h : step cfg s a = some s') (t : Nat)
    (ht : t ∈ s'.takenBy name) : ∃ τ, s'.tasks t = some τ ∧ τ.consumer = name := by
  have kept : t ∈ s.takenBy name → ∃ τ, s'.tasks t = some τ ∧ τ.consumer = name := by
    intro hold
    obtain ⟨τ, htask, hc⟩ := hs.real name t hold
    obtain ⟨τ', htask', hc', _⟩ := task_kept_of_step hcoh h htask
    exact ⟨τ', htask', hc'.trans hc⟩
  rcases takenBy_of_step h name with ⟨c, p, e, rfl, hp, hd, hr⟩ | ⟨u, _, _, _, _, _, hr⟩ | hr
  · rw [hr] at ht
    rcases List.mem_cons.mp ht with rfl | hold
    · exact ⟨_, task_of_dispatch h hp hd, rfl⟩
    · exact kept hold
  · rw [hr] at ht
    exact kept (List.mem_of_mem_filter ht)
  · exact kept (hr ▸ ht)

theorem Manned.step (hcoh : Coherent s) (hs : Manned s) (h : step cfg s a = some s') :
    Manned s' := by
  refine ⟨fun name => hs.step_real hcoh h, hs.step_listed hcoh h,
    fun t τ' htask' => hasBegun_of_step h ?_⟩
  rcases task_of_step h htask' with ⟨τ, htask, hc, _⟩ | ⟨c, p, e, _, hp, _⟩
  · exact hc ▸ hs.staffed t τ htask
  · exact Sys.hasBegun_of_looping hp

/-- Every task of the consumer has ended. -/
def Quiet (name : ConsumerName) (s : Sys) : Prop :=
  ∀ t τ, s.tasks t = some τ → τ.consumer = name → τ.body.isDone = true

theorem task_of_others (h : step cfg s a = some s') (ha : a.main ≠ some name) {t : Nat}
    {τ' : Task} (htask' : s'.tasks t = some τ') (hc : τ'.consumer = name) :
    ∃ τ, s.tasks t = some τ ∧ τ.consumer = name := by
  rcases task_of_step h htask' with ⟨τ, htask, hτ, _⟩ | ⟨c, p, e, hact, _⟩
  · exact ⟨τ, htask, hτ.trans hc⟩
  · subst hact hc
    exact absurd rfl ha

theorem unfinished_of_others (hcoh : Coherent s) (h : step cfg s a = some s')
    (ha : a.main ≠ some name) {t : Nat} {τ' : Task} (htask' : s'.tasks t = some τ')
    (hc : τ'.consumer = name) (hrun : τ'.body.isDone = false) :
    ∃ τ, s.tasks t = some τ ∧ τ.consumer = name ∧ τ.body.isDone = false := by
  obtain ⟨τ, htask, hτ⟩ := task_of_others h ha htask' hc
  refine ⟨τ, htask, hτ, ?_⟩
  by_contra hne
  have hkept := done_of_step hcoh h htask (Bool.eq_true_of_not_eq_false hne)
  cases hkept.symm.trans htask'
  exact hne hrun

theorem Quiet.of_others (hcoh : Coherent s) (hs : Quiet name s) (h : step cfg s a = some s')
    (ha : a.main ≠ some name) : Quiet name s' := by
  intro t τ' htask' hc
  by_contra hne
  obtain ⟨τ, htask, hτ, hrun⟩ :=
    unfinished_of_others hcoh h ha htask' hc (Bool.eq_false_iff.mpr hne)
  cases (hs t τ htask hτ).symm.trans hrun

theorem stageOf_of_others (h : step cfg s a = some s') (ha : a.main ≠ some name) :
    s'.stageOf name = s.stageOf name := by
  rcases step_stage h name with hr | ⟨rfl, _⟩ | ⟨rfl, _⟩ | ⟨_, _, _, _, _, _, rfl, _⟩ |
    ⟨_, _, _, _, _, _, rfl, _⟩ | ⟨rfl, _⟩
  · exact hr
  all_goals exact absurd rfl ha

end

/-! ### The point of a process and the stage of its worker -/

/-- The worker stands between two passes, or before its first one. -/
def Sys.atRest (s : Sys) (name : ConsumerName) : Bool :=
  match s.stageOf name with
  | some (.starting (.finished (.ok ()))) | some (.looping (.finished _)) => true
  | _ => false

def Sys.midPass (s : Sys) (name : ConsumerName) : Bool :=
  match s.stageOf name with
  | some (.looping (.finished _)) => false
  | some (.looping _) => true
  | _ => false

def allResources : List Resource := [.executor, .engine, .redis]

theorem acquires_createCalls (isProd : Bool) :
    (createCalls isProd).filterMap CreateCall.acquires = allResources := by
  cases isProd <;> rfl

namespace Process

/-- The container is complete and nothing of it has been released. -/
def Open (p : Process) : Prop := p.acquired = allResources ∧ p.closed = []

/-- `create` has raised at a call: what it had acquired is not released. -/
def CutShort (p : Process) : Prop :=
  p.closed = [] ∧ ∃ isProd before call left, createCalls isProd = before ++ call :: left ∧
    p.acquired = before.filterMap CreateCall.acquires

/-- The container is complete, `left` is what `aclose` still has to release, and neither a pass nor
a task runs. -/
def Closing (s : Sys) (name : ConsumerName) (left : List Resource) (p : Process) : Prop :=
  p.acquired = allResources ∧ p.closed ++ left = acloseOrder ∧ s.midPass name = false ∧
    Quiet name s

/-- Nothing is released before the container is complete and the tasks have ended. -/
def Released (s : Sys) (name : ConsumerName) (p : Process) : Prop :=
  p.closed <+: acloseOrder ∧ (p.closed ≠ [] → p.acquired = allResources ∧ Quiet name s)

/-- What the point of a process says about its container, its worker and its tasks. -/
def Agrees (s : Sys) (name : ConsumerName) (p : Process) : Prop :=
  match p.point with
  | .creating left =>
    s.stageOf name = none ∧ p.closed = [] ∧ ∃ isProd before,
      createCalls isProd = before ++ left ∧ p.acquired = before.filterMap CreateCall.acquires
  | .starting => p.Open ∧ ∃ q, s.stageOf name = some (.starting q)
  | .idle | .sleeping => p.Open ∧ s.atRest name = true
  | .passing => p.Open ∧ ∃ q, s.stageOf name = some (.looping q)
  | .draining inFlight _ =>
    p.Open ∧ s.atRest name = true ∧
      (∀ t τ, s.tasks t = some τ → τ.consumer = name → τ.body.isDone = false → t ∈ inFlight) ∧
      ∀ t ∈ inFlight, ∃ τ, s.tasks t = some τ ∧ τ.consumer = name
  | .closing left _ => p.Closing s name left
  | .exited exit => exit = .raised ∧ s.stageOf name = none ∧ p.CutShort ∨ p.Closing s name []
  | .died => (s.stageOf name = none ∨ s.stageOf name = some .down) ∧ p.Released s name

end Process

section
variable {cfg : Settings} {s s' : Sys} {a : Act} {name : ConsumerName}

theorem Sys.atRest_congr (h : s'.stageOf name = s.stageOf name) :
    s'.atRest name = s.atRest name := by
  rw [atRest, atRest, h]

theorem Sys.midPass_congr (h : s'.stageOf name = s.stageOf name) :
    s'.midPass name = s.midPass name := by
  rw [midPass, midPass, h]

theorem Sys.midPass_of_starting {q : StartPoint} (h : s.stageOf name = some (.starting q)) :
    s.midPass name = false := by
  rw [midPass, h]

theorem Sys.midPass_of_atRest (h : s.atRest name = true) : s.midPass name = false := by
  unfold atRest at h
  split at h
  · rename_i hstage
    exact midPass_of_starting hstage
  · rename_i outcome hstage
    rw [midPass, hstage]
  · cases h

theorem Manned.quiet (hs : Manned s) (h : s.hasBegun name = false) : Quiet name s := by
  intro t τ htask hc
  subst hc
  cases h.symm.trans (hs.staffed t τ htask)

theorem Sys.hasBegun_of_starting {q : StartPoint} (h : s.stageOf name = some (.starting q)) :
    s.hasBegun name = false := by
  rw [hasBegun, h]

theorem Process.Agrees.of_others {p : Process} (hcoh : Coherent s) (hs : p.Agrees s name)
    (h : step cfg s a = some s') (ha : a.main ≠ some name) : p.Agrees s' name := by
  obtain ⟨point, stop, acquired, closed⟩ := p
  have hstage := stageOf_of_others h ha
  have hrest := Sys.atRest_congr hstage
  cases point with
  | creating left => exact ⟨hstage.trans hs.1, hs.2⟩
  | starting =>
    obtain ⟨hopen, q, hq⟩ := hs
    exact ⟨hopen, q, hstage.trans hq⟩
  | passing =>
    obtain ⟨hopen, q, hq⟩ := hs
    exact ⟨hopen, q, hstage.trans hq⟩
  | idle => exact ⟨hs.1, hrest.trans hs.2⟩
  | sleeping => exact ⟨hs.1, hrest.trans hs.2⟩
  | draining inFlight exit =>
    obtain ⟨hopen, hatRest, hlisted, hreal⟩ := hs
    refine ⟨hopen, hrest.trans hatRest, fun t τ' htask' hc hrun => ?_, fun t ht => ?_⟩
    · obtain ⟨τ, htask, hτ, hrun⟩ := unfinished_of_others hcoh h ha htask' hc hrun
      exact hlisted t τ htask hτ hrun
    · obtain ⟨τ, htask, hc⟩ := hreal t ht
      obtain ⟨τ', htask', hc', _⟩ := task_kept_of_step hcoh h htask
      exact ⟨τ', htask', hc'.trans hc⟩
  | closing left exit =>
    obtain ⟨hall, hclosed, hpass, hquiet⟩ := hs
    exact ⟨hall, hclosed, (Sys.midPass_congr hstage).trans hpass, hquiet.of_others hcoh h ha⟩
  | exited exit =>
    rcases hs with ⟨hexit, hnone, hcut⟩ | ⟨hall, hclosed, hpass, hquiet⟩
    · exact .inl ⟨hexit, hstage.trans hnone, hcut⟩
    · exact .inr ⟨hall, hclosed, (Sys.midPass_congr hstage).trans hpass,
        hquiet.of_others hcoh h ha⟩
  | died =>
    obtain ⟨hdead, hpre, hreleased⟩ := hs
    refine ⟨?_, hpre, fun hne => ?_⟩
    · rwa [hstage]
    · obtain ⟨hall, hquiet⟩ := hreleased hne
      exact ⟨hall, hquiet.of_others hcoh h ha⟩

theorem Manned.unfinished (hs : Manned s) {t : Nat} {τ : Task} (htask : s.tasks t = some τ)
    (hc : τ.consumer = name) (hrun : τ.body.isDone = false) : t ∈ s.takenBy name :=
  hc ▸ hs.listed t τ htask hrun

theorem Sys.atRest_of_finished {outcome : Except Exn Nat}
    (h : s.stageOf name = some (.looping (.finished outcome))) : s.atRest name = true := by
  rw [atRest, h]

theorem stage_of_start (h : step cfg s (.start name) = some s') :
    s'.stageOf name = some (.starting .creating) := by
  cases Sys.step_cases h with
  | start name hfresh => simp [Sys.stageOf]

theorem stage_of_pass (h : step cfg s (.pass name) = some s') :
    s'.stageOf name = some (.looping .reclaimCapacity) := by
  cases Sys.step_cases h with
  | pass name w hw hstage => simp [Sys.stageOf_setStage, hw]

theorem stage_of_crash (h : step cfg s (.crash name) = some s') :
    s'.stageOf name = some .down := by
  cases Sys.step_cases h with
  | crash name w hw => simp [Sys.stageOf_setStage, hw]

theorem starting_of_step {c : Choice} {q : StartPoint}
    (hstage : s.stageOf name = some (.starting q))
    (h : step cfg s (.resume (.worker name) c) = some s') :
    ∃ q', s'.stageOf name = some (.starting q') := by
  rcases step_stage h name with hr | ⟨hc, _⟩ | ⟨hc, _⟩ | ⟨_, _, _, k, r, _, _, _, _, _, _, hr⟩ |
    ⟨_, _, _, _, _, _, _, hp, _⟩ | ⟨hc, _⟩
  · exact ⟨q, hr.trans hstage⟩
  · cases hc
  · cases hc
  · exact ⟨k r, hr⟩
  · cases hstage.symm.trans hp
  · cases hc

namespace Process

variable {p p' : Process}

theorem Open.released (h : p.Open) : p.Released s name := by
  refine ⟨?_, fun hne => absurd h.2 hne⟩
  rw [h.2]
  exact List.nil_prefix

theorem Closing.released {left : List Resource} (h : p.Closing s name left) :
    p.Released s name :=
  ⟨⟨left, h.2.1⟩, fun _ => ⟨h.1, h.2.2.2⟩⟩

theorem Agrees.released (h : p.Agrees s name) : p.Released s name := by
  obtain ⟨point, stop, acquired, closed⟩ := p
  have unreleased : closed = [] → Released s name ⟨point, stop, acquired, closed⟩ := by
    rintro rfl
    exact ⟨List.nil_prefix, fun hne => absurd rfl hne⟩
  cases point with
  | creating left => exact unreleased h.2.1
  | starting | idle | sleeping | passing | draining inFlight exit =>
    obtain ⟨hopen, _⟩ := h
    exact hopen.released
  | closing left exit =>
    have hclosing : Closing s name left ⟨.closing left exit, stop, acquired, closed⟩ := h
    exact hclosing.released
  | exited exit =>
    rcases h with ⟨_, _, hcut⟩ | hclosing
    · exact unreleased hcut.1
    · exact hclosing.released
  | died => exact h.2

theorem quiet_of_crash (hs : Quiet name s) (h : step cfg s (.crash name) = some s') :
    Quiet name s' := by
  cases Sys.step_cases h with
  | crash name w hw => exact hs

/-- A process keeps to its protocol. -/
theorem Agrees.act {a : ProcessAct} (hcoh : Coherent s) (hman : Manned s) (hman' : Manned s')
    (hs : p.Agrees s name) (h : p.Acted cfg s name a p' s') : p'.Agrees s' name := by
  obtain ⟨point, stop, acquired, closed⟩ := p
  cases h with
  | created call left hp =>
    subst hp
    obtain ⟨hnone, hclosed, isProd, before, hcalls, hacq⟩ := hs
    refine ⟨hnone, hclosed, isProd, before ++ [call], ?_, ?_⟩
    · rw [hcalls, List.append_assoc, List.singleton_append]
    · have hacq : acquired = before.filterMap CreateCall.acquires := hacq
      rw [List.filterMap_append, ← hacq]
      cases call <;> rfl
  | createRaised call left hp =>
    subst hp
    obtain ⟨hnone, hclosed, isProd, before, hcalls, hacq⟩ := hs
    exact .inl ⟨rfl, hnone, hclosed, isProd, before, call, left, hcalls, hacq⟩
  | launched s' hp hstep =>
    subst hp
    obtain ⟨hnone, hclosed, isProd, before, hcalls, hacq⟩ := hs
    rw [List.append_nil] at hcalls
    refine ⟨⟨?_, hclosed⟩, .creating, stage_of_start hstep⟩
    rw [hacq, ← hcalls, acquires_createCalls]
  | started hp hstage =>
    subst hp
    refine ⟨hs.1, ?_⟩
    rw [Sys.atRest, hstage]
  | startRaised x hp hstage =>
    subst hp
    obtain ⟨⟨hacq, hclosed⟩, _⟩ := hs
    refine ⟨hacq, ?_, Sys.midPass_of_starting hstage, hman.quiet (Sys.hasBegun_of_starting hstage)⟩
    exact congrArg (· ++ acloseOrder) hclosed
  | stopped hp hstop =>
    subst hp
    exact ⟨hs.1, hs.2, fun t τ htask hc hrun => hman.unfinished htask hc hrun, hman.real name⟩
  | entered s' hp hstop hstep =>
    subst hp
    exact ⟨hs.1, .reclaimCapacity, stage_of_pass hstep⟩
  | returned n hp hstage =>
    subst hp
    exact ⟨hs.1, Sys.atRest_of_finished hstage⟩
  | raised x hp hstage =>
    subst hp
    exact ⟨hs.1, Sys.atRest_of_finished hstage⟩
  | woken hp =>
    subst hp
    exact hs
  | drained inFlight exit hp hdone =>
    subst hp
    obtain ⟨⟨hacq, hclosed⟩, hrest, hlisted, _⟩ := hs
    refine ⟨hacq, congrArg (· ++ acloseOrder) hclosed, Sys.midPass_of_atRest hrest,
      fun t τ htask hc => ?_⟩
    by_contra hne
    have hmem := hlisted t τ htask hc (Bool.eq_false_iff.mpr hne)
    obtain ⟨τ', htask', hdone'⟩ := Sys.taskDone_iff.mp (List.all_eq_true.mp hdone t hmem)
    cases htask.symm.trans htask'
    exact hne hdone'
  | ended exit hp =>
    subst hp
    exact .inr hs
  | resumed c s' hp hstep =>
    rcases hp with hp | hp
    · subst hp
      obtain ⟨hopen, q, hq⟩ := hs
      exact ⟨hopen, starting_of_step hq hstep⟩
    · subst hp
      obtain ⟨hopen, q, hq⟩ := hs
      obtain ⟨_, k, r, _, _, _, _, hstage'⟩ := pass_of_step hq hstep
      exact ⟨hopen, k r, hstage'⟩
  | startCut kind c s' hp hstep =>
    subst hp
    obtain ⟨⟨hacq, hclosed⟩, q, hq⟩ := hs
    obtain ⟨q', hq'⟩ := starting_of_step hq hstep
    refine ⟨hacq, ?_, Sys.midPass_of_starting hq', hman'.quiet (Sys.hasBegun_of_starting hq')⟩
    exact congrArg (· ++ acloseOrder) hclosed
  | passCut kind c s' x hp hstep hstage' =>
    subst hp
    exact ⟨hs.1, Sys.atRest_of_finished hstage',
      fun t τ htask hc hrun => hman'.unfinished htask hc hrun, hman'.real name⟩
  | cut kind c hp =>
    rcases hp with hp | hp
    · subst hp
      exact ⟨hs.1, hs.2, fun t τ htask hc hrun => hman.unfinished htask hc hrun, hman.real name⟩
    · subst hp
      exact ⟨hs.1, hs.2, fun t τ htask hc hrun => hman.unfinished htask hc hrun, hman.real name⟩
  | released raises r left exit hp =>
    subst hp
    obtain ⟨hacq, hclosed, hrest⟩ := hs
    refine ⟨hacq, ?_, hrest⟩
    rw [← hclosed, List.append_assoc, List.singleton_append]
  | signalled => exact hs
  | killed s' hs' =>
    obtain ⟨hpre, hreleased⟩ := hs.released
    rcases hs' with ⟨rfl, hnone⟩ | hcrash
    · exact ⟨.inl hnone, hpre, hreleased⟩
    · refine ⟨.inr (stage_of_crash hcrash), hpre, fun hne => ?_⟩
      obtain ⟨hall, hquiet⟩ := hreleased hne
      exact ⟨hall, quiet_of_crash hquiet hcrash⟩

end Process

namespace Fleet

structure Consistent (f : Fleet) : Prop where
  coherent : Coherent f.sys
  manned : Manned f.sys
  agrees : ∀ name p, f.processes name = some p → p.Agrees f.sys name
  absent : ∀ name, f.processes name = none → f.sys.stageOf name = none

variable {f f' : Fleet} {a : FleetAct} {acts : List FleetAct}

theorem Consistent.init : Consistent {} where
  coherent := .init
  manned := .init
  agrees := by
    intro name p hp
    cases hp
  absent := fun _ _ => rfl

theorem Consistent.of_others (hs : Consistent f) {b : Act}
    (h : InferenceEngine.step cfg f.sys b = some s') (hb : b.main ≠ some name) :
    (∀ p, f.processes name = some p → p.Agrees s' name) ∧
      (f.processes name = none → s'.stageOf name = none) :=
  ⟨fun p hp => (hs.agrees name p hp).of_others hs.coherent h hb,
    fun hnone => (stageOf_of_others h hb).trans (hs.absent name hnone)⟩

theorem consistent_of_update {p' : Process} (hcoh : Coherent s') (hman : Manned s')
    (hown : p'.Agrees s' name)
    (hothers : ∀ other, other ≠ name → (∀ p, f.processes other = some p → p.Agrees s' other) ∧
      (f.processes other = none → s'.stageOf other = none)) :
    Consistent { sys := s', processes := Function.update f.processes name (some p') } := by
  refine ⟨hcoh, hman, fun other p hp => ?_, fun other hp => ?_⟩
  · by_cases hn : other = name
    · subst hn
      dsimp only at hp
      rw [Function.update_self] at hp
      exact Option.some.inj hp ▸ hown
    · dsimp only at hp
      rw [Function.update_of_ne hn] at hp
      exact (hothers other hn).1 p hp
  · by_cases hn : other = name
    · subst hn
      dsimp only at hp
      rw [Function.update_self] at hp
      cases hp
    · dsimp only at hp
      rw [Function.update_of_ne hn] at hp
      exact (hothers other hn).2 hp

theorem Consistent.step (hs : Consistent f) (h : Fleet.step cfg f a = some f') :
    Consistent f' := by
  have hsys : Coherent f'.sys ∧ Manned f'.sys := by
    rcases sys_of_step h with hr | ⟨b, hb⟩
    · exact ⟨hr ▸ hs.coherent, hr ▸ hs.manned⟩
    · exact ⟨hs.coherent.step hb, hs.manned.step hs.coherent hb⟩
  cases step_cases h with
  | launch name isProd hfresh =>
    exact consistent_of_update hsys.1 hsys.2
      ⟨hs.absent name hfresh, rfl, isProd, [], rfl, rfl⟩
      fun other _ => ⟨hs.agrees other, hs.absent other⟩
  | process name a p p' s' hp hacted =>
    apply consistent_of_update hsys.1 hsys.2
    · exact (hs.agrees name p hp).act hs.coherent hs.manned hsys.2 hacted
    · intro other hn
      rcases hacted.sys with rfl | ⟨b, hmain, hb⟩
      · exact ⟨hs.agrees other, hs.absent other⟩
      · apply hs.of_others hb
        rw [hmain]
        exact fun h => hn (Option.some.inj h).symm
  | others a s' ha hstep =>
    have hothers : ∀ other, a.main ≠ some other := by
      intro other h
      cases ha.symm.trans h
    exact ⟨hsys.1, hsys.2, fun other => (hs.of_others hstep (hothers other)).1,
      fun other => (hs.of_others hstep (hothers other)).2⟩

theorem Reaches.consistent (h : Reaches cfg acts f) : Consistent f :=
  Runs.invariant (fun _ _ _ hs _ h => hs.step h) .init (.trivial _ _) h

end Fleet

/-! ### What a process uses, and what it leaves behind -/

/-- The action takes the main coroutine of the process on at an await, or one of its tasks. -/
def FleetAct.runs (f : Fleet) (name : ConsumerName) : FleetAct → Prop
  | .process other (.worker _) | .process other (.interrupt _ _) => other = name
  | .others (.resume (.task t) _) => ∃ τ, f.sys.tasks t = some τ ∧ τ.consumer = name
  | _ => False

namespace Fleet

variable {f f' : Fleet} {a : FleetAct} {acts : List FleetAct}

/-- A step that is possible finds the container of its process open. -/
def UsesOpen (cfg : Settings) (f : Fleet) (a : FleetAct) : Prop :=
  ∀ f' name, step cfg f a = some f' → a.runs f name →
    ∃ p, f.processes name = some p ∧ p.acquired = allResources ∧ p.closed = []

theorem Consistent.open_of_task (hs : Consistent f) {t : Nat} {τ : Task} {c : Choice}
    (htask : f.sys.tasks t = some τ)
    (h : InferenceEngine.step cfg f.sys (.resume (.task t) c) = some s') :
    ∃ p, f.processes τ.consumer = some p ∧ p.Open := by
  cases Sys.step_cases h with
  | task t c name id m q w r e k x s₁ hold hw hstage hnode hperf =>
    cases htask.symm.trans hold
    have hlooping : f.sys.stageOf name = some (.looping r) := by
      rw [Sys.stageOf, hw, Option.map_some, hstage]
    have hbusy : ¬ Quiet name f.sys := by
      intro hquiet
      have hdone := hquiet t _ hold rfl
      cases q <;> cases hdone
      cases hnode
    cases hp : f.processes name with
    | none => cases (hs.absent name hp).symm.trans hlooping
    | some p =>
      refine ⟨p, rfl, ?_⟩
      have hagrees := hs.agrees name p hp
      obtain ⟨point, stop, acquired, closed⟩ := p
      cases point with
      | creating left => cases hagrees.1.symm.trans hlooping
      | starting | idle | sleeping | passing | draining inFlight exit => exact hagrees.1
      | closing left exit => exact absurd hagrees.2.2.2 hbusy
      | exited exit =>
        rcases hagrees with ⟨_, hnone, _⟩ | hclosing
        · cases hnone.symm.trans hlooping
        · exact absurd hclosing.2.2.2 hbusy
      | died =>
        rcases hagrees.1 with hnone | hdown
        · cases hnone.symm.trans hlooping
        · cases hdown.symm.trans hlooping

theorem Consistent.usesOpen (hs : Consistent f) : UsesOpen cfg f a := by
  intro f' name h hruns
  cases step_cases h with
  | launch other isProd hfresh => cases hruns
  | process other b p p' s' hp hacted =>
    have hagrees := hs.agrees other p hp
    obtain ⟨point, stop, acquired, closed⟩ := p
    cases hacted with
    | resumed c s' hpoint hstep =>
      obtain rfl : other = name := hruns
      rcases hpoint with hpoint | hpoint
      · subst hpoint
        exact ⟨_, hp, hagrees.1⟩
      · subst hpoint
        exact ⟨_, hp, hagrees.1⟩
    | startCut kind c s' hpoint hstep =>
      obtain rfl : other = name := hruns
      subst hpoint
      exact ⟨_, hp, hagrees.1⟩
    | passCut kind c s' x hpoint hstep hstage =>
      obtain rfl : other = name := hruns
      subst hpoint
      exact ⟨_, hp, hagrees.1⟩
    | cut kind c hpoint =>
      obtain rfl : other = name := hruns
      rcases hpoint with hpoint | hpoint
      · subst hpoint
        exact ⟨_, hp, hagrees.1⟩
      · subst hpoint
        exact ⟨_, hp, hagrees.1⟩
    | _ => cases hruns
  | others b s' hb hstep =>
    cases b with
    | resume who c =>
      cases who with
      | task t =>
        obtain ⟨τ, htask, rfl⟩ := hruns
        exact hs.open_of_task htask hstep
      | _ => cases hruns
    | _ => cases hruns

/-- In every run, each step of a worker's main coroutine at an await of its loop and each step of
one of its tasks finds the whole container acquired and nothing of it released. -/
theorem container_open_in_use (cfg : Settings) (acts : List FleetAct) :
    Runs.Along (step cfg) (UsesOpen cfg) {} acts :=
  Runs.Along.of_invariant (I := Consistent) (fun _ _ _ hs _ h => hs.step h)
    (fun _ _ hs _ => hs.usesOpen) .init (.trivial _ _)

/-- `aclose` releases in its own order, each resource once and none before the container is
complete and the last task of the process has ended; a process that has exited has released
everything, unless `create` raised: then it has released nothing. -/
theorem released_in_order (h : Reaches cfg acts f) {p : Process}
    (hp : f.processes name = some p) :
    p.closed <+: acloseOrder ∧
    (p.closed ≠ [] → p.acquired = allResources ∧ Quiet name f.sys) ∧
    ∀ exit, p.point = .exited exit →
      (p.acquired = allResources ∧ p.closed = acloseOrder) ∨ (exit = .raised ∧ p.CutShort) := by
  have hagrees := h.consistent.agrees name p hp
  obtain ⟨hpre, hreleased⟩ := hagrees.released
  refine ⟨hpre, hreleased, fun exit hexit => ?_⟩
  obtain ⟨point, stop, acquired, closed⟩ := p
  subst hexit
  rcases hagrees with ⟨hraised, _, hcut⟩ | ⟨hall, hclosed, _⟩
  · exact .inr ⟨hraised, hcut⟩
  · rw [List.append_nil] at hclosed
    exact .inl ⟨hall, hclosed⟩

end Fleet

/-! ### Drained for good -/

def MainPoint.hasDrained : MainPoint → Bool
  | closing _ _ | exited _ => true
  | _ => false

def MainPoint.isOver : MainPoint → Bool
  | closing _ _ | exited _ | died => true
  | _ => false

/-- The tasks of the consumer stand as they did, and there are no others. -/
def TasksKept (name : ConsumerName) (s s' : Sys) : Prop :=
  ∀ t τ, s'.tasks t = some τ → τ.consumer = name → s.tasks t = some τ

theorem TasksKept.of_others (hcoh : Coherent s) (hquiet : Quiet name s)
    (h : step cfg s a = some s') (ha : a.main ≠ some name) : TasksKept name s s' := by
  intro t τ' htask' hc
  obtain ⟨τ, htask, hτ⟩ := task_of_others h ha htask' hc
  cases (done_of_step hcoh h htask (hquiet t τ htask hτ)).symm.trans htask'
  exact htask

theorem Process.Acted.of_over {p p' : Process} {b : ProcessAct} (hover : p.point.isOver = true)
    (h : p.Acted cfg s name b p' s') : p'.point.isOver = true ∧ s'.tasks = s.tasks := by
  obtain ⟨point, stop, acquired, closed⟩ := p
  cases h with
  | ended exit hp => exact ⟨rfl, rfl⟩
  | released raises r left exit hp => exact ⟨rfl, rfl⟩
  | signalled => exact ⟨hover, rfl⟩
  | killed s' hs =>
    refine ⟨rfl, ?_⟩
    rcases hs with ⟨rfl, _⟩ | hcrash
    · rfl
    · cases Sys.step_cases hcrash with
      | crash name w hw => rfl
  | resumed c s' hp hstep =>
    rcases hp with hp | hp
    · subst hp
      cases hover
    · subst hp
      cases hover
  | cut kind c hp =>
    rcases hp with hp | hp
    · subst hp
      cases hover
    · subst hp
      cases hover
  | created call left hp | createRaised call left hp | launched s' hp hstep | started hp hstage
  | startRaised x hp hstage | stopped hp hstop | entered s' hp hstop hstep | returned n hp hstage
  | raised x hp hstage | woken hp | drained inFlight exit hp hdone | startCut kind c s' hp hstep
  | passCut kind c s' x hp hstep hstage =>
    subst hp
    cases hover

namespace Fleet

variable {f f' : Fleet} {a : FleetAct} {acts acts' : List FleetAct}

structure Ended (name : ConsumerName) (f : Fleet) : Prop where
  consistent : Consistent f
  point : ∃ p, f.processes name = some p ∧ p.point.isOver = true
  quiet : Quiet name f.sys

theorem Ended.step (hs : Ended name f) (h : step cfg f a = some f') :
    Ended name f' ∧ TasksKept name f.sys f'.sys := by
  have hcon := hs.consistent.step h
  obtain ⟨p, hp, hover⟩ := hs.point
  have of_tasks : ∀ {s' : Sys}, s'.tasks = f.sys.tasks →
      Quiet name s' ∧ TasksKept name f.sys s' := by
    intro s' htasks
    refine ⟨fun t τ htask => hs.quiet t τ (htasks ▸ htask), fun t τ htask _ => htasks ▸ htask⟩
  have of_others : ∀ {b : Act} {s' : Sys}, b.main ≠ some name →
      InferenceEngine.step cfg f.sys b = some s' → Quiet name s' ∧ TasksKept name f.sys s' := by
    intro b s' hb hstep
    exact ⟨hs.quiet.of_others hs.consistent.coherent hstep hb,
      .of_others hs.consistent.coherent hs.quiet hstep hb⟩
  cases step_cases h with
  | launch other isProd hfresh =>
    have hn : name ≠ other := by
      rintro rfl
      cases hfresh.symm.trans hp
    obtain ⟨hquiet, hkept⟩ := of_tasks (rfl : f.sys.tasks = f.sys.tasks)
    exact ⟨⟨hcon, ⟨p, (Function.update_of_ne hn _ _).trans hp, hover⟩, hquiet⟩, hkept⟩
  | process other b q q' s' hq hacted =>
    by_cases hn : name = other
    · subst hn
      cases hq.symm.trans hp
      obtain ⟨hover', htasks⟩ := hacted.of_over hover
      obtain ⟨hquiet, hkept⟩ := of_tasks htasks
      exact ⟨⟨hcon, ⟨q', Function.update_self _ _ _, hover'⟩, hquiet⟩, hkept⟩
    · have hrest : Quiet name s' ∧ TasksKept name f.sys s' := by
        rcases hacted.sys with rfl | ⟨c, hmain, hstep⟩
        · exact of_tasks rfl
        · apply of_others _ hstep
          rw [hmain]
          exact fun heq => hn (Option.some.inj heq).symm
      exact ⟨⟨hcon, ⟨p, (Function.update_of_ne hn _ _).trans hp, hover⟩, hrest.1⟩, hrest.2⟩
  | others b s' hb hstep =>
    have hmain : b.main ≠ some name := by
      intro heq
      cases hb.symm.trans heq
    obtain ⟨hquiet, hkept⟩ := of_others hmain hstep
    exact ⟨⟨hcon, ⟨p, hp, hover⟩, hquiet⟩, hkept⟩

/-- Once a process closes its container, all of its tasks have ended, and in every continuation
none is started and none changes. -/
theorem drained_for_good (h : Reaches cfg acts f) {p : Process}
    (hp : f.processes name = some p) (hdrained : p.point.hasDrained = true)
    (hrun : Runs.exec (step cfg) f acts' = some f') :
    Quiet name f'.sys ∧ TasksKept name f.sys f'.sys := by
  have hcon := h.consistent
  have hagrees := hcon.agrees name p hp
  have hstart : Ended name f := by
    obtain ⟨point, stop, acquired, closed⟩ := p
    cases point with
    | closing left exit => exact ⟨hcon, ⟨_, hp, rfl⟩, hagrees.2.2.2⟩
    | exited exit =>
      refine ⟨hcon, ⟨_, hp, rfl⟩, ?_⟩
      rcases hagrees with ⟨_, hnone, _⟩ | hclosing
      · apply hcon.manned.quiet
        rw [Sys.hasBegun, hnone]
      · exact hclosing.2.2.2
    | _ => cases hdrained
  have hend : Ended name f' :=
    Runs.invariant (fun _ _ _ hs _ hstep => (Ended.step hs hstep).1) hstart (.trivial _ _) hrun
  refine ⟨hend.quiet, ?_⟩
  exact Runs.stable (I := Ended name) (R := fun g g' => TasksKept name g.sys g'.sys)
    (P := fun _ _ => True) (fun _ _ _ htask _ => htask)
    (fun hab hbc t τ htask hc => hab t τ (hbc t τ htask hc) hc)
    (fun _ _ _ hs _ hstep => (hs.step hstep).1) (fun _ _ _ hs _ hstep => (hs.step hstep).2)
    hstart (.trivial _ _) hrun

end Fleet

end

/-- A process boots, a job is submitted, and one pass starts its task. -/
def Fleet.bootAndRead : List FleetAct :=
  .launch 0 true :: List.replicate 5 (.process 0 (.create false)) ++
    [.process 0 .advance, .process 0 (.worker {}), .process 0 .advance] ++
    (submitted 7).map .others ++
    .process 0 .advance :: List.replicate 5 (.process 0 (.worker {})) ++ [.process 0 .advance]

def Fleet.stopAndDrain : List FleetAct :=
  [.process 0 .signal, .process 0 .advance] ++ (steps (.task 0) 7).map .others ++
    [.process 0 .advance]

def Fleet.closeAll : List FleetAct :=
  [.process 0 (.close false), .process 0 (.close true), .process 0 (.close false),
    .process 0 .advance]

theorem Fleet.stopped_drained : ∃ f p f', Fleet.Reaches {} (bootAndRead ++ stopAndDrain) f ∧
    f.processes 0 = some p ∧ p.point.hasDrained = true ∧
    Runs.exec (Fleet.step {}) f closeAll = some f' ∧ (f'.sys.taskDone 0 = true) ∧
    Quiet 0 f'.sys ∧ TasksKept 0 f.sys f'.sys := by
  obtain ⟨f, hf, hview⟩ := Runs.exec_of_map (Fleet.step {}) {} (bootAndRead ++ stopAndDrain)
    (fun f => ((f.processes 0).map (·.point.hasDrained),
      (Runs.exec (Fleet.step {}) f closeAll).map fun f' : Fleet => f'.sys.taskDone 0))
    (some true, some true) (by decide +kernel)
  obtain ⟨hpoint, hafter⟩ := Prod.mk.inj hview
  obtain ⟨p, hp, hdrained⟩ := Option.map_eq_some_iff.mp hpoint
  obtain ⟨f', hf', hdone⟩ := Option.map_eq_some_iff.mp hafter
  obtain ⟨hquiet, hkept⟩ := drained_for_good hf hp hdrained hf'
  exact ⟨f, p, f', hf, hp, hdrained, hf', hdone, hquiet, hkept⟩

theorem Fleet.closed_released : ∃ f p, Fleet.Reaches {} (bootAndRead ++ stopAndDrain ++ closeAll) f ∧
    f.processes 0 = some p ∧ p.closed.length = 3 ∧ p.closed <+: acloseOrder ∧
    p.acquired = allResources ∧ Quiet 0 f.sys := by
  obtain ⟨f, hf, hview⟩ := Runs.exec_of_map (Fleet.step {}) {}
    (bootAndRead ++ stopAndDrain ++ closeAll)
    (fun f => (f.processes 0).map (·.closed.length)) (some 3) (by decide +kernel)
  obtain ⟨p, hp, hlength⟩ := Option.map_eq_some_iff.mp hview
  obtain ⟨hpre, hreleased, _⟩ := released_in_order hf hp
  have hne : p.closed ≠ [] := by
    intro hnil
    rw [hnil] at hlength
    cases hlength
  obtain ⟨hall, hquiet⟩ := hreleased hne
  exact ⟨f, p, hf, hp, hlength, hpre, hall, hquiet⟩

end InferenceEngine
