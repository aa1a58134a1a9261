import InferenceEngine.Capacity

/-!
# Worker processes

`main` of the worker: the container is created, the consume loop runs until the stop event is
set or an exception surfaces in it, the tasks in flight are drained, the container is closed.
Many processes run over the system; between their control steps the system's own steps go on.
An interruption surfaces at an await or between two passes. One that arrives while the process
drains or closes is not modelled, nor is one inside `create`, which a raising call stands for.
-/

namespace InferenceEngine

set_option autoImplicit false

inductive Resource where
  | executor | engine | redis
  deriving DecidableEq

/-- The calls of `AppContainer.create` that can raise. -/
inductive CreateCall where
  | buildExecutor | buildEngine | redisFromUrl | buildS3Client | ensureBucket | buildProviders
  deriving DecidableEq

def CreateCall.acquires : CreateCall → Option Resource
  | buildExecutor => some .executor
  | buildEngine => some .engine
  | redisFromUrl => some .redis
  | _ => none

/-- `create`: the bucket is made outside production only. -/
def createCalls (isProd : Bool) : List CreateCall :=
  [.buildExecutor, .buildEngine, .redisFromUrl, .buildS3Client] ++
    (if isProd then [] else [.ensureBucket]) ++ [.buildProviders]

/-- `aclose`: the executor first, the rest in reverse order. -/
def acloseOrder : List Resource := [.executor, .redis, .engine]

inductive Exit where
  | returned | raised
  deriving DecidableEq

inductive Interruption where
  | keyboard | cancelled
  deriving DecidableEq

/-- `except KeyboardInterrupt` falls through to the end of `main`. -/
def Interruption.exit : Interruption → Exit
  | keyboard => .returned
  | cancelled => .raised

inductive MainPoint where
  | creating (left : List CreateCall)
  | starting
  | idle
  | passing
  | sleeping
  | draining (inFlight : List Nat) (exit : Exit)
  | closing (left : List Resource) (exit : Exit)
  | exited (exit : Exit)
  | died

structure Process where
  point : MainPoint
  stop : Bool := false
  acquired : List Resource := []
  closed : List Resource := []

inductive ProcessAct where
  | create (raises : Bool)
  | advance
  | worker (c : Choice)
  | interrupt (kind : Interruption) (c : Choice)
  | close (raises : Bool)
  | signal
  | kill

/-- The worker whose main coroutine takes the step. -/
def Act.main : Act → Option ConsumerName
  | .start c | .pass c | .crash c | .resume (.worker c) _ => some c
  | _ => none

def Sys.passRaised (s : Sys) (name : ConsumerName) : Bool :=
  match s.stageOf name with
  | some (.looping (.finished (.error _))) => true
  | _ => false

/-- The task exists and its coroutine has ended. -/
def Sys.taskDone (s : Sys) (t : Nat) : Bool := (s.tasks t).any (·.body.isDone)

namespace Process

variable (cfg : Settings) (s : Sys) (name : ConsumerName)

/-- Between two awaits of `main`, `run_worker` and `run`. -/
def advance (p : Process) : Option (Process × Sys) :=
  match p.point with
  | .creating [] => (step cfg s (.start name)).map fun s' => ({ p with point := .starting }, s')
  | .starting =>
    match s.stageOf name with
    | some (.starting (.finished (.ok ()))) => some ({ p with point := .idle }, s)
    | some (.starting (.finished (.error _))) =>
      some ({ p with point := .closing acloseOrder .raised }, s)
    | _ => none
  | .idle =>
    -- `while not stop.is_set()`
    if p.stop then some ({ p with point := .draining (s.takenBy name) .returned }, s)
    else (step cfg s (.pass name)).map fun s' => ({ p with point := .passing }, s')
  | .passing =>
    match s.stageOf name with
    | some (.looping (.finished (.ok _))) => some ({ p with point := .idle }, s)
    | some (.looping (.finished (.error _))) => some ({ p with point := .sleeping }, s)
    | _ => none
  | .sleeping => some ({ p with point := .idle }, s)
  | .draining inFlight exit =>
    if inFlight.all s.taskDone then some ({ p with point := .closing acloseOrder exit }, s)
    else none
  | .closing [] exit => some ({ p with point := .exited exit }, s)
  | _ => none

/-- One step of a process. Each step of `aclose` is guarded: whether it raises or not, the
next one follows. -/
def act (p : Process) : ProcessAct → Option (Process × Sys)
  | .create raises =>
    match p.point with
    | .creating (call :: left) =>
      if raises then some ({ p with point := .exited .raised }, s)
      else some ({ p with point := .creating left,
                          acquired := p.acquired ++ call.acquires.toList }, s)
    | _ => none
  | .advance => p.advance cfg s name
  | .worker c =>
    match p.point with
    | .starting | .passing => (step cfg s (.resume (.worker name) c)).map fun s' => (p, s')
    | _ => none
  | .interrupt kind c =>
    match p.point with
    | .starting =>
      if c.fate = .ok then none
      else (step cfg s (.resume (.worker name) c)).map fun s' =>
        ({ p with point := .closing acloseOrder kind.exit }, s')
    | .passing =>
      if c.fate = .ok then none
      else (step cfg s (.resume (.worker name) c)).bind fun s' =>
        if s'.passRaised name then
          some ({ p with point := .draining (s'.takenBy name) kind.exit }, s')
        else none
    | .idle | .sleeping =>
      some ({ p with point := .draining (s.takenBy name) kind.exit }, s)
    | _ => none
  | .close _ =>
    match p.point with
    | .closing (r :: left) exit =>
      some ({ p with point := .closing left exit, closed := p.closed ++ [r] }, s)
    | _ => none
  | .signal =>
    match p.point with
    | .exited _ | .died => none
    | _ => some ({ p with stop := true }, s)
  | .kill =>
    match p.point with
    | .exited _ | .died => none
    | _ => some ({ p with point := .died }, (step cfg s (.crash name)).getD s)

end Process

structure Fleet where
  sys : Sys := .init
  processes : ConsumerName → Option Process := fun _ => none

inductive FleetAct where
  | launch (name : ConsumerName) (isProd : Bool)
  | process (name : ConsumerName) (a : ProcessAct)
  | others (a : Act)

namespace Fleet

/-- One action. Consumer names are fresh. -/
def step (cfg : Settings) (f : Fleet) : FleetAct → Option Fleet
  | .launch name isProd =>
    if (f.processes name).isNone then
      some { f with processes :=
        Function.update f.processes name (some { point := .creating (createCalls isProd) }) }
    else none
  | .process name a =>
    (f.processes name).bind fun p => (p.act cfg f.sys name a).map fun (p', s') =>
      { sys := s', processes := Function.update f.processes name (some p') }
  | .others a =>
    if a.main.isNone then (InferenceEngine.step cfg f.sys a).map fun s' => { f with sys := s' }
    else none

def Reaches (cfg : Settings) (acts : List FleetAct) (f : Fleet) : Prop :=
  Runs.exec (step cfg) {} acts = some f

end Fleet

/-! ### What a step can do -/

inductive Process.Acted (cfg : Settings) (s : Sys) (name : ConsumerName) (p : Process) :
    ProcessAct → Process → Sys → Prop
  | created (call : CreateCall) (left : List CreateCall) (hp : p.point = .creating (call :: left)) :
      Acted cfg s name p (.create false)
        { p with point := .creating left, acquired := p.acquired ++ call.acquires.toList } s
  | createRaised (call : CreateCall) (left : List CreateCall)
      (hp : p.point = .creating (call :: left)) :
      Acted cfg s name p (.create true) { p with point := .exited .raised } s
  | launched (s' : Sys) (hp : p.point = .creating [])
      (hstep : step cfg s (.start name) = some s') :
      Acted cfg s name p .advance { p with point := .starting } s'
  | started (hp : p.point = .starting)
      (hstage : s.stageOf name = some (.starting (.finished (.ok ())))) :
      Acted cfg s name p .advance { p with point := .idle } s
  | startRaised (x : Exn) (hp : p.point = .starting)
      (hstage : s.stageOf name = some (.starting (.finished (.error x)))) :
      Acted cfg s name p .advance { p with point := .closing acloseOrder .raised } s
  | stopped (hp : p.point = .idle) (hstop : p.stop = true) :
      Acted cfg s name p .advance { p with point := .draining (s.takenBy name) .returned } s
  | entered (s' : Sys) (hp : p.point = .idle) (hstop : p.stop = false)
      (hstep : step cfg s (.pass name) = some s') :
      Acted cfg s name p .advance { p with point := .passing } s'
  | returned (n : Nat) (hp : p.point = .passing)
      (hstage : s.stageOf name = some (.looping (.finished (.ok n)))) :
      Acted cfg s name p .advance { p with point := .idle } s
  | raised (x : Exn) (hp : p.point = .passing)
      (hstage : s.stageOf name = some (.looping (.finished (.error x)))) :
      Acted cfg s name p .advance { p with point := .sleeping } s
  | woken (hp : p.point = .sleeping) :
      Acted cfg s name p .advance { p with point := .idle } s
  | drained (inFlight : List Nat) (exit : Exit) (hp : p.point = .draining inFlight exit)
      (hdone : inFlight.all s.taskDone = true) :
      Acted cfg s name p .advance { p with point := .closing acloseOrder exit } s
  | ended (exit : Exit) (hp : p.point = .closing [] exit) :
      Acted cfg s name p .advance { p with point := .exited exit } s
  | resumed (c : Choice) (s' : Sys) (hp : p.point = .starting ∨ p.point = .passing)
      (hstep : step cfg s (.resume (.worker name) c) = some s') :
      Acted cfg s name p (.worker c) p s'
  | startCut (kind : Interruption) (c : Choice) (s' : Sys) (hp : p.point = .starting)
      (hstep : step cfg s (.resume (.worker name) c) = some s') :
      Acted cfg s name p (.interrupt kind c) { p with point := .closing acloseOrder kind.exit } s'
  | passCut (kind : Interruption) (c : Choice) (s' : Sys) (x : Exn) (hp : p.point = .passing)
      (hstep : step cfg s (.resume (.worker name) c) = some s')
      (hstage : s'.stageOf name = some (.looping (.finished (.error x)))) :
      Acted cfg s name p (.interrupt kind c)
        { p with point := .draining (s'.takenBy name) kind.exit } s'
  | cut (kind : Interruption) (c : Choice) (hp : p.point = .idle ∨ p.point = .sleeping) :
      Acted cfg s name p (.interrupt kind c)
        { p with point := .draining (s.takenBy name) kind.exit } s
  | released (raises : Bool) (r : Resource) (left : List Resource) (exit : Exit)
      (hp : p.point = .closing (r :: left) exit) :
      Acted cfg s name p (.close raises)
        { p with point := .closing left exit, closed := p.closed ++ [r] } s
  | signalled : Acted cfg s name p .signal { p with stop := true } s
  | killed (s' : Sys) (hs : s' = s ∧ s.stageOf name = none ∨ step cfg s (.crash name) = some s') :
      Acted cfg s name p .kill { p with point := .died } s'

theorem Sys.passRaised_iff {s : Sys} {name : ConsumerName} :
    s.passRaised name = true ↔
      ∃ x, s.stageOf name = some (.looping (.finished (.error x))) := by
  unfold passRaised
  split
  · rename_i x hx
    exact ⟨fun _ => ⟨x, hx⟩, fun _ => rfl⟩
  · rename_i hne
    constructor
    · intro h
      cases h
    · rintro ⟨x, hx⟩
      exact absurd hx (hne x)

theorem Sys.taskDone_iff {s : Sys} {t : Nat} :
    s.taskDone t = true ↔ ∃ τ, s.tasks t = some τ ∧ τ.body.isDone = true :=
  Option.any_eq_true _ _

namespace Process

variable {cfg : Settings} {s s' : Sys} {name : ConsumerName} {p p' : Process} {a : ProcessAct}

theorem acted_of_advance (h : p.advance cfg s name = some (p', s')) :
    p.Acted cfg s name .advance p' s' := by
  unfold advance at h
  split at h
  · rename_i hp
    obtain ⟨s₁, hstep, h⟩ := Option.map_eq_some_iff.mp h
    cases h
    exact .launched s' hp hstep
  · rename_i hp
    split at h
    · rename_i hstage
      cases h
      exact .started hp hstage
    · rename_i x hstage
      cases h
      exact .startRaised x hp hstage
    · cases h
  · rename_i hp
    split at h
    · rename_i hstop
      cases h
      exact .stopped hp hstop
    · rename_i hstop
      obtain ⟨s₁, hstep, h⟩ := Option.map_eq_some_iff.mp h
      cases h
      exact .entered s' hp (Bool.eq_false_iff.mpr hstop) hstep
  · rename_i hp
    split at h
    · rename_i n hstage
      cases h
      exact .returned n hp hstage
    · rename_i x hstage
      cases h
      exact .raised x hp hstage
    · cases h
  · rename_i hp
    cases h
    exact .woken hp
  · rename_i inFlight exit hp
    split at h
    · rename_i hdone
      cases h
      exact .drained inFlight exit hp hdone
    · cases h
  · rename_i exit hp
    cases h
    exact .ended exit hp
  · cases h

theorem acted_of_interrupt {kind : Interruption} {c : Choice}
    (h : p.act cfg s name (.interrupt kind c) = some (p', s')) :
    p.Acted cfg s name (.interrupt kind c) p' s' := by
  simp only [act] at h
  split at h
  · rename_i hp
    split at h
    · cases h
    · obtain ⟨s₁, hstep, h⟩ := Option.map_eq_some_iff.mp h
      cases h
      exact .startCut kind c s' hp hstep
  · rename_i hp
    split at h
    · cases h
    · obtain ⟨s₁, hstep, h⟩ := Option.bind_eq_some_iff.mp h
      split at h
      · rename_i hraised
        obtain ⟨x, hstage⟩ := Sys.passRaised_iff.mp hraised
        cases h
        exact .passCut kind c s' x hp hstep hstage
      · cases h
  · rename_i hp
    cases h
    exact .cut kind c (.inl hp)
  · rename_i hp
    cases h
    exact .cut kind c (.inr hp)
  · cases h

theorem acted_of_act (h : p.act cfg s name a = some (p', s')) : p.Acted cfg s name a p' s' := by
  cases a with
  | create raises =>
    simp only [act] at h
    split at h
    · rename_i call left hp
      cases raises with
      | true =>
        cases h
        exact .createRaised call left hp
      | false =>
        cases h
        exact .created call left hp
    · cases h
  | advance => exact acted_of_advance h
  | worker c =>
    simp only [act] at h
    split at h
    · rename_i hp
      obtain ⟨s₁, hstep, h⟩ := Option.map_eq_some_iff.mp h
      cases h
      exact .resumed c s' (.inl hp) hstep
    · rename_i hp
      obtain ⟨s₁, hstep, h⟩ := Option.map_eq_some_iff.mp h
      cases h
      exact .resumed c s' (.inr hp) hstep
    · cases h
  | interrupt kind c => exact acted_of_interrupt h
  | close raises =>
    simp only [act] at h
    split at h
    · rename_i r left exit hp
      cases h
      exact .released raises r left exit hp
    · cases h
  | signal =>
    simp only [act] at h
    split at h
    · cases h
    · cases h
    · cases h
      exact .signalled
  | kill =>
    simp only [act] at h
    split at h
    · cases h
    · cases h
    · cases h
      refine .killed _ ?_
      cases hcrash : step cfg s (.crash name) with
      | some s₁ => exact .inr rfl
      | none =>
        refine .inl ⟨rfl, ?_⟩
        by_contra hstage
        obtain ⟨stage, hstage⟩ := Option.ne_none_iff_exists'.mp hstage
        obtain ⟨w, hw, _⟩ := Option.map_eq_some_iff.mp hstage
        simp only [step, hw, Option.isSome_some, if_true] at hcrash
        cases hcrash

end Process

namespace Fleet

variable {cfg : Settings} {f f' : Fleet} {a : FleetAct}

inductive Stepped (cfg : Settings) (f : Fleet) : FleetAct → Fleet → Prop
  | launch (name : ConsumerName) (isProd : Bool) (hfresh : f.processes name = none) :
      Stepped cfg f (.launch name isProd)
        { f with
          processes :=
            Function.update f.processes name (some { point := .creating (createCalls isProd) }) }
  | process (name : ConsumerName) (a : ProcessAct) (p p' : Process) (s' : Sys)
      (hp : f.processes name = some p) (hacted : p.Acted cfg f.sys name a p' s') :
      Stepped cfg f (.process name a)
        { sys := s', processes := Function.update f.processes name (some p') }
  | others (a : Act) (s' : Sys) (ha : a.main = none)
      (hstep : InferenceEngine.step cfg f.sys a = some s') :
      Stepped cfg f (.others a) { f with sys := s' }

theorem step_cases (h : step cfg f a = some f') : Stepped cfg f a f' := by
  cases a with
  | launch name isProd =>
    simp only [step] at h
    split at h
    · cases h
      exact .launch name isProd (Option.isNone_iff_eq_none.mp ‹_›)
    · cases h
  | process name a =>
    obtain ⟨p, hp, h⟩ := Option.bind_eq_some_iff.mp h
    obtain ⟨⟨p', s'⟩, hact, h⟩ := Option.map_eq_some_iff.mp h
    cases h
    exact .process name a p p' s' hp (Process.acted_of_act hact)
  | others a =>
    simp only [step] at h
    split at h
    · obtain ⟨s', hstep, h⟩ := Option.map_eq_some_iff.mp h
      cases h
      exact .others a s' (Option.isNone_iff_eq_none.mp ‹_›) hstep
    · cases h

end Fleet

/-! ### The system under the processes -/

/-- A process leaves the system as it is or takes a step of its own worker. -/
theorem Process.Acted.sys {cfg : Settings} {s s' : Sys} {name : ConsumerName} {p p' : Process}
    {a : ProcessAct} (h : p.Acted cfg s name a p' s') :
    s' = s ∨ ∃ b, b.main = some name ∧ step cfg s b = some s' := by
  cases h with
  | launched s' hp hstep => exact .inr ⟨_, rfl, hstep⟩
  | entered s' hp hstop hstep => exact .inr ⟨_, rfl, hstep⟩
  | resumed c s' hp hstep => exact .inr ⟨_, rfl, hstep⟩
  | startCut kind c s' hp hstep => exact .inr ⟨_, rfl, hstep⟩
  | passCut kind c s' x hp hstep hstage => exact .inr ⟨_, rfl, hstep⟩
  | killed s' hs =>
    rcases hs with ⟨hs, _⟩ | hstep
    · exact .inl hs
    · exact .inr ⟨_, rfl, hstep⟩
  | _ => exact .inl rfl

namespace Fleet

variable {cfg : Settings} {f f' : Fleet} {a : FleetAct} {acts : List FleetAct}

theorem sys_of_step (h : step cfg f a = some f') :
    f'.sys = f.sys ∨ ∃ b, InferenceEngine.step cfg f.sys b = some f'.sys := by
  cases step_cases h with
  | launch name isProd hfresh => exact .inl rfl
  | process name a p p' s' hp hacted =>
    rcases hacted.sys with hs | ⟨b, _, hb⟩
    · exact .inl hs
    · exact .inr ⟨b, hb⟩
  | others a s' ha hstep => exact .inr ⟨a, hstep⟩

theorem exec_sys (h : Runs.exec (step cfg) f acts = some f') :
    ∃ as, Runs.exec (InferenceEngine.step cfg) f.sys as = some f'.sys :=
  Runs.exec_project (fun _ _ _ hstep => sys_of_step hstep) h

theorem Reaches.sys (h : Reaches cfg acts f) : ∃ as, InferenceEngine.Reaches cfg as f.sys :=
  exec_sys h

end Fleet

end InferenceEngine
