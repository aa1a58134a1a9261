import InferenceEngine.Library.Countdown
import InferenceEngine.Completion
import InferenceEngine.Draining

/-!
# Shutdown comes to an end

Once the stop event is set, a process has a bounded number of steps left: those of the pass it is
in, of the tasks that run or that this pass still starts, of the drain and of `aclose`. A step of
one of these is always possible until the process has exited.
-/

namespace InferenceEngine

set_option autoImplicit false

def Settings.slots (cfg : Settings) : Nat := cfg.workerConcurrency.toNat

namespace PassPoint

/-- An upper bound on the steps of the rest of a pass and of the tasks it still starts: two for
each of the last entries to read, eleven for a task with its dispatch, thirteen for a claimed
entry. -/
def weight (slots : Nat) : PassPoint → Nat
  | finished _ => 0
  | dispatchNew _ rest _ => 11 * (rest.length + 1)
  | read n => 1 + 11 * n.toNat
  | readCapacity => 2 + 11 * slots
  | check _ rest => 13 * rest.length + 13 + (2 + 11 * slots)
  | query _ rest => 13 * rest.length + 12 + (2 + 11 * slots)
  | dispatchClaimed _ rest | poison _ _ _ rest => 13 * rest.length + 11 + (2 + 11 * slots)
  | poisonAck _ rest => 13 * rest.length + 10 + (2 + 11 * slots)
  | autoclaim n => 1 + 13 * n.toNat + (2 + 11 * slots)
  | reclaimCapacity => 2 + 13 * slots + (2 + 11 * slots)

def startsTask (p : PassPoint) : Nat := if p.dispatches.isSome then 10 else 0

theorem weight_nextClaimed (slots : Nat) (es : List StreamEntry) :
    (nextClaimed es).weight slots = 13 * es.length + (2 + 11 * slots) := by
  cases es with
  | nil => simp [nextClaimed, weight]
  | cons e es =>
    simp only [nextClaimed, weight, List.length_cons]
    omega

theorem weight_nextNew (slots total : Nat) (es : List StreamEntry) :
    (nextNew total es).weight slots = 11 * es.length := by
  cases es with
  | nil => rfl
  | cons e es => rfl

end PassPoint

section
variable {cfg : Settings} {s s' : Sys} {a : Act} {name : ConsumerName}

/-- Every step of a pass lowers its weight by more than it starts. -/
theorem weight_next {c : Choice} {p : PassPoint} {e : Effect} {k : e.Reply → PassPoint}
    {r : e.Reply} {s₁ : Sys} (hnode : p.node cfg.toBrokerSettings = .await e k)
    (hperf : s.perform cfg (.worker name) c e = some (r, s₁)) :
    (k r).weight cfg.slots + p.startsTask < p.weight cfg.slots := by
  have hslots : cfg.slots = cfg.workerConcurrency.toNat := rfl
  cases p with
  | reclaimCapacity =>
    cases hnode
    obtain ⟨_, rfl⟩ := Sys.perform_freeCapacity hperf
    dsimp only
    split
    · change 2 + 11 * cfg.slots + 0 < 2 + 13 * cfg.slots + (2 + 11 * cfg.slots)
      omega
    · change 1 + 13 * Int.toNat _ + (2 + 11 * cfg.slots) + 0 <
        2 + 13 * cfg.slots + (2 + 11 * cfg.slots)
      omega
  | readCapacity =>
    cases hnode
    obtain ⟨_, rfl⟩ := Sys.perform_freeCapacity hperf
    dsimp only
    split
    · change 0 + 0 < 2 + 11 * cfg.slots
      omega
    · change 1 + 11 * Int.toNat _ + 0 < 2 + 11 * cfg.slots
      omega
  | autoclaim n =>
    cases hnode
    cases r with
    | error x =>
      change 0 + 0 < 1 + 13 * n.toNat + (2 + 11 * cfg.slots)
      omega
    | ok es =>
      have hlength := Sys.length_of_xautoclaim hperf
      have hnext := PassPoint.weight_nextClaimed cfg.slots es
      change (PassPoint.nextClaimed es).weight cfg.slots + 0 <
        1 + 13 * n.toNat + (2 + 11 * cfg.slots)
      omega
  | read n =>
    cases hnode
    cases r with
    | error x =>
      change 0 + 0 < 1 + 11 * n.toNat
      omega
    | ok es =>
      obtain ⟨other, g, _, rfl, _⟩ := Sys.perform_xreadgroup hperf
      have hlength := List.length_take_le n.toNat (g.unread s.redis.work)
      have hnext := PassPoint.weight_nextNew cfg.slots
        ((g.unread s.redis.work).take n.toNat).length ((g.unread s.redis.work).take n.toNat)
      change (PassPoint.nextNew _ _).weight cfg.slots + 0 < 1 + 11 * n.toNat
      omega
  | check x rest =>
    cases hnode
    change Bool at r
    cases r with
    | true =>
      have hnext := PassPoint.weight_nextClaimed cfg.slots rest
      change (PassPoint.nextClaimed rest).weight cfg.slots + 0 <
        13 * rest.length + 13 + (2 + 11 * cfg.slots)
      omega
    | false =>
      change 13 * rest.length + 12 + (2 + 11 * cfg.slots) + 0 <
        13 * rest.length + 13 + (2 + 11 * cfg.slots)
      omega
  | query x rest =>
    cases hnode
    have hlast : ∀ q : PassPoint, q.weight cfg.slots ≤ 13 * rest.length + 11 + (2 + 11 * cfg.slots) →
        q.weight cfg.slots + 0 < 13 * rest.length + 12 + (2 + 11 * cfg.slots) := by
      intro q hq
      omega
    apply hlast
    cases r with
    | error y => exact Nat.zero_le _
    | ok pending =>
      simp only [PassPoint.afterQuery]
      split
      · cases JobMessage.fromFields x.fields with
        | ok m => exact Nat.le_refl _
        | error y => exact Nat.zero_le _
      · exact Nat.le_refl _
  | poison x m n rest =>
    cases hnode
    have hlast : ∀ q : PassPoint, q.weight cfg.slots ≤ 13 * rest.length + 10 + (2 + 11 * cfg.slots) →
        q.weight cfg.slots + 0 < 13 * rest.length + 11 + (2 + 11 * cfg.slots) := by
      intro q hq
      omega
    apply hlast
    cases r with
    | error y => cases y <;> exact Nat.zero_le _
    | ok u => exact Nat.le_refl _
  | poisonAck x rest =>
    cases hnode
    cases r with
    | error y =>
      change 0 + 0 < 13 * rest.length + 10 + (2 + 11 * cfg.slots)
      omega
    | ok u =>
      have hnext := PassPoint.weight_nextClaimed cfg.slots rest
      change (PassPoint.nextClaimed rest).weight cfg.slots + 0 <
        13 * rest.length + 10 + (2 + 11 * cfg.slots)
      omega
  | dispatchClaimed x rest =>
    cases hnode
    have hnext := PassPoint.weight_nextClaimed cfg.slots rest
    change (PassPoint.nextClaimed rest).weight cfg.slots + 10 <
      13 * rest.length + 11 + (2 + 11 * cfg.slots)
    omega
  | dispatchNew x rest total =>
    cases hnode
    have hnext := PassPoint.weight_nextNew cfg.slots total rest
    change (PassPoint.nextNew total rest).weight cfg.slots + 10 < 11 * (rest.length + 1)
    omega
  | finished outcome => cases hnode

/-- The steps that the tasks in flight still have to take, at most. -/
def Sys.tasksLeft (s : Sys) (name : ConsumerName) : Nat := ((s.takenBy name).map s.rankOf).sum

theorem rankOf_congr {t : Nat} (h : s'.tasks t = s.tasks t) : s'.rankOf t = s.rankOf t := by
  rw [Sys.rankOf, Sys.rankOf, h]

theorem rankOf_le (s : Sys) (t : Nat) : s.rankOf t ≤ 10 := by
  unfold Sys.rankOf
  split
  · rename_i p _
    cases p <;> simp [TaskPoint.rank]
  · exact Nat.zero_le _

theorem rankOf_of_step (h : step cfg s a = some s') {t : Nat} (ht : t ≠ s.nextTask) :
    s'.rankOf t ≤ s.rankOf t ∧ ∀ c, a = .resume (.task t) c → s'.rankOf t < s.rankOf t := by
  rcases step_tasks h with ⟨hr, _⟩ | ⟨other, c, w, q, e, ha, _, _, _, _, hr⟩ |
    ⟨u, c, other, id, m, p, e, k, r, s₁, ha, hold, hnode, _, _, hr⟩
  · refine ⟨le_of_eq (rankOf_congr (congrFun hr t)), ?_⟩
    rintro c rfl
    cases Sys.step_cases h with
    | task t c name id m p w q e k r s₁ hold hw hstage hnode hperf =>
      have hsame := congrFun hr t
      rw [Sys.setTask_tasks, Function.update_self, hold] at hsame
      have hlt := TaskPoint.rank_next hnode r
      cases hsame
      exact absurd hlt (Nat.lt_irrefl _)
  · refine ⟨le_of_eq (rankOf_congr ?_), ?_⟩
    · rw [hr, Function.update_of_ne ht]
    · rintro c' rfl
      cases ha
  · by_cases hu : t = u
    · subst hu
      have hlt := TaskPoint.rank_next hnode r
      have hnew : s'.tasks t = some ⟨other, id, .handling m (k r)⟩ := by
        rw [hr, Function.update_self]
      rw [Sys.rankOf_eq hnew, Sys.rankOf_eq hold]
      exact ⟨hlt.le, fun _ _ => hlt⟩
    · refine ⟨le_of_eq (rankOf_congr ?_), ?_⟩
      · rw [hr, Function.update_of_ne hu]
      · rintro c' rfl
        cases ha
        exact absurd rfl hu

theorem Manned.ne_nextTask (hcoh : Coherent s) (hs : Manned s) {t : Nat}
    (ht : t ∈ s.takenBy name) : t ≠ s.nextTask := by
  rintro rfl
  obtain ⟨τ, htask, _⟩ := hs.real name _ ht
  cases (hcoh.fresh _ le_rfl).symm.trans htask

theorem tasksLeft_of_step (hcoh : Coherent s) (hman : Manned s) (h : step cfg s a = some s')
    (name : ConsumerName) :
    (∃ c p x, a = .resume (.worker name) c ∧ s.stageOf name = some (.looping p) ∧
      p.dispatches = some x ∧ s'.tasksLeft name ≤ s.tasksLeft name + 10) ∨
    s'.tasksLeft name ≤ s.tasksLeft name := by
  have hsum : ((s.takenBy name).map s'.rankOf).sum ≤ s.tasksLeft name := by
    apply List.sum_le_sum
    intro t ht
    exact (rankOf_of_step h (hman.ne_nextTask hcoh ht)).1
  rcases takenBy_of_step h name with ⟨c, p, x, ha, hp, hd, hr⟩ | ⟨u, _, _, _, _, _, hr⟩ | hr
  · refine .inl ⟨c, p, x, ha, hp, hd, ?_⟩
    have hnew := rankOf_le s' s.nextTask
    rw [Sys.tasksLeft, hr, List.map_cons, List.sum_cons]
    omega
  · right
    rw [Sys.tasksLeft, hr]
    refine le_trans (List.Sublist.sum_le_sum ?_ fun _ _ => Nat.zero_le _) hsum
    exact List.filter_sublist.map _
  · right
    rwa [Sys.tasksLeft, hr]

theorem tasksLeft_of_task (hcoh : Coherent s) (hman : Manned s) {t : Nat} {c : Choice} {τ : Task}
    (h : step cfg s (.resume (.task t) c) = some s') (htask : s.tasks t = some τ) :
    s'.tasksLeft τ.consumer < s.tasksLeft τ.consumer := by
  have hmem : t ∈ s.takenBy τ.consumer := by
    apply hman.listed t τ htask
    by_contra hne
    have hkept := done_of_step hcoh h htask (Bool.eq_true_of_not_eq_false hne)
    have hlt := (rankOf_of_step h (t := t) ?_).2 c rfl
    · rw [rankOf_congr (hkept.trans htask.symm)] at hlt
      exact Nat.lt_irrefl _ hlt
    · rintro rfl
      cases (hcoh.fresh _ le_rfl).symm.trans htask
  have hlower : ∀ u ∈ s.takenBy τ.consumer, s'.rankOf u ≤ s.rankOf u :=
    fun u hu => (rankOf_of_step h (hman.ne_nextTask hcoh hu)).1
  have hstrict : s'.rankOf t < s.rankOf t :=
    (rankOf_of_step h (hman.ne_nextTask hcoh hmem)).2 c rfl
  have hsame : s'.takenBy τ.consumer = s.takenBy τ.consumer := by
    rcases takenBy_of_step h τ.consumer with ⟨_, _, _, ha, _⟩ | ⟨_, _, ha, _⟩ | hr
    · cases ha
    · cases ha
    · exact hr
  rw [Sys.tasksLeft, hsame]
  exact List.sum_lt_sum _ _ hlower ⟨t, hmem, hstrict⟩

theorem StartPoint.finished_of_create (r : Except Exn Unit) :
    ∃ outcome, StartPoint.afterCreate r = .finished outcome := by
  rcases r with x | u
  · cases x with
    | redis e =>
      simp only [afterCreate]
      split
      · exact ⟨_, rfl⟩
      · exact ⟨_, rfl⟩
    | _ => exact ⟨_, rfl⟩
  · exact ⟨_, rfl⟩

def Sys.passLeft (s : Sys) (cfg : Settings) (name : ConsumerName) : Nat :=
  match s.stageOf name with
  | some (.looping p) => p.weight cfg.slots
  | some (.starting .creating) => 1
  | _ => 0

theorem passLeft_of_looping {p : PassPoint} (h : s.stageOf name = some (.looping p)) :
    s.passLeft cfg name = p.weight cfg.slots := by
  rw [Sys.passLeft, h]

theorem passLeft_congr (h : s'.stageOf name = s.stageOf name) :
    s'.passLeft cfg name = s.passLeft cfg name := by
  rw [Sys.passLeft, Sys.passLeft, h]

theorem left_of_worker (hcoh : Coherent s) (hman : Manned s) {c : Choice}
    (h : step cfg s (.resume (.worker name) c) = some s') :
    s'.passLeft cfg name + s'.tasksLeft name < s.passLeft cfg name + s.tasksLeft name := by
  have htasks := tasksLeft_of_step hcoh hman h name
  have starting : ∀ {q : StartPoint}, s.stageOf name = some (.starting q) →
      s'.tasksLeft name ≤ s.tasksLeft name := by
    intro q hq
    rcases htasks with ⟨_, _, _, _, hp, _⟩ | hle
    · cases hq.symm.trans hp
    · exact hle
  cases Sys.step_cases h with
  | starting name c w p e k r s₁ hw hstage hnode hperf =>
    have hold : s.stageOf name = some (.starting p) := by
      rw [Sys.stageOf, hw, Option.map_some, hstage]
    have hnew : (s₁.setStage name (.starting (k r))).stageOf name = some (.starting (k r)) :=
      Sys.stageOf_of_perform hold hperf
    have hle := starting hold
    cases p with
    | creating =>
      cases hnode
      obtain ⟨outcome, hfin⟩ := StartPoint.finished_of_create r
      rw [hfin] at hnew hle ⊢
      have hbefore : s.passLeft cfg name = 1 := by rw [Sys.passLeft, hold]
      have hafter : (s₁.setStage name (.starting (.finished outcome))).passLeft cfg name = 0 := by
        rw [Sys.passLeft, hnew]
      omega
    | finished outcome => cases hnode
  | looping name c w p e k r s₁ hw hstage hnode hperf =>
    have hold : s.stageOf name = some (.looping p) := by
      rw [Sys.stageOf, hw, Option.map_some, hstage]
    have hnew : (s₁.setStage name (.looping (k r))).stageOf name = some (.looping (k r)) :=
      Sys.stageOf_of_perform hold hperf
    have hlt := weight_next hnode hperf
    rw [passLeft_of_looping hold, passLeft_of_looping hnew]
    rcases htasks with ⟨_, q, x, _, hq, hd, hle⟩ | hle
    · cases hold.symm.trans hq
      have hten : p.startsTask = 10 := by rw [PassPoint.startsTask, hd, Option.isSome_some, if_pos rfl]
      omega
    · omega

theorem tasksLeft_of_others (hcoh : Coherent s) (hman : Manned s) (h : step cfg s a = some s')
    (name : ConsumerName) (ha : ∀ c, a ≠ .resume (.worker name) c) :
    s'.tasksLeft name ≤ s.tasksLeft name := by
  rcases tasksLeft_of_step hcoh hman h name with ⟨c, _, _, hc, _⟩ | hle
  · exact absurd hc (ha c)
  · exact hle

end

/-! ### The steps of a process -/

/-- The steps that the main coroutine has left beside those of the pass it is in. -/
def MainPoint.left : MainPoint → Nat
  | creating left => left.length + 10
  | passing => 8
  | starting | sleeping => 7
  | idle => 6
  | draining _ _ => 5
  | closing left _ => left.length + 1
  | exited _ | died => 0

/-- The main coroutine is suspended inside `start` or `consume_once`. -/
def MainPoint.inPass : MainPoint → Bool
  | starting | passing => true
  | _ => false

/-- An upper bound on the steps of a process that has been told to stop. -/
def Process.stepsLeft (cfg : Settings) (s : Sys) (name : ConsumerName) (p : Process) : Nat :=
  p.point.left + (if p.point.inPass then s.passLeft cfg name else 0) + s.tasksLeft name

/-- The process itself takes the step; a signal or its death come from outside. -/
def ProcessAct.isOwn : ProcessAct → Bool
  | signal | kill => false
  | _ => true

section
variable {cfg : Settings} {s s' : Sys} {name : ConsumerName} {p p' : Process} {a : ProcessAct}

/-- A process moves towards its end, unless it begins another pass. -/
theorem stepsLeft_act (hcoh : Coherent s) (hman : Manned s)
    (hstop : p.point = .idle → p.stop = true) (h : p.Acted cfg s name a p' s') :
    p'.stepsLeft cfg s' name ≤ p.stepsLeft cfg s name ∧
      (a.isOwn = true → p'.stepsLeft cfg s' name < p.stepsLeft cfg s name) := by
  have lower : p'.stepsLeft cfg s' name < p.stepsLeft cfg s name →
      p'.stepsLeft cfg s' name ≤ p.stepsLeft cfg s name ∧
        (a.isOwn = true → p'.stepsLeft cfg s' name < p.stepsLeft cfg s name) :=
    fun hlt => ⟨hlt.le, fun _ => hlt⟩
  obtain ⟨point, stop, acquired, closed⟩ := p
  cases h with
  | created call left hp =>
    apply lower
    subst hp
    change left.length + 10 + 0 + s.tasksLeft name < left.length + 1 + 10 + 0 + s.tasksLeft name
    omega
  | createRaised call left hp =>
    apply lower
    subst hp
    change 0 + 0 + s.tasksLeft name < left.length + 1 + 10 + 0 + s.tasksLeft name
    omega
  | launched s' hp hstep =>
    apply lower
    subst hp
    have htasks := tasksLeft_of_others hcoh hman hstep name (by simp)
    have hone : s'.passLeft cfg name = 1 := by rw [Sys.passLeft, stage_of_start hstep]
    change 7 + s'.passLeft cfg name + s'.tasksLeft name < 0 + 10 + 0 + s.tasksLeft name
    omega
  | started hp hstage =>
    apply lower
    subst hp
    change 6 + 0 + s.tasksLeft name < 7 + s.passLeft cfg name + s.tasksLeft name
    omega
  | startRaised x hp hstage =>
    apply lower
    subst hp
    change 3 + 1 + 0 + s.tasksLeft name < 7 + s.passLeft cfg name + s.tasksLeft name
    omega
  | stopped hp hstopped =>
    apply lower
    subst hp
    change 5 + 0 + s.tasksLeft name < 6 + 0 + s.tasksLeft name
    omega
  | entered s' hp hrunning hstep => cases hrunning.symm.trans (hstop hp)
  | returned n hp hstage =>
    apply lower
    subst hp
    change 6 + 0 + s.tasksLeft name < 8 + s.passLeft cfg name + s.tasksLeft name
    omega
  | raised x hp hstage =>
    apply lower
    subst hp
    change 7 + 0 + s.tasksLeft name < 8 + s.passLeft cfg name + s.tasksLeft name
    omega
  | woken hp =>
    apply lower
    subst hp
    change 6 + 0 + s.tasksLeft name < 7 + 0 + s.tasksLeft name
    omega
  | drained inFlight exit hp hdone =>
    apply lower
    subst hp
    change 3 + 1 + 0 + s.tasksLeft name < 5 + 0 + s.tasksLeft name
    omega
  | ended exit hp =>
    apply lower
    subst hp
    change 0 + 0 + s.tasksLeft name < 0 + 1 + 0 + s.tasksLeft name
    omega
  | resumed c s' hp hstep =>
    apply lower
    have hless := left_of_worker hcoh hman hstep
    rcases hp with hp | hp
    · subst hp
      change 7 + s'.passLeft cfg name + s'.tasksLeft name <
        7 + s.passLeft cfg name + s.tasksLeft name
      omega
    · subst hp
      change 8 + s'.passLeft cfg name + s'.tasksLeft name <
        8 + s.passLeft cfg name + s.tasksLeft name
      omega
  | startCut kind c s' hp hstep =>
    apply lower
    have hless := left_of_worker hcoh hman hstep
    subst hp
    change 3 + 1 + 0 + s'.tasksLeft name < 7 + s.passLeft cfg name + s.tasksLeft name
    omega
  | passCut kind c s' x hp hstep hstage =>
    apply lower
    have hless := left_of_worker hcoh hman hstep
    subst hp
    change 5 + 0 + s'.tasksLeft name < 8 + s.passLeft cfg name + s.tasksLeft name
    omega
  | cut kind c hp =>
    apply lower
    rcases hp with hp | hp
    · subst hp
      change 5 + 0 + s.tasksLeft name < 6 + 0 + s.tasksLeft name
      omega
    · subst hp
      change 5 + 0 + s.tasksLeft name < 7 + 0 + s.tasksLeft name
      omega
  | released raises r left exit hp =>
    apply lower
    subst hp
    change left.length + 1 + 0 + s.tasksLeft name < left.length + 1 + 1 + 0 + s.tasksLeft name
    omega
  | signalled =>
    refine ⟨Nat.le_refl _, fun hown => ?_⟩
    cases hown
  | killed s' hs =>
    refine ⟨?_, fun hown => by cases hown⟩
    have htasks : s'.tasksLeft name ≤ s.tasksLeft name := by
      rcases hs with ⟨rfl, _⟩ | hcrash
      · exact Nat.le_refl _
      · exact tasksLeft_of_others hcoh hman hcrash name (by simp)
    change 0 + 0 + s'.tasksLeft name ≤ _ + s.tasksLeft name
    omega

end

theorem stop_of_acted {cfg : Settings} {s s' : Sys} {name : ConsumerName} {p p' : Process}
    {a : ProcessAct} (h : p.Acted cfg s name a p' s') (hstop : p.stop = true) : p'.stop = true := by
  cases h with
  | signalled => rfl
  | _ => exact hstop

def FleetAct.isOwn (name : ConsumerName) (f : Fleet) : FleetAct → Bool
  | .process other a => decide (other = name) && a.isOwn
  | .others (.resume (.task t) _) => (f.sys.tasks t).any fun τ => decide (τ.consumer = name)
  | _ => false

namespace Fleet

variable {cfg : Settings} {f f' : Fleet} {a : FleetAct} {acts acts' : List FleetAct}
  {name : ConsumerName}

def left (cfg : Settings) (name : ConsumerName) (f : Fleet) : Nat :=
  ((f.processes name).map (·.stepsLeft cfg f.sys name)).getD 0

structure Stopping (name : ConsumerName) (f : Fleet) : Prop where
  consistent : Consistent f
  stop : ∃ p, f.processes name = some p ∧ p.stop = true

theorem left_eq {p : Process} (hp : f.processes name = some p) :
    f.left cfg name = p.stepsLeft cfg f.sys name := by
  rw [left, hp]
  rfl

theorem stepsLeft_of_others (hs : Consistent f) {b : Act} {s' : Sys} {p : Process}
    (h : InferenceEngine.step cfg f.sys b = some s') (hb : b.main ≠ some name) :
    p.stepsLeft cfg s' name ≤ p.stepsLeft cfg f.sys name := by
  have htasks := tasksLeft_of_others hs.coherent hs.manned h name (by rintro c rfl; exact hb rfl)
  rw [Process.stepsLeft, Process.stepsLeft, passLeft_congr (stageOf_of_others h hb)]
  omega

theorem Stopping.step (hs : Stopping name f) (h : step cfg f a = some f') :
    Stopping name f' ∧ f'.left cfg name ≤ f.left cfg name ∧
      (a.isOwn name f = true → f'.left cfg name < f.left cfg name) := by
  have hcon := hs.consistent.step h
  obtain ⟨p, hp, hstop⟩ := hs.stop
  cases step_cases h with
  | launch other isProd hfresh =>
    have hn : name ≠ other := by
      rintro rfl
      cases hfresh.symm.trans hp
    have hp' := (Function.update_of_ne hn (some { point := .creating (createCalls isProd) })
      f.processes).trans hp
    refine ⟨⟨hcon, p, hp', hstop⟩, ?_, fun hown => by cases hown⟩
    rw [left_eq hp, left_eq hp']
  | process other b q q' s' hq hacted =>
    by_cases hn : name = other
    · subst hn
      cases hq.symm.trans hp
      have hq' := Function.update_self name (some q') f.processes
      obtain ⟨hle, hlt⟩ := stepsLeft_act hs.consistent.coherent hs.consistent.manned
        (fun _ => hstop) hacted
      rw [left_eq hp, left_eq hq']
      refine ⟨⟨hcon, q', hq', stop_of_acted hacted hstop⟩, hle, fun hown => hlt ?_⟩
      exact (Bool.and_eq_true _ _).mp hown |>.2
    · have hp' := (Function.update_of_ne hn (some q') f.processes).trans hp
      rw [left_eq hp, left_eq hp']
      refine ⟨⟨hcon, p, hp', hstop⟩, ?_, fun hown => ?_⟩
      · rcases hacted.sys with rfl | ⟨c, hmain, hstep⟩
        · exact Nat.le_refl _
        · apply stepsLeft_of_others hs.consistent hstep
          rw [hmain]
          exact fun heq => hn (Option.some.inj heq).symm
      · exact absurd (of_decide_eq_true ((Bool.and_eq_true _ _).mp hown).1).symm hn
  | others b s' hb hstep =>
    have hmain : b.main ≠ some name := by
      intro heq
      cases hb.symm.trans heq
    have hp' : ({ f with sys := s' } : Fleet).processes name = some p := hp
    rw [left_eq hp, left_eq hp']
    refine ⟨⟨hcon, p, hp, hstop⟩, stepsLeft_of_others hs.consistent hstep hmain, fun hown => ?_⟩
    cases b with
    | resume who c =>
      cases who with
      | task t =>
        obtain ⟨τ, htask, hc⟩ := (Option.any_eq_true _ _).mp hown
        obtain rfl : τ.consumer = name := of_decide_eq_true hc
        have hlt := tasksLeft_of_task hs.consistent.coherent hs.consistent.manned hstep htask
        rw [Process.stepsLeft, Process.stepsLeft, passLeft_congr (stageOf_of_others hstep hmain)]
        dsimp only
        omega
      | _ => cases hown
    | _ => cases hown

end Fleet

/-! ### The next step is possible -/

section
variable {cfg : Settings} {s : Sys} {name : ConsumerName}

theorem pass_enabled (hs : WithinCapacity cfg name s) {p : PassPoint}
    (hstage : s.stageOf name = some (.looping p)) (hp : ∀ outcome, p ≠ .finished outcome) :
    ∃ s', step cfg s (.resume (.worker name) {}) = some s' := by
  obtain ⟨w, hw, _⟩ := Option.map_eq_some_iff.mp hstage
  have htrim : ∀ st : Stream, st.trimAllowed cfg.maxlen 0 = true := by
    intro st
    simp [Stream.trimAllowed]
  have enabled : ∀ {e : Effect} {k : e.Reply → PassPoint},
      p.node cfg.toBrokerSettings = .await e k → s.perform cfg (.worker name) {} e ≠ none →
      ∃ s', step cfg s (.resume (.worker name) {}) = some s' := by
    intro e k hnode hperf
    obtain ⟨⟨r, s₁⟩, hperf⟩ := Option.ne_none_iff_exists'.mp hperf
    exact ⟨_, step_of_worker hstage hnode hperf⟩
  cases p with
  | reclaimCapacity | readCapacity | check x rest =>
    apply enabled rfl
    simp [Sys.perform, Sys.consumer, hw]
  | dispatchClaimed x rest | dispatchNew x rest total | poisonAck x rest =>
    apply enabled rfl
    simp [Sys.perform, Sys.consumer]
  | query x rest | read n =>
    apply enabled rfl
    cases hg : s.redis.group <;> simp [Sys.perform, Sys.consumer, hg]
  | autoclaim n =>
    obtain ⟨hpos, _⟩ := (hs.pass _ hstage).asked n rfl
    have hallowed : ∀ g : Group, g.claimAllowed
        (((s.workers name).map (·.reclaimCursor)).getD 0) n [] = true := by
      intro g
      simpa [Group.claimAllowed] using hpos.le
    apply enabled rfl
    cases hg : s.redis.group with
    | none => simp [Sys.perform, Sys.consumer, hg]
    | some g => simp only [Sys.perform, Sys.consumer, hg, hallowed, if_true, ne_eq, reduceCtorEq,
        not_false_eq_true]
  | poison x m n rest =>
    apply enabled rfl
    simp [Sys.perform, htrim]
  | finished outcome => exact absurd rfl (hp outcome)

theorem start_enabled (cfg : Settings) (hstage : s.stageOf name = some (.starting .creating)) :
    ∃ s', step cfg s (.resume (.worker name) {}) = some s' := by
  obtain ⟨⟨stage, ids, flight, cursor⟩, hw, hst⟩ := Option.map_eq_some_iff.mp hstage
  obtain rfl : stage = .starting .creating := hst
  exact ⟨_, by simp only [step, Sys.resume, hw]; rfl⟩

theorem pass_begins (cfg : Settings) (h : s.atRest name = true) :
    ∃ s', step cfg s (.pass name) = some s' := by
  unfold Sys.atRest at h
  split at h
  · rename_i hstage
    obtain ⟨⟨stage, ids, flight, cursor⟩, hw, hst⟩ := Option.map_eq_some_iff.mp hstage
    obtain rfl : stage = .starting (.finished (.ok ())) := hst
    exact ⟨_, by simp only [step, hw]; rfl⟩
  · rename_i outcome hstage
    obtain ⟨⟨stage, ids, flight, cursor⟩, hw, hst⟩ := Option.map_eq_some_iff.mp hstage
    obtain rfl : stage = .looping (.finished outcome) := hst
    exact ⟨_, by simp only [step, hw]; rfl⟩
  · cases h

theorem task_enabled (cfg : Settings) (hman : Manned s) (hrest : s.atRest name = true) {t : Nat}
    {τ : Task} (htask : s.tasks t = some τ) (hc : τ.consumer = name) (hrun : τ.body.isDone = false) :
    ∃ s', step cfg s (.resume (.task t) {}) = some s' := by
  subst hc
  obtain ⟨name, id, body⟩ := τ
  have hlooping : ∃ q, s.stageOf name = some (.looping q) := by
    have hbegun := hman.staffed t _ htask
    unfold Sys.hasBegun at hbegun
    unfold Sys.atRest at hrest
    split at hbegun
    · exact ⟨_, ‹_›⟩
    · rename_i hdown
      simp only [hdown, Bool.false_eq_true] at hrest
    · cases hbegun
  obtain ⟨q, hq⟩ := hlooping
  cases body with
  | undecodable x => cases hrun
  | handling m p =>
    have hpos : 0 < p.rank := by
      cases p with
      | finished outcome => cases hrun
      | _ => exact Nat.succ_pos _
    obtain ⟨_, s', hstep, _⟩ := step_of_task cfg (c := {}) rfl htask hq hpos
    exact ⟨s', hstep⟩

end

namespace Fleet

variable {cfg : Settings} {f f' : Fleet} {acts acts' : List FleetAct} {name : ConsumerName}

/-- Until it has exited, a process that lives can take a step of its own. -/
theorem own_enabled (hs : Consistent f) (hcap : WithinCapacity cfg name f.sys) {p : Process}
    (hp : f.processes name = some p) :
    (∃ exit, p.point = .exited exit) ∨ p.point = .died ∨
      ∃ a f', a.isOwn name f = true ∧ step cfg f a = some f' := by
  have own : ∀ {b : ProcessAct} {out : Process × Sys}, b.isOwn = true →
      p.act cfg f.sys name b = some out →
      ∃ a f', a.isOwn name f = true ∧ step cfg f a = some f' := by
    intro b out hb hact
    refine ⟨.process name b,
      { sys := out.2, processes := Function.update f.processes name (some out.1) }, ?_, ?_⟩
    · simp [FleetAct.isOwn, hb]
    · simp only [step, hp, Option.bind_some, hact, Option.map_some]
  have hagrees := hs.agrees name p hp
  obtain ⟨point, stop, acquired, closed⟩ := p
  cases point with
  | exited exit => exact .inl ⟨exit, rfl⟩
  | died => exact .inr (.inl rfl)
  | creating left =>
    right; right
    cases left with
    | nil =>
      have hfresh : f.sys.workers name = none := Option.map_eq_none_iff.mp hagrees.1
      exact own (b := .advance) rfl (by simp [Process.act, Process.advance, InferenceEngine.step, hfresh]; rfl)
    | cons call left => exact own (b := .create false) rfl rfl
  | starting =>
    right; right
    obtain ⟨_, q, hq⟩ := hagrees
    cases q with
    | creating =>
      obtain ⟨s', hstep⟩ := start_enabled cfg hq
      exact own (b := .worker {}) rfl (by simp only [Process.act, hstep, Option.map_some]; rfl)
    | finished outcome =>
      cases outcome with
      | ok u => exact own (b := .advance) rfl (by simp only [Process.act, Process.advance, hq]; rfl)
      | error x => exact own (b := .advance) rfl (by simp only [Process.act, Process.advance, hq]; rfl)
  | idle =>
    right; right
    cases stop with
    | true => exact own (b := .advance) rfl rfl
    | false =>
      obtain ⟨s', hstep⟩ := pass_begins cfg hagrees.2
      exact own (b := .advance) rfl (by simp only [Process.act, Process.advance, hstep]; rfl)
  | passing =>
    right; right
    obtain ⟨_, q, hq⟩ := hagrees
    by_cases hfin : ∃ outcome, q = .finished outcome
    · obtain ⟨outcome, rfl⟩ := hfin
      cases outcome with
      | ok n => exact own (b := .advance) rfl (by simp only [Process.act, Process.advance, hq]; rfl)
      | error x => exact own (b := .advance) rfl (by simp only [Process.act, Process.advance, hq]; rfl)
    · obtain ⟨s', hstep⟩ := pass_enabled hcap hq fun outcome h => hfin ⟨outcome, h⟩
      exact own (b := .worker {}) rfl (by simp only [Process.act, hstep, Option.map_some]; rfl)
  | sleeping =>
    right; right
    exact own (b := .advance) rfl rfl
  | draining inFlight exit =>
    right; right
    obtain ⟨_, hrest, _, hreal⟩ := hagrees
    by_cases hall : inFlight.all f.sys.taskDone = true
    · exact own (b := .advance) rfl (by simp only [Process.act, Process.advance, hall]; rfl)
    · obtain ⟨t, ht, hrun⟩ : ∃ t ∈ inFlight, ¬ f.sys.taskDone t = true := by
        simpa using hall
      obtain ⟨τ, htask, hc⟩ := hreal t ht
      have hrunning : τ.body.isDone = false := by
        by_contra hne
        exact hrun (Sys.taskDone_iff.mpr ⟨τ, htask, Bool.eq_true_of_not_eq_false hne⟩)
      obtain ⟨s', hstep⟩ := task_enabled cfg hs.manned hrest htask hc hrunning
      refine ⟨.others (.resume (.task t) {}), { f with sys := s' }, ?_, ?_⟩
      · simp [FleetAct.isOwn, htask, hc]
      · simp [step, Act.main, hstep]
  | closing left exit =>
    right; right
    cases left with
    | nil => exact own (b := .advance) rfl rfl
    | cons r left => exact own (b := .close false) rfl rfl

/-! ### Shutdown -/

theorem tasksLeft_le (s : Sys) (name : ConsumerName) :
    s.tasksLeft name ≤ 10 * (s.takenBy name).length := by
  rw [Sys.tasksLeft]
  induction s.takenBy name with
  | nil => exact Nat.zero_le _
  | cons t ts ih =>
    have hten := rankOf_le s t
    rw [List.map_cons, List.sum_cons, List.length_cons]
    omega

theorem weight_le {s : Sys} (hs : WithinCapacity cfg name s) {p : PassPoint}
    (hstage : s.stageOf name = some (.looping p)) :
    p.weight cfg.slots + 10 * (s.takenBy name).length ≤ 4 + 34 * cfg.slots := by
  have hslots : cfg.slots = cfg.workerConcurrency.toNat := rfl
  have htaken := hs.taken
  have hheld := (hs.pass p hstage).held
  have hasked := (hs.pass p hstage).asked
  cases p with
  | autoclaim n =>
    obtain ⟨_, hfits⟩ := hasked n rfl
    simp only [PassPoint.weight]
    omega
  | read n =>
    obtain ⟨_, hfits⟩ := hasked n rfl
    simp only [PassPoint.weight]
    omega
  | _ =>
    simp only [PassPoint.weight, PassPoint.entries, List.length_cons, List.length_nil] at hheld ⊢
    omega

theorem left_le (hs : Consistent f) (hcap : WithinCapacity cfg name f.sys) :
    f.left cfg name ≤ 16 + 34 * cfg.slots := by
  have hslots : cfg.slots = cfg.workerConcurrency.toNat := rfl
  have htasks := tasksLeft_le f.sys name
  have htaken := hcap.taken
  cases hp : f.processes name with
  | none =>
    rw [left, hp]
    exact Nat.zero_le _
  | some p =>
    rw [left_eq hp]
    have hagrees := hs.agrees name p hp
    obtain ⟨point, stop, acquired, closed⟩ := p
    cases point with
    | creating left =>
      have hlength : left.length ≤ 6 := by
        obtain ⟨_, _, isProd, before, hcalls, _⟩ := hagrees
        have hsix : (createCalls isProd).length ≤ 6 := by cases isProd <;> decide
        rw [hcalls, List.length_append] at hsix
        omega
      change left.length + 10 + 0 + _ ≤ _
      omega
    | starting =>
      obtain ⟨_, q, hq⟩ := hagrees
      have hone : f.sys.passLeft cfg name ≤ 1 := by
        rw [Sys.passLeft, hq]
        cases q with
        | creating => exact Nat.le_refl _
        | finished outcome => exact Nat.zero_le _
      change 7 + f.sys.passLeft cfg name + _ ≤ _
      omega
    | passing =>
      obtain ⟨_, q, hq⟩ := hagrees
      have hweight := weight_le hcap hq
      change 8 + f.sys.passLeft cfg name + _ ≤ _
      rw [passLeft_of_looping hq]
      omega
    | closing left exit =>
      have hlength : left.length ≤ 3 := by
        have hthree := congrArg List.length hagrees.2.1
        rw [List.length_append] at hthree
        change _ = 3 at hthree
        omega
      change left.length + 1 + 0 + _ ≤ _
      omega
    | idle =>
      change 6 + 0 + _ ≤ _
      omega
    | sleeping =>
      change 7 + 0 + _ ≤ _
      omega
    | draining inFlight exit =>
      change 5 + 0 + _ ≤ _
      omega
    | exited exit | died =>
      change 0 + 0 + _ ≤ _
      omega

/-- A process that has been told to stop ends: whatever the others do and whichever calls fail,
it and its tasks take a bounded number of steps, and until it has exited or died one of them is
possible. -/
theorem shutdown_terminates (h : Reaches cfg acts f) {p : Process}
    (hp : f.processes name = some p) (hstop : p.stop = true)
    (hrun : Runs.exec (step cfg) f acts' = some f') :
    Runs.count (step cfg) (fun f a => a.isOwn name f) f acts' ≤ 16 + 34 * cfg.slots ∧
    ∃ p', f'.processes name = some p' ∧ ((∃ exit, p'.point = .exited exit) ∨ p'.point = .died ∨
      ∃ a f'', a.isOwn name f' = true ∧ step cfg f' a = some f'') := by
  have hstart : Stopping name f := ⟨h.consistent, p, hp, hstop⟩
  have hcap : ∀ {as : List FleetAct} {g : Fleet}, Reaches cfg as g →
      WithinCapacity cfg name g.sys := by
    intro as g hg
    obtain ⟨bs, hbs⟩ := hg.sys
    exact hbs.withinCapacity name
  have hcount : Runs.count (step cfg) (fun f a => a.isOwn name f) f acts' + f'.left cfg name ≤
      f.left cfg name :=
    Runs.count_add_le (I := Stopping name) (fun _ _ _ hs hstep => (hs.step hstep).1)
      (fun _ _ _ hs hown hstep => (hs.step hstep).2.2 hown)
      (fun _ _ _ hs _ hstep => (hs.step hstep).2.1) hstart hrun
  have hbound := left_le h.consistent (hcap h)
  refine ⟨by omega, ?_⟩
  have hend : Stopping name f' :=
    Runs.invariant (fun _ _ _ hs _ hstep => (Stopping.step hs hstep).1) hstart (.trivial _ _) hrun
  obtain ⟨p', hp', _⟩ := hend.stop
  have hreach : Reaches cfg (acts ++ acts') f' := Runs.exec_append_iff.mpr ⟨f, h, hrun⟩
  exact ⟨p', hp', own_enabled hend.consistent (hcap hreach) hp'⟩

end Fleet

/-! ### The loop -/

def MainPoint.inLoop : MainPoint → Bool
  | idle | passing | sleeping => true
  | _ => false

/-- The action can end the loop. -/
def ProcessAct.breaks : ProcessAct → Bool
  | signal | interrupt _ _ | kill => true
  | _ => false

def FleetAct.breaks (name : ConsumerName) : FleetAct → Bool
  | .process other a => decide (other = name) && a.breaks
  | _ => false

def Fleet.AtPass (name : ConsumerName) (f : Fleet) : Prop :=
  ∃ p, f.processes name = some p ∧ p.point = .passing ∧
    f.sys.stageOf name = some (.looping .reclaimCapacity)

theorem loop_of_acted {cfg : Settings} {s s' : Sys} {name : ConsumerName} {p p' : Process}
    {a : ProcessAct} (h : p.Acted cfg s name a p' s') (ha : a.breaks = false)
    (hloop : p.point.inLoop = true) (hstop : p.stop = false) :
    p'.point.inLoop = true ∧ p'.stop = false := by
  obtain ⟨point, stop, acquired, closed⟩ := p
  cases h with
  | entered s' hp hrunning hstep => exact ⟨rfl, hstop⟩
  | returned n hp hstage => exact ⟨rfl, hstop⟩
  | raised x hp hstage => exact ⟨rfl, hstop⟩
  | woken hp => exact ⟨rfl, hstop⟩
  | resumed c s' hp hstep => exact ⟨hloop, hstop⟩
  | stopped hp hstopped => cases hstop.symm.trans hstopped
  | signalled => cases ha
  | startCut kind c s' hp hstep => cases ha
  | passCut kind c s' x hp hstep hstage => cases ha
  | cut kind c hp => cases ha
  | killed s' hs => cases ha
  | created call left hp | createRaised call left hp | launched s' hp hstep | started hp hstage
  | startRaised x hp hstage | drained inFlight exit hp hdone | ended exit hp
  | released raises r left exit hp =>
    subst hp
    cases hloop

namespace Fleet

variable {cfg : Settings} {f f' : Fleet} {a : FleetAct} {acts acts' : List FleetAct}
  {name : ConsumerName}

structure Looping (cfg : Settings) (name : ConsumerName) (f : Fleet) : Prop where
  consistent : Consistent f
  capacity : WithinCapacity cfg name f.sys
  loop : ∃ p, f.processes name = some p ∧ p.point.inLoop = true ∧ p.stop = false

theorem Looping.step (hs : Looping cfg name f) (ha : a.breaks name = false)
    (h : step cfg f a = some f') : Looping cfg name f' := by
  obtain ⟨p, hp, hloop, hstop⟩ := hs.loop
  have hcap : WithinCapacity cfg name f'.sys := by
    rcases sys_of_step h with hr | ⟨b, hb⟩
    · exact hr ▸ hs.capacity
    · exact hs.capacity.step hb
  refine ⟨hs.consistent.step h, hcap, ?_⟩
  cases step_cases h with
  | launch other isProd hfresh =>
    have hn : name ≠ other := by
      rintro rfl
      cases hfresh.symm.trans hp
    exact ⟨p, (Function.update_of_ne hn _ _).trans hp, hloop, hstop⟩
  | process other b q q' s' hq hacted =>
    by_cases hn : name = other
    · subst hn
      cases hq.symm.trans hp
      have hb : b.breaks = false := by simpa [FleetAct.breaks] using ha
      exact ⟨q', Function.update_self _ _ _, loop_of_acted hacted hb hloop hstop⟩
    · exact ⟨p, (Function.update_of_ne hn _ _).trans hp, hloop, hstop⟩
  | others b s' hb hstep => exact ⟨p, hp, hloop, hstop⟩

/-- The step is one of the main coroutine of the process, between or at the awaits of a pass. -/
def InTurn (name : ConsumerName) (_ : Fleet) (a : FleetAct) : Prop :=
  a = .process name .advance ∨ a = .process name (.worker {})

/-- One step of the main coroutine brings it to the next pass, or closer. -/
theorem Looping.turn (hs : Looping cfg name f) :
    Runs.CanReach (Fleet.step cfg) (InTurn name)
      (fun g => AtPass name g ∨ (Looping cfg name g ∧ g.left cfg name < f.left cfg name)) f := by
  obtain ⟨p, hp, hloop, hstop⟩ := hs.loop
  have hagrees := hs.consistent.agrees name p hp
  have closer : ∀ {b : ProcessAct} {p' : Process} {s' : Sys}, b.isOwn = true → b.breaks = false →
      InTurn name f (.process name b) → p.point ≠ .idle →
      p.act cfg f.sys name b = some (p', s') →
      Runs.CanReach (Fleet.step cfg) (InTurn name)
        (fun g => AtPass name g ∨ (Looping cfg name g ∧ g.left cfg name < f.left cfg name)) f := by
    intro b p' s' hown hb hturn hidle hact
    have hstep : Fleet.step cfg f (.process name b) =
        some { sys := s', processes := Function.update f.processes name (some p') } := by
      simp only [Fleet.step, hp, Option.bind_some, hact, Option.map_some]
    have hless := (stepsLeft_act hs.consistent.coherent hs.consistent.manned
      (fun h => absurd h hidle) (Process.acted_of_act hact)).2 hown
    refine .next _ hturn hstep (.here (.inr ⟨hs.step ?_ hstep, ?_⟩))
    · simp [FleetAct.breaks, hb]
    · rwa [left_eq hp, left_eq (Function.update_self name (some p') f.processes)]
  obtain ⟨point, stop, acquired, closed⟩ := p
  cases point with
  | idle =>
    obtain rfl : stop = false := hstop
    obtain ⟨s', hpass⟩ := pass_begins cfg hagrees.2
    have hstep : Fleet.step cfg f (.process name .advance) =
        some ⟨s', Function.update f.processes name (some ⟨.passing, false, acquired, closed⟩)⟩ := by
      simp [Fleet.step, hp, Process.act, Process.advance, hpass]
    exact .next _ (.inl rfl) hstep (.here (.inl
      ⟨_, Function.update_self name _ f.processes, rfl, stage_of_pass hpass⟩))
  | sleeping => exact closer (b := .advance) rfl rfl (.inl rfl) (by simp) rfl
  | passing =>
    obtain ⟨_, q, hq⟩ := hagrees
    by_cases hfin : ∃ outcome, q = .finished outcome
    · obtain ⟨outcome, rfl⟩ := hfin
      cases outcome with
      | ok n =>
        exact closer (b := .advance) rfl rfl (.inl rfl) (by simp)
          (by simp only [Process.act, Process.advance, hq]; rfl)
      | error x =>
        exact closer (b := .advance) rfl rfl (.inl rfl) (by simp)
          (by simp only [Process.act, Process.advance, hq]; rfl)
    · obtain ⟨s', hstep⟩ := pass_enabled hs.capacity hq fun outcome h => hfin ⟨outcome, h⟩
      exact closer (b := .worker {}) rfl rfl (.inr rfl) (by simp)
        (by simp only [Process.act, hstep, Option.map_some]; rfl)
  | _ => cases hloop

/-- Nothing but a signal, an interruption or its death ends the loop of a worker: whichever calls
of its passes fail, it stays in the loop, and its next steps take it into another pass. -/
theorem loop_survives (h : Reaches cfg acts f) {p : Process} (hp : f.processes name = some p)
    (hloop : p.point.inLoop = true) (hstop : p.stop = false)
    (hquiet : ∀ a ∈ acts', a.breaks name = false)
    (hrun : Runs.exec (step cfg) f acts' = some f') :
    (∃ p', f'.processes name = some p' ∧ p'.point.inLoop = true ∧ p'.stop = false) ∧
      Runs.CanReach (step cfg) (InTurn name) (AtPass name) f' := by
  obtain ⟨bs, hbs⟩ := h.sys
  have hend : Looping cfg name f' :=
    Runs.invariant (P := fun _ a => a.breaks name = false)
      (fun _ _ _ hs ha hstep => Looping.step hs ha hstep)
      ⟨h.consistent, hbs.withinCapacity name, p, hp, hloop, hstop⟩
      (.of_forall (fun a ha _ => hquiet a ha) f) hrun
  refine ⟨hend.loop, ?_⟩
  exact Runs.CanReach.of_measure (I := Looping cfg name) (fun g => g.left cfg name)
    (fun g hg => hg.turn) hend

end Fleet

def MainPoint.hasExited : MainPoint → Bool
  | exited _ => true
  | _ => false

theorem Fleet.stopped_exits : ∃ f p f', Fleet.Reaches {} (bootAndRead ++ [.process 0 .signal]) f ∧
    f.processes 0 = some p ∧ p.stop = true ∧
    Runs.exec (Fleet.step {}) f (stopAndDrain.tail ++ closeAll) = some f' ∧
    Runs.count (Fleet.step {}) (fun f a => a.isOwn 0 f) f (stopAndDrain.tail ++ closeAll) ≤
      16 + 34 * Settings.slots {} ∧
    (f'.processes 0).map (·.point.hasExited) = some true := by
  obtain ⟨f, hf, hview⟩ := Runs.exec_of_map (Fleet.step {}) {}
    (bootAndRead ++ [.process 0 .signal])
    (fun f => ((f.processes 0).map (·.stop),
      (Runs.exec (Fleet.step {}) f (stopAndDrain.tail ++ closeAll)).map fun f' : Fleet =>
        (f'.processes 0).map (·.point.hasExited)))
    (some true, some (some true)) (by decide +kernel)
  obtain ⟨hstop, hafter⟩ := Prod.mk.inj hview
  obtain ⟨p, hp, hstop⟩ := Option.map_eq_some_iff.mp hstop
  obtain ⟨f', hf', hexited⟩ := Option.map_eq_some_iff.mp hafter
  obtain ⟨hcount, _⟩ := shutdown_terminates hf hp hstop hf'
  exact ⟨f, p, f', hf, hp, hstop, hf', hcount, hexited⟩

def Fleet.bootOnly : List FleetAct :=
  .launch 0 true :: List.replicate 5 (.process 0 (.create false)) ++
    [.process 0 .advance, .process 0 (.worker {}), .process 0 .advance]

/-- A pass that fails at `XAUTOCLAIM`. -/
def Fleet.badPass : List FleetAct :=
  [.process 0 .advance, .process 0 (.worker {}), .process 0 (.worker { fate := .failed }),
    .process 0 .advance]

theorem Fleet.badPass_survived : ∃ f p f', Fleet.Reaches {} bootOnly f ∧
    f.processes 0 = some p ∧ p.point.inLoop = true ∧ p.stop = false ∧
    Runs.exec (Fleet.step {}) f badPass = some f' ∧ f'.sys.passRaised 0 = true ∧
    Runs.CanReach (Fleet.step {}) (InTurn 0) (AtPass 0) f' := by
  obtain ⟨f, hf, hview⟩ := Runs.exec_of_map (Fleet.step {}) {} bootOnly
    (fun f => ((f.processes 0).map fun p => (p.point.inLoop, p.stop),
      (Runs.exec (Fleet.step {}) f badPass).map fun f' : Fleet => f'.sys.passRaised 0))
    (some (true, false), some true) (by decide +kernel)
  obtain ⟨hpoint, hafter⟩ := Prod.mk.inj hview
  obtain ⟨p, hp, hp'⟩ := Option.map_eq_some_iff.mp hpoint
  obtain ⟨hloop, hstop⟩ := Prod.mk.inj hp'
  obtain ⟨f', hf', hraised⟩ := Option.map_eq_some_iff.mp hafter
  have hquiet : ∀ a ∈ badPass, a.breaks 0 = false := by decide
  exact ⟨f, p, f', hf, hp, hloop, hstop, hf', hraised,
    (loop_survives hf hp hloop hstop hquiet hf').2⟩

end InferenceEngine
