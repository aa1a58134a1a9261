import InferenceEngine.Backstop
import InferenceEngine.EndToEnd
import InferenceEngine.Library.Progress

/-!
# Every submitted job can be brought to its end

From every state of an ordinary run, more steps of the same kind lead to the end of a job: its
submission is finished, a further worker reads the entries that wait, the tasks of the read
entries are started and run to their end, and each transient outcome uses up an attempt.
-/

namespace InferenceEngine

set_option autoImplicit false

open Runs

/-- A step of a calm run in which the pipelines have the assigned outcomes. -/
structure Ordinary (f : UUID → Nat → Except Exn (Text × Int)) (s : Sys) (a : Act) : Prop where
  calm : Calm s a
  assigned : Assigned f s a

/-- What holds in every state of an ordinary run. -/
structure Underway (cfg : Settings) (f : UUID → Nat → Except Exn (Text × Int)) (s : Sys) :
    Prop where
  steady : Steady cfg s
  outcomes : Outcomes f s
  spare : ∃ n, ∀ name, n ≤ name → s.stageOf name = none
  staffed : ∀ t τ, s.tasks t = some τ → ∃ p, s.stageOf τ.consumer = some (.looping p)

def Taken (s : Sys) (id : Nat) : Prop := ∃ t τ, s.tasks t = some τ ∧ τ.entry = id

def Handled (s : Sys) (id : Nat) : Prop :=
  ∃ t τ, s.tasks t = some τ ∧ τ.entry = id ∧ τ.body.isDone = true

section
variable {cfg : Settings} {f : UUID → Nat → Except Exn (Text × Int)} {s s' : Sys} {a : Act}
  {name : ConsumerName} {id : Nat}

theorem start_of_step (hcalm : Calm s a) (h : step cfg s a = some s')
    (hnone : s.stageOf name = none) : s'.stageOf name = none ∨ a = .start name := by
  rcases step_stage h name with hsame | ⟨ha, _⟩ | ⟨_, hold, _⟩ |
    ⟨_, _, _, _, _, _, _, hold, _⟩ | ⟨_, _, _, _, _, _, _, hold, _⟩ | ⟨rfl, _⟩
  · exact .inl (hsame.trans hnone)
  · exact .inr ha
  · rcases hold with hold | ⟨_, hold⟩
    · cases hnone.symm.trans hold
    · cases hnone.symm.trans hold
  · cases hnone.symm.trans hold
  · cases hnone.symm.trans hold
  · exact hcalm.calls.elim

theorem looping_of_step (hcalm : Calm s a) (h : step cfg s a = some s')
    (hold : ∃ p, s.stageOf name = some (.looping p)) : ∃ p, s'.stageOf name = some (.looping p) := by
  obtain ⟨p, hp⟩ := hold
  rcases step_stage h name with hsame | ⟨_, hnone, _⟩ | ⟨_, _, hnew⟩ |
    ⟨_, _, _, _, _, _, _, hstarting, _⟩ | ⟨_, _, _, _, _, _, _, _, _, _, _, hnew⟩ | ⟨rfl, _⟩
  · exact ⟨p, hsame.trans hp⟩
  · cases hnone.symm.trans hp
  · exact ⟨_, hnew⟩
  · cases hstarting.symm.trans hp
  · exact ⟨_, hnew⟩
  · exact hcalm.calls.elim

namespace Underway

theorem init : Underway cfg f Sys.init where
  steady := .init
  outcomes := .init f
  spare := ⟨0, fun _ _ => rfl⟩
  staffed := by
    intro t τ htask
    cases htask

theorem step (hs : Underway cfg f s) (ha : Ordinary f s a) (h : step cfg s a = some s') :
    Underway cfg f s' where
  steady := hs.steady.step ha.calm h
  outcomes := hs.outcomes.step hs.steady.regular.coherent ha.assigned h
  spare := by
    obtain ⟨n, hn⟩ := hs.spare
    by_cases hstart : ∃ name, a = .start name
    · obtain ⟨name, rfl⟩ := hstart
      refine ⟨max n (name + 1), fun other hle => ?_⟩
      rcases start_of_step ha.calm h (hn other (le_trans (le_max_left _ _) hle)) with hnone | heq
      · exact hnone
      · cases heq
        exact absurd (le_trans (le_max_right _ _) hle) (Nat.not_succ_le_self name)
    · refine ⟨n, fun other hle => ?_⟩
      rcases start_of_step ha.calm h (hn other hle) with hnone | heq
      · exact hnone
      · exact absurd ⟨other, heq⟩ hstart
  staffed := by
    intro t τ htask
    have old : ∀ u τ₀, s.tasks u = some τ₀ → ∃ p, s'.stageOf τ₀.consumer = some (.looping p) :=
      fun u τ₀ hτ₀ => looping_of_step ha.calm h (hs.staffed u τ₀ hτ₀)
    rcases step_tasks h with ⟨hr, _⟩ | ⟨name, c, w, p, e, _, hw, hstage, _, _, hr⟩ |
      ⟨u, c, name, entry, m, p, e, k, r, s₁, _, hu, _, _, _, hr⟩
    · exact old t τ (hr ▸ htask)
    · rw [hr, Function.update_apply] at htask
      split at htask
      · cases htask
        refine looping_of_step ha.calm h ⟨p, ?_⟩
        rw [Sys.stageOf, hw, Option.map_some, hstage]
      · exact old t τ htask
    · rw [hr, Function.update_apply] at htask
      split at htask
      · cases htask
        exact old u ⟨name, entry, .handling m p⟩ hu
      · exact old t τ htask

theorem exec {acts : List Act} (h : Reaches cfg acts s)
    (hacts : Along (InferenceEngine.step cfg) (Ordinary f) Sys.init acts) : Underway cfg f s :=
  invariant (fun _ _ _ hs ha h => hs.step ha h) .init hacts h

end Underway

theorem Taken.step (hs : Underway cfg f s) (ht : Taken s id) (h : step cfg s a = some s') :
    Taken s' id := by
  obtain ⟨t, τ, htask, hid⟩ := ht
  rcases step_tasks h with ⟨hr, _⟩ | ⟨name, c, w, p, e, _, _, _, _, _, hr⟩ |
    ⟨u, c, name, entry, m, p, e, k, r, s₁, _, hu, _, _, _, hr⟩
  · exact ⟨t, τ, hr ▸ htask, hid⟩
  · refine ⟨t, τ, ?_, hid⟩
    rw [hr, Function.update_of_ne, htask]
    rintro rfl
    cases (hs.steady.regular.coherent.fresh _ le_rfl).symm.trans htask
  · by_cases htu : t = u
    · subst htu
      cases htask.symm.trans hu
      exact ⟨t, ⟨name, entry, .handling m (k r)⟩, by rw [hr, Function.update_self], hid⟩
    · exact ⟨t, τ, by rw [hr, Function.update_of_ne htu, htask], hid⟩

theorem Handled.step (hs : Underway cfg f s) (ht : Handled s id) (h : step cfg s a = some s') :
    Handled s' id := by
  obtain ⟨t, τ, htask, hid, hdone⟩ := ht
  have hnot : a.NotBy t := by
    rintro c rfl
    cases Sys.step_cases h with
    | task t c name entry m p w q e k r s₁ hold hw hstage hnode hperf =>
      cases htask.symm.trans hold
      cases p with
      | finished outcome => cases hnode
      | _ => cases hdone
  exact ⟨t, τ, task_of_notBy hs.steady.regular.coherent hnot h htask, hid, hdone⟩

/-! ### The next step -/

theorem ordinary_worker {c : Choice} (hfate : c.fate = .ok) (htrim : c.trim = 0)
    (hcheck : ∀ e rest, s.stageOf name ≠ some (.looping (.check e rest))) :
    Ordinary f s (.resume (.worker name) c) where
  calm := calm_worker hfate htrim fun e rest hstage => absurd hstage (hcheck e rest)
  assigned := trivial

theorem ordinary_task {t : Nat} {c : Choice} (hfate : c.fate = .ok) (htrim : c.trim = 0)
    (hassigned : Assigned f s (.resume (.task t) c)) : Ordinary f s (.resume (.task t) c) where
  calm := calm_task hfate htrim
  assigned := hassigned

theorem ordinary_submission {id : UUID} : Ordinary f s (.resume (.submission id) {}) where
  calm := calm_submission
  assigned := trivial

theorem ordinary_start : Ordinary f s (.start name) where
  calm := calm_start
  assigned := trivial

theorem ordinary_pass : Ordinary f s (.pass name) where
  calm := calm_pass
  assigned := trivial

theorem canReach_of_pass {Q : Sys → Prop} {p : PassPoint} {e : Effect} {k : e.Reply → PassPoint}
    {r : e.Reply} {s₁ : Sys} (hstage : s.stageOf name = some (.looping p))
    (hcheck : ∀ x rest, p ≠ .check x rest) (hnode : p.node cfg.toBrokerSettings = .await e k)
    (hperf : s.perform cfg (.worker name) {} e = some (r, s₁))
    (rest : CanReach (step cfg) (Ordinary f) Q (s₁.setStage name (.looping (k r)))) :
    CanReach (step cfg) (Ordinary f) Q s := by
  refine .next _ (ordinary_worker rfl rfl fun x xs h => ?_) (step_of_worker hstage hnode hperf) rest
  cases hstage.symm.trans h
  exact hcheck x xs rfl

/-! ### A task ends -/

/-- An upper bound on the steps that the task has left. -/
def Sys.rankOf (s : Sys) (t : Nat) : Nat :=
  match s.tasks t with
  | some { body := .handling _ p, .. } => p.rank
  | _ => 0

theorem Sys.rankOf_eq {t entry : Nat} {m : JobMessage} {p : TaskPoint}
    (h : s.tasks t = some ⟨name, entry, .handling m p⟩) : s.rankOf t = p.rank := by
  simp only [rankOf, h]

theorem TaskPoint.finished_of_rank {p : TaskPoint} (h : p.rank = 0) :
    ∃ outcome, p = .finished outcome := by
  cases p with
  | finished outcome => exact ⟨outcome, rfl⟩
  | _ => cases h

theorem Underway.handles (hs : Underway cfg f s) (ht : Taken s id) :
    CanReach (InferenceEngine.step cfg) (Ordinary f) (Handled · id) s := by
  obtain ⟨t, τ, htask, hid⟩ := ht
  refine .of_measure (I := fun s => Underway cfg f s ∧ ∃ τ, s.tasks t = some τ ∧ τ.entry = id)
    (Sys.rankOf · t) ?_ ⟨hs, τ, htask, hid⟩
  rintro s ⟨hs, ⟨name, entry, body⟩, htask, rfl⟩
  cases body with
  | undecodable x => exact .here (.inl ⟨t, _, htask, rfl, rfl⟩)
  | handling m p =>
    by_cases hp : p.rank = 0
    · obtain ⟨outcome, rfl⟩ := TaskPoint.finished_of_rank hp
      exact .here (.inl ⟨t, _, htask, rfl, rfl⟩)
    · obtain ⟨q, hstage⟩ := hs.staffed t _ htask
      let c : Choice := { outcome := f m.jobId (s.jobView m.jobId).outcomes.length }
      obtain ⟨p', s', hstep, hlt, htask', _⟩ :=
        step_of_task cfg (c := c) rfl htask hstage (Nat.pos_of_ne_zero hp)
      have hord : Ordinary f s (.resume (.task t) c) := by
        refine ordinary_task rfl rfl fun name' entry' m' job htask₀ => ?_
        cases htask.symm.trans htask₀
        rfl
      refine .next _ hord hstep (.here (.inr ⟨⟨hs.step hord hstep, _, htask', rfl⟩, ?_⟩))
      rw [Sys.rankOf_eq htask, Sys.rankOf_eq htask']
      exact hlt

/-! ### A read entry gets its task -/

theorem PassPoint.dispatchNew_of_newEntries {p : PassPoint} {e : StreamEntry}
    {rest : List StreamEntry} (h : p.newEntries = e :: rest) :
    ∃ total, p = .dispatchNew e rest total := by
  cases p with
  | dispatchNew e' rest' total =>
    cases h
    exact ⟨total, rfl⟩
  | _ => cases h

theorem Sys.looping_of_newAt {e : StreamEntry} {rest : List StreamEntry}
    (h : s.newAt name = e :: rest) :
    ∃ total, s.stageOf name = some (.looping (.dispatchNew e rest total)) := by
  unfold newAt at h
  split at h
  · rename_i p hstage
    obtain ⟨total, rfl⟩ := PassPoint.dispatchNew_of_newEntries h
    exact ⟨total, hstage⟩
  · cases h

theorem Underway.dispatches (hs : Underway cfg f s) (he : ∃ e ∈ s.newAt name, e.id = id) :
    CanReach (InferenceEngine.step cfg) (Ordinary f) (Taken · id) s := by
  refine .of_measure (I := fun s => Underway cfg f s ∧ ∃ e ∈ s.newAt name, e.id = id)
    (fun s => (s.newAt name).length) ?_ ⟨hs, he⟩
  rintro s ⟨hs, e, he, hid⟩
  obtain ⟨x, rest, hnew⟩ := List.exists_cons_of_ne_nil (List.ne_nil_of_mem he)
  obtain ⟨total, hstage⟩ := Sys.looping_of_newAt hnew
  have hord : Ordinary f s (.resume (.worker name) {}) := by
    refine ordinary_worker rfl rfl fun y ys h => ?_
    cases hstage.symm.trans h
  have hperf : s.perform cfg (.worker name) {} (.dispatch x.id x.fields) =
      some ((), s.startTask name x.id x.fields) := rfl
  have hstep := step_of_worker hstage rfl hperf
  refine .next _ hord hstep (.here ?_)
  have hstage' : (s.startTask name x.id x.fields).stageOf name ≠ none := by
    rw [(Sys.perform_change hperf).stage name, hstage]
    exact Option.some_ne_none _
  have hnew' := Sys.newAt_setStage _ name name (PassPoint.nextNew total rest) hstage'
  rw [if_pos rfl, (PassPoint.newEntries_nextNew total rest).1] at hnew'
  rw [hnew] at he
  rcases List.mem_cons.mp he with rfl | he
  · exact .inl ⟨s.nextTask, _, Function.update_self _ _ _, hid⟩
  · refine .inr ⟨⟨hs.step hord hstep, e, ?_, hid⟩, ?_⟩
    · rw [hnew']
      exact he
    · rw [hnew, hnew', List.length_cons]
      exact Nat.lt_succ_self _

/-! ### A waiting entry is read -/

/-- The worker stands at this point of a pass with no task in flight; the stream and the group are
those of `s₀`. -/
structure Reader (s₀ : Sys) (name : ConsumerName) (stage : Stage) (s : Sys) : Prop where
  worker : ∃ w, s.workers name = some w ∧ w.stage = stage ∧ w.inFlight = []
  work : s.redis.work = s₀.redis.work
  group : s.redis.group.map (·.lastDelivered) = s₀.redis.group.map (·.lastDelivered)

namespace Reader

variable {s₀ : Sys} {p : PassPoint} {stage : Stage} {Q : Sys → Prop}

theorem stageOf (hr : Reader s₀ name stage s) : s.stageOf name = some stage := by
  obtain ⟨w, hw, rfl, _⟩ := hr.worker
  rw [Sys.stageOf, hw, Option.map_some]

theorem setStage (hr : Reader s₀ name stage s) (stage' : Stage) :
    Reader s₀ name stage' (s.setStage name stage') := by
  obtain ⟨w, hw, _, hflight⟩ := hr.worker
  refine ⟨⟨{ w with stage := stage' }, ?_, rfl, hflight⟩, hr.work, hr.group⟩
  simp [Sys.setStage, hw]

theorem freeCapacity (hr : Reader s₀ name stage s) :
    s.perform cfg (.worker name) {} .freeCapacity = some ((cfg.workerConcurrency : Int), s) := by
  obtain ⟨w, hw, _, hflight⟩ := hr.worker
  simp [Sys.perform, Sys.consumer, hw, hflight]
  rfl

theorem group_eq (hr : Reader s₀ name stage s) {g : Group} (hg : s₀.redis.group = some g) :
    ∃ g', s.redis.group = some g' ∧ g'.lastDelivered = g.lastDelivered := by
  have hgroup := hr.group
  rw [hg, Option.map_some] at hgroup
  exact Option.map_eq_some_iff.mp hgroup

theorem creates (hr : Reader s₀ name (.starting .creating) s) {g : Group}
    (hg : s₀.redis.group = some g) :
    InferenceEngine.step cfg s (.resume (.worker name) {}) =
      some (s.setStage name (.starting (.finished (.ok ())))) := by
  obtain ⟨⟨stage, ids, flight, cursor⟩, hw, rfl, _⟩ := hr.worker
  obtain ⟨g', hg', _⟩ := hr.group_eq hg
  have hperf : s.perform cfg (.worker name) {} .xgroupCreate = some (.error (.redis .busyGroup), s) := by
    simp [Sys.perform, Sys.createGroup, hg', Choice.reply]
    rfl
  simp only [InferenceEngine.step, Sys.resume, hw]
  exact Sys.await_eq_some.mpr ⟨_, _, _, s, rfl, hperf, rfl⟩

theorem passes (hr : Reader s₀ name (.starting (.finished (.ok ()))) s) :
    InferenceEngine.step cfg s (.pass name) = some (s.setStage name (.looping .reclaimCapacity)) := by
  obtain ⟨⟨stage, ids, flight, cursor⟩, hw, rfl, _⟩ := hr.worker
  simp only [InferenceEngine.step, hw]

theorem claims (cfg : Settings) (hr : Reader s₀ name stage s) {g : Group}
    (hg : s₀.redis.group = some g) (n : Int) (hn : 0 ≤ n) :
    ∃ s₁, s.perform cfg (.worker name) {} (.xautoclaim n) = some (.ok [], s₁) ∧
      Reader s₀ name stage s₁ := by
  obtain ⟨w, hw, hstage, hflight⟩ := hr.worker
  obtain ⟨g', hg', hlast⟩ := hr.group_eq hg
  have hallowed : g'.claimAllowed (((s.workers name).map (·.reclaimCursor)).getD 0) n [] = true := by
    simpa [Group.claimAllowed] using hn
  refine ⟨(s.claimEntries name g' []).2.modifyWorker name fun w => { w with reclaimCursor := 0 }, ?_, ?_⟩
  · simp only [Sys.perform, Sys.consumer, hg', hallowed, if_true]
    rfl
  · refine ⟨⟨{ w with reclaimCursor := 0 }, ?_, hstage, hflight⟩, hr.work, ?_⟩
    · simp [Sys.claimEntries, Sys.setGroup, hw]
    · simp [Sys.claimEntries, Sys.setGroup, hg, hlast]

theorem canReach_read (hr : Reader s₀ name (.looping .reclaimCapacity) s) {g : Group}
    (hg : s₀.redis.group = some g) (hpos : 0 < cfg.workerConcurrency)
    (hQ : ∀ t, Reader s₀ name (.looping (.read cfg.workerConcurrency)) t →
      CanReach (InferenceEngine.step cfg) (Ordinary f) Q t) :
    CanReach (InferenceEngine.step cfg) (Ordinary f) Q s := by
  have hnot : ¬ cfg.workerConcurrency ≤ 0 := not_le.mpr hpos
  refine canReach_of_pass hr.stageOf (by simp) rfl hr.freeCapacity ?_
  rw [if_neg hnot]
  have hr₁ := hr.setStage (.looping (.autoclaim cfg.workerConcurrency))
  obtain ⟨s₂, hperf, hr₂⟩ := hr₁.claims cfg hg cfg.workerConcurrency hpos.le
  refine canReach_of_pass hr₁.stageOf (by simp) rfl hperf ?_
  have hr₃ := hr₂.setStage (.looping .readCapacity)
  refine canReach_of_pass hr₃.stageOf (by simp) rfl hr₃.freeCapacity ?_
  rw [if_neg hnot]
  exact hQ _ (hr₃.setStage _)

end Reader

/-- What the group has to pass before it has passed the entry. -/
def Sys.backlog (s : Sys) (id : Nat) : Nat := id - (s.redis.group.map (·.lastDelivered)).getD 0

theorem Group.lt_deliver {g : Group} {st : Stream} {e : StreamEntry} {n : Nat} (hn : 0 < n)
    (he : e ∈ g.unread st) :
    g.lastDelivered < (g.deliver name ((g.unread st).take n)).lastDelivered := by
  have hne : (g.unread st).take n ≠ [] := by
    intro hnil
    rcases List.take_eq_nil_iff.mp hnil with hzero | hnil
    · omega
    · rw [hnil] at he
      cases he
  obtain ⟨last, hlast⟩ := Option.ne_none_iff_exists'.mp fun h => hne (List.getLast?_eq_none_iff.mp h)
  have hmem := List.mem_of_getLast? hlast
  simp only [deliver, hlast, Option.map_some, Option.getD_some]
  exact Group.lt_of_mem_unread hmem

theorem Underway.reads (hs : Underway cfg f s) {g : Group} {e : StreamEntry}
    (hg : s.redis.group = some g) (hpos : 0 < cfg.workerConcurrency)
    (he : e ∈ g.unread s.redis.work) :
    CanReach (InferenceEngine.step cfg) (Ordinary f) (fun t => t.redis.work = s.redis.work ∧
      ∃ g', t.redis.group = some g' ∧ g.lastDelivered < g'.lastDelivered) s := by
  obtain ⟨name, hname⟩ := hs.spare
  have hfresh : s.workers name = none := Option.map_eq_none_iff.mp (hname name le_rfl)
  let s₁ : Sys :=
    { s with workers := Function.update s.workers name (some { stage := .starting .creating }) }
  have hstep : InferenceEngine.step cfg s (.start name) = some s₁ := by
    simp only [InferenceEngine.step, hfresh, Option.isNone_none, if_true]
    rfl
  refine .next _ ordinary_start hstep ?_
  have hr₁ : Reader s name (.starting .creating) s₁ :=
    ⟨⟨_, Function.update_self _ _ _, rfl, rfl⟩, rfl, rfl⟩
  refine .next _ (ordinary_worker rfl rfl fun x xs h => ?_) (hr₁.creates hg) ?_
  · cases hr₁.stageOf.symm.trans h
  have hr₂ := hr₁.setStage (.starting (.finished (.ok ())))
  refine .next _ ordinary_pass hr₂.passes ?_
  refine (hr₂.setStage (.looping .reclaimCapacity)).canReach_read hg hpos fun t hr => ?_
  obtain ⟨g', hg', hlast⟩ := hr.group_eq hg
  have hperf : t.perform cfg (.worker name) {} (.xreadgroup cfg.workerConcurrency) =
      some (.ok (t.readGroup name g' cfg.workerConcurrency).1,
        (t.readGroup name g' cfg.workerConcurrency).2) := by
    simp only [Sys.perform, Sys.consumer, hg']
    rfl
  refine canReach_of_pass hr.stageOf (by simp) rfl hperf (.here ⟨hr.work, _, rfl, ?_⟩)
  have hunread : e ∈ g'.unread t.redis.work := by
    rw [Group.unread, hlast, hr.work]
    exact he
  rw [← hlast]
  exact Group.lt_deliver (Int.lt_toNat.mpr hpos) hunread

theorem Underway.takes (hs : Underway cfg f s) (hpos : 0 < cfg.workerConcurrency)
    (hentry : ∃ e ∈ s.redis.work.entries, e.id = id) :
    CanReach (InferenceEngine.step cfg) (Ordinary f) (Taken · id) s := by
  refine .of_measure (I := fun s => Underway cfg f s ∧ ∃ e ∈ s.redis.work.entries, e.id = id)
    (Sys.backlog · id) ?_ ⟨hs, hentry⟩
  rintro s ⟨hs, e, he, rfl⟩
  by_cases hpassed : s.redis.passed e.id = true
  · obtain ⟨h, hheld⟩ := hs.steady.custody.held e he hpassed
    cases h with
    | pass name => exact (hs.dispatches hheld).mono fun t ht => .inl ht
    | task t => exact .here (.inl ⟨t, hheld⟩)
  · obtain ⟨g, hg⟩ : ∃ g, s.redis.group = some g := by
      refine Option.ne_none_iff_exists'.mp fun hnone => ?_
      rw [(hs.steady.undisturbed.closed hnone).1] at he
      cases he
    have hlt : g.lastDelivered < e.id := by
      simpa [Redis.passed, hg] using hpassed
    have hread := hs.reads hg hpos (List.mem_filter.mpr ⟨he, decide_eq_true hlt⟩)
    refine (hread.keep (fun _ _ _ hs ha h => hs.step ha h) hs).mono ?_
    rintro t ⟨ht, hwork, g', hg', hmore⟩
    refine .inr ⟨⟨ht, e, hwork ▸ he, rfl⟩, ?_⟩
    simp only [Sys.backlog, hg, hg', Option.map_some, Option.getD_some]
    omega

/-! ### Rounds -/

theorem canReach_publish {j : UUID} {job : InferenceJob} {left : Nat}
    (hsub : s.submissions j = some (job, .publishing left)) (hid : job.id = j) :
    CanReach (step cfg) (Ordinary f) (fun t => (t.jobView j).messages ≠ []) s := by
  let fields := (JobMessage.firstDelivery job).toFields
  refine .next _ ordinary_submission (step_publishes cfg hsub) (.here ?_)
  have hentries := Sys.entries_appendWork s (some (.submission j)) fields
  show messagesFor j (s.appendWork (some (.submission j)) fields 0).redis.work.entries ≠ []
  rw [hentries, messagesFor_append]
  simp [fields, messageFor_toFields, JobMessage.firstDelivery, hid]

theorem Underway.publishes (hs : Underway cfg f s) {j : UUID} (hsub : s.submissions j ≠ none) :
    CanReach (InferenceEngine.step cfg) (Ordinary f) (fun t => (t.jobView j).messages ≠ []) s := by
  cases hs.steady.journeys j with
  | absent hnone => exact absurd hnone hsub
  | adding job hadding hid hnew hrow hempty =>
    have hstep := step_adds cfg hadding (hid ▸ hrow)
    have hsub' : ∀ t : Sys, (t.setSubmission job (.publishing (cfg.retryMaxAttempts - 1))).submissions j =
        some (job, .publishing (cfg.retryMaxAttempts - 1)) := by
      subst hid
      exact fun t => Function.update_self _ _ _
    exact .next _ ordinary_submission hstep (canReach_publish (hsub' _) hid)
  | publishing job left hpublishing hid => exact canReach_publish hpublishing hid
  | travels job hfinished past last hv =>
    refine .here ?_
    rw [hv.messages]
    simp

theorem Underway.travels (hs : Underway cfg f s) {j : UUID} (hne : (s.jobView j).messages ≠ []) :
    (∃ job, s.submissions j = some (job, .finished (.ok j))) ∧
      ∃ past last, (s.jobView j).Travels cfg.toBrokerSettings j past last := by
  cases hs.steady.journeys j with
  | absent _ _ hempty | adding _ _ _ _ _ hempty | publishing _ _ _ _ _ _ hempty =>
    exact absurd hempty.messages hne
  | travels job hsub past last hv => exact ⟨⟨job, hsub⟩, past, last, hv⟩

/-- When the tasks of all entries of a job have ended, the job is over. -/
theorem Underway.over (hs : Underway cfg f s) {j : UUID} (hne : (s.jobView j).messages ≠ [])
    (hdone : ∀ x ∈ (s.jobView j).messages, Handled s x.1) : Over s j where
  submitted := by
    obtain ⟨⟨job, hsub⟩, _⟩ := hs.travels hne
    exact ⟨job, _, hsub⟩
  handled := by
    intro e he m hm
    obtain ⟨hfields, hjob⟩ := messageFor_eq_some.mp hm
    obtain ⟨t, ⟨name, entry, body⟩, htask, hid, hended⟩ :=
      hdone (e.id, m) (mem_messagesFor.mpr ⟨e, he, rfl, hfields, hjob⟩)
    obtain ⟨e', he', m', hid', hfields', hmessage⟩ := hs.steady.custody.tasks t _ htask
    obtain rfl : e' = e := hs.steady.regular.retained.window.unique he' he (hid'.trans hid)
    obtain rfl : m' = m := Except.ok.inj (hfields'.symm.trans hfields)
    cases body with
    | undecodable x => cases hmessage
    | handling m₀ p =>
      obtain rfl : m₀ = m' := Option.some.inj hmessage
      cases p with
      | finished outcome => exact ⟨t, name, outcome, hid' ▸ htask⟩
      | _ => cases hended

theorem messages_grow {j : UUID} (h : s.redis.work.entries <+: s'.redis.work.entries) :
    (s.jobView j).messages <+: (s'.jobView j).messages :=
  h.filterMap _

theorem entries_grow (hcalm : Calm s a) (h : step cfg s a = some s') :
    s.redis.work.entries <+: s'.redis.work.entries := by
  rcases work_of_calm hcalm h with hwork | ⟨m, hentries, _⟩
  · rw [hwork]
  · rw [hentries]
    exact List.prefix_append _ _

theorem taken_of_last {j : UUID} {past : List (Nat × JobMessage)} {last : Nat × JobMessage}
    (hv : (s.jobView j).Travels cfg.toBrokerSettings j past last)
    (hlast : Taken s last.1) {x : Nat × JobMessage} (hx : x ∈ (s.jobView j).messages) :
    Taken s x.1 := by
  rw [hv.messages] at hx
  rcases List.mem_append.mp hx with hpast | hx
  · obtain ⟨t, y, hy, hentry, _⟩ := hv.handed x hpast
    obtain ⟨name, htask, _⟩ := Sys.handlingOf_eq_some.mp hy
    exact ⟨t, _, htask, hentry⟩
  · rw [List.mem_singleton.mp hx]
    exact hlast

/-- The job is over, or it has got another attempt. -/
def Advanced (cfg : Settings) (f : UUID → Nat → Except Exn (Text × Int)) (j : UUID)
    (n : Nat) (s : Sys) : Prop :=
  Over s j ∨ (Underway cfg f s ∧ n < (s.jobView j).messages.length)

theorem Underway.advances (hs : Underway cfg f s) (hpos : 0 < cfg.workerConcurrency) {j : UUID}
    (hne : (s.jobView j).messages ≠ []) :
    CanReach (InferenceEngine.step cfg) (Ordinary f)
      (Advanced cfg f j (s.jobView j).messages.length) s := by
  have kept : ∀ t a t', (Underway cfg f t ∧ s.redis.work.entries <+: t.redis.work.entries) →
      Ordinary f t a → InferenceEngine.step cfg t a = some t' →
      Underway cfg f t' ∧ s.redis.work.entries <+: t'.redis.work.entries :=
    fun t a t' ht ha h => ⟨ht.1.step ha h, ht.2.trans (entries_grow ha.calm h)⟩
  have grown : ∀ t, Underway cfg f t → s.redis.work.entries <+: t.redis.work.entries →
      Advanced cfg f j (s.jobView j).messages.length t ∨
        (t.jobView j).messages = (s.jobView j).messages := by
    intro t ht hprefix
    have hmessages := messages_grow (j := j) hprefix
    rcases Nat.lt_or_eq_of_le hmessages.length_le with hlt | heq
    · exact .inl (.inr ⟨ht, hlt⟩)
    · exact .inr (hmessages.eq_of_length heq).symm
  obtain ⟨_, past, last, hv⟩ := hs.travels hne
  have hlast : ∃ e ∈ s.redis.work.entries, e.id = last.1 := by
    have hmem : last ∈ (s.jobView j).messages :=
      hv.messages ▸ List.mem_append_right _ (List.mem_singleton_self _)
    obtain ⟨e, he, hid, _⟩ := mem_messagesFor.mp hmem
    exact ⟨e, he, hid⟩
  refine ((hs.takes hpos hlast).keep kept ⟨hs, List.prefix_rfl⟩).bind ?_
  rintro t ⟨⟨ht, hprefix⟩, htaken⟩
  rcases grown t ht hprefix with hdone | hsame
  · exact .here hdone
  · obtain ⟨_, past', last', hv'⟩ := ht.travels (hsame ▸ hne)
    have hmessages := hv'.messages.symm.trans (hsame.trans hv.messages)
    obtain ⟨_, hlasts⟩ := List.append_inj' hmessages rfl
    obtain rfl : last' = last := (List.cons.inj hlasts).1
    have hall : ∀ x ∈ (s.jobView j).messages, Taken t x.1 :=
      fun x hx => taken_of_last hv' htaken (hsame ▸ hx)
    refine ((CanReach.forall_mem (fun _ _ _ hu ha h => hu.step ha h)
      (fun x _ _ _ hu hx _ h => hx.step hu h) (fun x _ _ _ hu hx _ h => hx.step hu h)
      (fun x _ hu hx => hu.handles hx) _ ht hall).keep kept ⟨ht, hprefix⟩).mono ?_
    rintro u ⟨⟨hu, hprefix'⟩, hhandled⟩
    rcases grown u hu hprefix' with hdone | hsame'
    · exact hdone
    · exact .inl (hu.over (hsame' ▸ hne) (hsame' ▸ hhandled))

theorem Underway.concludes (hs : Underway cfg f s) (hpos : 0 < cfg.workerConcurrency) {j : UUID}
    (hsub : s.submissions j ≠ none) :
    CanReach (InferenceEngine.step cfg) (Ordinary f) (Over · j) s := by
  refine ((hs.publishes hsub).keep (fun _ _ _ hs ha h => hs.step ha h) hs).bind fun t ht => ?_
  refine .of_measure (I := fun s => Underway cfg f s ∧ (s.jobView j).messages ≠ [])
    (fun s => cfg.budget - (s.jobView j).messages.length) ?_ ht
  rintro u ⟨hu, hne⟩
  refine (hu.advances hpos hne).mono ?_
  rintro v (hover | ⟨hv, hmore⟩)
  · exact .inl hover
  · have hne' : (v.jobView j).messages ≠ [] := by
      intro hnil
      rw [hnil] at hmore
      cases hmore
    refine .inr ⟨⟨hv, hne'⟩, ?_⟩
    obtain ⟨_, past, last, htravels⟩ := hv.travels hne'
    have hwithin := htravels.within
    have hlength : (v.jobView j).messages.length = past.length + 1 := by
      rw [htravels.messages, List.length_append, List.length_singleton]
    omega

/-- A job whose entries have all been handled has made its attempts, and every submitted job can
be brought that far. -/
theorem attempts_conclude {acts : List Act} {j : UUID} (h : Reaches cfg acts s)
    (hacts : Along (step cfg) (Ordinary f) Sys.init acts) :
    (Over s j → ∃ k, Retries.LastTry isTransient (f j) cfg.budget k ∧ Concluded (f j) s j k) ∧
    (s.submissions j ≠ none → 0 < cfg.workerConcurrency →
      ∃ later t, exec (step cfg) s later = some t ∧ Along (step cfg) (Ordinary f) s later ∧
        Over t j) := by
  have hs := Underway.exec h hacts
  refine ⟨fun hover => hover.concluded hs.steady hs.outcomes, fun hsub hpos => ?_⟩
  exact (hs.concludes hpos hsub).exists_run

end

/-- The first attempt of every job fails, the next one succeeds. -/
def firstFails : Nat → Except Exn (Text × Int)
  | 0 => .error (.transient [])
  | _ + 1 => .ok ([], 0)

def opened : List Act := boot 0 ++ [.submit .ragQuery [] 7 0 0]

theorem attempts_conclude_firstFails : ∃ acts s, Reaches {} acts s ∧
    Along (step {}) (Ordinary fun _ => firstFails) Sys.init acts ∧ Concluded firstFails s 7 2 := by
  obtain ⟨s, hs, hsub⟩ := Runs.exec_of_map (step {}) Sys.init opened
    (fun s => (s.submissions 7).isSome) true rfl
  have halong : Along (step {}) (Ordinary fun _ => firstFails) Sys.init opened := by
    refine ⟨ordinary_start, fun t ht => ?_⟩
    obtain rfl := Option.some.inj ht
    refine ⟨ordinary_worker rfl rfl nofun, fun u hu => ?_⟩
    obtain rfl := Option.some.inj hu
    refine ⟨⟨⟨trivial, rfl, by simp, ?_, by simp⟩, trivial⟩, fun _ _ => trivial⟩
    exact fun _ _ _ _ _ _ => Option.some_ne_none _
  obtain ⟨later, t, hexec, hlater, hover⟩ := (attempts_conclude (j := 7) hs halong).2
    (Option.isSome_iff_ne_none.mp hsub) (by decide)
  have hall : Reaches {} (opened ++ later) t := exec_append_iff.mpr ⟨s, hs, hexec⟩
  have halongs : Along (step {}) (Ordinary fun _ => firstFails) Sys.init (opened ++ later) := by
    refine halong.append fun u hu => ?_
    obtain rfl := Option.some.inj (hs.symm.trans hu)
    exact hlater
  obtain ⟨k, hk, hconcluded⟩ := (attempts_conclude hall halongs).1 hover
  have htwo : Retries.LastTry isTransient firstFails 3 2 := by
    refine ⟨by decide, by decide, fun i hi => ?_, nofun⟩
    obtain rfl : i = 0 := by omega
    rfl
  obtain rfl : k = 2 := hk.unique htwo
  exact ⟨_, t, hall, halongs, hconcluded⟩

end InferenceEngine
