import InferenceEngine.Backstop
import InferenceEngine.DeadLetters
import InferenceEngine.Schema

/-!
# Redelivery of a finished job

The guard lets a delivery of a finished job acknowledge its entry and do nothing else. The
verdict on an entry that was delivered too often comes before the guard.
-/

namespace InferenceEngine

set_option autoImplicit false

variable {V : Type}

def EntryFor (j : UUID) (x : StreamEntry) : Prop :=
  ∃ m, JobMessage.fromFields x.fields = .ok m ∧ m.jobId = j

/-- The worker is about to dead-letter an over-delivered entry of the job. -/
def DeadLettering (j : UUID) (name : ConsumerName) (s : Sys) : Prop :=
  ∃ x m deliveries rest, s.stageOf name = some (.looping (.poison x m deliveries rest)) ∧
    EntryFor j x

/-- An action that deals with a delivery of entry `id` of the job: of the pass that holds the
entry, of its task or of its pipeline. The first `n` tasks are earlier deliveries. -/
def DeliveryStep (j : UUID) (n id : Nat) (e : Engine V) : EngineAct V → Prop
  | .base (.resume (.worker name) _) => ∃ p x, e.sys.stageOf name = some (.looping p) ∧
    p.entries.head? = some x ∧ EntryFor j x ∧ x.id = id
  | .base (.resume (.task t) _) | .call t _ | .finish t _ _ => n ≤ t ∧ ∃ name m p,
    e.sys.tasks t = some ⟨name, id, .handling m p⟩ ∧ m.jobId = j
  | _ => False

def EngineAct.answered : EngineAct V → Prop
  | .base (.resume _ c) => c.fate = .ok
  | _ => True

/-- The deliveries of the job find its row terminal and their calls answered; no worker dies
between its verdict and the dead-letter append. -/
structure Redelivered (j : UUID) (n : Nat) (e : Engine V) (a : EngineAct V) : Prop where
  answered : ∀ id, DeliveryStep j n id e a → a.answered
  terminal : ∀ id, DeliveryStep j n id e a → ∃ row, e.sys.rows j = some row ∧ row.isTerminal = true
  alive : ∀ name, a = .base (.crash name) → ¬ DeadLettering j name e.sys

/-- Nothing has changed but the pending entry. -/
structure Untouched (id : Nat) (e e' : Engine V) : Prop where
  rows : e'.sys.rows = e.sys.rows
  objects : e'.stores.objects = e.stores.objects
  vectors : e'.stores.vectors = e.stores.vectors
  work : e'.sys.redis.work = e.sys.redis.work
  dlq : e'.sys.redis.dlq = e.sys.redis.dlq
  pending : ∀ other, other ≠ id →
    e'.sys.redis.timesDelivered other = e.sys.redis.timesDelivered other

/-- The redeliveries of the job change nothing but their pending entries, which are removed. -/
structure NoOp (cfg : EngineSettings) (j : UUID) (n : Nat) (e : Engine V) (acts : List (EngineAct V))
    (e' : Engine V) : Prop where
  untouched : Runs.Along (Engine.step cfg)
    (fun u a => ∀ id u', DeliveryStep j n id u a → u.step cfg a = some u' → Untouched id u u') e acts
  removed : ∀ t name id m outcome, n ≤ t →
    e'.sys.tasks t = some ⟨name, id, .handling m (.finished outcome)⟩ → m.jobId = j →
    e'.sys.redis.isPending id = false

/-- A verdict on an entry of the job does not find it over-delivered. -/
def WithinLimit (cfg : EngineSettings) (j : UUID) (e : Engine V) (a : EngineAct V) : Prop :=
  ∀ name c x rest, a = .base (.resume (.worker name) c) →
    e.sys.stageOf name = some (.looping (.query x rest)) → EntryFor j x →
    ((e.sys.redis.timesDelivered x.id).getD 0 : Nat) ≤ cfg.maxDeliveryCount

/-- Where a handler of a finished job may stand; from its release on its entry is not pending. -/
def SkipPoint (s : Sys) (id : Nat) : TaskPoint → Prop
  | .guard | .skipAck => True
  | .release _ | .finished _ => s.redis.isPending id = false
  | _ => False

def Skips (j : UUID) (n : Nat) (s : Sys) : Prop :=
  ∀ t name id m p, n ≤ t → s.tasks t = some ⟨name, id, .handling m p⟩ → m.jobId = j →
    SkipPoint s id p

/-- An effect that changes no store, and the pending list at one entry only. -/
def Effect.Harmless (id : Nat) : Effect → Prop
  | .get _ | .xpending _ | .inFlight _ | .dispatch _ _ | .discard _ => True
  | .xack id' => id' = id
  | _ => False

section
variable {cfg : Settings} {s s' : Sys} {a : Act} {j : UUID} {n : Nat}

theorem Sys.timesDelivered_ackEntry (s : Sys) (who : Actor) {id other : Nat} (h : other ≠ id) :
    (s.ackEntry who id).redis.timesDelivered other = s.redis.timesDelivered other := by
  cases hg : s.redis.group with
  | none => simp [ackEntry, Redis.timesDelivered, hg]
  | some g => simp [ackEntry, Redis.timesDelivered, hg, Group.timesDelivered_ack, h]

theorem Sys.not_pending_ackEntry (s : Sys) (who : Actor) (id : Nat) :
    (s.ackEntry who id).redis.isPending id = false := by
  cases hg : s.redis.group <;> simp [Redis.isPending, ackEntry, hg, Group.isPending_ack]

theorem untouched_of_change (running : Nat → Option (PipelineRun V Text)) (stores : Stores V)
    {who : Actor} {c : Choice} {f : Effect} {id : Nat} (hf : f.Harmless id)
    (h : Sys.Change cfg who c s f s') :
    Untouched id ⟨s, running, stores⟩ ⟨s', running, stores⟩ := by
  cases h with
  | refl => exact ⟨rfl, rfl, rfl, rfl, rfl, fun _ _ => rfl⟩
  | ack =>
    obtain rfl : _ = id := hf
    exact ⟨rfl, rfl, rfl, rfl, rfl, fun _ hne => s.timesDelivered_ackEntry who hne⟩
  | start => exact ⟨rfl, rfl, rfl, rfl, rfl, fun _ _ => rfl⟩
  | discard => exact ⟨rfl, rfl, rfl, rfl, rfl, fun _ _ => rfl⟩
  | _ => exact absurd hf not_false

theorem SkipPoint.harmless {cfg : BrokerSettings} {id : Nat} {m : JobMessage} {p : TaskPoint}
    {e : Effect} {k : e.Reply → TaskPoint} (hp : SkipPoint s id p)
    (hnode : p.node cfg id m = .await e k) : e.Harmless id := by
  cases p with
  | guard | release outcome =>
    cases hnode
    exact trivial
  | skipAck =>
    cases hnode
    exact rfl
  | finished outcome => cases hnode
  | _ => exact absurd hp not_false

theorem PassPoint.harmless {cfg : BrokerSettings} {p : PassPoint} {x : StreamEntry}
    {e : Effect} {k : e.Reply → PassPoint} (hhead : p.entries.head? = some x)
    (hpoison : ∀ m deliveries rest, p ≠ .poison x m deliveries rest)
    (hnode : p.node cfg = .await e k) : e.Harmless x.id := by
  cases p with
  | check y rest | query y rest | dispatchClaimed y rest | dispatchNew y rest total =>
    cases hnode
    exact trivial
  | poisonAck y rest =>
    cases hnode
    cases hhead
    exact rfl
  | poison y m deliveries rest =>
    cases hhead
    exact absurd rfl (hpoison m deliveries rest)
  | _ => cases hhead

theorem SkipPoint.next {t : Nat} {c : Choice} {id : Nat} {m : JobMessage} {p : TaskPoint}
    {e : Effect} {k : e.Reply → TaskPoint} {r : e.Reply} {s₁ : Sys} {row : InferenceJob}
    (hc : c.fate = .ok) (hrow : s.rows m.jobId = some row) (hterm : row.isTerminal = true)
    (hp : SkipPoint s id p) (hnode : p.node cfg.toBrokerSettings id m = .await e k)
    (hperf : s.perform cfg (.task t) c e = some (r, s₁)) : SkipPoint s₁ id (k r) := by
  cases p with
  | guard =>
    cases hnode
    obtain ⟨rfl, rfl⟩ := Sys.perform_get_ok hc hperf hrow
    simp only [TaskPoint.afterGuard, hterm, if_true]
    trivial
  | skipAck =>
    cases hnode
    obtain ⟨rfl, rfl⟩ := Sys.perform_xack_ok hc hperf
    exact s.not_pending_ackEntry _ id
  | release outcome =>
    cases hnode
    cases Sys.perform_change hperf with
    | refl => exact hp
    | discard => exact hp
  | finished outcome => cases hnode
  | _ => exact absurd hp not_false

theorem Skips.of_new (hs : Coherent s) : Skips j s.nextTask s := by
  intro t name id m p ht htask _
  cases (hs.fresh t ht).symm.trans htask

theorem Skips.step (hreg : Regular cfg s) (hs : Skips j n s)
    (hown : ∀ t c name id m p, a = .resume (.task t) c → n ≤ t →
      s.tasks t = some ⟨name, id, .handling m p⟩ → m.jobId = j →
      c.fate = .ok ∧ ∃ row, s.rows j = some row ∧ row.isTerminal = true)
    (h : step cfg s a = some s') : Skips j n s' := by
  intro t name id m p ht htask hj
  rcases handling_of_step h htask with hold | rfl | ⟨c, q, f, k, r, s₁, rfl, hold, _, _, _⟩
  · have hskip := hs t name id m p ht hold hj
    have hpass := hreg.passed.tasks t _ hold
    cases p with
    | guard | skipAck => trivial
    | release outcome | finished outcome => exact not_pending_of_step h hpass hskip
    | _ => exact absurd hskip not_false
  · trivial
  · obtain ⟨hc, row, hrow, hterm⟩ := hown t c name id m q rfl ht hold hj
    cases Sys.step_cases h with
    | task t c name' id' m' q' w stage f k r s₁ hold' hw hstage hnode hperf =>
      cases hold.symm.trans hold'
      rw [Sys.setTask_tasks, Function.update_self] at htask
      cases htask
      have hnext := (hs t name id m q ht hold hj).next hc (hj ▸ hrow) hterm hnode hperf
      exact hnext

theorem not_deadLettering_of_step
    (hlimit : ∀ name c x rest, a = .resume (.worker name) c →
      s.stageOf name = some (.looping (.query x rest)) → EntryFor j x →
      ((s.redis.timesDelivered x.id).getD 0 : Nat) ≤ cfg.maxDeliveryCount)
    (hs : ∀ name, ¬ DeadLettering j name s) (h : step cfg s a = some s') :
    ∀ name, ¬ DeadLettering j name s' := by
  rintro name ⟨x, m, deliveries, rest, hstage, hfor⟩
  rcases step_stage h name with hr | ⟨_, _, hr⟩ | ⟨_, _, hr⟩ | ⟨_, _, _, _, _, _, _, _, _, _, _, hr⟩ |
    ⟨c, q, e, k, r, s₁, ha, hold, hnode, hperf, _, hr⟩ | ⟨_, hr⟩
  · exact hs name ⟨x, m, deliveries, rest, hr ▸ hstage, hfor⟩
  · cases hr.symm.trans hstage
  · cases hr.symm.trans hstage
  · cases hr.symm.trans hstage
  · have hk : k r = .poison x m deliveries rest :=
      Stage.looping.inj (Option.some.inj (hr.symm.trans hstage))
    cases q with
    | query y rest' =>
      cases hnode
      rcases r with z | pending
      · cases hk
      · obtain ⟨_, hpending⟩ := Sys.perform_xpending_ok hperf
        simp only [PassPoint.afterQuery] at hk
        split at hk
        · rename_i hover
          split at hk
          · cases hk
            have hle := hlimit name c x rest ha hold hfor
            rw [← hpending] at hle
            omega
          · cases hk
        · cases hk
    | reclaimCapacity | readCapacity =>
      cases hnode
      change Int at r
      by_cases hr : r ≤ 0 <;> simp [hr] at hk
    | autoclaim count =>
      cases hnode
      rcases r with z | es
      · cases hk
      · cases es <;> cases hk
    | check y rest' =>
      cases hnode
      change Bool at r
      cases r
      · cases hk
      · cases rest' <;> cases hk
    | dispatchClaimed y rest' =>
      cases hnode
      cases rest' <;> cases hk
    | poison y m' d rest' =>
      cases hnode
      rcases r with z | u
      · cases z <;> cases hk
      · cases hk
    | poisonAck y rest' =>
      cases hnode
      rcases r with z | u
      · cases hk
      · cases rest' <;> cases hk
    | read count =>
      cases hnode
      rcases r with z | es
      · cases hk
      · cases es <;> cases hk
    | dispatchNew y rest' total =>
      cases hnode
      cases rest' <;> cases hk
    | finished outcome => cases hnode
  · cases hr.symm.trans hstage

theorem deadLettering_of_verdict {name : ConsumerName} {c : Choice} {x : StreamEntry}
    {rest : List StreamEntry} (hreg : Regular cfg s) (hc : c.fate = .ok)
    (hstage : s.stageOf name = some (.looping (.query x rest))) (hfor : EntryFor j x)
    (hover : cfg.maxDeliveryCount < ((s.redis.timesDelivered x.id).getD 0 : Nat))
    (h : step cfg s (.resume (.worker name) c) = some s') : DeadLettering j name s' := by
  obtain ⟨e, k, r, s₁, hnode, hperf, _, hstage'⟩ := pass_of_step hstage h
  cases hnode
  have hpass := hreg.passed.passes name _ hstage x List.mem_cons_self
  cases hg : s.redis.group with
  | none => simp [Redis.passed, hg] at hpass
  | some g =>
    obtain ⟨pending, rfl⟩ := Sys.perform_xpending_arrives hc hg hperf
    obtain ⟨_, rfl⟩ := Sys.perform_xpending_ok hperf
    obtain ⟨m, hm, hj⟩ := hfor
    simp only [PassPoint.afterQuery, if_pos hover, hm] at hstage'
    exact ⟨x, m, _, rest, hstage', m, hm, hj⟩

end

namespace Engine

section
variable {cfg : EngineSettings} {e e' : Engine V} {a : EngineAct V} {acts : List (EngineAct V)}
  {j : UUID} {n : Nat}

theorem skips_of_step (hreg : e.Regular cfg) (hs : Skips j n e.sys) (hP : Redelivered j n e a)
    (h : e.step cfg a = some e') : Skips j n e'.sys := by
  cases step_cases h with
  | base b s hfree hstep =>
    refine hs.step hreg.sys ?_ hstep
    rintro t c name id m p rfl ht htask hj
    have hown : DeliveryStep j n id e (.base (.resume (.task t) c)) := ⟨ht, name, m, p, htask, hj⟩
    exact ⟨hP.answered id hown, hP.terminal id hown⟩
  | call t c call k hleft => exact hs
  | finish t ms now r s hleft hstep =>
    refine hs.step hreg.sys ?_ hstep
    rintro t' c name id m p ha ht htask hj
    cases ha
    obtain ⟨_, _, _, job, _, hrun, _⟩ := pipelineOf_eq_some.mp hleft
    cases htask.symm.trans hrun
    exact absurd (hs t name id m _ ht htask hj) not_false

/-- A step of a redelivery that skips and does not dead-letter changes its pending entry only. -/
theorem untouched_of_step (hs : Skips j n e.sys) (hidle : ∀ name, ¬ DeadLettering j name e.sys)
    {id : Nat} (hown : DeliveryStep j n id e a) (h : e.step cfg a = some e') :
    Untouched id e e' := by
  have running : ∀ {t : Nat} {p : PipelineRun V Text}, e.pipelineOf cfg t = some p →
      ¬ (n ≤ t ∧ ∃ name m p, e.sys.tasks t = some ⟨name, id, .handling m p⟩ ∧ m.jobId = j) := by
    rintro t p hleft ⟨ht, name, m, q, htask, hj⟩
    obtain ⟨_, _, _, job, _, hrun, _⟩ := pipelineOf_eq_some.mp hleft
    cases htask.symm.trans hrun
    exact hs t name id m _ ht htask hj
  cases step_cases h with
  | call t c call k hleft => exact absurd hown (running hleft)
  | finish t ms now r s hleft hstep => exact absurd hown (running hleft)
  | base b s hfree hstep =>
    cases b with
    | resume who c =>
      cases who with
      | submission id' => exact absurd hown not_false
      | worker name =>
        obtain ⟨p, x, hstage, hhead, hfor, rfl⟩ := hown
        obtain ⟨f, k, r, s₁, hnode, hperf, rfl, _⟩ := pass_of_step hstage hstep
        have hharmless : f.Harmless x.id := by
          refine PassPoint.harmless hhead ?_ hnode
          rintro m deliveries rest rfl
          exact hidle name ⟨x, m, deliveries, rest, hstage, hfor⟩
        have hu := untouched_of_change e.running e.stores hharmless
          (Sys.perform_change hperf)
        exact ⟨hu.rows, hu.objects, hu.vectors, hu.work, hu.dlq, hu.pending⟩
      | task t =>
        obtain ⟨ht, name, m, p, htask, hj⟩ := hown
        cases Sys.step_cases hstep with
        | task _ _ name' id' m' p' w q f k r s₁ htask' hw hstage hnode hperf =>
          cases htask.symm.trans htask'
          have hharmless := (hs t name id m p ht htask hj).harmless hnode
          have hu := untouched_of_change e.running e.stores hharmless
            (Sys.perform_change hperf)
          exact ⟨hu.rows, hu.objects, hu.vectors, hu.work, hu.dlq, hu.pending⟩
    | _ => exact absurd hown not_false

theorem idle_of_step (hlimit : WithinLimit cfg j e a)
    (hidle : ∀ name, ¬ DeadLettering j name e.sys) (h : e.step cfg a = some e') :
    ∀ name, ¬ DeadLettering j name e'.sys := by
  cases step_cases h with
  | base b s hfree hstep =>
    refine not_deadLettering_of_step ?_ hidle hstep
    rintro name c x rest rfl
    exact hlimit name c x rest rfl
  | call t c call k hleft => exact hidle
  | finish t ms now r s hleft hstep =>
    refine not_deadLettering_of_step ?_ hidle hstep
    rintro name c x rest ⟨⟩

theorem deadLettering_of_other {name : ConsumerName} (hP : Redelivered j n e a)
    (hown : ∀ c, a ≠ .base (.resume (.worker name) c)) (hdead : DeadLettering j name e.sys)
    (h : e.step cfg a = some e') : DeadLettering j name e'.sys := by
  obtain ⟨x, m, deliveries, rest, hstage, hfor⟩ := hdead
  have stays : ∀ {b : Act} {s : Sys}, InferenceEngine.step cfg.toSettings e.sys b = some s →
      (∀ c, b ≠ .resume (.worker name) c) → b ≠ .crash name → DeadLettering j name s := by
    intro b s hstep hnot hcrash
    refine ⟨x, m, deliveries, rest, ?_, hfor⟩
    refine stage_of_other hstep hstage (by simp [PassPoint.entries]) ?_ hcrash
    refine Bool.eq_false_of_not_eq_true fun hpass => ?_
    obtain ⟨c, hc⟩ := Act.isPassOf_iff.mp hpass
    exact hnot c hc
  cases step_cases h with
  | base b s hfree hstep =>
    refine stays hstep ?_ ?_
    · rintro c rfl
      exact hown c rfl
    · rintro rfl
      exact hP.alive name rfl ⟨x, m, deliveries, rest, hstage, hfor⟩
  | call t c call k hleft => exact ⟨x, m, deliveries, rest, hstage, hfor⟩
  | finish t ms now r s hleft hstep =>
    refine stays hstep ?_ ?_
    · rintro c ⟨⟩
    · rintro ⟨⟩

theorem dlq_ne_of_deadLettering {name : ConsumerName} {c : Choice} (hc : c.fate = .ok)
    (hdead : DeadLettering j name e.sys)
    (h : e.step cfg (.base (.resume (.worker name) c)) = some e') :
    e'.sys.redis.dlq ≠ e.sys.redis.dlq := by
  obtain ⟨x, m, deliveries, rest, hstage, _⟩ := hdead
  cases step_cases h with
  | base b s hfree hstep =>
    obtain ⟨f, k, r, s₁, hnode, hperf, rfl, _⟩ := pass_of_step hstage hstep
    cases hnode
    obtain ⟨_, rfl⟩ := Sys.perform_xaddDlq_ok hc hperf
    intro hsame
    have hlast := congrArg Stream.lastId hsame
    have hmore : e.sys.redis.dlq.lastId + 1 = e.sys.redis.dlq.lastId := hlast
    omega

theorem not_deadLettering_of_untouched {name : ConsumerName}
    (hP : Runs.Along (step cfg) (Redelivered j n) e acts)
    (hquiet : Runs.Along (step cfg) (fun u a => ∀ id u', DeliveryStep j n id u a →
      u.step cfg a = some u' → Untouched id u u') e acts)
    (h : Runs.exec (step cfg) e acts = some e') (hdone : ¬ DeadLettering j name e'.sys) :
    ¬ DeadLettering j name e.sys := by
  induction acts generalizing e with
  | nil =>
    cases h
    exact hdone
  | cons a acts ih =>
    obtain ⟨u, hu, h⟩ := Runs.exec_cons_iff.mp h
    intro hdead
    by_cases hown : ∃ c, a = .base (.resume (.worker name) c)
    · obtain ⟨c, rfl⟩ := hown
      obtain ⟨x, m, deliveries, rest, hstage, hfor⟩ := id hdead
      have hstep : DeliveryStep j n x.id e (.base (.resume (.worker name) c)) :=
        ⟨_, x, hstage, rfl, hfor, rfl⟩
      exact dlq_ne_of_deadLettering (hP.1.answered x.id hstep) hdead hu
        (hquiet.1 x.id u hstep hu).dlq
    · have hkept := deadLettering_of_other hP.1 (fun c hc => hown ⟨c, hc⟩) hdead hu
      exact ih (hP.2 u hu) (hquiet.2 u hu) h hkept

theorem withinLimit_of_untouched (hreg : e.Regular cfg)
    (hP : Runs.Along (step cfg) (Redelivered j n) e acts)
    (hquiet : Runs.Along (step cfg) (fun u a => ∀ id u', DeliveryStep j n id u a →
      u.step cfg a = some u' → Untouched id u u') e acts)
    (h : Runs.exec (step cfg) e acts = some e') (hdone : ∀ name, ¬ DeadLettering j name e'.sys) :
    Runs.Along (step cfg) (WithinLimit cfg j) e acts := by
  induction acts generalizing e with
  | nil => trivial
  | cons a acts ih =>
    obtain ⟨u, hu, h⟩ := Runs.exec_cons_iff.mp h
    constructor
    · rintro name c x rest rfl hstage hfor
      by_contra hover
      have hstep : DeliveryStep j n x.id e (.base (.resume (.worker name) c)) :=
        ⟨_, x, hstage, rfl, hfor, rfl⟩
      cases step_cases hu with
      | base b s hfree hs =>
        have hdead := deadLettering_of_verdict hreg.sys (hP.1.answered x.id hstep) hstage hfor
          (by omega) hs
        exact not_deadLettering_of_untouched (hP.2 _ hu) (hquiet.2 _ hu) h (hdone name) hdead
    · intro t ht
      cases hu.symm.trans ht
      exact ih (hreg.step hu) (hP.2 u hu) (hquiet.2 u hu) h

end

end Engine

theorem redeliveryNoOp_iff {cfg : EngineSettings} {e e' : Engine V} {j : UUID}
    {acts later : List (EngineAct V)} (h : Engine.Reaches cfg acts e)
    (hidle : ∀ name, ¬ DeadLettering j name e.sys)
    (hlater : Runs.exec (Engine.step cfg) e later = some e')
    (hP : Runs.Along (Engine.step cfg) (Redelivered j e.sys.nextTask) e later)
    (hdone : ∀ name, ¬ DeadLettering j name e'.sys) :
    NoOp cfg j e.sys.nextTask e later e' ↔
      Runs.Along (Engine.step cfg) (WithinLimit cfg j) e later := by
  have hreg := h.regular
  have hskips : Skips j e.sys.nextTask e.sys := .of_new hreg.sys.coherent
  constructor
  · intro hnoop
    exact Engine.withinLimit_of_untouched hreg hP hnoop.untouched hlater hdone
  · intro hlimit
    constructor
    · refine Runs.Along.of_invariant (I := fun u : Engine V => u.Regular cfg ∧
        Skips j e.sys.nextTask u.sys ∧ ∀ name, ¬ DeadLettering j name u.sys) ?_ ?_
        ⟨hreg, hskips, hidle⟩ (hP.and hlimit)
      · rintro u a u' ⟨hu, hs, hd⟩ ⟨hred, hlim⟩ hstep
        exact ⟨hu.step hstep, Engine.skips_of_step hu hs hred hstep,
          Engine.idle_of_step hlim hd hstep⟩
      · rintro u a ⟨_, hs, hd⟩ _ id u' hown hstep
        exact Engine.untouched_of_step hs hd hown hstep
    · obtain ⟨_, hs⟩ := Runs.invariant (I := fun u : Engine V => u.Regular cfg ∧
        Skips j e.sys.nextTask u.sys) (fun u a u' ⟨hu, hs⟩ hred hstep =>
          ⟨hu.step hstep, Engine.skips_of_step hu hs hred hstep⟩) ⟨hreg, hskips⟩ hP hlater
      intro t name id m outcome ht htask hj
      exact hs t name id m _ ht htask hj

/-! ### Two redeliveries -/

instance (j : UUID) (x : StreamEntry) : Decidable (EntryFor j x) :=
  match h : JobMessage.fromFields x.fields with
  | .ok m => decidable_of_iff (m.jobId = j)
    ⟨fun hj => ⟨m, h, hj⟩, fun ⟨_, hm, hj⟩ => Except.ok.inj (h.symm.trans hm) ▸ hj⟩
  | .error _ => .isFalse fun ⟨_, hm, _⟩ => by cases h.symm.trans hm

def withinLimit (cfg : EngineSettings) (j : UUID) (e : Engine V) : EngineAct V → Bool
  | .base (.resume (.worker name) _) =>
    match e.sys.stageOf name with
    | some (.looping (.query x _)) => decide (EntryFor j x →
      ((e.sys.redis.timesDelivered x.id).getD 0 : Nat) ≤ cfg.maxDeliveryCount)
    | _ => true
  | _ => true

theorem withinLimit_sound {cfg : EngineSettings} {j : UUID} (e : Engine V) (a : EngineAct V)
    (h : withinLimit cfg j e a = true) : WithinLimit cfg j e a := by
  rintro name c x rest rfl hstage hfor
  simp only [withinLimit, hstage, decide_eq_true_eq] at h
  exact h hfor

def answeredAndTerminal (j : UUID) (e : Engine V) (a : EngineAct V) : Bool :=
  (e.sys.rows j).any (·.isTerminal) &&
  match a with
  | .base (.resume _ c) => decide (c.fate = .ok)
  | .base (.crash _) => false
  | _ => true

theorem redelivered_of_check {j : UUID} {n : Nat} (e : Engine V) (a : EngineAct V)
    (h : answeredAndTerminal j e a = true) : Redelivered j n e a := by
  obtain ⟨hrow, ha⟩ := Bool.and_eq_true_iff.mp h
  have hterminal : ∃ row, e.sys.rows j = some row ∧ row.isTerminal = true := by
    simpa [Option.any_eq_true] using hrow
  constructor
  · intro id _
    cases a with
    | base b =>
      cases b with
      | resume who c =>
        have hc : c.fate = .ok := of_decide_eq_true ha
        exact hc
      | _ => trivial
    | _ => trivial
  · exact fun _ _ => hterminal
  · rintro name rfl
    cases ha

/-- A worker dies after it has written the SUCCESS row of its job; another one starts. -/
def diedBeforeSuccessAck : List (EngineAct Nat) :=
  embedded.dropLast ++ (.crash 0 :: boot 1).map .base

def handledAgain : List (EngineAct Nat) := (claimPass 1 1 ++ steps (.task 1) 3).map .base

theorem handledAgain_noOp : ∃ e e' : Engine Nat,
    Engine.Reaches { reprs := plainReprs } diedBeforeSuccessAck e ∧
    HasStatus e.sys 7 .success ∧ e.sys.redis.isPending 1 = true ∧
    Runs.exec (Engine.step { reprs := plainReprs }) e handledAgain = some e' ∧
    NoOp { reprs := plainReprs } 7 e.sys.nextTask e handledAgain e' ∧
    e'.sys.redis.isPending 1 = false := by
  obtain ⟨e, he, hview⟩ := Runs.exec_of_map (Engine.step (V := Nat) { reprs := plainReprs }) {}
    diedBeforeSuccessAck (fun e => ((e.sys.rows 7).map (·.status), e.sys.redis.isPending 1,
      Runs.check (Engine.step { reprs := plainReprs }) (answeredAndTerminal 7) e handledAgain,
      Runs.check (Engine.step { reprs := plainReprs }) (withinLimit { reprs := plainReprs } 7) e
        handledAgain,
      (Runs.exec (Engine.step { reprs := plainReprs }) e handledAgain).map fun e' =>
        e'.sys.redis.isPending 1))
    (some .success, true, true, true, some false) (by decide +kernel)
  simp only [Prod.mk.injEq] at hview
  obtain ⟨hrow, hpending, hanswered, hwithin, hafter⟩ := hview
  obtain ⟨e', he', hpending'⟩ := Option.map_eq_some_iff.mp hafter
  have hlimit := Runs.Along.of_check withinLimit_sound hwithin
  have hbefore : Runs.Along (Engine.step { reprs := plainReprs })
      (WithinLimit { reprs := plainReprs } 7) ({} : Engine Nat) diedBeforeSuccessAck :=
    .of_check withinLimit_sound (by decide +kernel)
  have hidle : ∀ name, ¬ DeadLettering 7 name e.sys := by
    refine Runs.invariant (I := fun u : Engine Nat => ∀ name, ¬ DeadLettering 7 name u.sys)
      (fun _ _ _ hidle hlimit hstep => Engine.idle_of_step hlimit hidle hstep) ?_ hbefore he
    rintro name ⟨_, _, _, _, hstage, _⟩
    cases hstage
  have hdone : ∀ name, ¬ DeadLettering 7 name e'.sys :=
    Runs.invariant (I := fun u : Engine Nat => ∀ name, ¬ DeadLettering 7 name u.sys)
      (fun _ _ _ hidle hlimit hstep => Engine.idle_of_step hlimit hidle hstep) hidle hlimit he'
  refine ⟨e, e', he, hasStatus_iff.mpr hrow, hpending, he', ?_, hpending'⟩
  exact (redeliveryNoOp_iff he hidle he' (.of_check redelivered_of_check hanswered) hdone).mpr hlimit

def Sys.poisonOf (s : Sys) (name : ConsumerName) : Option StreamEntry :=
  match s.stageOf name with
  | some (.looping (.poison x _ _ _)) => some x
  | _ => none

theorem Sys.deadLettering_of_poisonOf {s : Sys} {name : ConsumerName} {x : StreamEntry} {j : UUID}
    (h : s.poisonOf name = some x) (hfor : EntryFor j x) : DeadLettering j name s := by
  unfold poisonOf at h
  split at h
  · rename_i y m deliveries rest hstage
    cases h
    exact ⟨x, m, deliveries, rest, hstage, hfor⟩
  · cases h

def onceOnly : EngineSettings := { maxDeliveryCount := 1, reprs := plainReprs }

/-- The pass of the worker that takes over finds the entry over-delivered. -/
def overTaken : List (EngineAct Nat) := (claimPass 1 1 ++ steps (.worker 1) 1).map .base

theorem overTaken_not_noOp : ∃ e e' : Engine Nat,
    Engine.Reaches onceOnly diedBeforeSuccessAck e ∧ HasStatus e.sys 7 .success ∧
    Runs.exec (Engine.step onceOnly) e overTaken = some e' ∧
    e'.sys.redis.isPending 1 = false ∧ e.sys.redis.dlq.lastId = 0 ∧ e'.sys.redis.dlq.lastId = 1 ∧
    ¬ NoOp onceOnly 7 e.sys.nextTask e overTaken e' := by
  obtain ⟨e, he, hview⟩ := Runs.exec_of_map (Engine.step (V := Nat) onceOnly) {}
    diedBeforeSuccessAck
    (fun e : Engine Nat => ((e.sys.rows 7).map (·.status), e.sys.redis.dlq.lastId,
      (Runs.exec (Engine.step onceOnly) e (overTaken.take 5)).any fun u : Engine Nat =>
        (u.sys.poisonOf 1).any (fun x => decide (EntryFor 7 x)) &&
        (Runs.exec (Engine.step onceOnly) u (overTaken.drop 5)).any fun e' : Engine Nat =>
          !e'.sys.redis.isPending 1 && decide (e'.sys.redis.dlq.lastId = 1)))
    (some .success, 0, true) (by decide +kernel)
  simp only [Prod.mk.injEq] at hview
  obtain ⟨hrow, hdlq, hmiddle⟩ := hview
  obtain ⟨u, hu, hview⟩ := (Option.any_eq_true _ _).mp hmiddle
  simp only [Bool.and_eq_true] at hview
  obtain ⟨hpoison, hafter⟩ := hview
  obtain ⟨x, hx, hfor⟩ := (Option.any_eq_true _ _).mp hpoison
  obtain ⟨e', he', hview⟩ := (Option.any_eq_true _ _).mp hafter
  simp only [Bool.and_eq_true, Bool.not_eq_true', decide_eq_true_eq] at hview
  obtain ⟨hpending, hdlq'⟩ := hview
  have hdead := Sys.deadLettering_of_poisonOf hx (of_decide_eq_true hfor)
  have hrun : Runs.exec (Engine.step onceOnly) e overTaken = some e' :=
    Runs.exec_append_iff.mpr ⟨u, hu, he'⟩
  refine ⟨e, e', he, hasStatus_iff.mpr hrow, hrun, hpending, hdlq, hdlq', fun hnoop => ?_⟩
  obtain ⟨v, hv, _⟩ := Runs.exec_cons_iff.mp he'
  obtain ⟨y, m, deliveries, rest, hstage, hfor⟩ := id hdead
  have hquiet := Runs.Along.append_right hnoop.untouched hu
  have hsame := (hquiet.1 y.id v ⟨_, y, hstage, rfl, hfor, rfl⟩ hv).dlq
  exact Engine.dlq_ne_of_deadLettering rfl hdead hv hsame

end InferenceEngine
