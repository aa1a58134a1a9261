import InferenceEngine.Verdicts

/-!
# One reclaim batch

`_reclaim_orphans` decides on the claimed entries one after another, on each by that entry
alone. The exception of an over-delivered entry whose fields do not decode is not caught: it
ends the pass, with the rest of the batch claimed and undecided.
-/

namespace InferenceEngine

set_option autoImplicit false

inductive Decision where
  | skipped | started | deadLettered
  deriving DecidableEq

/-- What a step of the loop decides, and on which entry. -/
def decision (cfg : Settings) (name : ConsumerName) (s : Sys) :
    Act → Option (StreamEntry × Decision)
  | .resume (.worker other) _ =>
    if other = name then
      match s.stageOf name with
      | some (.looping (.check e _)) =>
        if e.id ∈ s.inFlightAt name then some (e, .skipped) else none
      | some (.looping (.query e _)) =>
        if cfg.maxDeliveryCount < ((s.redis.timesDelivered e.id).getD 0 : Nat) then
          some (e, .deadLettered)
        else some (e, .started)
      | _ => none
    else none
  | _ => none

def decisions (cfg : Settings) (name : ConsumerName) : Sys → List Act → List (StreamEntry × Decision)
  | _, [] => []
  | s, a :: as =>
    (decision cfg name s a).toList ++
      match step cfg s a with
      | some s' => decisions cfg name s' as
      | none => []

def StartedSince (name : ConsumerName) (s₀ : Sys) (e : StreamEntry) (s : Sys) : Prop :=
  ∃ t τ, s₀.nextTask ≤ t ∧ s.tasks t = some τ ∧ τ.consumer = name ∧ τ.entry = e.id

/-- The loop has returned, with a decision on every entry of the batch, carried out. -/
structure BatchHandled (cfg : Settings) (name : ConsumerName) (s₀ : Sys) (batch : List StreamEntry)
    (acts : List Act) (s : Sys) : Prop where
  returned : s.stageOf name = some (.looping .readCapacity)
  each : (decisions cfg name s₀ acts).map Prod.fst = batch
  started : ∀ e, (e, .started) ∈ decisions cfg name s₀ acts → StartedSince name s₀ e s
  deadLettered : ∀ e, (e, .deadLettered) ∈ decisions cfg name s₀ acts →
    PoisonedSince name s₀ e s ∧ s.redis.isPending e.id = false

def InLoop (name : ConsumerName) (s : Sys) (_ : Act) : Prop :=
  ∃ p, s.stageOf name = some (.looping p) ∧ 0 < p.reclaimLeft

def LoopOver (name : ConsumerName) (s : Sys) : Prop :=
  ∃ p, s.stageOf name = some (.looping p) ∧ p.reclaimLeft = 0

/-- An entry that is found over-delivered decodes. -/
def DecodesAtVerdict (cfg : Settings) (name : ConsumerName) (s : Sys) : Act → Prop
  | .resume (.worker other) _ => other = name → ∀ e rest,
    s.stageOf name = some (.looping (.query e rest)) →
    cfg.maxDeliveryCount < ((s.redis.timesDelivered e.id).getD 0 : Nat) →
    ∃ m, JobMessage.fromFields e.fields = .ok m
  | _ => True

/-- The entries of the batch on which the loop has not decided. -/
def PassPoint.undecided : PassPoint → List StreamEntry
  | check e rest | query e rest => e :: rest
  | dispatchClaimed _ rest | poison _ _ _ rest | poisonAck _ rest => rest
  | _ => []

theorem PassPoint.undecided_nextClaimed (es : List StreamEntry) :
    (nextClaimed es).undecided = es := by
  cases es <;> rfl

/-- What the loop has achieved after the decisions `ds`. -/
structure Working (name : ConsumerName) (s₀ : Sys) (batch : List StreamEntry)
    (ds : List (StreamEntry × Decision)) (p : PassPoint) (s : Sys) : Prop where
  stage : s.stageOf name = some (.looping p)
  inside : 0 < p.reclaimLeft ∨ p = .readCapacity
  split : batch = ds.map Prod.fst ++ p.undecided
  passed : ∀ e ∈ batch, s.redis.passed e.id = true
  next : s₀.nextTask ≤ s.nextTask
  since : ∃ es, s.log = s₀.log ++ es
  started : ∀ e, (e, .started) ∈ ds → StartedSince name s₀ e s ∨ ∃ rest, p = .dispatchClaimed e rest
  deadLettered : ∀ e, (e, .deadLettered) ∈ ds →
    (PoisonedSince name s₀ e s ∧ s.redis.isPending e.id = false) ∨
    (∃ m n rest, p = .poison e m n rest ∧ JobMessage.fromFields e.fields = .ok m) ∨
    (∃ rest, p = .poisonAck e rest ∧ PoisonedSince name s₀ e s)

section
variable {cfg : Settings} {s₀ s s' : Sys} {a : Act} {name : ConsumerName}
  {batch : List StreamEntry} {ds : List (StreamEntry × Decision)} {p : PassPoint}

theorem nextTask_le_of_step (h : step cfg s a = some s') : s.nextTask ≤ s'.nextTask := by
  rcases step_tasks h with ⟨_, hn⟩ | ⟨_, _, _, _, _, _, _, _, _, hn, _⟩ |
    ⟨_, _, _, _, _, _, _, _, _, _, _, _, _, _, hn, _⟩ <;> omega

theorem StartedSince.of_step (hcoh : Coherent s) (h : step cfg s a = some s') {e : StreamEntry}
    (hs : StartedSince name s₀ e s) : StartedSince name s₀ e s' := by
  obtain ⟨t, τ, hnew, htask, hconsumer, hentry⟩ := hs
  obtain ⟨τ', htask', hconsumer', hentry'⟩ := task_kept_of_step hcoh h htask
  exact ⟨t, τ', hnew, htask', hconsumer'.trans hconsumer, hentry'.trans hentry⟩

namespace Working

theorem of_other (hW : Working name s₀ batch ds p s) (hreg : Regular cfg s)
    (h : step cfg s a = some s') (hstage' : s'.stageOf name = some (.looping p)) :
    Working name s₀ batch ds p s' where
  stage := hstage'
  inside := hW.inside
  split := hW.split
  passed := fun e he => passed_of_step h (hW.passed e he)
  next := hW.next.trans (nextTask_le_of_step h)
  since := by
    obtain ⟨es, hes⟩ := hW.since
    obtain ⟨es', hes', _⟩ := step_log h
    exact ⟨es ++ es', by rw [hes', hes, List.append_assoc]⟩
  started := by
    intro e he
    rcases hW.started e he with hs | hp
    · exact .inl (hs.of_step hreg.coherent h)
    · exact .inr hp
  deadLettered := by
    intro e he
    have hmem : e ∈ batch := by
      rw [hW.split]
      exact List.mem_append_left _ (List.mem_map_of_mem he)
    rcases hW.deadLettered e he with ⟨hd, hnot⟩ | hp | ⟨rest, hp, hd⟩
    · exact .inl ⟨hd.of_step h, not_pending_of_step h (hW.passed e hmem) hnot⟩
    · exact .inr (.inl hp)
    · exact .inr (.inr ⟨rest, hp, hd.of_step h⟩)

theorem of_own (hW : Working name s₀ batch ds p s) (hreg : Regular cfg s) (hp : 0 < p.reclaimLeft)
    {c : Choice} (hc : c.fate = .ok) (h : step cfg s (.resume (.worker name) c) = some s')
    (hdec : DecodesAtVerdict cfg name s (.resume (.worker name) c)) :
    ∃ p', Working name s₀ batch
      (ds ++ (decision cfg name s (.resume (.worker name) c)).toList) p' s' := by
  obtain ⟨e, k, r, s₁, hnode, hperf, heq, hstage'⟩ := pass_of_step hW.stage h
  have hlog : s'.log = s₁.log := heq ▸ rfl
  -- once no verdict is under way, what was decided has been carried out
  have go : ∀ ds' : List (StreamEntry × Decision),
      (0 < (k r).reclaimLeft ∨ k r = .readCapacity) →
      p.undecided = ds'.map Prod.fst ++ (k r).undecided →
      (∀ x rest, p = .dispatchClaimed x rest → StartedSince name s₀ x s') →
      (∀ x, (x, .started) ∈ ds' → ∃ rest, k r = .dispatchClaimed x rest) →
      (∀ x m n rest, p = .poison x m n rest → JobMessage.fromFields x.fields = .ok m →
        ∃ rest, k r = .poisonAck x rest ∧ PoisonedSince name s₀ x s') →
      (∀ x rest, p = .poisonAck x rest → s'.redis.isPending x.id = false) →
      (∀ x, (x, .deadLettered) ∈ ds' → ∃ m n rest, k r = .poison x m n rest ∧
        JobMessage.fromFields x.fields = .ok m) →
      ∃ p', Working name s₀ batch (ds ++ ds') p' s' := by
    intro ds' hinside hsplit hdispatch hstarted hpoison hack hdead
    refine ⟨k r, hstage', hinside, ?_, fun x hx => passed_of_step h (hW.passed x hx),
      hW.next.trans (nextTask_le_of_step h), ?_, ?_, ?_⟩
    · rw [List.map_append, List.append_assoc, ← hsplit, hW.split]
    · obtain ⟨es, hes⟩ := hW.since
      obtain ⟨es', hes', _⟩ := step_log h
      exact ⟨es ++ es', by rw [hes', hes, List.append_assoc]⟩
    · intro x hx
      rcases List.mem_append.mp hx with hx | hx
      · rcases hW.started x hx with hs | ⟨rest, rfl⟩
        · exact .inl (hs.of_step hreg.coherent h)
        · exact .inl (hdispatch x rest rfl)
      · exact .inr (hstarted x hx)
    · intro x hx
      rcases List.mem_append.mp hx with hx | hx
      · have hmem : x ∈ batch := by
          rw [hW.split]
          exact List.mem_append_left _ (List.mem_map_of_mem hx)
        rcases hW.deadLettered x hx with ⟨hd, hnot⟩ | ⟨m, n, rest, rfl, hm⟩ | ⟨rest, rfl, hd⟩
        · exact .inl ⟨hd.of_step h, not_pending_of_step h (hW.passed x hmem) hnot⟩
        · exact .inr (.inr (hpoison x m n rest rfl hm))
        · exact .inl ⟨hd.of_step h, hack x rest rfl⟩
      · exact .inr (.inl (hdead x hx))
  have inside : ∀ es : List StreamEntry, 0 < (PassPoint.nextClaimed es).reclaimLeft ∨
      PassPoint.nextClaimed es = .readCapacity := by
    intro es
    cases es with
    | nil => exact .inr rfl
    | cons x es => exact .inl (by simp [PassPoint.nextClaimed, PassPoint.reclaimLeft])
  have hstage := hW.stage
  cases p with
  | check x rest =>
    cases hnode
    obtain ⟨rfl, rfl⟩ := Sys.perform_inFlight hperf
    by_cases hin : x.id ∈ s₁.inFlightAt name
    · simp only [decision, hstage, hin, decide_true, if_true, Option.toList_some] at go ⊢
      refine go _ (inside rest) ?_ (by simp) (by simp) (by simp) (by simp) (by simp)
      rw [PassPoint.undecided_nextClaimed]
      rfl
    · simp only [decision, hstage, hin, decide_false, if_true, if_false, Option.toList_none] at go ⊢
      exact go [] (.inl (by simp [PassPoint.reclaimLeft])) rfl (by simp) (by simp) (by simp)
        (by simp) (by simp)
  | query x rest =>
    cases hnode
    have hx : x ∈ batch := by
      rw [hW.split]
      exact List.mem_append_right _ List.mem_cons_self
    obtain ⟨g, hg, _⟩ := Option.any_eq_true _ _ |>.mp (hW.passed x hx)
    obtain ⟨pending, rfl⟩ := Sys.perform_xpending_arrives hc hg hperf
    obtain ⟨rfl, rfl⟩ := Sys.perform_xpending_ok hperf
    by_cases hover : cfg.maxDeliveryCount < ((s₁.redis.timesDelivered x.id).getD 0 : Nat)
    · obtain ⟨m, hm⟩ := hdec rfl x rest hstage hover
      simp only [decision, hstage, if_true, if_pos hover, Option.toList_some,
        PassPoint.afterQuery, hm] at go ⊢
      refine go _ (.inl (by simp [PassPoint.reclaimLeft])) rfl (by simp) (by simp) (by simp)
        (by simp) ?_
      intro y hy
      obtain rfl := (Prod.mk.inj (List.mem_singleton.mp hy)).1
      exact ⟨m, _, rest, rfl, hm⟩
    · simp only [decision, hstage, if_true, if_neg hover, Option.toList_some,
        PassPoint.afterQuery] at go ⊢
      refine go _ (.inl (by simp [PassPoint.reclaimLeft])) rfl (by simp) ?_ (by simp)
        (by simp) (by simp)
      intro y hy
      obtain rfl := (Prod.mk.inj (List.mem_singleton.mp hy)).1
      exact ⟨rest, rfl⟩
  | dispatchClaimed x rest =>
    cases hnode
    simp only [decision, hstage, if_true, Option.toList_none] at go ⊢
    refine go [] (inside rest) ?_ ?_ (by simp) (by simp) (by simp) (by simp)
    · rw [PassPoint.undecided_nextClaimed]
      rfl
    · rintro y rest' ⟨⟩
      obtain rfl : s.startTask name x.id x.fields = s₁ := congrArg Prod.snd (Option.some.inj hperf)
      have htask : s'.tasks s.nextTask = some ⟨name, x.id, .of x.fields⟩ := by
        rw [heq]
        exact Function.update_self _ _ _
      exact ⟨s.nextTask, _, hW.next, htask, rfl, rfl⟩
  | poison x m n rest =>
    cases hnode
    obtain ⟨rfl, rfl⟩ := Sys.perform_xaddDlq_ok hc hperf
    simp only [decision, hstage, if_true, Option.toList_none] at go ⊢
    refine go [] (.inl (by simp [PassPoint.afterPoison, PassPoint.reclaimLeft])) rfl (by simp)
      (by simp) ?_ (by simp) (by simp)
    rintro y m' n' rest' ⟨⟩ hm
    exact ⟨rest, rfl, _, m, n, since_last hW.since hlog, hm, rfl⟩
  | poisonAck x rest =>
    cases hnode
    obtain ⟨rfl, rfl⟩ := Sys.perform_xack_ok hc hperf
    simp only [decision, hstage, if_true, Option.toList_none] at go ⊢
    refine go [] (inside rest) ?_ (by simp) (by simp) (by simp) ?_ (by simp)
    · simp only [PassPoint.afterPoisonAck, PassPoint.undecided_nextClaimed]
      rfl
    · rintro y rest' ⟨⟩
      rw [heq]
      cases hg : s.redis.group <;>
        simp [Redis.isPending, Sys.setStage, Sys.ackEntry, hg, Group.isPending_ack]
  | _ => simp [PassPoint.reclaimLeft] at hp

/-- In a run of the loop without failures, what is decided is carried out. -/
theorem exec {acts : List Act} (hW : Working name s₀ batch ds p s) (hreg : Regular cfg s)
    (hin : Runs.Along (step cfg) (InLoop name) s acts)
    (hlive : Runs.Along (step cfg) (Survives name) s acts)
    (hdec : Runs.Along (step cfg) (DecodesAtVerdict cfg name) s acts)
    (h : Runs.exec (step cfg) s acts = some s') :
    ∃ p', Working name s₀ batch (ds ++ decisions cfg name s acts) p' s' := by
  induction acts generalizing s ds p with
  | nil =>
    obtain rfl : s = s' := Option.some.inj h
    exact ⟨p, by rwa [decisions, List.append_nil]⟩
  | cons a as ih =>
    obtain ⟨t, hstep, h⟩ := Runs.exec_cons_iff.mp h
    obtain ⟨q, hq, hpos⟩ := hin.1
    cases hW.stage.symm.trans hq
    have hnext : ∃ p', Working name s₀ batch (ds ++ (decision cfg name s a).toList) p' t := by
      by_cases hown : a.isPassOf name = true
      · obtain ⟨c, rfl⟩ := Act.isPassOf_iff.mp hown
        exact hW.of_own hreg hpos (hlive.1 rfl) hstep hdec.1
      · have hcrash : a ≠ .crash name := by
          rintro rfl
          exact hlive.1 rfl
        have hnone : decision cfg name s a = none := by
          cases a with
          | resume who c =>
            cases who with
            | worker other =>
              have hne : other ≠ name := by
                rintro rfl
                exact hown (decide_eq_true rfl)
              simp only [decision, if_neg hne]
            | _ => rfl
          | _ => rfl
        rw [hnone, Option.toList_none, List.append_nil]
        exact ⟨p, hW.of_other hreg hstep
          (stage_of_other hstep hW.stage (PassPoint.entries_ne_nil hpos) (by simpa using hown)
            hcrash)⟩
    obtain ⟨p', hW'⟩ := hnext
    obtain ⟨p'', hdone⟩ := ih hW' (hreg.step hstep) (hin.2 t hstep) (hlive.2 t hstep)
      (hdec.2 t hstep) h
    refine ⟨p'', ?_⟩
    rw [List.append_assoc] at hdone
    simpa only [decisions, hstep] using hdone

end Working

/-- A loop that returns has met no over-delivered entry that does not decode. -/
theorem decodes_of_returned {acts : List Act}
    (hin : Runs.Along (step cfg) (InLoop name) s acts)
    (h : Runs.exec (step cfg) s acts = some s')
    (hret : s'.stageOf name = some (.looping .readCapacity)) :
    Runs.Along (step cfg) (DecodesAtVerdict cfg name) s acts := by
  induction acts generalizing s with
  | nil => trivial
  | cons a as ih =>
    obtain ⟨t, hstep, hexec⟩ := Runs.exec_cons_iff.mp h
    refine ⟨?_, fun u hu => ?_⟩
    · cases a with
      | resume who c =>
        cases who with
        | worker other =>
          rintro rfl e rest hstage hover
          obtain ⟨ef, k, r, s₁, hnode, hperf, _, hstage'⟩ := pass_of_step hstage hstep
          cases hnode
          cases hm : JobMessage.fromFields e.fields with
          | ok m => exact ⟨m, rfl⟩
          | error x =>
            -- the exception ends the pass, and with it the loop
            have hfin : ∃ x, PassPoint.afterQuery cfg.toBrokerSettings e rest r =
                .finished (.error x) := by
              rcases r with y | pending
              · exact ⟨y, rfl⟩
              · obtain ⟨rfl, rfl⟩ := Sys.perform_xpending_ok hperf
                exact ⟨x, by simp only [PassPoint.afterQuery, if_pos hover, hm]⟩
            obtain ⟨x, hx⟩ := hfin
            rw [hx] at hstage'
            cases as with
            | nil =>
              obtain rfl : t = s' := Option.some.inj hexec
              cases hstage'.symm.trans hret
            | cons b bs =>
              obtain ⟨q, hq, hpos⟩ := (hin.2 t hstep).1
              cases hstage'.symm.trans hq
              cases hpos
        | _ => trivial
      | _ => trivial
    · obtain rfl : t = u := Option.some.inj (hstep.symm.trans hu)
      exact ih (hin.2 t hstep) hexec

theorem countP_le_of_inLoop {acts : List Act} (hstage : s.stageOf name = some (.looping p))
    (hin : Runs.Along (step cfg) (InLoop name) s acts)
    (hlive : Runs.Along (step cfg) (Survives name) s acts)
    (h : Runs.exec (step cfg) s acts = some s') :
    ∃ p', s'.stageOf name = some (.looping p') ∧
      p'.reclaimLeft + acts.countP (Act.isPassOf name) ≤ p.reclaimLeft := by
  induction acts generalizing s p with
  | nil =>
    obtain rfl : s = s' := Option.some.inj h
    exact ⟨p, hstage, le_rfl⟩
  | cons a as ih =>
    obtain ⟨t, hstep, hexec⟩ := Runs.exec_cons_iff.mp h
    obtain ⟨q, hq, hpos⟩ := hin.1
    cases hstage.symm.trans hq
    have hnext : ∃ p', t.stageOf name = some (.looping p') ∧
        p'.reclaimLeft + (if a.isPassOf name then 1 else 0) ≤ p.reclaimLeft := by
      by_cases hown : a.isPassOf name = true
      · obtain ⟨c, rfl⟩ := Act.isPassOf_iff.mp hown
        obtain ⟨e, k, r, s₁, hnode, _, _, hstage'⟩ := pass_of_step hstage hstep
        have hlt := PassPoint.reclaimLeft_next hpos hnode r
        exact ⟨k r, hstage', by rw [if_pos hown]; omega⟩
      · have hcrash : a ≠ .crash name := by
          rintro rfl
          exact hlive.1 rfl
        have hstage' := stage_of_other hstep hstage (PassPoint.entries_ne_nil hpos)
          (by simpa using hown) hcrash
        exact ⟨p, hstage', by simp [hown]⟩
    obtain ⟨p', hstage', hle⟩ := hnext
    obtain ⟨p'', hdone, hle'⟩ := ih hstage' (hin.2 t hstep) (hlive.2 t hstep) hexec
    refine ⟨p'', hdone, ?_⟩
    rw [List.countP_cons]
    omega

theorem Working.init (hreg : Regular cfg s)
    (hstage : s.stageOf name = some (.looping (.nextClaimed batch))) :
    Working name s batch [] (.nextClaimed batch) s where
  stage := hstage
  inside := by
    cases batch with
    | nil => exact .inr rfl
    | cons x es => exact .inl (by simp [PassPoint.nextClaimed, PassPoint.reclaimLeft])
  split := (PassPoint.undecided_nextClaimed batch).symm
  passed := by
    intro e he
    refine hreg.passed.passes name _ hstage e ?_
    rwa [PassPoint.entries_nextClaimed]
  next := le_rfl
  since := ⟨[], (List.append_nil _).symm⟩
  started := by
    intro e he
    cases he
  deadLettered := by
    intro e he
    cases he

/-- Every entry of a batch is handled if and only if no entry that the loop finds
over-delivered has fields that do not decode; and the loop comes to an end. -/
theorem batchHandled_iff {acts : List Act} (hs : Reaches cfg acts s)
    (hstage : s.stageOf name = some (.looping (.nextClaimed batch))) (later : List Act)
    (hin : Runs.Along (step cfg) (InLoop name) s later)
    (hlive : Runs.Along (step cfg) (Survives name) s later)
    (h : Runs.exec (step cfg) s later = some s') :
    (LoopOver name s' → (BatchHandled cfg name s batch later s' ↔
      Runs.Along (step cfg) (DecodesAtVerdict cfg name) s later)) ∧
    later.countP (Act.isPassOf name) ≤ 4 * batch.length ∧
    (¬ LoopOver name s' → ∃ s'', step cfg s' (.resume (.worker name) {}) = some s'') := by
  obtain ⟨p, hstage', hle⟩ := countP_le_of_inLoop hstage hin hlive h
  rw [PassPoint.reclaimLeft_nextClaimed] at hle
  refine ⟨?_, by omega, ?_⟩
  · intro hover
    constructor
    · intro hdone
      exact decodes_of_returned hin h hdone.returned
    · intro hdec
      obtain ⟨p', hW⟩ := (Working.init hs.regular hstage).exec hs.regular hin hlive hdec h
      rw [List.nil_append] at hW
      obtain ⟨q, hq, hzero⟩ := hover
      cases hW.stage.symm.trans hq
      rcases hW.inside with hpos | rfl
      · omega
      · refine ⟨hW.stage, ?_, ?_, ?_⟩
        · have hsplit := hW.split
          simpa [PassPoint.undecided] using hsplit.symm
        · intro e he
          rcases hW.started e he with hstarted | ⟨rest, hp⟩
          · exact hstarted
          · cases hp
        · intro e he
          rcases hW.deadLettered e he with hd | ⟨m, n, rest, hp, _⟩ | ⟨rest, hp, _⟩
          · exact hd
          · cases hp
          · cases hp
  · intro hnot
    refine reclaim_enabled hstage' (Nat.pos_of_ne_zero fun hzero => ?_)
    exact hnot ⟨p, hstage', hzero⟩

end

/-! ### Two batches of two entries -/

/-- The reader of two entries dies, and another worker claims them. -/
def claimBoth (entries : List Act) : List Act :=
  boot 0 ++ entries ++ readPass 0 2 ++ [.crash 0] ++ boot 1 ++ .pass 1 :: steps (.worker 1) 1 ++
    [.resume (.worker 1) { claimed := [1, 2] }]

def inLoop (name : ConsumerName) (s : Sys) (_ : Act) : Bool :=
  match s.stageOf name with
  | some (.looping p) => decide (0 < p.reclaimLeft)
  | _ => false

theorem inLoop_sound {name : ConsumerName} (s : Sys) (a : Act) (h : inLoop name s a = true) :
    InLoop name s a := by
  unfold inLoop at h
  split at h
  · rename_i p hp
    exact ⟨p, hp, of_decide_eq_true h⟩
  · cases h

def decodesAtVerdict (name : ConsumerName) (s : Sys) (_ : Act) : Bool :=
  match s.stageOf name with
  | some (.looping (.query e _)) => (JobMessage.fromFields e.fields).isOk
  | _ => true

theorem decodesAtVerdict_sound {cfg : Settings} {name : ConsumerName} (s : Sys) (a : Act)
    (h : decodesAtVerdict name s a = true) : DecodesAtVerdict cfg name s a := by
  cases a with
  | resume who c =>
    cases who with
    | worker other =>
      rintro rfl e rest hstage _
      simp only [decodesAtVerdict, hstage] at h
      cases hm : JobMessage.fromFields e.fields with
      | ok m => exact ⟨m, rfl⟩
      | error x => rw [hm] at h; cases h
    | _ => trivial
  | _ => trivial

theorem survives_steps {cfg : Settings} (name : ConsumerName) (n : Nat) (s : Sys) :
    Runs.Along (step cfg) (Survives name) s (steps (.worker name) n) := by
  refine .of_forall ?_ s
  intro a ha u
  obtain rfl := List.eq_of_mem_replicate ha
  exact fun _ => rfl

def Sys.batchOf (s : Sys) (name : ConsumerName) : List StreamEntry :=
  match s.stageOf name with
  | some (.looping (.check e rest)) => e :: rest
  | _ => []

theorem Sys.batchOf_eq {s : Sys} {name : ConsumerName} (h : s.batchOf name ≠ []) :
    s.stageOf name = some (.looping (.nextClaimed (s.batchOf name))) := by
  unfold batchOf at h ⊢
  split
  · rename_i e rest hp
    exact hp
  · rename_i hne
    split at h
    · rename_i e rest hp
      exact absurd hp (hne e rest)
    · exact absurd rfl h

def PassPoint.hasRaised : PassPoint → Bool
  | finished (.error _) => true
  | _ => false

theorem PassPoint.hasRaised_iff {p : PassPoint} :
    p.hasRaised = true ↔ ∃ x, p = .finished (.error x) := by
  unfold hasRaised
  split <;> simp_all

def strangeFields : Fields := [(.str "x".toList, .str "y".toList)]

theorem malformed_aborts : ∃ s s' batch,
    Reaches { maxDeliveryCount := 1 } (claimBoth (.inject strangeFields 0 :: submitted 7)) s ∧
    s.stageOf 1 = some (.looping (.nextClaimed batch)) ∧ batch.map (·.id) = [1, 2] ∧
    Runs.Along (step { maxDeliveryCount := 1 }) (InLoop 1) s (steps (.worker 1) 2) ∧
    Runs.Along (step { maxDeliveryCount := 1 }) (Survives 1) s (steps (.worker 1) 2) ∧
    Runs.exec (step { maxDeliveryCount := 1 }) s (steps (.worker 1) 2) = some s' ∧
    LoopOver 1 s' ∧ ¬ BatchHandled { maxDeliveryCount := 1 } 1 s batch (steps (.worker 1) 2) s' ∧
    s'.redis.isPending 1 = true ∧ s'.redis.isPending 2 = true ∧ s'.startsOf 2 = 1 := by
  obtain ⟨s, hs, hview⟩ := Runs.exec_of_map (step { maxDeliveryCount := 1 }) Sys.init
    (claimBoth (.inject strangeFields 0 :: submitted 7))
    (fun s => ((s.batchOf 1).map (·.id),
      Runs.check (step { maxDeliveryCount := 1 }) (inLoop 1) s (steps (.worker 1) 2),
      (Runs.exec (step { maxDeliveryCount := 1 }) s (steps (.worker 1) 2)).map fun s' : Sys =>
        ((s'.passAt 1).any PassPoint.hasRaised,
          s'.redis.isPending 1 && s'.redis.isPending 2, s'.startsOf 2)))
    ([1, 2], true, some (true, true, 1)) (by decide +kernel)
  obtain ⟨hids, hin, hafter⟩ : _ ∧ _ ∧ _ := by simpa only [Prod.mk.injEq] using hview
  obtain ⟨s', hs', hview'⟩ := Option.map_eq_some_iff.mp hafter
  obtain ⟨hstage', hpending, hstarts⟩ : _ ∧ _ ∧ _ := by simpa only [Prod.mk.injEq] using hview'
  have hne : s.batchOf 1 ≠ [] := by
    intro hnil
    rw [hnil] at hids
    cases hids
  have hfin : ∃ x, s'.stageOf 1 = some (.looping (.finished (.error x))) := by
    obtain ⟨p, hp, hraised⟩ := (Option.any_eq_true _ _).mp hstage'
    obtain ⟨x, rfl⟩ := PassPoint.hasRaised_iff.mp hraised
    exact ⟨x, Sys.stageOf_of_passAt hp⟩
  obtain ⟨x, hfin⟩ := hfin
  obtain ⟨hone, htwo⟩ := (Bool.and_eq_true _ _).mp hpending
  refine ⟨s, s', s.batchOf 1, hs, Sys.batchOf_eq hne, hids, .of_check inLoop_sound hin,
    survives_steps 1 2 s, hs', ⟨_, hfin, rfl⟩, fun hdone => ?_, hone, htwo, hstarts⟩
  cases hfin.symm.trans hdone.returned

theorem wellFormed_handled : ∃ s s' batch,
    Reaches { maxDeliveryCount := 1 } (claimBoth (submitted 7 ++ submitted 8)) s ∧
    batch.map (·.id) = [1, 2] ∧
    Runs.exec (step { maxDeliveryCount := 1 }) s (steps (.worker 1) 8) = some s' ∧
    BatchHandled { maxDeliveryCount := 1 } 1 s batch (steps (.worker 1) 8) s' := by
  obtain ⟨s, hs, hview⟩ := Runs.exec_of_map (step { maxDeliveryCount := 1 }) Sys.init
    (claimBoth (submitted 7 ++ submitted 8))
    (fun s => ((s.batchOf 1).map (·.id),
      Runs.check (step { maxDeliveryCount := 1 }) (inLoop 1) s (steps (.worker 1) 8) &&
        Runs.check (step { maxDeliveryCount := 1 }) (decodesAtVerdict 1) s (steps (.worker 1) 8),
      (Runs.exec (step { maxDeliveryCount := 1 }) s (steps (.worker 1) 8)).map fun s' : Sys =>
        (s'.passAt 1).any PassPoint.asksToRead))
    ([1, 2], true, some true) (by decide +kernel)
  obtain ⟨hids, hchecks, hafter⟩ : _ ∧ _ ∧ _ := by simpa only [Prod.mk.injEq] using hview
  obtain ⟨hin, hdec⟩ := (Bool.and_eq_true _ _).mp hchecks
  obtain ⟨s', hs', hstage'⟩ := Option.map_eq_some_iff.mp hafter
  have hne : s.batchOf 1 ≠ [] := by
    intro hnil
    rw [hnil] at hids
    cases hids
  have hover : LoopOver 1 s' := ⟨_, Sys.asksToRead_of_passAt hstage', rfl⟩
  refine ⟨s, s', s.batchOf 1, hs, hids, hs', ?_⟩
  exact ((batchHandled_iff hs (Sys.batchOf_eq hne) _ (.of_check inLoop_sound hin)
    (survives_steps 1 8 s) hs').1 hover).mpr (.of_check decodesAtVerdict_sound hdec)

end InferenceEngine
