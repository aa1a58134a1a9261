import InferenceEngine.Shutdown
import InferenceEngine.Redelivery

/-!
# What an exited process leaves pending

Redis keeps an entry under the name of the consumer that was given it. A consumer whose passes
return is accountable for what stands under its name: the entry is in the hands of its pass or has
a task. A task that ends without an exception has acknowledged its entry. So when the process has
exited, only the entries whose tasks raised are left for others to reclaim.
-/

namespace InferenceEngine

set_option autoImplicit false

/-- The entry is pending under the name of the consumer. -/
def Sys.Owns (s : Sys) (name : ConsumerName) (id : Nat) : Prop :=
  ∃ g, s.redis.group = some g ∧ ∃ q ∈ g.pending, q.id = id ∧ q.consumer = name

/-- The pass of the consumer still has to handle the entry. -/
def Sys.InHand (s : Sys) (name : ConsumerName) (id : Nat) : Prop :=
  ∃ p, s.stageOf name = some (.looping p) ∧ ∃ e ∈ p.entries, e.id = id

def Sys.HasTaskFor (s : Sys) (name : ConsumerName) (id : Nat) : Prop :=
  ∃ t τ, s.tasks t = some τ ∧ τ.consumer = name ∧ τ.entry = id

/-- The handler raised, or the fields did not decode. -/
def TaskBody.raised : TaskBody → Bool
  | .handling _ (.finished (.error _)) | .undecodable _ => true
  | _ => false

/-- The handler has acknowledged the entry and nothing has gone wrong since. -/
def TaskPoint.pastAck : TaskPoint → Bool
  | failGet _ | writeFailed _ _ | release (.ok ()) | finished (.ok ()) => true
  | _ => false

def TaskBody.pastAck : TaskBody → Bool
  | .handling _ p => p.pastAck
  | .undecodable _ => false

theorem TaskBody.raised_of_done {body : TaskBody} (hdone : body.isDone = true)
    (hack : body.pastAck = false) : body.raised = true := by
  cases body with
  | undecodable x => rfl
  | handling m p =>
    cases p with
    | finished outcome =>
      cases outcome with
      | ok u => cases hack
      | error x => rfl
    | _ => cases hdone

section
variable {cfg : Settings} {s s' : Sys} {a : Act} {name : ConsumerName} {id : Nat}

theorem Sys.Owns.isPending (h : s.Owns name id) : s.redis.isPending id = true := by
  obtain ⟨g, hg, q, hq, hid, _⟩ := h
  rw [Redis.isPending, hg]
  exact (g.isPending_iff id).mpr ⟨q, hq, hid⟩

theorem Sys.Owns.congr (h : s'.redis.group = s.redis.group) (ho : s'.Owns name id) :
    s.Owns name id := by
  rwa [Sys.Owns, h] at ho

theorem Sys.Change.owned {who : Actor} {c : Choice} {e : Effect} (h : Change cfg who c s e s')
    (ho : s'.Owns name id) :
    s.Owns name id ∨ (s.consumer who = some name ∧
      ((∃ n, e = .xautoclaim n ∧ id ∈ c.claimed ∧ s.redis.work.has id = true) ∨
      ∃ n g, e = .xreadgroup n ∧ s.redis.group = some g ∧
        ∃ x ∈ (g.unread s.redis.work).take n.toNat, x.id = id)) := by
  cases h with
  | ack other hf =>
    left
    obtain ⟨g', hg', q, hq, hrest⟩ := ho
    obtain ⟨g, hg, rfl⟩ := Option.map_eq_some_iff.mp hg'
    exact ⟨g, hg, q, List.mem_of_mem_filter hq, hrest⟩
  | create hf hnone =>
    obtain ⟨g', hg', q, hq, _⟩ := ho
    cases hg'
    cases hq
  | claim n other g start f hf hc hg hallowed hw =>
    obtain ⟨g', hg', q', hq', hid, hname⟩ := ho
    cases hg'
    obtain ⟨q, hq, hif⟩ := List.mem_filterMap.mp hq'
    split at hif
    · rename_i hmem
      split at hif
      · rename_i hhas
        cases hif
        refine .inr ⟨hc.trans (congrArg some hname), .inl ⟨n, rfl, hid ▸ hmem, hid ▸ hhas⟩⟩
      · cases hif
    · cases hif
      exact .inl ⟨g, hg, q', hq, hid, hname⟩
  | read n other g hf hc hg =>
    obtain ⟨g', hg', q, hq, hid, hname⟩ := ho
    cases hg'
    rcases List.mem_append.mp hq with hold | hnew
    · exact .inl ⟨g, hg, q, hold, hid, hname⟩
    · obtain ⟨x, hx, rfl⟩ := List.mem_map.mp hnew
      exact .inr ⟨hc.trans (congrArg some hname), .inr ⟨n, g, rfl, hg, x, hx, hid⟩⟩
  | _ => exact .inl ho

theorem Sys.passRaised_of_stage {x : Exn}
    (h : s.stageOf name = some (.looping (.finished (.error x)))) : s.passRaised name = true :=
  Sys.passRaised_iff.mpr ⟨x, h⟩

theorem mem_claimEntries {g : Group} {ids : List Nat} (hmem : id ∈ ids)
    (hhas : s.redis.work.has id = true) :
    ∃ e ∈ (s.claimEntries name g ids).1, e.id = id := by
  cases hfind : s.redis.work.entries.find? fun e => e.id = id with
  | none =>
    obtain ⟨e, he, hid⟩ := List.any_eq_true.mp hhas
    exact absurd hid (List.find?_eq_none.mp hfind e he)
  | some e =>
    refine ⟨e, List.mem_filterMap.mpr ⟨id, hmem, hfind⟩, ?_⟩
    simpa using List.find?_some hfind

/-- What a step brings under a name is in the hands of its pass, unless the pass raises. -/
theorem taken_of_step (h : step cfg s a = some s') (ho : s'.Owns name id) :
    s.Owns name id ∨ s'.InHand name id ∨ s'.passRaised name = true := by
  cases Sys.step_cases h with
  | submission j c job p e k r s₁ hsub hnode hperf =>
    rcases (Sys.perform_change hperf).owned (ho.congr rfl) with hold | ⟨hc, _⟩
    · exact .inl hold
    · cases hc
  | starting other c w p e k r s₁ hw hstage hnode hperf =>
    rcases (Sys.perform_change hperf).owned (ho.congr rfl) with hold | ⟨_, hread⟩
    · exact .inl hold
    · rcases hread with ⟨n, rfl, _⟩ | ⟨n, g, rfl, _⟩
      · cases p <;> cases hnode
      · cases p <;> cases hnode
  | task t c other j m p w q e k r s₁ htask hw hstage hnode hperf =>
    rcases (Sys.perform_change hperf).owned (ho.congr rfl) with hold | ⟨_, hread⟩
    · exact .inl hold
    · rcases hread with ⟨n, rfl, _⟩ | ⟨n, g, rfl, _⟩
      · cases p <;> cases hnode
      · cases p <;> cases hnode
  | looping other c w p e k r s₁ hw hstage hnode hperf =>
    rcases (Sys.perform_change hperf).owned (ho.congr rfl) with hold | ⟨hc, hread⟩
    · exact .inl hold
    · right
      obtain rfl : other = name := Option.some.inj hc
      have hlooping : s.stageOf other = some (.looping p) := by
        rw [Sys.stageOf, hw, Option.map_some, hstage]
      have hstage' : (s₁.setStage other (.looping (k r))).stageOf other = some (.looping (k r)) :=
        Sys.stageOf_of_perform hlooping hperf
      rcases hread with ⟨n, rfl, hmem, hhas⟩ | ⟨n, g, rfl, hg, hx⟩
      · cases p with
        | autoclaim capacity =>
          cases hnode
          cases r with
          | error x => exact .inr (Sys.passRaised_of_stage hstage')
          | ok claimed =>
            obtain ⟨name', g', _, _, _, _, rfl, _⟩ := Sys.perform_xautoclaim_ok hperf
            refine .inl ⟨_, hstage', ?_⟩
            rw [PassPoint.afterAutoclaim, PassPoint.entries_nextClaimed]
            exact mem_claimEntries hmem hhas
        | _ => cases hnode
      · cases p with
        | read capacity =>
          cases hnode
          cases r with
          | error x => exact .inr (Sys.passRaised_of_stage hstage')
          | ok entries =>
            obtain ⟨name', g', hg', rfl, _⟩ := Sys.perform_xreadgroup hperf
            cases hg.symm.trans hg'
            refine .inl ⟨_, hstage', ?_⟩
            rw [PassPoint.afterRead, PassPoint.entries_nextNew]
            exact hx
        | _ => cases hnode
  | _ => exact .inl (ho.congr rfl)

/-! ### What becomes of an entry in hand -/

theorem Sys.InHand.rest {p : PassPoint} {es : List StreamEntry}
    (hstage : s.stageOf name = some (.looping p)) (hp : p.entries = es)
    (h : ∃ e ∈ es, e.id = id) : s.InHand name id :=
  ⟨p, hstage, hp ▸ h⟩

theorem head_or_rest {e : StreamEntry} {rest : List StreamEntry}
    (h : ∃ x ∈ e :: rest, x.id = id) : e.id = id ∨ ∃ x ∈ rest, x.id = id := by
  obtain ⟨x, hx, hid⟩ := h
  rcases List.mem_cons.mp hx with rfl | hx
  · exact .inl hid
  · exact .inr ⟨x, hx, hid⟩

/-- The pass keeps an entry, starts its task, finds it in flight, acknowledges it, or raises. -/
theorem Sys.InHand.worker {c : Choice} (htracks : TracksTasks name s) (hh : s.InHand name id)
    (h : step cfg s (.resume (.worker name) c) = some s') :
    s'.InHand name id ∨ s'.HasTaskFor name id ∨ s'.redis.isPending id = false ∨
      s'.passRaised name = true := by
  obtain ⟨p, hstage, hmem⟩ := hh
  obtain ⟨e, k, r, s₁, hnode, hperf, hs', hstage'⟩ := pass_of_step hstage h
  have raises : ∀ {x : Exn}, k r = .finished (.error x) → s'.passRaised name = true := by
    intro x hk
    exact Sys.passRaised_of_stage (hk ▸ hstage')
  have started : ∀ {x : StreamEntry}, p.dispatches = some x → x.id = id →
      s'.HasTaskFor name id := by
    intro x hd hid
    exact ⟨_, _, task_of_dispatch h hstage hd, rfl, hid⟩
  cases p with
  | check x rest =>
    cases hnode
    obtain ⟨rfl, hr⟩ := Sys.perform_inFlight hperf
    cases r with
    | false => exact .inl (.rest hstage' rfl hmem)
    | true =>
      rcases head_or_rest hmem with rfl | hrest
      · have hlisted := of_decide_eq_true hr.symm
        obtain ⟨t, τ, htask, hc, hentry, _⟩ := (htracks.listed x.id).mp hlisted
        subst hs'
        exact .inr (.inl ⟨t, τ, htask, hc, hentry⟩)
      · exact .inl (.rest hstage' (PassPoint.entries_nextClaimed rest) hrest)
  | query x rest =>
    cases hnode
    cases r with
    | error y => exact .inr (.inr (.inr (raises rfl)))
    | ok pending =>
      by_cases hover : cfg.maxDeliveryCount < (pending.getD 0 : Nat)
      · cases hdecode : JobMessage.fromFields x.fields with
        | error y =>
          simp only [PassPoint.afterQuery, if_pos hover, hdecode] at hstage'
          exact .inr (.inr (.inr (Sys.passRaised_of_stage hstage')))
        | ok m =>
          simp only [PassPoint.afterQuery, if_pos hover, hdecode] at hstage'
          exact .inl (.rest hstage' rfl hmem)
      · simp only [PassPoint.afterQuery, if_neg hover] at hstage'
        exact .inl (.rest hstage' rfl hmem)
  | dispatchClaimed x rest =>
    cases hnode
    rcases head_or_rest hmem with hid | hrest
    · exact .inr (.inl (started rfl hid))
    · exact .inl (.rest hstage' (PassPoint.entries_nextClaimed rest) hrest)
  | dispatchNew x rest total =>
    cases hnode
    rcases head_or_rest hmem with hid | hrest
    · exact .inr (.inl (started rfl hid))
    · exact .inl (.rest hstage' (PassPoint.entries_nextNew total rest) hrest)
  | poison x m n rest =>
    cases hnode
    cases r with
    | ok appended => exact .inl (.rest hstage' rfl hmem)
    | error y =>
      cases y with
      | redis z => exact .inr (.inr (.inr (raises rfl)))
      | _ => exact .inr (.inr (.inr (raises rfl)))
  | poisonAck x rest =>
    cases hnode
    rcases Sys.perform_xack hperf with ⟨_, rfl, rfl⟩ | ⟨_, rfl, _⟩ | ⟨_, rfl, _⟩
    · rcases head_or_rest hmem with rfl | hrest
      · subst hs'
        exact .inr (.inr (.inl (Sys.not_pending_ackEntry s (.worker name) x.id)))
      · exact .inl (.rest hstage' (PassPoint.entries_nextClaimed rest) hrest)
    · exact .inr (.inr (.inr (raises rfl)))
    · exact .inr (.inr (.inr (raises rfl)))
  | reclaimCapacity | autoclaim capacity | readCapacity | read capacity | finished outcome =>
    obtain ⟨x, hx, _⟩ := hmem
    cases hx

theorem Sys.HasTaskFor.of_step (hcoh : Coherent s) (h : step cfg s a = some s')
    (ht : s.HasTaskFor name id) : s'.HasTaskFor name id := by
  obtain ⟨t, τ, htask, hc, hentry⟩ := ht
  obtain ⟨τ', htask', hc', hentry'⟩ := task_kept_of_step hcoh h htask
  exact ⟨t, τ', htask', hc'.trans hc, hentry'.trans hentry⟩

/-- What stands under the name of a consumer is in the hands of its pass or has a task. -/
def Sys.Accountable (s : Sys) (name : ConsumerName) : Prop :=
  ∀ id, s.Owns name id → s.InHand name id ∨ s.HasTaskFor name id

theorem Sys.InHand.of_others (hh : s.InHand name id) (h : step cfg s a = some s')
    (ha : a.main ≠ some name) : s'.InHand name id := by
  obtain ⟨p, hstage, hmem⟩ := hh
  exact ⟨p, (stageOf_of_others h ha).trans hstage, hmem⟩

theorem Sys.InHand.main (htracks : TracksTasks name s) (hh : s.InHand name id)
    (ha : a.main = some name) (hcrash : a ≠ .crash name) (h : step cfg s a = some s') :
    s'.InHand name id ∨ s'.HasTaskFor name id ∨ s'.redis.isPending id = false ∨
      s'.passRaised name = true := by
  cases a with
  | start other =>
    obtain rfl : other = name := Option.some.inj ha
    obtain ⟨p, hstage, _⟩ := hh
    cases Sys.step_cases h with
    | start other hfresh =>
      rw [Sys.stageOf, hfresh] at hstage
      cases hstage
  | pass other =>
    obtain rfl : other = name := Option.some.inj ha
    obtain ⟨p, hstage, x, hx, _⟩ := hh
    cases Sys.step_cases h with
    | pass other w hw hpass =>
      rw [Sys.stageOf, hw, Option.map_some, Option.some.injEq] at hstage
      rcases hpass with hs | ⟨outcome, hs⟩
      · cases hstage.symm.trans hs
      · cases hstage.symm.trans hs
        cases hx
  | crash other =>
    obtain rfl : other = name := Option.some.inj ha
    exact absurd rfl hcrash
  | resume who c =>
    cases who with
    | worker other =>
      obtain rfl : other = name := Option.some.inj ha
      exact hh.worker htracks h
    | _ => cases ha
  | _ => cases ha

theorem Sys.Accountable.step (hcoh : Coherent s) (htracks : TracksTasks name s)
    (hs : s.Accountable name) (hcrash : a ≠ .crash name) (h : step cfg s a = some s')
    (hpass : s'.passRaised name = false) : s'.Accountable name := by
  intro id ho
  rcases taken_of_step h ho with hold | hhand | hraised
  · rcases hs id hold with hhand | htask
    · by_cases ha : a.main = some name
      · rcases hhand.main htracks ha hcrash h with hr | hr | hr | hr
        · exact .inl hr
        · exact .inr hr
        · cases hr.symm.trans ho.isPending
        · cases hr.symm.trans hpass
      · exact .inl (hhand.of_others h ha)
    · exact .inr (htask.of_step hcoh h)
  · exact .inl hhand
  · cases hraised.symm.trans hpass

/-! ### What a task has acknowledged -/

/-- The entry of a task that is past its acknowledgement is not pending. -/
def Acknowledged (s : Sys) : Prop :=
  ∀ t τ, s.tasks t = some τ → τ.body.pastAck = true → s.redis.isPending τ.entry = false

theorem TaskPoint.pastAck_routed (cfg : BrokerSettings) (m : JobMessage) (x : Except Exn Unit) :
    (routed cfg m x).pastAck = false := by
  cases x with
  | ok u => rfl
  | error e =>
    cases e with
    | transient msg =>
      rw [routed]
      split
      · rfl
      · rfl
    | _ => rfl

theorem TaskPoint.pastAck_raised (x : Exn) : (raised x).pastAck = false := by
  cases x <;> rfl

theorem TaskPoint.pastAck_afterLoad (cfg : BrokerSettings) (m : JobMessage)
    (r : Except Exn (InferenceJob × Time)) : (afterLoad cfg m r).pastAck = false := by
  rcases r with x | ⟨job, now⟩
  · cases x with
    | jobNotFound j => exact pastAck_routed cfg m (.ok ())
    | _ => simp only [afterLoad, pastAck_routed]
  · rw [afterLoad]
    split
    · rfl
    · split
      · rfl
      · exact pastAck_routed cfg m _

theorem TaskPoint.pastAck_afterRun (cfg : BrokerSettings) (m : JobMessage) (job : InferenceJob)
    (r : Except Exn (Text × Int × Time)) : (afterRun cfg m job r).pastAck = false := by
  rcases r with x | ⟨ref, ms, now⟩
  · cases x with
    | transient msg => exact pastAck_routed cfg m (.error (.transient msg))
    | _ => exact pastAck_routed cfg m (.error (.permanent _))
  · rw [afterRun]
    split
    · rfl
    · exact pastAck_routed cfg m _

theorem TaskPoint.pastAck_next {c : Choice} {t : Nat} {m : JobMessage} {p : TaskPoint}
    {e : Effect} {k : e.Reply → TaskPoint} {r : e.Reply}
    (hnode : p.node cfg.toBrokerSettings id m = .await e k)
    (hperf : s.perform cfg (.task t) c e = some (r, s')) (hk : (k r).pastAck = true) :
    p.pastAck = true ∨ s'.redis.isPending id = false := by
  have acked : ∀ {q : TaskPoint} {r : Effect.Reply (.xack id)},
      s.perform cfg (.task t) c (.xack id) = some (r, s') → (andThen q r).pastAck = true →
      s'.redis.isPending id = false := by
    intro q r hperf hq
    rcases Sys.perform_xack hperf with ⟨_, _, rfl⟩ | ⟨_, rfl, _⟩ | ⟨_, rfl, _⟩
    · exact Sys.not_pending_ackEntry s _ id
    · cases hq
    · cases hq
  cases p with
  | failGet error | writeFailed seen job => exact .inl rfl
  | skipAck | successAck | retryAck =>
    cases hnode
    apply Or.inr
    apply acked (q := .release (.ok ())) hperf
    cases r with
    | ok u => rfl
    | error x => cases hk
  | deadLetterAck error =>
    cases hnode
    exact .inr (acked hperf hk)
  | release outcome =>
    cases hnode
    cases outcome with
    | ok u => exact .inl rfl
    | error x => cases hk
  | guard =>
    cases hnode
    rcases r with x | ⟨job, now⟩
    · cases x <;> cases hk
    · rw [afterGuard] at hk
      split at hk <;> cases hk
  | load =>
    cases hnode
    cases (TaskPoint.pastAck_afterLoad _ _ r).symm.trans hk
  | writeRunning seen job =>
    cases hnode
    cases r with
    | ok u => cases hk
    | error x => cases (TaskPoint.pastAck_routed _ _ (.error x)).symm.trans hk
  | running job =>
    cases hnode
    cases (TaskPoint.pastAck_afterRun _ _ _ r).symm.trans hk
  | writeSuccess seen job =>
    cases hnode
    cases (TaskPoint.pastAck_routed _ _ r).symm.trans hk
  | requeueGet =>
    cases hnode
    rcases r with x | ⟨job, now⟩
    · cases x <;> cases hk
    · rw [afterRequeueGet] at hk
      split at hk <;> cases hk
  | writePending seen job =>
    cases hnode
    cases r <;> cases hk
  | republish | deadLetter reason error =>
    cases hnode
    cases r with
    | ok n => cases hk
    | error x => cases (TaskPoint.pastAck_raised x).symm.trans hk
  | finished outcome => cases hnode

theorem TaskBody.pastAck_of (fields : Fields) : (TaskBody.of fields).pastAck = false := by
  rw [TaskBody.of]
  split
  · rfl
  · rfl

theorem Acknowledged.step (hreg : Regular cfg s) (hs : Acknowledged s)
    (h : step cfg s a = some s') : Acknowledged s' := by
  intro t τ' htask' hack
  have kept : ∀ τ : Task, s.tasks t = some τ → τ.body.pastAck = true →
      s'.redis.isPending τ.entry = false := by
    intro τ htask hpast
    exact not_pending_of_step h (hreg.passed.tasks t τ htask) (hs t τ htask hpast)
  rcases step_tasks h with ⟨htasks, _⟩ | ⟨name, c, w, p, x, _, _, _, _, _, htasks⟩ |
    ⟨u, c, name, id, m, p, e, k, r, s₁, ha, htask, hnode, hperf, _, htasks⟩
  · rw [htasks] at htask'
    exact kept τ' htask' hack
  · rw [htasks, Function.update_apply] at htask'
    split at htask'
    · cases htask'
      cases (TaskBody.pastAck_of x.fields).symm.trans hack
    · exact kept τ' htask' hack
  · rw [htasks, Function.update_apply] at htask'
    split at htask'
    · rename_i ht
      subst ht
      cases htask'
      rcases TaskPoint.pastAck_next hnode hperf hack with hpast | hpend
      · exact kept ⟨name, id, .handling m p⟩ htask hpast
      · subst ha
        cases Sys.step_cases h with
        | task t c name' id' m' p' w q e' k' r' s₂ htask₂ hw hstage hnode' hperf' =>
          cases htask.symm.trans htask₂
          cases hnode.symm.trans hnode'
          cases hperf.symm.trans hperf'
          exact hpend
    · exact kept τ' htask' hack

theorem Acknowledged.init : Acknowledged Sys.init := by
  intro t τ htask
  cases htask

/-! ### The processes -/

theorem Process.Acted.of_died {p p' : Process} {b : ProcessAct} (hdied : p.point = .died)
    (h : p.Acted cfg s name b p' s') : p'.point = .died := by
  obtain ⟨point, stop, acquired, closed⟩ := p
  subst hdied
  cases h with
  | signalled => rfl
  | killed s' hs => rfl
  | resumed c s' hp hstep => rcases hp with hp | hp <;> cases hp
  | cut kind c hp => rcases hp with hp | hp <;> cases hp
  | created call left hp | createRaised call left hp | launched s' hp hstep | started hp hstage
  | startRaised x hp hstage | stopped hp hstop | entered s' hp hstop hstep | returned n hp hstage
  | raised x hp hstage | woken hp | drained inFlight exit hp hdone | startCut kind c s' hp hstep
  | passCut kind c s' x hp hstep hstage | ended exit hp | released raises r left exit hp =>
    cases hp

theorem Process.Acted.sys_of_alive {p p' : Process} {b : ProcessAct}
    (h : p.Acted cfg s name b p' s') :
    p'.point = .died ∨ s' = s ∨
      ∃ c, c.main = some name ∧ c ≠ .crash name ∧ step cfg s c = some s' := by
  cases h with
  | killed s' hs => exact .inl rfl
  | launched s' hp hstep => exact .inr (.inr ⟨_, rfl, Act.noConfusion, hstep⟩)
  | entered s' hp hstop hstep => exact .inr (.inr ⟨_, rfl, Act.noConfusion, hstep⟩)
  | resumed c s' hp hstep => exact .inr (.inr ⟨_, rfl, Act.noConfusion, hstep⟩)
  | startCut kind c s' hp hstep => exact .inr (.inr ⟨_, rfl, Act.noConfusion, hstep⟩)
  | passCut kind c s' x hp hstep hstage => exact .inr (.inr ⟨_, rfl, Act.noConfusion, hstep⟩)
  | _ => exact .inr (.inl rfl)

namespace Fleet

variable {f f' : Fleet} {b : FleetAct} {acts : List FleetAct}

def PassesReturn (cfg : Settings) (name : ConsumerName) (f : Fleet) (b : FleetAct) : Prop :=
  ∀ f', step cfg f b = some f' → f'.sys.passRaised name = false

/-- What carries the account of one consumer over a run. -/
structure Answerable (cfg : Settings) (name : ConsumerName) (f : Fleet) : Prop where
  consistent : Consistent f
  regular : Regular cfg f.sys
  tracks : TracksTasks name f.sys
  acknowledged : Acknowledged f.sys
  accountable : f.sys.Accountable name ∨ ∃ p, f.processes name = some p ∧ p.point = .died

theorem Answerable.init : Answerable cfg name {} where
  consistent := .init
  regular := .init
  tracks := .init
  acknowledged := .init
  accountable := by
    left
    rintro id ⟨g, hg, _⟩
    cases hg

theorem Answerable.step_accountable (hs : Answerable cfg name f) (h : step cfg f b = some f')
    (hret : f'.sys.passRaised name = false) :
    f'.sys.Accountable name ∨ ∃ p, f'.processes name = some p ∧ p.point = .died := by
  have hcoh := hs.regular.coherent
  cases step_cases h with
  | launch other isProd hfresh =>
    rcases hs.accountable with hacc | ⟨p, hp, hdied⟩
    · exact .inl hacc
    · have hn : name ≠ other := by
        rintro rfl
        cases hfresh.symm.trans hp
      exact .inr ⟨p, (Function.update_of_ne hn _ _).trans hp, hdied⟩
  | process other c q q' s' hq hacted =>
    by_cases hn : name = other
    · subst hn
      rcases hs.accountable with hacc | ⟨p, hp, hdied⟩
      · rcases hacted.sys_of_alive with hdied | rfl | ⟨c, _, hcrash, hstep⟩
        · exact .inr ⟨q', Function.update_self _ _ _, hdied⟩
        · exact .inl hacc
        · exact .inl (hacc.step hcoh hs.tracks hcrash hstep hret)
      · cases hq.symm.trans hp
        exact .inr ⟨q', Function.update_self _ _ _, hacted.of_died hdied⟩
    · rcases hs.accountable with hacc | ⟨p, hp, hdied⟩
      · rcases hacted.sys with rfl | ⟨c, hmain, hstep⟩
        · exact .inl hacc
        · apply Or.inl
          apply hacc.step hcoh hs.tracks _ hstep hret
          rintro rfl
          exact hn (Option.some.inj hmain)
      · exact .inr ⟨p, (Function.update_of_ne hn _ _).trans hp, hdied⟩
  | others c s' hc hstep =>
    rcases hs.accountable with hacc | hdied
    · apply Or.inl
      apply hacc.step hcoh hs.tracks _ hstep hret
      rintro rfl
      cases hc
    · exact .inr hdied

theorem Answerable.step (hs : Answerable cfg name f) (hret : PassesReturn cfg name f b)
    (h : step cfg f b = some f') : Answerable cfg name f' := by
  have hsys : Regular cfg f'.sys ∧ TracksTasks name f'.sys ∧ Acknowledged f'.sys := by
    rcases sys_of_step h with hr | ⟨c, hc⟩
    · rw [hr]
      exact ⟨hs.regular, hs.tracks, hs.acknowledged⟩
    · exact ⟨hs.regular.step hc, hs.tracks.step hs.regular hc, hs.acknowledged.step hs.regular hc⟩
  exact ⟨hs.consistent.step h, hsys.1, hsys.2.1, hsys.2.2, hs.step_accountable h (hret f' h)⟩

theorem Consistent.idle_of_exited (hs : Consistent f) {p : Process} {exit : Exit}
    (hp : f.processes name = some p) (hexit : p.point = .exited exit) :
    f.sys.midPass name = false ∧ Quiet name f.sys := by
  have hagrees := hs.agrees name p hp
  obtain ⟨point, stop, acquired, closed⟩ := p
  subst hexit
  rcases hagrees with ⟨_, hnone, _⟩ | ⟨_, _, hpass, hquiet⟩
  · constructor
    · rw [Sys.midPass, hnone]
    · apply hs.manned.quiet
      rw [Sys.hasBegun, hnone]
  · exact ⟨hpass, hquiet⟩

theorem not_inHand_of_rest (h : s.midPass name = false) : ¬ s.InHand name id := by
  rintro ⟨p, hstage, x, hx, _⟩
  rw [Sys.midPass, hstage] at h
  cases p with
  | finished outcome => cases hx
  | _ => cases h

/-- When a process has exited and none of its passes raised, the entries of its tasks that ended
without an exception are acknowledged for good, and each entry that is still pending under its
name has a task of its own that raised. -/
theorem exited_accounts (h : Reaches cfg acts f)
    (hret : Runs.Along (step cfg) (PassesReturn cfg name) {} acts) {p : Process} {exit : Exit}
    (hp : f.processes name = some p) (hexit : p.point = .exited exit) :
    (∀ t τ, f.sys.tasks t = some τ → τ.consumer = name → τ.body.raised = false →
      f.sys.redis.isPending τ.entry = false) ∧
    ∀ id, f.sys.Owns name id → ∃ t τ, f.sys.tasks t = some τ ∧ τ.consumer = name ∧
      τ.entry = id ∧ τ.body.raised = true := by
  have hend : Answerable cfg name f :=
    Runs.invariant (fun _ _ _ hs hret hstep => hs.step hret hstep) .init hret h
  obtain ⟨hpass, hquiet⟩ := hend.consistent.idle_of_exited hp hexit
  have hacked : ∀ t τ, f.sys.tasks t = some τ → τ.consumer = name → τ.body.raised = false →
      f.sys.redis.isPending τ.entry = false := by
    intro t τ htask hc hraised
    apply hend.acknowledged t τ htask
    by_contra hack
    have hdone := hquiet t τ htask hc
    cases (TaskBody.raised_of_done hdone (Bool.eq_false_iff.mpr hack)).symm.trans hraised
  refine ⟨hacked, fun id ho => ?_⟩
  rcases hend.accountable with hacc | ⟨p', hp', hdied⟩
  · rcases hacc id ho with hhand | ⟨t, τ, htask, hc, hentry⟩
    · exact absurd hhand (not_inHand_of_rest hpass)
    · refine ⟨t, τ, htask, hc, hentry, ?_⟩
      by_contra hraised
      have hnot := hacked t τ htask hc (Bool.eq_false_iff.mpr hraised)
      rw [hentry] at hnot
      cases hnot.symm.trans ho.isPending
  · cases hp.symm.trans hp'
    cases hexit.symm.trans hdied

end Fleet

end

/-- The task writes its result, and its `XACK` fails. -/
def Fleet.ackFails : List FleetAct :=
  [.process 0 .signal, .process 0 .advance] ++ (steps (.task 0) 5).map .others ++
    .others (.resume (.task 0) { fate := .failed }) :: (steps (.task 0) 1).map .others ++
    [.process 0 .advance]

def Fleet.passesReturn (cfg : Settings) (name : ConsumerName) (f : Fleet) (b : FleetAct) : Bool :=
  (Fleet.step cfg f b).all fun f' => !f'.sys.passRaised name

theorem Fleet.passesReturn_sound {cfg : Settings} {name : ConsumerName} (f : Fleet)
    (b : FleetAct) (h : passesReturn cfg name f b = true) : PassesReturn cfg name f b := by
  intro f' hstep
  rw [passesReturn, hstep] at h
  simpa using h

theorem Fleet.ackFailed_accounted : ∃ f p exit,
    Fleet.Reaches {} (bootAndRead ++ ackFails ++ closeAll) f ∧ f.processes 0 = some p ∧
    p.point = .exited exit ∧ f.sys.Owns 0 1 ∧
    ∃ t τ, f.sys.tasks t = some τ ∧ τ.consumer = 0 ∧ τ.entry = 1 ∧ τ.body.raised = true := by
  obtain ⟨f, hf, hview⟩ := Runs.exec_of_map (Fleet.step {}) {} (bootAndRead ++ ackFails ++ closeAll)
    (fun f => ((f.processes 0).map fun p => p.point.hasExited,
      f.sys.redis.group.map fun g => g.pending))
    (some true, some [{ id := 1, consumer := 0, timesDelivered := 1 }]) (by decide +kernel)
  obtain ⟨hpoint, hpending⟩ := Prod.mk.inj hview
  obtain ⟨p, hp, hexited⟩ := Option.map_eq_some_iff.mp hpoint
  obtain ⟨exit, hexit⟩ : ∃ exit, p.point = .exited exit := by
    obtain ⟨point, stop, acquired, closed⟩ := p
    cases point with
    | exited exit => exact ⟨exit, rfl⟩
    | _ => cases hexited
  obtain ⟨g, hg, hentries⟩ := Option.map_eq_some_iff.mp hpending
  have howns : f.sys.Owns 0 1 :=
    ⟨g, hg, ⟨1, 0, 1⟩, hentries ▸ List.mem_cons_self, rfl, rfl⟩
  have hret : Runs.Along (Fleet.step {}) (PassesReturn {} 0) {}
      (bootAndRead ++ ackFails ++ closeAll) :=
    Runs.Along.of_check passesReturn_sound (by decide +kernel)
  exact ⟨f, p, exit, hf, hp, hexit, howns, (exited_accounts hf hret hp hexit).2 1 howns⟩

end InferenceEngine
