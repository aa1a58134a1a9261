import InferenceEngine.Backstop
import InferenceEngine.DeadLetters

/-!
# Premature verdicts

Redis counts deliveries, and `max_delivery_count` is meant to bound executions. A delivery is
wasted when no task comes of it: the consumer skips an entry that it is still processing, its
pass is cut short, or the entry is claimed from under a pass that holds it. Where no delivery
is wasted, an entry is judged over-delivered only after its executions are used up.
-/

namespace InferenceEngine

set_option autoImplicit false

/-- What the next step of a pass may not do to a delivery of the entry. -/
def KeepsDelivery (cfg : Settings) (id : Nat) (s : Sys) (name : ConsumerName) (c : Choice) :
    PassPoint → Prop
  | .autoclaim _ => id ∈ c.claimed → c.fate = .ok ∧ ∀ other, s.heldAt other id = 0
  | .read _ => c.fate = .ok
  | .check e _ => e.id = id → id ∉ s.inFlightAt name
  | .query e rest => (∃ x ∈ e :: rest, x.id = id) → c.fate = .ok ∧
      (cfg.maxDeliveryCount < ((s.redis.timesDelivered e.id).getD 0 : Nat) →
        ∃ m, JobMessage.fromFields e.fields = .ok m)
  | .poison e _ _ rest | .poisonAck e rest => (∃ x ∈ e :: rest, x.id = id) → c.fate = .ok
  | _ => True

/-- Before its tasks are used up, no delivery of the entry is wasted. -/
def Wasteless (cfg : Settings) (id : Nat) (s : Sys) (a : Act) : Prop :=
  (s.startsOf id : Int) < max 1 cfg.maxDeliveryCount →
    match a with
    | .crash name => s.heldAt name id = 0
    | .resume (.worker name) c =>
      ∀ p, s.stageOf name = some (.looping p) → KeepsDelivery cfg id s name c p
    | _ => True

/-- A pass dead-letters the entry for its deliveries only after this many executions. -/
def NoPrematureVerdict (cfg : Settings) (id : Nat) (s : Sys) : Prop :=
  ∀ name e m n rest, s.stageOf name = some (.looping (.poison e m n rest)) → e.id = id →
    max 1 cfg.maxDeliveryCount ≤ (s.startsOf id : Int)

/-- Every counted delivery of the entry became a task, but for one that a pass holds. -/
structure Unwasted (id : Nat) (s : Sys) : Prop where
  counted : ∀ n, s.redis.timesDelivered id = some n →
    1 ≤ n ∧ (n ≤ s.startsOf id ∨ n ≤ s.startsOf id + 1 ∧ ∃ name, s.heldAt name id ≠ 0)
  claimed : ∀ name p, s.stageOf name = some (.looping p) → ∀ x ∈ p.unsettled, x.id = id →
    1 ≤ s.startsOf id

section
variable {cfg : Settings} {s s' : Sys} {a : Act} {id : Nat}

theorem Sys.heldAt_ne_zero_iff {name : ConsumerName} :
    s.heldAt name id ≠ 0 ↔
      ∃ p, s.stageOf name = some (.looping p) ∧ ∃ x ∈ p.entries, x.id = id := by
  constructor
  · intro h
    unfold heldAt passCount at h
    split at h
    · rename_i p hp
      obtain ⟨x, hx, hid⟩ := List.countP_pos_iff.mp (Nat.pos_of_ne_zero h)
      exact ⟨p, hp, x, hx, of_decide_eq_true hid⟩
    · exact absurd rfl h
  · rintro ⟨p, hp, x, hx, rfl⟩
    exact heldAt_ne_zero hp hx

theorem held_of_counted (hcond : Wasteless cfg id s a)
    (hfew : (s.startsOf id : Int) < max 1 cfg.maxDeliveryCount)
    (h : step cfg s a = some s') {n' : Nat} (htimes' : s'.redis.timesDelivered id = some n') :
    s.redis.timesDelivered id = some n' ∨
    (∃ n, s.redis.timesDelivered id = some n ∧ n' = n + 1 ∧
      (∀ other, s.heldAt other id = 0) ∧ ∃ name, s'.heldAt name id ≠ 0) ∨
    (n' = 1 ∧ ∃ name, s'.heldAt name id ≠ 0) := by
  have hcond := hcond hfew
  have quiet : ∀ {who : Actor} {c : Choice} {e : Effect} {r : e.Reply} {s₁ : Sys},
      s.perform cfg who c e = some (r, s₁) → s'.redis = s₁.redis → (∀ n, e ≠ .xautoclaim n) →
      (∀ n, e ≠ .xreadgroup n) → s.redis.timesDelivered id = some n' := by
    intro who c e r s₁ hperf hredis hclaim hread
    rw [hredis] at htimes'
    rcases (Sys.perform_change hperf).timesDelivered id with hsame | hnone | ⟨n, he, _⟩ |
      ⟨n, _, _, he, _⟩
    · exact hsame ▸ htimes'
    · cases hnone.symm.trans htimes'
    · exact absurd he (hclaim n)
    · exact absurd he (hread n)
  cases Sys.step_cases h with
  | submission id' c job p e k r s₁ hsub hnode hperf =>
    exact .inl (quiet hperf rfl (by cases p <;> cases hnode <;> simp)
      (by cases p <;> cases hnode <;> simp))
  | starting name c w p e k r s₁ hw hst hnode hperf =>
    exact .inl (quiet hperf rfl (by cases p <;> cases hnode; simp)
      (by cases p <;> cases hnode; simp))
  | task t c name id' m p w q e k r s₁ htask hw hst hnode hperf =>
    exact .inl (quiet hperf rfl (by cases p <;> cases hnode <;> simp)
      (by cases p <;> cases hnode <;> simp))
  | looping name c w p e k r s₁ hw hst hnode hperf =>
    have hstage : s.stageOf name = some (.looping p) := by
      rw [Sys.stageOf, hw, Option.map_some, hst]
    have hkeep := hcond p hstage
    have hafter : (s₁.setStage name (.looping (k r))).stageOf name = some (.looping (k r)) :=
      Sys.stageOf_of_perform hstage hperf
    have reaches : ∀ {es : List StreamEntry}, (k r).entries = es →
        (es.any fun e => decide (e.id = id)) = true →
        (s₁.setStage name (.looping (k r))).heldAt name id ≠ 0 := by
      intro es hes hany
      obtain ⟨x, hx, hid⟩ := List.any_eq_true.mp hany
      exact Sys.heldAt_ne_zero_iff.mpr ⟨k r, hafter, x, hes ▸ hx, of_decide_eq_true hid⟩
    rcases (Sys.perform_change hperf).timesDelivered id with hsame | hnone | ⟨n, he, hid, htimes⟩ |
      ⟨n, name', g, he, hg, hs₁⟩
    · exact .inl (hsame ▸ htimes')
    · cases hnone.symm.trans htimes'
    · obtain ⟨m, hm, rfl⟩ := Option.map_eq_some_iff.mp (htimes.symm.trans htimes')
      subst he
      cases p with
      | autoclaim n =>
        cases hnode
        obtain ⟨hc, hfree⟩ := hkeep hid
        obtain ⟨g, hg, _⟩ := Option.bind_eq_some_iff.mp hm
        obtain ⟨es, rfl⟩ := Sys.perform_xautoclaim_arrives hc hg hperf
        obtain ⟨name', g', _, hg', _, _, rfl, hredis⟩ := Sys.perform_xautoclaim_ok hperf
        have hon : s.redis.work.has id = true := by
          by_contra hne
          have hgone := s.timesDelivered_claimEntries name' hg' c.claimed id
          rw [if_pos hid, if_neg hne, ← hredis] at hgone
          cases hgone.symm.trans htimes'
        exact .inr (.inl ⟨m, hm, rfl, hfree, name,
          reaches (PassPoint.entries_nextClaimed _) (Sys.any_claimEntries hid hon)⟩)
      | _ => cases hnode
    · subst he
      cases p with
      | read n =>
        cases hnode
        obtain ⟨es, rfl⟩ := Sys.perform_xreadgroup_arrives hkeep hg hperf
        obtain ⟨_, g', hg', rfl, _⟩ := Sys.perform_xreadgroup hperf
        obtain rfl : g = g' := Option.some.inj (hg.symm.trans hg')
        have htimes : s₁.redis.timesDelivered id = _ :=
          hs₁ ▸ s.timesDelivered_readGroup name' hg n id
        rw [show s₁.redis.timesDelivered id = some n' from htimes'] at htimes
        cases hold : s.redis.timesDelivered id with
        | some m =>
          rw [hold, Option.some_or] at htimes
          exact .inl htimes.symm
        | none =>
          rw [hold, Option.none_or] at htimes
          split at htimes
          · rename_i hany
            obtain rfl : n' = 1 := Option.some.inj htimes
            exact .inr (.inr ⟨rfl, name, reaches (PassPoint.entries_nextNew _ _) hany⟩)
          · cases htimes
      | _ => cases hnode
  | _ => exact .inl htimes'

theorem held_of_step (hreg : Regular cfg s) (hcond : Wasteless cfg id s a)
    (hfew : (s.startsOf id : Int) < max 1 cfg.maxDeliveryCount)
    (h : step cfg s a = some s') {name : ConsumerName} (hheld : s.heldAt name id ≠ 0) :
    s'.heldAt name id ≠ 0 ∨ s'.startsOf id = s.startsOf id + 1 ∨
      s'.redis.timesDelivered id = none := by
  obtain ⟨p, hstage, x, hx, hid⟩ := Sys.heldAt_ne_zero_iff.mp hheld
  have hcond := hcond hfew
  by_cases hown : a.isPassOf name = true
  · obtain ⟨c, rfl⟩ := Act.isPassOf_iff.mp hown
    obtain ⟨e, k, r, s₁, hnode, hperf, heq, hstage'⟩ := pass_of_step hstage h
    obtain ⟨g, hg, _⟩ :=
      Option.any_eq_true _ _ |>.mp (hreg.passed.of_touched (.inr ⟨name, hheld⟩))
    have hkeep := hcond p hstage
    have stay : ∀ {es : List StreamEntry}, (k r).entries = es → (∃ x ∈ es, x.id = id) →
        s'.heldAt name id ≠ 0 := by
      rintro es hes ⟨y, hy, hyid⟩
      exact Sys.heldAt_ne_zero_iff.mpr ⟨k r, hstage', y, hes ▸ hy, hyid⟩
    have started : ∀ {y : StreamEntry} {rest : List StreamEntry}, p.entries = y :: rest →
        (k r).entries = rest → s₁ = s.startTask name y.id y.fields →
        s'.heldAt name id ≠ 0 ∨ s'.startsOf id = s.startsOf id + 1 ∨
          s'.redis.timesDelivered id = none := by
      intro y rest hp hk hs₁
      rw [hp] at hx
      by_cases hy : y.id = id
      · have hnext : s'.nextTask = s.nextTask + 1 := heq ▸ hs₁ ▸ rfl
        have htasks : s'.tasks = Function.update s.tasks s.nextTask
            (some ⟨name, y.id, .of y.fields⟩) := heq ▸ hs₁ ▸ rfl
        have hstarts := Sys.startsOf_of_new hnext htasks id
        rw [if_pos hy] at hstarts
        exact .inr (.inl hstarts)
      · rcases List.mem_cons.mp hx with rfl | hrest
        · exact absurd hid hy
        · exact .inl (stay hk ⟨x, hrest, hid⟩)
    cases p with
    | check y rest =>
      cases hnode
      obtain ⟨rfl, rfl⟩ := Sys.perform_inFlight hperf
      by_cases hin : y.id ∈ s₁.inFlightAt name
      · simp only [hin, decide_true, if_true] at stay
        rcases List.mem_cons.mp hx with rfl | hrest
        · exact absurd (hid ▸ hin) (hkeep hid)
        · exact .inl (stay (PassPoint.entries_nextClaimed rest) ⟨x, hrest, hid⟩)
      · simp only [hin, decide_false] at stay
        exact .inl (stay rfl ⟨x, hx, hid⟩)
    | query y rest =>
      cases hnode
      obtain ⟨hc, hdecode⟩ := hkeep ⟨x, hx, hid⟩
      obtain ⟨pending, rfl⟩ := Sys.perform_xpending_arrives hc hg hperf
      obtain ⟨rfl, rfl⟩ := Sys.perform_xpending_ok hperf
      left
      by_cases hover : cfg.maxDeliveryCount < ((s₁.redis.timesDelivered y.id).getD 0 : Nat)
      · obtain ⟨m, hm⟩ := hdecode hover
        simp only [PassPoint.afterQuery, if_pos hover, hm] at stay
        exact stay rfl ⟨x, hx, hid⟩
      · simp only [PassPoint.afterQuery, if_neg hover] at stay
        exact stay rfl ⟨x, hx, hid⟩
    | dispatchClaimed y rest =>
      cases hnode
      exact started rfl (PassPoint.entries_nextClaimed rest)
        (congrArg Prod.snd (Option.some.inj hperf)).symm
    | poison y m n rest =>
      cases hnode
      obtain ⟨rfl, rfl⟩ := Sys.perform_xaddDlq_ok (hkeep ⟨x, hx, hid⟩) hperf
      exact .inl (stay rfl ⟨x, hx, hid⟩)
    | poisonAck y rest =>
      cases hnode
      obtain ⟨rfl, rfl⟩ := Sys.perform_xack_ok (hkeep ⟨x, hx, hid⟩) hperf
      rcases List.mem_cons.mp hx with rfl | hrest
      · right
        right
        subst hid
        rw [heq]
        simp [Redis.timesDelivered, Sys.setStage, Sys.ackEntry, hg, Group.timesDelivered_ack]
      · exact .inl (stay (PassPoint.entries_nextClaimed rest) ⟨x, hrest, hid⟩)
    | dispatchNew y rest total =>
      cases hnode
      exact started rfl (PassPoint.entries_nextNew total rest)
        (congrArg Prod.snd (Option.some.inj hperf)).symm
    | _ => cases hx
  · have hcrash : a ≠ .crash name := by
      rintro rfl
      exact hheld hcond
    have hstage' := stage_of_other h hstage (List.ne_nil_of_mem hx) (by simpa using hown) hcrash
    exact .inl (Sys.heldAt_ne_zero_iff.mpr ⟨p, hstage', x, hx, hid⟩)

theorem Unwasted.step (hreg : Regular cfg s) (hcond : Wasteless cfg id s a)
    (hfew : (s.startsOf id : Int) < max 1 cfg.maxDeliveryCount) (hs : Unwasted id s)
    (h : step cfg s a = some s') : Unwasted id s' where
  counted := by
    intro n' htimes'
    have hmore := startsOf_le_of_step h id
    rcases held_of_counted hcond hfew h htimes' with hsame | ⟨n, hn, rfl, hfree, hheld'⟩ |
      ⟨rfl, hheld'⟩
    · obtain ⟨hpos, hle | ⟨hle, name, hheld⟩⟩ := hs.counted n' hsame
      · exact ⟨hpos, .inl (hle.trans hmore)⟩
      · rcases held_of_step hreg hcond hfew h hheld with hheld' | hstart | hnone
        · exact ⟨hpos, .inr ⟨by omega, name, hheld'⟩⟩
        · exact ⟨hpos, .inl (by omega)⟩
        · cases hnone.symm.trans htimes'
    · obtain ⟨hpos, hle | ⟨_, name, hheld⟩⟩ := hs.counted n hn
      · exact ⟨by omega, .inr ⟨by omega, hheld'⟩⟩
      · exact absurd (hfree name) hheld
    · exact ⟨le_rfl, .inr ⟨by omega, hheld'⟩⟩
  claimed := by
    intro name p hstage x hx hid
    have hmore := startsOf_le_of_step h id
    rcases step_stage h name with hr | ⟨_, _, hr⟩ | ⟨_, _, hr⟩ | ⟨_, _, _, _, _, _, _, _, _, _, _, hr⟩ |
      ⟨c, q, e, k, r, s₁, rfl, hold, hnode, hperf, _, hr⟩ | ⟨_, hr⟩
    · exact (hs.claimed name p (hr ▸ hstage) x hx hid).trans hmore
    · cases hr.symm.trans hstage
    · cases hr.symm.trans hstage
      cases hx
    · cases hr.symm.trans hstage
    · cases hr.symm.trans hstage
      rcases PassPoint.unsettled_next hnode r with hsuffix | ⟨n, rfl⟩
      · exact (hs.claimed name q hold x (hsuffix.subset hx) hid).trans hmore
      · cases hnode
        -- what is claimed was pending, and every delivery of it had become a task
        rcases r with y | es
        · cases hx
        · obtain ⟨name', g, _, hg, _, hpend, rfl, _⟩ := Sys.perform_xautoclaim_ok hperf
          simp only [PassPoint.afterAutoclaim, PassPoint.unsettled_nextClaimed] at hx
          have hclaimed : x.id ∈ c.claimed :=
            (s.claimEntries_sublist _ _ c.claimed).subset (List.mem_map_of_mem hx)
          rw [hid] at hclaimed
          have hfree := (hcond hfew _ hold hclaimed).2
          have hsome := hpend id hclaimed
          rw [Redis.isPending_eq_isSome, Option.isSome_iff_exists] at hsome
          obtain ⟨m, hm⟩ := hsome
          obtain ⟨hpos, hle | ⟨_, other, hheld⟩⟩ := hs.counted m hm
          · omega
          · exact absurd (hfree other) hheld
    · cases hr.symm.trans hstage

theorem NoPrematureVerdict.step (hv : NoPrematureVerdict cfg id s) (hs : Unwasted id s)
    (h : step cfg s a = some s') : NoPrematureVerdict cfg id s' := by
  intro name e m n rest hstage hid
  have hmore := startsOf_le_of_step h id
  rcases step_stage h name with hr | ⟨_, _, hr⟩ | ⟨_, _, hr⟩ | ⟨_, _, _, _, _, _, _, _, _, _, _, hr⟩ |
    ⟨c, q, ef, k, r, s₁, rfl, hold, hnode, hperf, _, hr⟩ | ⟨_, hr⟩
  · have hle := hv name e m n rest (hr ▸ hstage) hid
    omega
  · cases hr.symm.trans hstage
  · cases hr.symm.trans hstage
  · cases hr.symm.trans hstage
  · have hk := Stage.looping.inj (Option.some.inj (hr.symm.trans hstage))
    obtain ⟨rfl, _⟩ := PassPoint.query_of_verdict hnode hk
    cases hnode
    have hone := hs.claimed name _ hold e List.mem_cons_self hid
    rcases r with y | pending
    · cases hk
    · obtain ⟨rfl, rfl⟩ := Sys.perform_xpending_ok hperf
      by_cases hover : cfg.maxDeliveryCount < ((s₁.redis.timesDelivered e.id).getD 0 : Nat)
      · rw [hid] at hover
        cases htimes : s₁.redis.timesDelivered id with
        | none =>
          rw [htimes, Option.getD_none] at hover
          omega
        | some d =>
          rw [htimes, Option.getD_some] at hover
          obtain ⟨_, hle | ⟨hle, _⟩⟩ := hs.counted d htimes
          · omega
          · omega
      · simp only [PassPoint.afterQuery, if_neg hover] at hk
        cases hk
  · cases hr.symm.trans hstage

end

end InferenceEngine
