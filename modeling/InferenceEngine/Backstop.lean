import InferenceEngine.Deliveries
import InferenceEngine.Redispatch

/-!
# The crash-loop backstop

The tasks started for a pending entry and the deliveries that passes still hold are together
at most what Redis has counted. A claimed entry is cleared for a task only while the counter
is within `max_delivery_count`; so no unacknowledged entry gets more tasks than that, and once
it has had them, every further claim ends in a dead letter.
-/

namespace InferenceEngine

set_option autoImplicit false

open Credits

/-- Started tasks and held deliveries against the counter, cleared ones against the limit. -/
structure Tally (cfg : Settings) (s : Sys) : Prop where
  counted : ∀ id n, s.redis.timesDelivered id = some n →
    Within (s.startsOf id) (fun name => s.heldAt name id) n
  bounded : ∀ id, s.redis.timesDelivered id ≠ none →
    Within (s.startsOf id) (fun name => s.clearedAt name id) (max 1 cfg.maxDeliveryCount)

section
variable {cfg : Settings} {s s' : Sys} {a : Act}

theorem PassPoint.cleared_sublist (p : PassPoint) : p.cleared.Sublist p.entries := by
  cases p <;> simp [cleared, entries]

theorem Sys.clearedAt_le_heldAt (s : Sys) (name : ConsumerName) (id : Nat) :
    s.clearedAt name id ≤ s.heldAt name id := by
  unfold clearedAt heldAt passCount
  split
  · rename_i p hp
    exact p.cleared_sublist.countP_le
  · exact le_rfl

theorem EntriesPassed.startsOf_eq_zero (hs : EntriesPassed s) {id : Nat}
    (hnot : s.redis.passed id = false) : s.startsOf id = 0 := by
  rw [Sys.startsOf, List.countP_eq_zero]
  intro t _ ht
  obtain ⟨τ, htask, hentry⟩ := (Option.any_eq_true _ _).mp ht
  obtain rfl : τ.entry = id := of_decide_eq_true hentry
  cases hnot.symm.trans (hs.tasks t τ htask)

theorem EntriesPassed.heldAt_eq_zero (hs : EntriesPassed s) {id : Nat}
    (hnot : s.redis.passed id = false) (name : ConsumerName) : s.heldAt name id = 0 := by
  unfold Sys.heldAt Sys.passCount
  split
  · rename_i p hp
    rw [List.countP_eq_zero]
    intro e he heid
    obtain rfl : e.id = id := of_decide_eq_true heid
    cases hnot.symm.trans (hs.passes name p hp e he)
  · rfl

theorem Tally.init : Tally cfg Sys.init where
  counted := by
    intro id n h
    cases h
  bounded := by
    intro id h
    exact absurd rfl h

theorem Tally.step (hreg : Regular cfg s) (hs : Tally cfg s) (h : step cfg s a = some s') :
    Tally cfg s' where
  counted := by
    intro id n' htimes'
    cases turn_of_step hreg h id with
    | gone hnone => cases hnone.symm.trans htimes'
    | rest htimes hstarts hheld _ =>
      rw [hstarts]
      exact (hs.counted id n' (htimes ▸ htimes')).mono hheld le_rfl
    | claim name htimes hstarts hown hother _ =>
      rw [htimes] at htimes'
      obtain ⟨n, htimes, rfl⟩ := Option.map_eq_some_iff.mp htimes'
      rw [hstarts]
      exact (hs.counted id n htimes).grant hown hother
    | read name hnew htimes hstarts hown hother _ _ =>
      cases htimes.symm.trans htimes'
      have hnone := hreg.passed.heldAt_eq_zero hnew
      rw [hstarts, hreg.passed.startsOf_eq_zero hnew]
      refine within_first (i := name) ?_ ?_ le_rfl
      · have hzero := hnone name
        omega
      · intro other hne
        have hzero := hnone other
        have hle := hother other hne
        omega
    | clear name htimes _ hstarts hheld =>
      rw [hstarts]
      exact (hs.counted id n' (htimes ▸ htimes')).mono hheld le_rfl
    | start name htimes hstarts hown hother _ _ =>
      rw [hstarts]
      exact (hs.counted id n' (htimes ▸ htimes')).spend hown hother
  bounded := by
    intro id hne'
    cases turn_of_step hreg h id with
    | gone hnone => exact absurd hnone hne'
    | rest htimes hstarts _ hcleared =>
      rw [hstarts]
      exact (hs.bounded id (htimes ▸ hne')).mono hcleared le_rfl
    | claim name htimes hstarts _ _ hcleared =>
      have hne : s.redis.timesDelivered id ≠ none := by
        intro hnone
        rw [hnone, Option.map_none] at htimes
        exact hne' htimes
      rw [hstarts]
      exact (hs.bounded id hne).mono hcleared le_rfl
    | read name hnew htimes hstarts _ _ hcown hcother =>
      have hnone : ∀ other, s.clearedAt other id = 0 := by
        intro other
        have hle := s.clearedAt_le_heldAt other id
        have hzero := hreg.passed.heldAt_eq_zero hnew other
        omega
      rw [hstarts, hreg.passed.startsOf_eq_zero hnew]
      refine within_first (i := name) ?_ ?_ (le_max_left _ _)
      · have hzero := hnone name
        omega
      · intro other hne
        have hzero := hnone other
        have hle := hcother other hne
        omega
    | clear name htimes hcount hstarts hheld =>
      -- what is cleared is held, and what is held is within the counter
      obtain ⟨n, hn⟩ := Option.ne_none_iff_exists'.mp (htimes ▸ hne')
      have hle := hcount n hn
      rw [hstarts]
      refine (hs.counted id n hn).mono (fun other => ?_) (le_trans hle (le_max_right _ _))
      exact (s'.clearedAt_le_heldAt other id).trans (hheld other)
    | start name htimes hstarts _ _ hcown hcother =>
      rw [hstarts]
      exact (hs.bounded id (htimes ▸ hne')).spend hcown hcother

/-- A task was started for the entry, or a pass holds it. -/
def Touched (s : Sys) (id : Nat) : Prop :=
  s.startsOf id ≠ 0 ∨ ∃ name, s.heldAt name id ≠ 0

theorem pending_or_acked_of_step (h : step cfg s a = some s') {id : Nat}
    (hon : s.redis.work.has id = true) (hpend : s.redis.isPending id = true) :
    s'.redis.isPending id = true ∨
      ∃ who c, a = .resume who c ∧ s'.log = s.log ++ [.acked who id] := by
  have acts : ∀ {who : Actor} {c : Choice} {e : Effect} {r : e.Reply} {s₁ : Sys},
      s.perform cfg who c e = some (r, s₁) →
      s₁.redis.isPending id = true ∨ s₁.log = s.log ++ [.acked who id] := by
    intro who c e r s₁ hperf
    rcases (Sys.perform_change hperf).pending id with hp | ⟨_, _, rfl⟩ | ⟨_, _, _, hp⟩ |
      ⟨n, name, g, _, hg, rfl⟩
    · exact .inl (hp ▸ hpend)
    · exact .inr rfl
    · left
      rw [hp, hpend, hon]
      rfl
    · left
      simp only [Redis.isPending, hg, Option.any_some] at hpend
      simp [Redis.isPending, Sys.readGroup, Group.isPending_deliver, hpend]
  cases Sys.step_cases h with
  | submission id' c job p e k r s₁ hsub hnode hperf
  | starting name c w p e k r s₁ hw hstage hnode hperf
  | looping name c w p e k r s₁ hw hstage hnode hperf
  | task t c name id' m p w q e k r s₁ htask hw hstage hnode hperf =>
    rcases acts hperf with hp | hlog
    · exact .inl hp
    · exact .inr ⟨_, c, rfl, hlog⟩
  | _ => exact .inl hpend

theorem EntriesPassed.of_touched (hs : EntriesPassed s) {id : Nat} (h : Touched s id) :
    s.redis.passed id = true := by
  by_contra hne
  have hnot : s.redis.passed id = false := by simpa using hne
  rcases h with h | ⟨name, h⟩
  · exact h (hs.startsOf_eq_zero hnot)
  · exact h (hs.heldAt_eq_zero hnot name)

theorem Sys.heldAt_ne_zero {name : ConsumerName} {p : PassPoint} {e : StreamEntry}
    (hstage : s.stageOf name = some (.looping p)) (he : e ∈ p.entries) : s.heldAt name e.id ≠ 0 := by
  rw [heldAt, passCount_of_looping hstage]
  exact Nat.ne_of_gt (List.countP_pos_iff.mpr ⟨e, he, decide_eq_true rfl⟩)

theorem touched_of_step (h : step cfg s a = some s') {id : Nat} (ht : Touched s' id) :
    Touched s id ∨ s.redis.isPending id = true ∨ s'.redis.isPending id = true := by
  rcases ht with hstarts | ⟨name, hheld⟩
  · rcases startsOf_of_step h id with hsame | ⟨name, c, p, e, _, hstage, hd, hmore⟩
    · exact .inl (.inl (hsame ▸ hstarts))
    · by_cases heid : e.id = id
      · subst heid
        exact .inl (.inr ⟨name, Sys.heldAt_ne_zero hstage (PassPoint.mem_of_dispatches hd)⟩)
      · rw [if_neg heid, Nat.add_zero] at hmore
        exact .inl (.inl (hmore ▸ hstarts))
  · rcases passCount_of_step (f := PassPoint.entries) rfl h name id with
      hle | ⟨c, p, e, k, r, s₁, _, hstage, hnode, hperf, hs', hcount⟩
    · left
      refine .inr ⟨name, fun hzero => hheld ?_⟩
      have hzero : s.passCount PassPoint.entries name id = 0 := hzero
      have hzero' : s'.passCount PassPoint.entries name id = 0 := by omega
      exact hzero'
    · have hpos : 0 < (k r).entries.countP fun e => decide (e.id = id) := by
        rw [← hcount]
        exact Nat.pos_of_ne_zero hheld
      obtain ⟨x, hx, hxid⟩ := List.countP_pos_iff.mp hpos
      obtain rfl : x.id = id := of_decide_eq_true hxid
      rcases PassPoint.entries_next hnode hperf with hsuffix | ⟨g, _, _, hpend, hes⟩ |
        ⟨other, g, n, hg, rfl, hread⟩
      · exact .inl (.inr ⟨name, Sys.heldAt_ne_zero hstage (hsuffix.subset hx)⟩)
      · rw [hes] at hx
        obtain ⟨id, hid, hfind⟩ := List.mem_filterMap.mp hx
        obtain rfl : x.id = id := by simpa using List.find?_some hfind
        exact .inr (.inl (hpend _ hid))
      · rw [hread] at hx
        right
        right
        have hany : (((g.unread s.redis.work).take n.toNat).any fun e => decide (e.id = x.id)) = true :=
          List.any_eq_true.mpr ⟨x, hx, decide_eq_true rfl⟩
        rw [hs']
        simp [Redis.isPending, Sys.setStage, Sys.readGroup, Group.isPending_deliver, hany]

theorem Regular.passed_next (hreg : Regular cfg s) :
    s.redis.passed (s.redis.work.lastId + 1) = false := by
  cases hg : s.redis.group with
  | none => simp [Redis.passed, hg]
  | some g =>
    have hbound := hreg.retained.bound g hg
    simp only [Redis.passed, hg, Option.any_some, decide_eq_false_iff_not]
    omega

theorem work_of_step (h : step cfg s a = some s') {e : StreamEntry}
    (he : e ∈ s'.redis.work.entries) :
    e ∈ s.redis.work.entries ∨ e.id = s.redis.work.lastId + 1 := by
  rcases step_work h with ⟨hwork, _⟩ | ⟨who, fields, _, hredis, _⟩
  · exact .inl (hwork ▸ he)
  · rw [hredis] at he
    rcases List.mem_append.mp (List.mem_of_mem_drop he) with hold | hnew
    · exact .inl hold
    · exact .inr (List.mem_singleton.mp hnew ▸ rfl)

/-- An entry of the stream that was ever handed to a pass is pending, or was acknowledged. -/
def PendingOrAcked (s : Sys) : Prop :=
  ∀ e ∈ s.redis.work.entries, Touched s e.id →
    s.redis.isPending e.id = true ∨ ∃ who, .acked who e.id ∈ s.log

theorem PendingOrAcked.step (hreg : Regular cfg s) (hs : PendingOrAcked s)
    (h : step cfg s a = some s') : PendingOrAcked s' := by
  intro e he htouched'
  have kept : s.redis.isPending e.id = true ∨ (∃ who, .acked who e.id ∈ s.log) →
      e ∈ s.redis.work.entries →
      s'.redis.isPending e.id = true ∨ ∃ who, .acked who e.id ∈ s'.log := by
    rintro (hpend | ⟨who, hack⟩) hold
    · have hon : s.redis.work.has e.id = true :=
        List.any_eq_true.mpr ⟨e, hold, decide_eq_true rfl⟩
      rcases pending_or_acked_of_step h hon hpend with hpend' | ⟨who, c, _, hlog⟩
      · exact .inl hpend'
      · exact .inr ⟨who, hlog ▸ List.mem_append_right _ (List.mem_singleton_self _)⟩
    · exact .inr ⟨who, log_mem_of_step h hack⟩
  rcases touched_of_step h htouched' with htouched | hpend | hpend'
  · rcases work_of_step h he with hold | hnew
    · exact kept (hs e hold htouched) hold
    · have hpass := hreg.passed.of_touched htouched
      rw [hnew, hreg.passed_next] at hpass
      cases hpass
  · rcases work_of_step h he with hold | hnew
    · exact kept (.inl hpend) hold
    · have hpass := hreg.passed.pending e.id hpend
      rw [hnew, hreg.passed_next] at hpass
      cases hpass
  · exact .inl hpend'

/-! ### A batch of claimed entries -/

/-- The claimed entries on which the pass has yet to act. -/
def PassPoint.unsettled : PassPoint → List StreamEntry
  | check e rest | query e rest | poison e _ _ rest | poisonAck e rest => e :: rest
  | dispatchClaimed _ rest => rest
  | _ => []

/-- An upper bound on the steps that the reclaim loop has left. -/
def PassPoint.reclaimLeft : PassPoint → Nat
  | check _ rest => 4 * rest.length + 4
  | query _ rest => 4 * rest.length + 3
  | poison _ _ _ rest => 4 * rest.length + 2
  | poisonAck _ rest | dispatchClaimed _ rest => 4 * rest.length + 1
  | _ => 0

theorem PassPoint.reclaimLeft_nextClaimed (es : List StreamEntry) :
    (nextClaimed es).reclaimLeft = 4 * es.length := by
  cases es <;> simp [nextClaimed, reclaimLeft, Nat.mul_add]

theorem PassPoint.unsettled_nextClaimed (es : List StreamEntry) :
    (nextClaimed es).unsettled = es := by
  cases es <;> rfl

theorem PassPoint.unsettled_sublist (p : PassPoint) : p.unsettled.Sublist p.entries := by
  cases p <;> simp [unsettled, entries]

theorem PassPoint.reclaimLeft_pos {p : PassPoint} {e : StreamEntry} (he : e ∈ p.unsettled) :
    0 < p.reclaimLeft := by
  cases p <;> simp [unsettled, reclaimLeft] at he ⊢

theorem PassPoint.entries_ne_nil {p : PassPoint} (hp : 0 < p.reclaimLeft) : p.entries ≠ [] := by
  cases p <;> simp [reclaimLeft, entries] at hp ⊢

theorem PassPoint.reclaimLeft_next {cfg : BrokerSettings} {p : PassPoint} {e : Effect}
    {k : e.Reply → PassPoint} (hp : 0 < p.reclaimLeft) (hnode : p.node cfg = .await e k)
    (r : e.Reply) : (k r).reclaimLeft < p.reclaimLeft := by
  cases p with
  | check x rest =>
    cases hnode
    change Bool at r
    cases r with
    | false => simp [reclaimLeft]
    | true => exact (reclaimLeft_nextClaimed rest).trans_lt (by simp [reclaimLeft])
  | query x rest =>
    cases hnode
    rcases r with y | pending
    · simp [afterQuery, reclaimLeft]
    · simp only [afterQuery]
      split
      · cases JobMessage.fromFields x.fields <;> simp [reclaimLeft]
      · simp [reclaimLeft]
  | dispatchClaimed x rest =>
    cases hnode
    exact (reclaimLeft_nextClaimed rest).trans_lt (by simp [reclaimLeft])
  | poison x m n rest =>
    cases hnode
    rcases r with y | _
    · cases y <;> simp [afterPoison, reclaimLeft]
    · simp [afterPoison, reclaimLeft]
  | poisonAck x rest =>
    cases hnode
    rcases r with y | _
    · simp [afterPoisonAck, reclaimLeft]
    · exact (reclaimLeft_nextClaimed rest).trans_lt (by simp [reclaimLeft])
  | _ => simp [reclaimLeft] at hp

theorem PassPoint.unsettled_next {cfg : BrokerSettings} {p : PassPoint} {e : Effect}
    {k : e.Reply → PassPoint} (hnode : p.node cfg = .await e k) (r : e.Reply) :
    (k r).unsettled <:+ p.unsettled ∨ ∃ n, p = .autoclaim n := by
  have none : ∀ {q : PassPoint}, q.unsettled = [] → q.unsettled <:+ p.unsettled := by
    intro q hq
    rw [hq]
    exact List.nil_suffix
  have news : ∀ total es, (nextNew total es).unsettled = [] := by
    intro total es
    cases es <;> rfl
  have tail : ∀ {x : StreamEntry} {rest : List StreamEntry}, p.unsettled = x :: rest →
      (nextClaimed rest).unsettled <:+ p.unsettled := by
    intro x rest hp
    rw [hp, unsettled_nextClaimed]
    exact List.suffix_cons x rest
  cases p with
  | reclaimCapacity | readCapacity =>
    cases hnode
    change Int at r
    left
    by_cases hn : r ≤ 0
    · simp only [hn, if_true]
      exact none rfl
    · simp only [hn, if_false]
      exact none rfl
  | autoclaim n => exact .inr ⟨n, rfl⟩
  | check x rest =>
    cases hnode
    change Bool at r
    left
    cases r with
    | false => exact List.suffix_rfl
    | true => exact tail rfl
  | query x rest =>
    cases hnode
    left
    rcases r with y | pending
    · exact none rfl
    · simp only [afterQuery]
      split
      · cases JobMessage.fromFields x.fields with
        | ok m => exact List.suffix_rfl
        | error y => exact none rfl
      · exact List.suffix_cons x rest
  | dispatchClaimed x rest =>
    cases hnode
    left
    rw [unsettled_nextClaimed]
    exact List.suffix_rfl
  | poison x m n rest =>
    cases hnode
    left
    rcases r with y | _
    · cases y <;> exact none rfl
    · exact List.suffix_rfl
  | poisonAck x rest =>
    cases hnode
    left
    rcases r with y | _
    · exact none rfl
    · exact tail rfl
  | read n =>
    cases hnode
    left
    rcases r with y | es
    · exact none rfl
    · exact none (news es.length es)
  | dispatchNew x rest total =>
    cases hnode
    exact .inl (none (news total rest))
  | finished outcome => cases hnode

/-! ### Calls whose replies arrive -/

namespace Sys

variable {who : Actor} {c : Choice} {n : Int} {id : Nat} {g : Group}

theorem perform_xautoclaim_arrives {r : Effect.Reply (.xautoclaim n)} (hc : c.fate = .ok)
    (hg : s.redis.group = some g) (h : s.perform cfg who c (.xautoclaim n) = some (r, s')) :
    ∃ es, r = .ok es := by
  simp only [perform, hg] at h
  split at h
  · split at h
    · rw [Choice.reply_of_ok hc] at h
      exact ⟨_, (congrArg Prod.fst (Option.some.inj h)).symm⟩
    · cases h
  · rename_i heq
    cases heq
  · cases h

theorem perform_xreadgroup_arrives {r : Effect.Reply (.xreadgroup n)} (hc : c.fate = .ok)
    (hg : s.redis.group = some g) (h : s.perform cfg who c (.xreadgroup n) = some (r, s')) :
    ∃ es, r = .ok es := by
  simp only [perform, hg] at h
  split at h
  · rw [Choice.reply_of_ok hc] at h
    exact ⟨_, (congrArg Prod.fst (Option.some.inj h)).symm⟩
  · rename_i heq
    cases heq
  · cases h

theorem perform_xpending_arrives {r : Effect.Reply (.xpending id)} (hc : c.fate = .ok)
    (hg : s.redis.group = some g) (h : s.perform cfg who c (.xpending id) = some (r, s')) :
    ∃ pending, r = .ok pending := by
  simp only [perform, hg, Choice.reply_of_ok hc] at h
  exact ⟨_, (congrArg Prod.fst (Option.some.inj h)).symm⟩

end Sys

section
variable {name : ConsumerName}

theorem step_of_worker {c : Choice} {p : PassPoint} {e : Effect} {k : e.Reply → PassPoint}
    {r : e.Reply} {s₁ : Sys} (hstage : s.stageOf name = some (.looping p))
    (hnode : p.node cfg.toBrokerSettings = .await e k)
    (hperf : s.perform cfg (.worker name) c e = some (r, s₁)) :
    step cfg s (.resume (.worker name) c) = some (s₁.setStage name (.looping (k r))) := by
  obtain ⟨w, hw, hp⟩ := Option.map_eq_some_iff.mp hstage
  obtain ⟨stage, ids, flight, cursor⟩ := w
  obtain rfl : stage = .looping p := hp
  simp only [step, Sys.resume, hw]
  exact Sys.await_eq_some.mpr ⟨e, k, r, s₁, hnode, hperf, rfl⟩

def Act.isPassOf (name : ConsumerName) : Act → Bool
  | .resume (.worker other) _ => other = name
  | _ => false

theorem Act.isPassOf_iff {a : Act} : a.isPassOf name = true ↔ ∃ c, a = .resume (.worker name) c := by
  constructor
  · intro h
    cases a with
    | resume who c =>
      cases who with
      | worker other => exact ⟨c, by rw [of_decide_eq_true h]⟩
      | _ => cases h
    | _ => cases h
  · rintro ⟨c, rfl⟩
    exact decide_eq_true rfl

/-- A pass with entries at hand stays where it is until it moves on or dies. -/
theorem stage_of_other {p : PassPoint} (h : step cfg s a = some s')
    (hstage : s.stageOf name = some (.looping p)) (hp : p.entries ≠ [])
    (hown : a.isPassOf name = false) (hcrash : a ≠ .crash name) :
    s'.stageOf name = some (.looping p) := by
  rcases step_stage h name with hr | ⟨_, hr, _⟩ | ⟨_, hr, _⟩ | ⟨_, _, _, _, _, _, _, hr, _⟩ |
    ⟨c, _, _, _, _, _, ha, _⟩ | ⟨ha, _⟩
  · exact hr.trans hstage
  · cases hr.symm.trans hstage
  · rcases hr with hr | ⟨outcome, hr⟩
    · cases hr.symm.trans hstage
    · cases hr.symm.trans hstage
      exact absurd rfl hp
  · cases hr.symm.trans hstage
  · rw [Act.isPassOf_iff.mpr ⟨c, ha⟩] at hown
    cases hown
  · exact absurd ha hcrash

theorem reclaim_enabled {p : PassPoint} (hstage : s.stageOf name = some (.looping p))
    (hp : 0 < p.reclaimLeft) : ∃ s', step cfg s (.resume (.worker name) {}) = some s' := by
  obtain ⟨w, hw, _⟩ := Option.map_eq_some_iff.mp hstage
  have go : ∀ {e : Effect} {k : e.Reply → PassPoint}, p.node cfg.toBrokerSettings = .await e k →
      (∃ out, s.perform cfg (.worker name) {} e = some out) →
      ∃ s', step cfg s (.resume (.worker name) {}) = some s' := by
    rintro e k hnode ⟨⟨r, s₁⟩, hperf⟩
    exact ⟨_, step_of_worker hstage hnode hperf⟩
  cases p with
  | check x rest =>
    refine go rfl ⟨(decide (x.id ∈ w.inFlightIds), s), ?_⟩
    simp only [Sys.perform, Sys.consumer, hw, bind, Option.bind_some]
    rfl
  | query x rest =>
    refine go rfl ?_
    cases hg : s.redis.group with
    | none => exact ⟨_, by simp only [Sys.perform, hg]; rfl⟩
    | some g => exact ⟨_, by simp only [Sys.perform, hg]; rfl⟩
  | dispatchClaimed x rest => exact go rfl ⟨_, rfl⟩
  | poison x m n rest =>
    have htrim : s.redis.dlq.trimAllowed cfg.maxlen ({} : Choice).trim = true := rfl
    refine go rfl ?_
    simp only [Sys.perform, if_pos htrim]
    exact ⟨_, rfl⟩
  | poisonAck x rest => exact go rfl ⟨_, rfl⟩
  | _ => simp [PassPoint.reclaimLeft] at hp

theorem reclaim_effect {cfg : BrokerSettings} {p : PassPoint} {e : Effect}
    {k : e.Reply → PassPoint} (hp : 0 < p.reclaimLeft) (hnode : p.node cfg = .await e k) :
    (∀ n, e ≠ .xautoclaim n) ∧ ∀ n, e ≠ .xreadgroup n := by
  cases p <;> cases hnode <;> simp [PassPoint.reclaimLeft] at hp ⊢

theorem startsOf_le_of_step (h : step cfg s a = some s') (id : Nat) :
    s.startsOf id ≤ s'.startsOf id := by
  rcases startsOf_of_step h id with hsame | ⟨_, _, _, _, _, _, _, hmore⟩
  · exact hsame.ge
  · omega

theorem Tally.startsOf_le (ht : Tally cfg s) {id : Nat} (hpend : s.redis.isPending id = true) :
    (s.startsOf id : Int) ≤ max 1 cfg.maxDeliveryCount := by
  rw [Redis.isPending_eq_isSome] at hpend
  exact (ht.bounded id (Option.isSome_iff_ne_none.mp hpend)).spent_le

/-- With its starts used up, a pending entry gets no further task. -/
theorem startsOf_eq_of_step (ht' : Tally cfg s') (h : step cfg s a = some s') {id : Nat}
    (hpend' : s'.redis.isPending id = true)
    (hused : max 1 cfg.maxDeliveryCount ≤ (s.startsOf id : Int)) :
    s'.startsOf id = s.startsOf id := by
  have hle := ht'.startsOf_le hpend'
  have hge := startsOf_le_of_step h id
  omega

def Survives (name : ConsumerName) (_ : Sys) : Act → Prop
  | .crash other => other ≠ name
  | .resume (.worker other) c => other = name → c.fate = .ok
  | _ => True

/-- A step of anybody else leaves the entry in the pending list: it does not acknowledge it, and
does not claim it after it was trimmed. -/
def OthersKeep (cfg : Settings) (name : ConsumerName) (id : Nat) (s : Sys) (a : Act) : Prop :=
  a.isPassOf name = false → s.redis.isPending id = true →
    ∀ s', step cfg s a = some s' → s'.redis.isPending id = true

/-- What was recorded since `s₀`. -/
def Since (s₀ s : Sys) (ev : Event) : Prop := ∃ es, s.log = s₀.log ++ es ∧ ev ∈ es

/-- The consumer has dead-lettered the entry since `s₀` for its number of deliveries. -/
def PoisonedSince (name : ConsumerName) (s₀ : Sys) (e : StreamEntry) (s : Sys) : Prop :=
  ∃ d m n, Since s₀ s (.deadLettered (.worker name) d) ∧ JobMessage.fromFields e.fields = .ok m ∧
    d.fields = deadLetterFields m (overDeliveredReason n)

/-- What a pass that is past the verdict on the entry has to its credit. -/
def Verdict (name : ConsumerName) (s₀ : Sys) (e : StreamEntry) (s : Sys) : PassPoint → Prop
  | .poison x m _ _ => x = e → JobMessage.fromFields e.fields = .ok m
  | .poisonAck x _ => x = e → PoisonedSince name s₀ e s
  | _ => True

/-- The consumer has claimed the entry, whose starts are used up, and has yet to act on it. -/
structure Judging (cfg : Settings) (name : ConsumerName) (s₀ : Sys) (e : StreamEntry)
    (p : PassPoint) (s : Sys) : Prop where
  stage : s.stageOf name = some (.looping p)
  waits : e ∈ p.unsettled
  nodup : (p.entries.map (·.id)).Nodup
  decodes : ∀ x ∈ p.entries, ∃ m, JobMessage.fromFields x.fields = .ok m
  verdict : Verdict name s₀ e s p
  pending : s.redis.isPending e.id = true
  idle : e.id ∉ s.inFlightAt name
  started : s.startsOf e.id = s₀.startsOf e.id
  used : max 1 cfg.maxDeliveryCount ≤ (s₀.startsOf e.id : Int)
  since : ∃ es, s.log = s₀.log ++ es

/-- The consumer has dead-lettered and acknowledged the entry, and no task was started. -/
structure Settled (name : ConsumerName) (s₀ : Sys) (e : StreamEntry) (s : Sys) : Prop where
  poisoned : PoisonedSince name s₀ e s
  acked : Since s₀ s (.acked (.worker name) e.id)
  started : s.startsOf e.id = s₀.startsOf e.id

variable {s₀ : Sys} {e : StreamEntry} {p : PassPoint}

theorem Since.of_step (h : step cfg s a = some s') {ev : Event} (hev : Since s₀ s ev) :
    Since s₀ s' ev := by
  obtain ⟨es, hlog, hmem⟩ := hev
  obtain ⟨es', hlog', _⟩ := step_log h
  exact ⟨es ++ es', by rw [hlog', hlog, List.append_assoc], List.mem_append_left _ hmem⟩

theorem since_last (hsince : ∃ es, s.log = s₀.log ++ es) {ev : Event}
    (hlog : s'.log = s.log ++ [ev]) : Since s₀ s' ev := by
  obtain ⟨es, hes⟩ := hsince
  refine ⟨es ++ [ev], by rw [hlog, hes, List.append_assoc], ?_⟩
  exact List.mem_append_right _ (List.mem_singleton_self _)

theorem PoisonedSince.of_step (h : step cfg s a = some s') (hp : PoisonedSince name s₀ e s) :
    PoisonedSince name s₀ e s' := by
  obtain ⟨d, m, n, hd, hm, hfields⟩ := hp
  exact ⟨d, m, n, hd.of_step h, hm, hfields⟩

theorem Verdict.of_step (h : step cfg s a = some s') (hv : Verdict name s₀ e s p) :
    Verdict name s₀ e s' p := by
  cases p with
  | poisonAck x rest =>
    intro hx
    exact (hv hx).of_step h
  | _ => exact hv

namespace Judging

theorem ne_of_dispatches (hJ : Judging cfg name s₀ e p s) {x : StreamEntry}
    (hd : p.dispatches = some x) : e.id ≠ x.id := by
  have hwaits := hJ.waits
  have hnodup := hJ.nodup
  cases p with
  | dispatchClaimed y rest =>
    cases hd
    rintro heq
    exact (List.nodup_cons.mp hnodup).1 (List.mem_map.mpr ⟨e, hwaits, heq⟩)
  | dispatchNew y rest total => cases hwaits
  | _ => cases hd

theorem idle_step (hJ : Judging cfg name s₀ e p s) (h : step cfg s a = some s') :
    e.id ∉ s'.inFlightAt name := by
  rcases step_inFlight h name with hr | ⟨c, q, x, _, hstage, hd, hr⟩ | ⟨_, _, id, _, _, _, _, hr⟩
  · exact hr ▸ hJ.idle
  · obtain rfl : p = q := Stage.looping.inj (Option.some.inj (hJ.stage.symm.trans hstage))
    rw [hr, List.mem_cons, not_or]
    exact ⟨hJ.ne_of_dispatches hd, fun hmem => hJ.idle (List.mem_of_mem_erase hmem)⟩
  · rw [hr]
    exact fun hmem => hJ.idle (List.mem_of_mem_filter hmem)

theorem since_step (hJ : Judging cfg name s₀ e p s) (h : step cfg s a = some s') :
    ∃ es, s'.log = s₀.log ++ es := by
  obtain ⟨es, hes⟩ := hJ.since
  obtain ⟨es', hes', _⟩ := step_log h
  exact ⟨es ++ es', by rw [hes', hes, List.append_assoc]⟩

theorem of_other (hJ : Judging cfg name s₀ e p s) (ht' : Tally cfg s')
    (h : step cfg s a = some s') (hstage' : s'.stageOf name = some (.looping p))
    (hpend' : s'.redis.isPending e.id = true) : Judging cfg name s₀ e p s' where
  stage := hstage'
  waits := hJ.waits
  nodup := hJ.nodup
  decodes := hJ.decodes
  verdict := hJ.verdict.of_step h
  pending := hpend'
  idle := hJ.idle_step h
  started := (startsOf_eq_of_step ht' h hpend' (hJ.started ▸ hJ.used)).trans hJ.started
  used := hJ.used
  since := hJ.since_step h

theorem over_limit (hJ : Judging cfg name s₀ e p s) (ht : Tally cfg s) :
    cfg.maxDeliveryCount < ((s.redis.timesDelivered e.id).getD 0 : Nat) := by
  have hpend := hJ.pending
  rw [Redis.isPending_eq_isSome, Option.isSome_iff_exists] at hpend
  obtain ⟨n, hn⟩ := hpend
  have hheld := Nat.pos_of_ne_zero
    (Sys.heldAt_ne_zero hJ.stage (p.unsettled_sublist.subset hJ.waits))
  have hcount := (ht.counted e.id n hn).spent_add_le name
  have hused := hJ.used
  rw [← hJ.started] at hused
  rw [hn, Option.getD_some]
  omega

theorem of_own (hJ : Judging cfg name s₀ e p s) (ht : Tally cfg s) (ht' : Tally cfg s')
    {c : Choice} (hc : c.fate = .ok) (h : step cfg s (.resume (.worker name) c) = some s')
    {ef : Effect} {k : ef.Reply → PassPoint} {r : ef.Reply} {s₁ : Sys}
    (hnode : p.node cfg.toBrokerSettings = .await ef k)
    (hperf : s.perform cfg (.worker name) c ef = some (r, s₁))
    (hs' : s' = s₁.setStage name (.looping (k r)))
    (hstage' : s'.stageOf name = some (.looping (k r))) :
    Judging cfg name s₀ e (k r) s' ∨ Settled name s₀ e s' := by
  have hredis : s'.redis = s₁.redis := hs' ▸ rfl
  have hlog : s'.log = s₁.log := hs' ▸ rfl
  have heffect := reclaim_effect (PassPoint.reclaimLeft_pos hJ.waits) hnode
  have go : ef ≠ .xack e.id → (k r).entries <:+ p.entries → e ∈ (k r).unsettled →
      Verdict name s₀ e s' (k r) → Judging cfg name s₀ e (k r) s' ∨ Settled name s₀ e s' := by
    intro hne hsuffix hwaits hverdict
    have hpend' : s'.redis.isPending e.id = true := by
      rw [hredis]
      rcases (Sys.perform_change hperf).pending e.id with hp | ⟨he, _⟩ | ⟨n, he, _⟩ |
        ⟨n, _, _, he, _⟩
      · exact hp ▸ hJ.pending
      · exact absurd he hne
      · exact absurd he (heffect.1 n)
      · exact absurd he (heffect.2 n)
    left
    exact {
      stage := hstage'
      waits := hwaits
      nodup := hJ.nodup.sublist (hsuffix.sublist.map _)
      decodes := fun x hx => hJ.decodes x (hsuffix.subset hx)
      verdict := hverdict
      pending := hpend'
      idle := hJ.idle_step h
      started := (startsOf_eq_of_step ht' h hpend' (hJ.started ▸ hJ.used)).trans hJ.started
      used := hJ.used
      since := hJ.since_step h }
  have next : ∀ {rest : List StreamEntry}, ef ≠ .xack e.id → k r = .nextClaimed rest →
      rest <:+ p.entries → e ∈ rest → Judging cfg name s₀ e (k r) s' ∨ Settled name s₀ e s' := by
    intro rest hne hk hsuffix hmem
    refine go hne ?_ ?_ ?_
    · rwa [hk, PassPoint.entries_nextClaimed]
    · rwa [hk, PassPoint.unsettled_nextClaimed]
    · rw [hk]
      cases rest <;> trivial
  have hwaits := hJ.waits
  cases p with
  | check x rest =>
    cases hnode
    obtain ⟨rfl, rfl⟩ := Sys.perform_inFlight hperf
    by_cases hin : x.id ∈ s₁.inFlightAt name
    · simp only [hin, decide_true, if_true] at next ⊢
      rcases List.mem_cons.mp hwaits with rfl | hrest
      · exact absurd hin hJ.idle
      · exact next (by simp) rfl (List.suffix_cons x rest) hrest
    · simp only [hin, decide_false] at go ⊢
      exact go (by simp) List.suffix_rfl hwaits trivial
  | query x rest =>
    cases hnode
    obtain ⟨g, hg, _⟩ := Option.any_eq_true _ _ |>.mp hJ.pending
    obtain ⟨pending, rfl⟩ := Sys.perform_xpending_arrives hc hg hperf
    obtain ⟨rfl, rfl⟩ := Sys.perform_xpending_ok hperf
    by_cases hover : cfg.maxDeliveryCount < ((s₁.redis.timesDelivered x.id).getD 0 : Nat)
    · obtain ⟨m, hm⟩ := hJ.decodes x List.mem_cons_self
      simp only [PassPoint.afterQuery, if_pos hover, hm] at go ⊢
      refine go (by simp) List.suffix_rfl hwaits ?_
      rintro rfl
      exact hm
    · simp only [PassPoint.afterQuery, if_neg hover] at go ⊢
      rcases List.mem_cons.mp hwaits with rfl | hrest
      · exact absurd (hJ.over_limit ht) hover
      · exact go (by simp) List.suffix_rfl hrest trivial
  | dispatchClaimed x rest =>
    cases hnode
    exact next (by simp) rfl (List.suffix_cons x rest) hwaits
  | poison x m n rest =>
    cases hnode
    obtain ⟨rfl, rfl⟩ := Sys.perform_xaddDlq_ok hc hperf
    refine go (by simp) List.suffix_rfl hwaits ?_
    rintro rfl
    exact ⟨_, m, n, since_last hJ.since hlog, hJ.verdict rfl, rfl⟩
  | poisonAck x rest =>
    cases hnode
    obtain ⟨rfl, rfl⟩ := Sys.perform_xack_ok hc hperf
    rcases List.mem_cons.mp hwaits with rfl | hrest
    · right
      refine ⟨(hJ.verdict rfl).of_step h, since_last hJ.since hlog, ?_⟩
      rcases startsOf_of_step h e.id with hsame | ⟨_, _, q, y, ha, hstage, hd, _⟩
      · exact hsame.trans hJ.started
      · cases ha
        cases hJ.stage.symm.trans hstage
        cases hd
    · have hne : x.id ≠ e.id := by
        intro heq
        exact (List.nodup_cons.mp hJ.nodup).1 (List.mem_map.mpr ⟨e, hrest, heq.symm⟩)
      exact next (by simpa using hne) rfl (List.suffix_cons x rest) hrest
  | _ => cases hwaits

end Judging

/-- What is counted of an entry, in every run. -/
structure Accounted (cfg : Settings) (s : Sys) : Prop where
  regular : Regular cfg s
  tally : Tally cfg s
  pendingOrAcked : PendingOrAcked s

theorem Accounted.init : Accounted cfg Sys.init where
  regular := .init
  tally := .init
  pendingOrAcked := by
    intro e he
    cases he

theorem Accounted.step (hs : Accounted cfg s) (h : step cfg s a = some s') : Accounted cfg s' where
  regular := hs.regular.step h
  tally := hs.tally.step hs.regular h
  pendingOrAcked := hs.pendingOrAcked.step hs.regular h

theorem Accounted.exec {acts : List Act} (hs : Accounted cfg s)
    (h : Runs.exec (InferenceEngine.step cfg) s acts = some s') : Accounted cfg s' :=
  Runs.invariant (P := fun _ _ => True) (fun _ _ _ hs _ h => hs.step h) hs (.trivial _ _) h

namespace Judging

theorem step (hs : Accounted cfg s) (hJ : Judging cfg name s₀ e p s) (hP : Survives name s a)
    (hkeep : OthersKeep cfg name e.id s a) (h : step cfg s a = some s') :
    (∃ p', Judging cfg name s₀ e p' s' ∧
      p'.reclaimLeft + (if a.isPassOf name then 1 else 0) ≤ p.reclaimLeft) ∨
    Settled name s₀ e s' := by
  have hs' := hs.step h
  by_cases hown : a.isPassOf name = true
  · obtain ⟨c, rfl⟩ := Act.isPassOf_iff.mp hown
    obtain ⟨ef, k, r, s₁, hnode, hperf, heq, hstage'⟩ := pass_of_step hJ.stage h
    have hlt := PassPoint.reclaimLeft_next (PassPoint.reclaimLeft_pos hJ.waits) hnode r
    rcases hJ.of_own hs.tally hs'.tally (hP rfl) h hnode hperf heq hstage' with hJ' | hdone
    · exact .inl ⟨k r, hJ', by rw [if_pos hown]; omega⟩
    · exact .inr hdone
  · have hcrash : a ≠ .crash name := by
      rintro rfl
      exact hP rfl
    have hstage' := stage_of_other h hJ.stage
      (List.ne_nil_of_mem (p.unsettled_sublist.subset hJ.waits)) (by simpa using hown) hcrash
    have hpend' := hkeep (by simpa using hown) hJ.pending s' h
    exact .inl ⟨p, hJ.of_other hs'.tally h hstage' hpend', by simp [hown]⟩

/-- In a run the consumer settles the entry, or has taken fewer steps than the loop may need. -/
theorem exec {acts : List Act} (hs : Accounted cfg s) (hJ : Judging cfg name s₀ e p s)
    (hP : Runs.Along (InferenceEngine.step cfg)
      (fun s a => Survives name s a ∧ OthersKeep cfg name e.id s a) s acts)
    (h : Runs.exec (InferenceEngine.step cfg) s acts = some s') :
    (∃ before after t, acts = before ++ after ∧
      Runs.exec (InferenceEngine.step cfg) s before = some t ∧ Settled name s₀ e t) ∨
    (∃ p', Judging cfg name s₀ e p' s' ∧
      p'.reclaimLeft + acts.countP (Act.isPassOf name) ≤ p.reclaimLeft) := by
  induction acts generalizing s p with
  | nil =>
    obtain rfl : s = s' := Option.some.inj h
    exact .inr ⟨p, hJ, le_rfl⟩
  | cons a as ih =>
    obtain ⟨t, hstep, h⟩ := Runs.exec_cons_iff.mp h
    rcases hJ.step hs hP.1.1 hP.1.2 hstep with ⟨q, hJ₁, hleft⟩ | hdone
    · rcases ih (hs.step hstep) hJ₁ (hP.2 t hstep) h with
        ⟨before, after, u, rfl, hu, hdone⟩ | ⟨p', hJ', hle⟩
      · exact .inl ⟨a :: before, after, u, rfl, Runs.exec_cons_iff.mpr ⟨t, hstep, hu⟩, hdone⟩
      · refine .inr ⟨p', hJ', ?_⟩
        rw [List.countP_cons]
        omega
    · exact .inl ⟨[a], as, t, rfl, Runs.exec_cons_iff.mpr ⟨t, hstep, rfl⟩, hdone⟩

end Judging

/-- A worker is about to claim the entry, among others, and is not processing it. -/
structure AboutToClaim (s : Sys) (name : ConsumerName) (c : Choice) (e : StreamEntry) : Prop where
  stage : ∃ n, s.stageOf name = some (.looping (.autoclaim n))
  arrives : c.fate = .ok
  claimed : e.id ∈ c.claimed
  wellFormed : ∀ x ∈ s.redis.work.entries, x.id ∈ c.claimed →
    ∃ m, JobMessage.fromFields x.fields = .ok m
  notProcessing : e.id ∉ s.inFlightAt name

theorem AboutToClaim.judging (hs : Accounted cfg s) {c : Choice} (hclaim : AboutToClaim s name c e)
    (hused : max 1 cfg.maxDeliveryCount ≤ (s.startsOf e.id : Int)) (hon : e ∈ s.redis.work.entries)
    (h : step cfg s (.resume (.worker name) c) = some s') :
    ∃ p, Judging cfg name s e p s' ∧ p.reclaimLeft ≤ 4 * c.claimed.length := by
  obtain ⟨n, hstage⟩ := hclaim.stage
  obtain ⟨ef, k, r, s₁, hnode, hperf, heq, hstage'⟩ := pass_of_step hstage h
  cases hnode
  have hstarts : s.startsOf e.id ≠ 0 := by omega
  obtain ⟨g, hg, _⟩ :=
    Option.any_eq_true _ _ |>.mp (hs.regular.passed.of_touched (.inl hstarts))
  obtain ⟨es, rfl⟩ := Sys.perform_xautoclaim_arrives hclaim.arrives hg hperf
  obtain ⟨name', g', hname, hg', hnodup, hpend, hes, hredis⟩ := Sys.perform_xautoclaim_ok hperf
  obtain rfl : name = name' := Option.some.inj hname
  obtain rfl : g = g' := Option.some.inj (hg.symm.trans hg')
  have hsub := s.claimEntries_sublist name g c.claimed
  rw [← hes] at hsub
  have hmem : e ∈ es := by
    rw [hes]
    exact List.mem_filterMap.mpr ⟨e.id, hclaim.claimed, hs.regular.retained.find_eq hon⟩
  refine ⟨.nextClaimed es, ?_, ?_⟩
  · exact {
      stage := hstage'
      waits := by rwa [PassPoint.unsettled_nextClaimed]
      nodup := by
        rw [PassPoint.entries_nextClaimed]
        exact hnodup.sublist hsub
      decodes := by
        intro x hx
        rw [PassPoint.entries_nextClaimed] at hx
        have hid : x.id ∈ c.claimed := hsub.subset (List.mem_map_of_mem hx)
        rw [hes] at hx
        obtain ⟨_, _, hfind⟩ := List.mem_filterMap.mp hx
        exact hclaim.wellFormed x (List.mem_of_find?_eq_some hfind) hid
      verdict := by cases es <;> trivial
      pending := by
        have hhas : s.redis.work.has e.id = true :=
          List.any_eq_true.mpr ⟨e, hon, decide_eq_true rfl⟩
        have htimes := s.timesDelivered_claimEntries name hg c.claimed e.id
        rw [if_pos hclaim.claimed, if_pos hhas, ← hredis] at htimes
        have hold := hpend e.id hclaim.claimed
        rw [Redis.isPending_eq_isSome] at hold ⊢
        rw [heq, show (s₁.setStage name _).redis = s₁.redis from rfl, htimes, Option.isSome_map]
        exact hold
      idle := by
        rcases step_inFlight h name with hr | ⟨_, q, x, _, hq, hd, _⟩ | ⟨_, _, _, _, _, ha, _⟩
        · exact hr ▸ hclaim.notProcessing
        · cases hstage.symm.trans hq
          cases hd
        · cases ha
      started := by
        rcases startsOf_of_step h e.id with hsame | ⟨_, _, q, x, ha, hq, hd, _⟩
        · exact hsame
        · cases ha
          cases hstage.symm.trans hq
          cases hd
      used := hused
      since := by
        obtain ⟨es', hlog, _⟩ := step_log h
        exact ⟨es', hlog⟩ }
  · have hlength := hsub.length_le
    rw [List.length_map] at hlength
    rw [PassPoint.reclaimLeft_nextClaimed]
    omega

/-- An unacknowledged entry that is on the stream or pending has had `max 1 max_delivery_count` tasks
at most. When it has had them, a claim that returns it leads to a dead letter and an acknowledgement,
and to no task, unless somebody else takes it from the pending list. -/
theorem crashLoopBackstop {acts : List Act} (h : Reaches cfg acts s) :
    (∀ id, s.redis.work.has id = true ∨ s.redis.isPending id = true →
      (∀ who, .acked who id ∉ s.log) → (s.startsOf id : Int) ≤ max 1 cfg.maxDeliveryCount) ∧
    (∀ (name : ConsumerName) (c : Choice) (e : StreamEntry) (later : List Act) (s' : Sys),
      AboutToClaim s name c e → e ∈ s.redis.work.entries →
      max 1 cfg.maxDeliveryCount ≤ (s.startsOf e.id : Int) →
      Runs.Along (step cfg) (fun s a => Survives name s a ∧ OthersKeep cfg name e.id s a) s
        (.resume (.worker name) c :: later) →
      Runs.exec (step cfg) s (.resume (.worker name) c :: later) = some s' →
      (∃ before after t, later = before ++ after ∧
        Runs.exec (step cfg) s (.resume (.worker name) c :: before) = some t ∧
        Settled name s e t) ∨
      (later.countP (Act.isPassOf name) < 4 * c.claimed.length ∧
        ∃ s'', step cfg s' (.resume (.worker name) {}) = some s'')) := by
  have hs : Accounted cfg s := Accounted.init.exec h
  constructor
  · intro id hid hack
    by_cases hpend : s.redis.isPending id = true
    · exact hs.tally.startsOf_le hpend
    · obtain ⟨e, he, heid⟩ := List.any_eq_true.mp (hid.resolve_right hpend)
      obtain rfl : e.id = id := of_decide_eq_true heid
      by_cases htouched : Touched s e.id
      · rcases hs.pendingOrAcked e he htouched with hp | ⟨who, hmem⟩
        · exact absurd hp hpend
        · exact absurd hmem (hack who)
      · have hzero : s.startsOf e.id = 0 := by
          by_contra hne
          exact htouched (.inl hne)
        omega
  · intro name c e later s' hclaim hon hused hP hexec
    obtain ⟨s₁, hstep, hlater⟩ := Runs.exec_cons_iff.mp hexec
    obtain ⟨p, hJ, hle⟩ := hclaim.judging hs hused hon hstep
    rcases hJ.exec (hs.step hstep) (hP.2 s₁ hstep) hlater with
      ⟨before, after, t, hsplit, ht, hdone⟩ | ⟨p', hJ', hleft⟩
    · exact .inl ⟨before, after, t, hsplit, Runs.exec_cons_iff.mpr ⟨s₁, hstep, ht⟩, hdone⟩
    · have hpos := PassPoint.reclaimLeft_pos hJ'.waits
      exact .inr ⟨by omega, reclaim_enabled hJ'.stage hpos⟩

end

end

/-- The worker that started the only task dies; another one is about to claim the entry. -/
def usedUp : List Act :=
  boot 0 ++ submitted 7 ++ readPass 0 1 ++ [.crash 0] ++ boot 1 ++ .pass 1 :: steps (.worker 1) 1

def usedUpClaim : Act := .resume (.worker 1) { claimed := [1] }

def PassPoint.claimsNext : PassPoint → Bool
  | autoclaim _ => true
  | _ => false

theorem PassPoint.claimsNext_iff {p : PassPoint} : p.claimsNext = true ↔ ∃ n, p = .autoclaim n := by
  cases p <;> simp [claimsNext]

/-- While the worker holds the claim, an append trims the entry, and the claim of a third worker drops
it from the pending list. -/
def droppedClaim : List Act :=
  usedUpClaim :: boot 2 ++ .pass 2 :: steps (.worker 2) 1 ++ submittedTrimming 8 ++
    .resume (.worker 2) { claimed := [1] } :: steps (.worker 1) 3

def Sys.claimsUsedUp (s : Sys) : Bool :=
  decide (s.startsOf 1 = 1) && decide (s.inFlightAt 1 = []) &&
    (s.passAt 1).any PassPoint.claimsNext &&
    (s.redis.work.entries.all fun x => (JobMessage.fromFields x.fields).isOk) &&
    decide (s.redis.work.entries.map (·.id) = [1])

theorem Sys.exists_of_claimsUsedUp {s : Sys} (h : s.claimsUsedUp = true) :
    ∃ e ∈ s.redis.work.entries, e.id = 1 ∧ s.startsOf e.id = 1 ∧
      AboutToClaim s 1 { claimed := [1] } e := by
  simp only [claimsUsedUp, Bool.and_eq_true, decide_eq_true_eq] at h
  obtain ⟨⟨⟨⟨hstarts, hidle⟩, hclaims⟩, hfields⟩, hids⟩ := h
  obtain ⟨e, he, hid⟩ : ∃ e ∈ s.redis.work.entries, e.id = 1 :=
    List.mem_map.mp (by rw [hids]; exact List.mem_singleton_self 1)
  refine ⟨e, he, hid, by rw [hid, hstarts], ?_⟩
  obtain ⟨p, hp, hnext⟩ := (Option.any_eq_true _ _).mp hclaims
  obtain ⟨n, rfl⟩ := PassPoint.claimsNext_iff.mp hnext
  refine ⟨⟨n, Sys.stageOf_of_passAt hp⟩, rfl, ?_, ?_, ?_⟩
  · rw [hid]
    exact List.mem_singleton_self 1
  · intro x hx _
    have hok := List.all_eq_true.mp hfields x hx
    cases hm : JobMessage.fromFields x.fields with
    | ok m => exact ⟨m, rfl⟩
    | error y =>
      rw [hm] at hok
      cases hok
  · rw [hidle]
    exact List.not_mem_nil

theorem usedUp_settled : ∃ s e t, Reaches { maxDeliveryCount := 1 } usedUp s ∧
    s.startsOf e.id = 1 ∧ AboutToClaim s 1 { claimed := [1] } e ∧
    Runs.exec (step { maxDeliveryCount := 1 }) s (usedUpClaim :: steps (.worker 1) 4) = some t ∧
    ∃ before after u, steps (.worker 1) 4 = before ++ after ∧
      Runs.exec (step { maxDeliveryCount := 1 }) s (usedUpClaim :: before) = some u ∧
      Settled 1 s e u := by
  obtain ⟨s, hs, hview⟩ := Runs.exec_of_map (step { maxDeliveryCount := 1 }) Sys.init usedUp
    (fun s => (s.claimsUsedUp,
      (Runs.exec (step { maxDeliveryCount := 1 }) s (usedUpClaim :: steps (.worker 1) 4)).isSome))
    (true, true) (by decide +kernel)
  obtain ⟨hclaims, hafter⟩ := Prod.mk.inj hview
  obtain ⟨t, ht⟩ := Option.isSome_iff_exists.mp hafter
  obtain ⟨e, he, _, hstarts, habout⟩ := Sys.exists_of_claimsUsedUp hclaims
  have hown : Runs.Along (step { maxDeliveryCount := 1 })
      (fun s a => Survives 1 s a ∧ OthersKeep { maxDeliveryCount := 1 } 1 e.id s a) s
      (usedUpClaim :: steps (.worker 1) 4) := by
    refine .of_forall ?_ s
    intro a ha u
    obtain ⟨c, hc, rfl⟩ : ∃ c : Choice, c.fate = .ok ∧ a = .resume (.worker 1) c := by
      rcases List.mem_cons.mp ha with rfl | ha
      · exact ⟨_, rfl, rfl⟩
      · exact ⟨_, rfl, List.eq_of_mem_replicate ha⟩
    exact ⟨fun _ => hc, fun hother => by cases hother⟩
  refine ⟨s, e, t, hs, hstarts, habout, ht, ?_⟩
  rcases (crashLoopBackstop hs).2 1 _ e _ t habout he (by rw [hstarts]; decide) hown ht with
    hdone | ⟨hfew, _⟩
  · exact hdone
  · exact absurd hfew (by decide)

/-- The action is no crash, and the call that it performs is answered. -/
def Act.isUndisturbed : Act → Bool
  | .crash _ => false
  | .resume _ c => decide (c.fate = .ok)
  | _ => true

/-- With no failure and no acknowledgement the claim of an entry whose tasks are used up leads to
another task: when its deliveries are asked for, it is no longer pending. -/
theorem droppedClaim_restarts : ∃ s e t, Reaches { maxDeliveryCount := 1, maxlen := 1 } usedUp s ∧
    s.startsOf e.id = 1 ∧ AboutToClaim s 1 { claimed := [1] } e ∧ e ∈ s.redis.work.entries ∧
    droppedClaim.all Act.isUndisturbed = true ∧
    Runs.exec (step { maxDeliveryCount := 1, maxlen := 1 }) s droppedClaim = some t ∧
    (∀ who id, .acked who id ∉ t.log) ∧ t.redis.dlq.lastId = 0 ∧ t.startsOf e.id = 2 := by
  obtain ⟨s, hs, hview⟩ := Runs.exec_of_map (step { maxDeliveryCount := 1, maxlen := 1 }) Sys.init
    usedUp
    (fun s => (s.claimsUsedUp,
      (Runs.exec (step { maxDeliveryCount := 1, maxlen := 1 }) s droppedClaim).map fun t : Sys =>
        (t.startsOf 1, t.redis.dlq.lastId, t.log.filterMap Event.ackedId)))
    (true, some (2, 0, [])) (by decide +kernel)
  obtain ⟨hclaims, hafter⟩ := Prod.mk.inj hview
  obtain ⟨t, ht, hview'⟩ := Option.map_eq_some_iff.mp hafter
  simp only [Prod.mk.injEq] at hview'
  obtain ⟨hmore, hdlq, hacks⟩ := hview'
  obtain ⟨e, he, hid, hstarts, habout⟩ := Sys.exists_of_claimsUsedUp hclaims
  refine ⟨s, e, t, hs, hstarts, habout, he, by decide, ht, ?_, hdlq, by rw [hid, hmore]⟩
  intro who id hmem
  have hack : id ∈ t.log.filterMap Event.ackedId := List.mem_filterMap.mpr ⟨_, hmem, rfl⟩
  rw [hacks] at hack
  cases hack

end InferenceEngine
