import InferenceEngine.Library.Credits
import InferenceEngine.Streams

/-!
# Deliveries of one entry

Redis counts the deliveries of a pending entry; a delivery is held by the pass that received
it until a task is started for it, or the pass skips, judges or loses it. `Turn` says what a
step does to the counter, to the deliveries held, to those cleared for a task, and to the
number of tasks started.
-/

namespace InferenceEngine

set_option autoImplicit false

open Credits

namespace Group

variable {g : Group} {id : Nat}

theorem isPending_eq_isSome (g : Group) (id : Nat) :
    g.isPending id = (g.timesDelivered id).isSome := by
  rw [Bool.eq_iff_iff]
  simp [isPending, timesDelivered]

theorem timesDelivered_ack (g : Group) (id id' : Nat) :
    (g.ack id').timesDelivered id = if id = id' then none else g.timesDelivered id := by
  unfold timesDelivered ack
  rw [List.find?_filter]
  by_cases hid : id = id'
  · subst hid
    simp [List.find?_eq_none]
  · rw [if_neg hid]
    congr 2
    funext p
    by_cases hp : p.id = id
    · simp [hp, hid]
    · simp [hp]

theorem timesDelivered_deliver (g : Group) (c : ConsumerName) (read : List StreamEntry)
    (id : Nat) : (g.deliver c read).timesDelivered id =
      (g.timesDelivered id).or (if read.any fun e => e.id = id then some 1 else none) := by
  unfold timesDelivered deliver
  have hnew : ((read.map fun e => (⟨e.id, c, 1⟩ : PendingEntry)).find? fun p => p.id = id).map
      (·.timesDelivered) = if read.any fun e => e.id = id then some 1 else none := by
    induction read with
    | nil => rfl
    | cons e read ih =>
      by_cases he : e.id = id
      · simp [he]
      · simpa [he] using ih
  rw [List.find?_append, Option.map_or, hnew]

theorem find?_filterMap_of_id {f : PendingEntry → Option PendingEntry} {id : Nat}
    (hid : ∀ p q, f p = some q → q.id = p.id)
    (hall : (∀ p : PendingEntry, p.id = id → f p = none) ∨
      ∀ p : PendingEntry, p.id = id → f p ≠ none) (pending : List PendingEntry) :
    (pending.filterMap f).find? (fun p => p.id = id) =
      (pending.find? fun p => p.id = id).bind f := by
  induction pending with
  | nil => rfl
  | cons p pending ih =>
    rw [List.filterMap_cons, List.find?_cons]
    by_cases hp : p.id = id
    · cases hf : f p with
      | none =>
        have hnone : ∀ q : PendingEntry, q.id = id → f q = none := by
          rcases hall with hnone | hsome
          · exact hnone
          · exact absurd hf (hsome p hp)
        simp only [hp, decide_true, Option.bind_some, hf]
        rw [ih, Option.bind_eq_none_iff]
        intro q hq
        exact hnone q (by simpa using List.find?_some hq)
      | some q =>
        have hq : q.id = id := (hid p q hf).trans hp
        simp only [hp, decide_true, Option.bind_some, hf, List.find?_cons, hq]
    · cases hf : f p with
      | none => simpa [hp] using ih
      | some q =>
        have hq : q.id ≠ id := fun h => hp ((hid p q hf).symm.trans h)
        simpa [hp, hq] using ih

theorem timesDelivered_claim (g : Group) (st : Stream) (c : ConsumerName) (ids : List Nat)
    (id : Nat) : (g.claim st c ids).timesDelivered id =
      if id ∈ ids then if st.has id then (g.timesDelivered id).map (· + 1) else none
      else g.timesDelivered id := by
  unfold timesDelivered claim Stream.has
  dsimp only
  rw [find?_filterMap_of_id]
  · cases hfind : g.pending.find? fun p => decide (p.id = id) with
    | none => simp
    | some p =>
      obtain rfl : p.id = id := by simpa using List.find?_some hfind
      rw [Option.bind_some, Option.map_some]
      split
      · split <;> rfl
      · rfl
  · intro p q hq
    split at hq
    · split at hq
      · cases hq
        rfl
      · cases hq
    · cases hq
      rfl
  · by_cases hmem : id ∈ ids
    · by_cases hon : (st.entries.any fun e => decide (e.id = id)) = true
      · right
        rintro p rfl
        simp only [hmem, hon, if_true]
        simp
      · left
        rintro p rfl
        simp only [hmem, hon, if_true, Bool.false_eq_true, if_false]
    · right
      rintro p rfl
      simp only [hmem, if_false]
      simp

end Group

def Redis.timesDelivered (r : Redis) (id : Nat) : Option Nat := r.group.bind (·.timesDelivered id)

theorem Redis.isPending_eq_isSome (r : Redis) (id : Nat) :
    r.isPending id = (r.timesDelivered id).isSome := by
  cases hg : r.group <;> simp [isPending, timesDelivered, hg, Group.isPending_eq_isSome]

/-- How many tasks were started for the entry, over all consumers. -/
def Sys.startsOf (s : Sys) (id : Nat) : Nat :=
  (List.range s.nextTask).countP fun t => (s.tasks t).any fun τ => decide (τ.entry = id)

/-- How often a list that a pass keeps has the entry. -/
def Sys.passCount (f : PassPoint → List StreamEntry) (s : Sys) (name : ConsumerName) (id : Nat) :
    Nat :=
  match s.stageOf name with
  | some (.looping p) => (f p).countP fun e => decide (e.id = id)
  | _ => 0

/-- The entries of a pass for which a task is sure to be started next. -/
def PassPoint.cleared : PassPoint → List StreamEntry
  | dispatchNew e rest _ => e :: rest
  | dispatchClaimed e _ => [e]
  | _ => []

/-- The deliveries of the entry that a consumer's pass still holds. -/
def Sys.heldAt (s : Sys) (name : ConsumerName) (id : Nat) : Nat :=
  s.passCount PassPoint.entries name id

def Sys.clearedAt (s : Sys) (name : ConsumerName) (id : Nat) : Nat :=
  s.passCount PassPoint.cleared name id

/-- What a step does to the deliveries of an entry. -/
inductive Turn (cfg : Settings) (s s' : Sys) (id : Nat) : Prop
  | gone (htimes : s'.redis.timesDelivered id = none)
  | rest (htimes : s'.redis.timesDelivered id = s.redis.timesDelivered id)
      (hstarts : s'.startsOf id = s.startsOf id)
      (hheld : ∀ name, s'.heldAt name id ≤ s.heldAt name id)
      (hcleared : ∀ name, s'.clearedAt name id ≤ s.clearedAt name id)
  | claim (name : ConsumerName)
      (htimes : s'.redis.timesDelivered id = (s.redis.timesDelivered id).map (· + 1))
      (hstarts : s'.startsOf id = s.startsOf id)
      (hown : s'.heldAt name id ≤ s.heldAt name id + 1)
      (hother : ∀ other, other ≠ name → s'.heldAt other id ≤ s.heldAt other id)
      (hcleared : ∀ name, s'.clearedAt name id ≤ s.clearedAt name id)
  | read (name : ConsumerName) (hnew : s.redis.passed id = false)
      (htimes : s'.redis.timesDelivered id = some 1)
      (hstarts : s'.startsOf id = s.startsOf id)
      (hown : s'.heldAt name id ≤ s.heldAt name id + 1)
      (hother : ∀ other, other ≠ name → s'.heldAt other id ≤ s.heldAt other id)
      (hcown : s'.clearedAt name id ≤ s.clearedAt name id + 1)
      (hcother : ∀ other, other ≠ name → s'.clearedAt other id ≤ s.clearedAt other id)
  | clear (name : ConsumerName) (htimes : s'.redis.timesDelivered id = s.redis.timesDelivered id)
      (hcount : ∀ n, s.redis.timesDelivered id = some n → (n : Int) ≤ cfg.maxDeliveryCount)
      (hstarts : s'.startsOf id = s.startsOf id)
      (hheld : ∀ name, s'.heldAt name id ≤ s.heldAt name id)
  | start (name : ConsumerName)
      (htimes : s'.redis.timesDelivered id = s.redis.timesDelivered id)
      (hstarts : s'.startsOf id = s.startsOf id + 1)
      (hown : s'.heldAt name id + 1 ≤ s.heldAt name id)
      (hother : ∀ other, other ≠ name → s'.heldAt other id ≤ s.heldAt other id)
      (hcown : s'.clearedAt name id + 1 ≤ s.clearedAt name id)
      (hcother : ∀ other, other ≠ name → s'.clearedAt other id ≤ s.clearedAt other id)

section
variable {cfg : Settings} {s s' : Sys} {a : Act}

theorem Sys.timesDelivered_claimEntries (name : ConsumerName) {g : Group}
    (hg : s.redis.group = some g) (ids : List Nat) (id : Nat) :
    (s.claimEntries name g ids).2.redis.timesDelivered id =
      if id ∈ ids then
        if s.redis.work.has id then (s.redis.timesDelivered id).map (· + 1) else none
      else s.redis.timesDelivered id := by
  simp [Redis.timesDelivered, claimEntries, setGroup, hg, Group.timesDelivered_claim]

theorem Sys.timesDelivered_readGroup (name : ConsumerName) {g : Group}
    (hg : s.redis.group = some g) (n : Int) (id : Nat) :
    (s.readGroup name g n).2.redis.timesDelivered id =
      (s.redis.timesDelivered id).or
        (if ((g.unread s.redis.work).take n.toNat).any fun e => e.id = id then some 1 else none) := by
  simp only [Redis.timesDelivered, readGroup, hg, Option.bind_some, Group.timesDelivered_deliver]

theorem Sys.claimEntries_sublist (name : ConsumerName) (g : Group) (ids : List Nat) :
    ((s.claimEntries name g ids).1.map (·.id)).Sublist ids := by
  unfold claimEntries
  induction ids with
  | nil => exact List.Sublist.slnil
  | cons x ids ih =>
    rw [List.filterMap_cons]
    cases hfind : s.redis.work.entries.find? fun e => decide (e.id = x) with
    | none => exact ih.cons x
    | some e =>
      obtain rfl : e.id = x := by simpa using List.find?_some hfind
      exact ih.cons_cons e.id

theorem Sys.countP_claimEntries {name : ConsumerName} {g : Group} (ids : List Nat) (id : Nat) :
    (s.claimEntries name g ids).1.countP (fun e => decide (e.id = id)) ≤ ids.count id := by
  have hcount := (s.claimEntries_sublist name g ids).count_le id
  rwa [List.count, List.countP_map] at hcount

theorem Sys.any_claimEntries {name : ConsumerName} {g : Group} {ids : List Nat} {id : Nat}
    (hid : id ∈ ids) (hon : s.redis.work.has id = true) :
    ((s.claimEntries name g ids).1.any fun e => decide (e.id = id)) = true := by
  obtain ⟨e, he⟩ := Option.isSome_iff_exists.mp (List.find?_isSome.mpr (List.any_eq_true.mp hon))
  have heid : e.id = id := by simpa using List.find?_some he
  exact List.any_eq_true.mpr ⟨e, List.mem_filterMap.mpr ⟨id, hid, he⟩, decide_eq_true heid⟩

theorem Group.countP_unread_le {g : Group} {st : Stream}
    (hsorted : st.entries.Pairwise fun a b => a.id < b.id) (n id : Nat) :
    ((g.unread st).take n).countP (fun e => decide (e.id = id)) ≤ 1 := by
  have hpair : ((g.unread st).take n).Pairwise fun a b => a.id < b.id :=
    (hsorted.sublist List.filter_sublist).sublist (List.take_sublist _ _)
  have hnodup : (((g.unread st).take n).map (·.id)).Nodup :=
    List.pairwise_map.mpr (hpair.imp fun hlt => Nat.ne_of_lt hlt)
  have hcount := List.nodup_iff_count_le_one.mp hnodup id
  rwa [List.count, List.countP_map] at hcount

theorem Sys.Change.timesDelivered {who : Actor} {c : Choice} {e : Effect}
    (h : Sys.Change cfg who c s e s') (id : Nat) :
    s'.redis.timesDelivered id = s.redis.timesDelivered id ∨
    s'.redis.timesDelivered id = none ∨
    (∃ n, e = .xautoclaim n ∧ id ∈ c.claimed ∧
      s'.redis.timesDelivered id = (s.redis.timesDelivered id).map (· + 1)) ∨
    (∃ n name g, e = .xreadgroup n ∧ s.redis.group = some g ∧ s' = (s.readGroup name g n).2) := by
  cases h with
  | ack id' hf =>
    cases hg : s.redis.group with
    | none => exact .inl (by simp [Redis.timesDelivered, ackEntry, hg])
    | some g =>
      have htimes : (s.ackEntry who id').redis.timesDelivered id =
          if id = id' then none else s.redis.timesDelivered id := by
        simp [Redis.timesDelivered, ackEntry, hg, Group.timesDelivered_ack]
      by_cases hid : id = id'
      · exact .inr (.inl (by rw [htimes, if_pos hid]))
      · exact .inl (by rw [htimes, if_neg hid])
  | create hf h =>
    left
    simp [Redis.timesDelivered, setGroup, h, Group.timesDelivered]
  | claim n name g start f hf hc hg h hw =>
    have htimes := s.timesDelivered_claimEntries name hg c.claimed id
    by_cases hid : id ∈ c.claimed
    · by_cases hon : s.redis.work.has id = true
      · rw [if_pos hid, if_pos hon] at htimes
        exact .inr (.inr (.inl ⟨n, rfl, hid, htimes⟩))
      · rw [if_pos hid, if_neg hon] at htimes
        exact .inr (.inl htimes)
    · rw [if_neg hid] at htimes
      exact .inl htimes
  | read n name g hf hc hg => exact .inr (.inr (.inr ⟨n, name, g, rfl, hg, rfl⟩))
  | _ => exact .inl rfl

theorem Sys.startsOf_of_new {τ : Task} (hn : s'.nextTask = s.nextTask + 1)
    (hr : s'.tasks = Function.update s.tasks s.nextTask (some τ)) (id : Nat) :
    s'.startsOf id = s.startsOf id + if τ.entry = id then 1 else 0 := by
  rw [startsOf, startsOf, hn, hr, List.range_succ, List.countP_append]
  congr 1
  · refine List.countP_congr fun t ht => ?_
    have hlt := List.mem_range.mp ht
    rw [Function.update_of_ne (by omega)]
  · simp [List.countP_cons]

theorem startsOf_of_step (h : step cfg s a = some s') (id : Nat) :
    s'.startsOf id = s.startsOf id ∨
    (∃ name c p e, a = .resume (.worker name) c ∧ s.stageOf name = some (.looping p) ∧
      p.dispatches = some e ∧
      s'.startsOf id = s.startsOf id + if e.id = id then 1 else 0) := by
  rcases step_tasks h with ⟨hr, hn⟩ | ⟨name, c, w, p, e, ha, hw, hstage, hd, hn, hr⟩ |
    ⟨u, c, name, id', m, p, e, k, r, s₁, _, hold, _, _, hn, hr⟩
  · left
    rw [Sys.startsOf, Sys.startsOf, hn, hr]
  · refine .inr ⟨name, c, p, e, ha, by rw [Sys.stageOf, hw, Option.map_some, hstage], hd, ?_⟩
    exact Sys.startsOf_of_new hn hr id
  · left
    rw [Sys.startsOf, Sys.startsOf, hn, hr]
    refine List.countP_congr fun t _ => ?_
    by_cases ht : t = u
    · subst ht
      rw [Function.update_self, hold]
      simp
    · rw [Function.update_of_ne ht]

theorem Sys.passCount_of_looping {f : PassPoint → List StreamEntry} {name : ConsumerName}
    {p : PassPoint} (h : s.stageOf name = some (.looping p)) (id : Nat) :
    s.passCount f name id = (f p).countP fun e => decide (e.id = id) := by
  unfold passCount
  rw [h]

theorem passCount_of_step {f : PassPoint → List StreamEntry} (hf : f .reclaimCapacity = [])
    (h : step cfg s a = some s') (name : ConsumerName) (id : Nat) :
    s'.passCount f name id ≤ s.passCount f name id ∨
    (∃ c p, ∃ (e : Effect) (k : e.Reply → PassPoint) (r : e.Reply) (s₁ : Sys),
      a = .resume (.worker name) c ∧ s.stageOf name = some (.looping p) ∧
      p.node cfg.toBrokerSettings = .await e k ∧
      s.perform cfg (.worker name) c e = some (r, s₁) ∧
      s' = s₁.setStage name (.looping (k r)) ∧
      s'.passCount f name id = (f (k r)).countP fun e => decide (e.id = id)) := by
  have none : ∀ {stage : Stage}, s'.stageOf name = some stage → (∀ p, stage ≠ .looping p) →
      s'.passCount f name id ≤ s.passCount f name id := by
    intro stage hstage hnot
    have hzero : s'.passCount f name id = 0 := by
      unfold Sys.passCount
      split
      · rename_i p hp
        exact absurd (Option.some.inj (hstage.symm.trans hp)) (hnot p)
      · rfl
    omega
  rcases step_stage h name with hr | ⟨_, _, hr⟩ | ⟨_, _, hr⟩ | ⟨_, _, _, _, _, _, _, _, _, _, _, hr⟩ |
    ⟨c, p, e, k, r, s₁, ha, hold, hnode, hperf, hs', hr⟩ | ⟨_, hr⟩
  · left
    unfold Sys.passCount
    rw [hr]
  · exact .inl (none hr (by simp))
  · left
    rw [Sys.passCount_of_looping hr, hf]
    exact Nat.zero_le _
  · exact .inl (none hr (by simp))
  · exact .inr ⟨c, p, e, k, r, s₁, ha, hold, hnode, hperf, hs', Sys.passCount_of_looping hr id⟩
  · exact .inl (none hr (by simp))

theorem Sys.perform_xpending_ok {who : Actor} {c : Choice} {id : Nat} {pending : Option Nat}
    (h : s.perform cfg who c (.xpending id) =
      some ((.ok pending : Effect.Reply (.xpending id)), s')) :
    s' = s ∧ pending = s.redis.timesDelivered id := by
  simp only [perform] at h
  split at h
  · rename_i g hg
    rcases Choice.reply_eq (Option.some.inj h) with ⟨_, hr, hs⟩ | ⟨_, hr, _⟩ | ⟨_, hr, _⟩
    · refine ⟨hs, ?_⟩
      rw [Redis.timesDelivered, hg, Option.bind_some]
      exact Except.ok.inj hr
    all_goals cases hr
  · cases congrArg Prod.fst (Option.some.inj h)

theorem turn_of_pass (hreg : Regular cfg s) {name : ConsumerName} {c : Choice} {p : PassPoint}
    {e : Effect} {k : e.Reply → PassPoint} {r : e.Reply} {s₁ : Sys}
    (hstage : s.stageOf name = some (.looping p)) (hnode : p.node cfg.toBrokerSettings = .await e k)
    (hperf : s.perform cfg (.worker name) c e = some (r, s₁))
    (h : step cfg s (.resume (.worker name) c) = some (s₁.setStage name (.looping (k r))))
    (id : Nat) : Turn cfg s (s₁.setStage name (.looping (k r))) id := by
  have hchange := Sys.perform_change hperf
  have hafter : (s₁.setStage name (.looping (k r))).stageOf name = some (.looping (k r)) :=
    Sys.stageOf_of_perform hstage hperf
  have count : ∀ f : PassPoint → List StreamEntry,
      (s₁.setStage name (.looping (k r))).passCount f name id =
        (f (k r)).countP (fun e => decide (e.id = id)) ∧
      s.passCount f name id = (f p).countP fun e => decide (e.id = id) :=
    fun f => ⟨Sys.passCount_of_looping hafter id, Sys.passCount_of_looping hstage id⟩
  have other : ∀ f : PassPoint → List StreamEntry, f .reclaimCapacity = [] →
      ∀ x, x ≠ name → (s₁.setStage name (.looping (k r))).passCount f x id ≤ s.passCount f x id := by
    intro f hf x hx
    rcases passCount_of_step hf h x id with hle | ⟨_, _, _, _, _, _, ha, _⟩
    · exact hle
    · cases ha
      exact absurd rfl hx
  have all : ∀ f : PassPoint → List StreamEntry, f .reclaimCapacity = [] →
      (f (k r)).countP (fun e => decide (e.id = id)) ≤ (f p).countP (fun e => decide (e.id = id)) →
      ∀ x, (s₁.setStage name (.looping (k r))).passCount f x id ≤ s.passCount f x id := by
    intro f hf hle x
    by_cases hx : x = name
    · subst hx
      rw [(count f).1, (count f).2]
      exact hle
    · exact other f hf x hx
  have starts : (∀ x fields, e ≠ .dispatch x fields) →
      (s₁.setStage name (.looping (k r))).startsOf id = s.startsOf id := by
    intro hne
    rcases hchange.tasks with ⟨htasks, hnext⟩ | ⟨x, fields, _, he, _⟩
    · have htasks' : (s₁.setStage name (.looping (k r))).tasks = s.tasks := htasks
      have hnext' : (s₁.setStage name (.looping (k r))).nextTask = s.nextTask := hnext
      rw [Sys.startsOf, Sys.startsOf, htasks', hnext']
    · exact absurd he (hne x fields)
  have settle : (∀ x fields, e ≠ .dispatch x fields) → (∀ n, e ≠ .xautoclaim n) →
      (∀ n, e ≠ .xreadgroup n) →
      (k r).entries.countP (fun e => decide (e.id = id)) ≤
        p.entries.countP (fun e => decide (e.id = id)) →
      (k r).cleared.countP (fun e => decide (e.id = id)) ≤
        p.cleared.countP (fun e => decide (e.id = id)) →
      Turn cfg s (s₁.setStage name (.looping (k r))) id := by
    intro hdispatch hclaim hread hheld hcleared
    rcases hchange.timesDelivered id with hsame | hnone | ⟨n, he, _⟩ | ⟨n, _, _, he, _⟩
    · exact .rest hsame (starts hdispatch) (all _ rfl hheld) (all _ rfl hcleared)
    · exact .gone hnone
    · exact absurd he (hclaim n)
    · exact absurd he (hread n)
  have claimed : ∀ es : List StreamEntry, (PassPoint.nextClaimed es).entries = es ∧
      (PassPoint.nextClaimed es).cleared = [] := by
    intro es
    cases es <;> exact ⟨rfl, rfl⟩
  have started : ∀ {x : StreamEntry} {rest : List StreamEntry}, s₁ = s.startTask name x.id x.fields →
      p.entries = x :: rest → (k r).entries = rest →
      (k r).cleared.countP (fun e => decide (e.id = id)) + (if x.id = id then 1 else 0) ≤
        p.cleared.countP (fun e => decide (e.id = id)) →
      Turn cfg s (s₁.setStage name (.looping (k r))) id := by
    intro x rest hs₁ hp hk hcleared
    have hstarts : (s₁.setStage name (.looping (k r))).startsOf id =
        s.startsOf id + if x.id = id then 1 else 0 := by
      subst hs₁
      exact Sys.startsOf_of_new (τ := ⟨name, x.id, .of x.fields⟩) rfl rfl id
    have htimes : (s₁.setStage name (.looping (k r))).redis.timesDelivered id =
        s.redis.timesDelivered id := by
      subst hs₁
      rfl
    have hheld : (s₁.setStage name (.looping (k r))).heldAt name id + (if x.id = id then 1 else 0) =
        s.heldAt name id := by
      rw [Sys.heldAt, Sys.heldAt, (count _).1, (count _).2, hk, hp, List.countP_cons]
      simp
    have hclearedAt : (s₁.setStage name (.looping (k r))).clearedAt name id +
        (if x.id = id then 1 else 0) ≤ s.clearedAt name id := by
      rw [Sys.clearedAt, Sys.clearedAt, (count _).1, (count _).2]
      exact hcleared
    by_cases hx : x.id = id
    · rw [if_pos hx] at hstarts hheld hclearedAt
      exact .start name htimes hstarts hheld.le (other _ rfl) hclearedAt (other _ rfl)
    · rw [if_neg hx] at hstarts hcleared
      refine .rest htimes hstarts (all _ rfl ?_) (all _ rfl hcleared)
      rw [hk, hp]
      exact List.countP_cons_of_neg (by simpa using hx) |>.ge
  cases p with
  | reclaimCapacity | readCapacity =>
    cases hnode
    change Int at r
    refine settle (by simp) (by simp) (by simp) ?_ ?_
    all_goals
      by_cases hn : r ≤ 0
      · simp only [hn, if_true]
        exact Nat.zero_le _
      · simp only [hn, if_false]
        exact Nat.zero_le _
  | autoclaim n =>
    cases hnode
    have hzero : s.heldAt name id = 0 := (count _).2
    rcases r with x | es
    · have hnone : (s₁.setStage name (.looping (.finished (.error x)))).heldAt name id = 0 :=
        (count _).1
      rcases hchange.timesDelivered id with hsame | hgone | ⟨_, _, _, hmore⟩ | ⟨_, _, _, he, _⟩
      · exact .rest hsame (starts (by simp)) (all _ rfl le_rfl) (all _ rfl le_rfl)
      · exact .gone hgone
      · exact .claim name hmore (starts (by simp)) (by simp only [PassPoint.afterAutoclaim]; omega)
          (other _ rfl) (all _ rfl le_rfl)
      · cases he
    · obtain ⟨name', g, hname, hg, hnodup, _, rfl, hredis⟩ := Sys.perform_xautoclaim_ok hperf
      obtain rfl : name = name' := Option.some.inj hname
      simp only [PassPoint.afterAutoclaim] at *
      have hheld : (s₁.setStage name (.looping (PassPoint.nextClaimed
          (s.claimEntries name g c.claimed).1))).heldAt name id ≤ c.claimed.count id := by
        rw [Sys.heldAt, (count _).1, (claimed _).1]
        exact Sys.countP_claimEntries c.claimed id
      have hcleared : (PassPoint.nextClaimed (s.claimEntries name g c.claimed).1).cleared.countP
          (fun e => decide (e.id = id)) ≤ 0 := by
        rw [(claimed _).2]
        exact le_rfl
      have htimes := s.timesDelivered_claimEntries name hg c.claimed id
      rw [← hredis] at htimes
      by_cases hid : id ∈ c.claimed
      · rw [if_pos hid] at htimes
        have hone := List.nodup_iff_count_le_one.mp hnodup id
        split at htimes
        · exact .claim name htimes (starts (by simp)) (by omega) (other _ rfl) (all _ rfl hcleared)
        · exact .gone htimes
      · rw [if_neg hid] at htimes
        rw [List.count_eq_zero_of_not_mem hid] at hheld
        refine .rest htimes (starts (by simp)) (fun x => ?_) (all _ rfl hcleared)
        by_cases hx : x = name
        · subst hx
          omega
        · exact other _ rfl x hx
  | check x rest =>
    cases hnode
    change Bool at r
    cases r with
    | false => exact settle (by simp) (by simp) (by simp) le_rfl le_rfl
    | true =>
      refine settle (by simp) (by simp) (by simp) ?_ ?_
      · simp only [if_true, (claimed rest).1]
        exact (List.sublist_cons_self x rest).countP_le
      · simp only [if_true, (claimed rest).2]
        exact Nat.zero_le _
  | query x rest =>
    cases hnode
    rcases r with y | pending
    · exact settle (by simp) (by simp) (by simp) (Nat.zero_le _) le_rfl
    · obtain ⟨rfl, rfl⟩ := Sys.perform_xpending_ok hperf
      by_cases hover : cfg.maxDeliveryCount < ((s₁.redis.timesDelivered x.id).getD 0 : Nat)
      · simp only [PassPoint.afterQuery, if_pos hover] at settle ⊢
        cases hm : JobMessage.fromFields x.fields with
        | ok m =>
          simp only [hm] at settle ⊢
          exact settle (by simp) (by simp) (by simp) le_rfl le_rfl
        | error y =>
          simp only [hm] at settle ⊢
          exact settle (by simp) (by simp) (by simp) (Nat.zero_le _) le_rfl
      · simp only [PassPoint.afterQuery, if_neg hover] at settle starts all ⊢
        by_cases hx : x.id = id
        · subst hx
          refine .clear name rfl ?_ (starts (by simp)) (all _ rfl le_rfl)
          intro n hn
          rw [hn, Option.getD_some] at hover
          omega
        · refine settle (by simp) (by simp) (by simp) le_rfl ?_
          simp [PassPoint.cleared, hx]
  | dispatchClaimed x rest =>
    cases hnode
    obtain rfl : s.startTask name x.id x.fields = s₁ := congrArg Prod.snd (Option.some.inj hperf)
    refine started rfl rfl (claimed rest).1 ?_
    rw [(claimed rest).2]
    simp [PassPoint.cleared, List.countP_cons]
  | poison x m n rest =>
    cases hnode
    rcases r with y | _
    · cases y <;> exact settle (by simp) (by simp) (by simp) (Nat.zero_le _) le_rfl
    · exact settle (by simp) (by simp) (by simp) le_rfl le_rfl
  | poisonAck x rest =>
    cases hnode
    rcases r with y | _
    · exact settle (by simp) (by simp) (by simp) (Nat.zero_le _) le_rfl
    · simp only [PassPoint.afterPoisonAck] at settle ⊢
      refine settle (by simp) (by simp) (by simp) ?_ ?_
      · rw [(claimed rest).1]
        exact (List.sublist_cons_self x rest).countP_le
      · rw [(claimed rest).2]
        exact Nat.zero_le _
  | read n =>
    cases hnode
    have hzero : s.heldAt name id = 0 := (count _).2
    have hczero : s.clearedAt name id = 0 := (count _).2
    have reads : ∀ {name' : ConsumerName} {g : Group}, s.redis.group = some g →
        s₁ = (s.readGroup name' g n).2 →
        (∀ f : PassPoint → List StreamEntry, f = PassPoint.entries ∨ f = PassPoint.cleared →
          (f (PassPoint.afterRead r)).countP (fun e => decide (e.id = id)) ≤
            ((g.unread s.redis.work).take n.toNat).countP fun e => decide (e.id = id)) →
        Turn cfg s (s₁.setStage name (.looping (PassPoint.afterRead r))) id := by
      intro name' g hg hs₁ hlists
      have htimes : s₁.redis.timesDelivered id = _ :=
        hs₁ ▸ s.timesDelivered_readGroup name' hg n id
      have hone := Group.countP_unread_le (g := g) hreg.retained.window.sorted n.toNat id
      have hheld := hlists _ (.inl rfl)
      have hcleared := hlists _ (.inr rfl)
      by_cases hread : (((g.unread s.redis.work).take n.toNat).any fun e => decide (e.id = id)) = true
      · obtain ⟨x, hx, hxid⟩ := List.any_eq_true.mp hread
        have hxid : x.id = id := of_decide_eq_true hxid
        have hpassed : s.redis.passed id = false := by
          have hlt := Group.lt_of_mem_unread hx
          simp only [Redis.passed, hg, Option.any_some, decide_eq_false_iff_not]
          omega
        have hnone : s.redis.timesDelivered id = none := by
          have hnot : s.redis.isPending id = false := by
            by_contra hne
            have hpend := hreg.passed.pending id (Bool.eq_true_of_not_eq_false hne)
            cases hpassed.symm.trans hpend
          rw [Redis.isPending_eq_isSome] at hnot
          exact Option.not_isSome_iff_eq_none.mp (by simp [hnot])
        rw [hread, hnone, if_pos rfl, Option.none_or] at htimes
        have hh := (count PassPoint.entries).1
        have hc := (count PassPoint.cleared).1
        refine .read name hpassed htimes (starts (by simp)) ?_ (other _ rfl) ?_ (other _ rfl)
        · rw [Sys.heldAt, hh]
          omega
        · rw [Sys.clearedAt, hc]
          omega
      · have hzero' : ((g.unread s.redis.work).take n.toNat).countP (fun e => decide (e.id = id)) = 0 := by
          rw [List.countP_eq_zero]
          intro x hx hxid
          exact hread (List.any_eq_true.mpr ⟨x, hx, hxid⟩)
        rw [if_neg hread, Option.or_none] at htimes
        exact .rest htimes (starts (by simp)) (all _ rfl (by omega)) (all _ rfl (by omega))
    rcases r with x | es
    · rcases hchange.timesDelivered id with hsame | hgone | ⟨_, he, _⟩ | ⟨n', name', g, he, hg, hs₁⟩
      · exact .rest hsame (starts (by simp)) (all _ rfl le_rfl) (all _ rfl le_rfl)
      · exact .gone hgone
      · cases he
      · cases he
        refine reads hg hs₁ ?_
        rintro f (rfl | rfl) <;> exact Nat.zero_le _
    · obtain ⟨name', g, hg, rfl, hs₁⟩ := Sys.perform_xreadgroup hperf
      refine reads hg hs₁ ?_
      have hnew : ∀ (total : Nat) (es : List StreamEntry),
          (PassPoint.nextNew total es).entries = es ∧ (PassPoint.nextNew total es).cleared = es := by
        intro total es
        cases es <;> exact ⟨rfl, rfl⟩
      rintro f (rfl | rfl)
      · simp only [PassPoint.afterRead, (hnew _ _).1]
        exact le_rfl
      · simp only [PassPoint.afterRead, (hnew _ _).2]
        exact le_rfl
  | dispatchNew x rest total =>
    cases hnode
    obtain rfl : s.startTask name x.id x.fields = s₁ := congrArg Prod.snd (Option.some.inj hperf)
    have hnew : (PassPoint.nextNew total rest).entries = rest ∧
        (PassPoint.nextNew total rest).cleared = rest := by
      cases rest <;> exact ⟨rfl, rfl⟩
    refine started rfl rfl hnew.1 ?_
    rw [hnew.2]
    simp [PassPoint.cleared, List.countP_cons]
  | finished outcome => cases hnode

/-- What a step does to the deliveries of an entry. -/
theorem turn_of_step (hreg : Regular cfg s) (h : step cfg s a = some s') (id : Nat) :
    Turn cfg s s' id := by
  have quiet : (∀ name c p, a = .resume (.worker name) c → s.stageOf name ≠ some (.looping p)) →
      s'.redis.timesDelivered id = s.redis.timesDelivered id ∨ s'.redis.timesDelivered id = none →
      Turn cfg s s' id := by
    intro hnot htimes
    have hstarts : s'.startsOf id = s.startsOf id := by
      rcases startsOf_of_step h id with hsame | ⟨name, c, p, _, ha, hstage, _⟩
      · exact hsame
      · exact absurd hstage (hnot name c p ha)
    have hcount : ∀ f : PassPoint → List StreamEntry, f .reclaimCapacity = [] →
        ∀ name, s'.passCount f name id ≤ s.passCount f name id := by
      intro f hf name
      rcases passCount_of_step hf h name id with hle | ⟨c, p, _, _, _, _, ha, hstage, _⟩
      · exact hle
      · exact absurd hstage (hnot name c p ha)
    rcases htimes with hsame | hnone
    · exact .rest hsame hstarts (hcount _ rfl) (hcount _ rfl)
    · exact .gone hnone
  have calls : ∀ {who : Actor} {c : Choice} {e : Effect} {r : e.Reply} {s₁ : Sys},
      s.perform cfg who c e = some (r, s₁) → (∀ n, e ≠ .xautoclaim n) → (∀ n, e ≠ .xreadgroup n) →
      s₁.redis.timesDelivered id = s.redis.timesDelivered id ∨ s₁.redis.timesDelivered id = none := by
    intro who c e r s₁ hperf hclaim hread
    rcases (Sys.perform_change hperf).timesDelivered id with hsame | hnone | ⟨n, he, _⟩ |
      ⟨n, _, _, he, _⟩
    · exact .inl hsame
    · exact .inr hnone
    · exact absurd he (hclaim n)
    · exact absurd he (hread n)
  cases Sys.step_cases h with
  | looping name c w p e k r s₁ hw hst hnode hperf =>
    have hstage : s.stageOf name = some (.looping p) := by
      rw [Sys.stageOf, hw, Option.map_some, hst]
    exact turn_of_pass hreg hstage hnode hperf h id
  | submission id' c job p e k r s₁ hsub hnode hperf =>
    have htimes := calls hperf (by cases p <;> cases hnode <;> simp)
      (by cases p <;> cases hnode <;> simp)
    refine quiet ?_ htimes
    rintro name c' p' ⟨⟩
  | starting name c w p e k r s₁ hw hst hnode hperf =>
    have htimes := calls hperf (by cases p <;> cases hnode; simp)
      (by cases p <;> cases hnode; simp)
    refine quiet ?_ htimes
    rintro name' c' p' ⟨⟩ hstage
    rw [Sys.stageOf, hw, Option.map_some, hst] at hstage
    cases hstage
  | task t c name id' m p w q e k r s₁ htask hw hst hnode hperf =>
    have htimes := calls hperf (by cases p <;> cases hnode <;> simp)
      (by cases p <;> cases hnode <;> simp)
    refine quiet ?_ htimes
    rintro name c' p' ⟨⟩
  | _ =>
    refine quiet ?_ (.inl rfl)
    rintro name c' p' ⟨⟩

end

end InferenceEngine
