import InferenceEngine.Coherence
import InferenceEngine.Retention

/-!
# The pending list

Only entries that the group has passed are pending, and an entry that has left the pending
list does not come back: `XREADGROUP` returns an entry once, and `XAUTOCLAIM` takes pending
entries only.
-/

namespace InferenceEngine

set_option autoImplicit false

def Redis.passed (r : Redis) (id : Nat) : Bool := r.group.any fun g => decide (id ≤ g.lastDelivered)

theorem Redis.passed_congr {r r' : Redis}
    (h : r'.group.map (·.lastDelivered) = r.group.map (·.lastDelivered)) (id : Nat) :
    r'.passed id = r.passed id := by
  have out : ∀ g : Option Group, (g.any fun g => decide (id ≤ g.lastDelivered)) =
      (g.map (·.lastDelivered)).any fun last => decide (id ≤ last) := by
    intro g
    cases g <;> rfl
  rw [passed, passed, out, out, h]

namespace Group

variable {g : Group} {st : Stream} {c : ConsumerName} {n : Nat}

theorem lastDelivered_le_deliver :
    g.lastDelivered ≤ (g.deliver c ((g.unread st).take n)).lastDelivered := by
  unfold deliver
  cases hlast : ((g.unread st).take n).getLast? with
  | none => simp
  | some e =>
    have hmem : e ∈ g.unread st := List.mem_of_mem_take (List.mem_of_getLast? hlast)
    have hlt : g.lastDelivered < e.id := by simpa using (List.mem_filter.mp hmem).2
    simpa using hlt.le

theorem le_deliver_of_mem (hsorted : st.entries.Pairwise fun a b => a.id < b.id) {e : StreamEntry}
    (he : e ∈ (g.unread st).take n) :
    e.id ≤ (g.deliver c ((g.unread st).take n)).lastDelivered := by
  have hpair : ((g.unread st).take n).Pairwise fun a b => a.id < b.id :=
    (hsorted.sublist List.filter_sublist).sublist (List.take_sublist _ _)
  unfold deliver
  cases hlast : ((g.unread st).take n).getLast? with
  | none =>
    rw [List.getLast?_eq_none_iff.mp hlast] at he
    cases he
  | some last =>
    obtain ⟨init, heq⟩ := List.getLast?_eq_some_iff.mp hlast
    rw [heq] at he hpair
    rcases List.mem_append.mp he with he | he
    · have hlt := (List.pairwise_append.mp hpair).2.2 e he last (List.mem_singleton_self last)
      simpa using hlt.le
    · simp [List.mem_singleton.mp he]

theorem lt_of_mem_unread {e : StreamEntry} (he : e ∈ (g.unread st).take n) :
    g.lastDelivered < e.id := by
  have hmem := (List.mem_filter.mp (List.mem_of_mem_take he)).2
  simpa using hmem

end Group

namespace Sys

variable {cfg : Settings} {who : Actor} {c : Choice} {s s' : Sys}

theorem perform_xautoclaim {n : Int} {es : List StreamEntry}
    (h : s.perform cfg who c (.xautoclaim n) = some ((.ok es : Effect.Reply (.xautoclaim n)), s')) :
    ∀ e ∈ es, s.redis.isPending e.id = true := by
  simp only [perform] at h
  split at h
  · rename_i name g hc hg
    split at h
    · rename_i hallowed
      intro e he
      have hes : es = (s.claimEntries name g c.claimed).1 := by
        rcases Choice.reply_eq (Option.some.inj h) with ⟨_, hr, _⟩ | ⟨_, hr, _⟩ | ⟨_, hr, _⟩
        · exact Except.ok.inj hr
        all_goals cases hr
      rw [hes] at he
      obtain ⟨id, hid, hfind⟩ := List.mem_filterMap.mp he
      have hpend : g.isPending id = true := by
        simp only [Group.claimAllowed, Bool.and_eq_true, List.all_eq_true] at hallowed
        exact (hallowed.1.2 id hid).2
      have heid : e.id = id := by simpa using List.find?_some hfind
      rw [heid, Redis.isPending, hg]
      exact hpend
    · cases h
  · cases congrArg Prod.fst (Option.some.inj h)
  · cases h

theorem perform_xreadgroup {n : Int} {es : List StreamEntry}
    (h : s.perform cfg who c (.xreadgroup n) = some ((.ok es : Effect.Reply (.xreadgroup n)), s')) :
    ∃ name g, s.redis.group = some g ∧ es = (g.unread s.redis.work).take n.toNat ∧
      s' = (s.readGroup name g n).2 := by
  simp only [perform] at h
  split at h
  · rename_i name g hc hg
    rcases Choice.reply_eq (Option.some.inj h) with ⟨_, hr, hs⟩ | ⟨_, hr, _⟩ | ⟨_, hr, _⟩
    · exact ⟨name, g, hg, Except.ok.inj hr, hs⟩
    all_goals cases hr
  · cases congrArg Prod.fst (Option.some.inj h)
  · cases h

end Sys

section
variable {cfg : Settings} {s s' : Sys} {a : Act}

theorem passed_of_step (h : step cfg s a = some s') {id : Nat} (hid : s.redis.passed id = true) :
    s'.redis.passed id = true := by
  simp only [Redis.passed, Option.any_eq_true, decide_eq_true_eq] at hid ⊢
  obtain ⟨g, hg, hle⟩ := hid
  rcases step_group h with hsame | ⟨_, _, _, _, _, _, _, hnone, _⟩ | ⟨n, name, g', hg', hredis, _⟩
  · rw [hg, Option.map_some] at hsame
    obtain ⟨g', hg', hlast⟩ := Option.map_eq_some_iff.mp hsame
    exact ⟨g', hg', hlast ▸ hle⟩
  · cases hnone.symm.trans hg
  · obtain rfl : g = g' := Option.some.inj (hg.symm.trans hg')
    refine ⟨_, by rw [hredis]; rfl, le_trans hle Group.lastDelivered_le_deliver⟩

/-- An entry is pending only if it was, or a read has just passed it. -/
theorem pending_of_step (h : step cfg s a = some s') {id : Nat}
    (hid : s'.redis.isPending id = true) :
    s.redis.isPending id = true ∨
      ∃ n name g, ∃ e ∈ (g.unread s.redis.work).take n, e.id = id ∧ s.redis.group = some g ∧
        s'.redis.group = some (g.deliver name ((g.unread s.redis.work).take n)) := by
  rcases step_pending h id with hp | ⟨t, c, name, m, p, _, _, _, _, hp, _⟩ |
    ⟨name, c, e, rest, _, _, _, hp⟩ | hp | ⟨n, name, g, hg, hredis⟩
  · exact .inl (hp ▸ hid)
  · cases hp.symm.trans hid
  · cases hp.symm.trans hid
  · rw [hp, Bool.and_eq_true] at hid
    exact .inl hid.1
  · have hgroup : s'.redis.group = some (g.deliver name ((g.unread s.redis.work).take n.toNat)) := by
      rw [hredis]
      rfl
    simp only [Redis.isPending, hgroup, Option.any_some, Group.isPending_deliver,
      Bool.or_eq_true, List.any_eq_true, decide_eq_true_eq] at hid
    rcases hid with hid | ⟨e, he, heid⟩
    · left
      simpa only [Redis.isPending, hg, Option.any_some] using hid
    · exact .inr ⟨n.toNat, name, g, e, he, heid, hg, hgroup⟩

def PendingPassed (s : Sys) : Prop :=
  ∀ id, s.redis.isPending id = true → s.redis.passed id = true

theorem PendingPassed.step (hr : Retained cfg s) (hs : PendingPassed s)
    (h : step cfg s a = some s') : PendingPassed s' := by
  intro id hid
  rcases pending_of_step h hid with hold | ⟨n, name, g, e, he, rfl, hg, hg'⟩
  · exact passed_of_step h (hs id hold)
  · simp only [Redis.passed, hg', Option.any_some, decide_eq_true_eq]
    exact Group.le_deliver_of_mem hr.window.sorted he

theorem not_pending_of_step (h : step cfg s a = some s') {id : Nat}
    (hpass : s.redis.passed id = true) (hid : s.redis.isPending id = false) :
    s'.redis.isPending id = false := by
  by_contra hne
  rcases pending_of_step h (Bool.eq_true_of_not_eq_false hne) with hold | ⟨n, name, g, e, he, rfl, hg, _⟩
  · cases hid.symm.trans hold
  · have hlt := Group.lt_of_mem_unread he
    simp only [Redis.passed, hg, Option.any_some, decide_eq_true_eq] at hpass
    omega

theorem task_of_step (h : step cfg s a = some s') {t : Nat} {τ' : Task}
    (htask : s'.tasks t = some τ') :
    (∃ τ, s.tasks t = some τ ∧ τ.consumer = τ'.consumer ∧ τ.entry = τ'.entry) ∨
    (∃ c p e, a = .resume (.worker τ'.consumer) c ∧
      s.stageOf τ'.consumer = some (.looping p) ∧ p.dispatches = some e ∧ e.id = τ'.entry ∧
      t = s.nextTask) := by
  rcases step_tasks h with ⟨hr, _⟩ | ⟨other, c, w, q, e, ha, hw, hstage, hd, _, hr⟩ |
    ⟨u, c, other, id', m', p', e, k, r, s₁, _, hold, _, _, _, hr⟩
  · exact .inl ⟨τ', hr ▸ htask, rfl, rfl⟩
  · by_cases ht : t = s.nextTask
    · subst ht
      rw [hr, Function.update_self] at htask
      cases htask
      refine .inr ⟨c, q, e, ha, ?_, hd, rfl, rfl⟩
      rw [Sys.stageOf, hw, Option.map_some, hstage]
    · rw [hr, Function.update_of_ne ht] at htask
      exact .inl ⟨τ', htask, rfl, rfl⟩
  · by_cases ht : t = u
    · subst ht
      rw [hr, Function.update_self] at htask
      cases htask
      exact .inl ⟨_, hold, rfl, rfl⟩
    · rw [hr, Function.update_of_ne ht] at htask
      exact .inl ⟨τ', htask, rfl, rfl⟩

theorem task_kept_of_step (hs : Coherent s) (h : step cfg s a = some s') {t : Nat} {τ : Task}
    (htask : s.tasks t = some τ) :
    ∃ τ', s'.tasks t = some τ' ∧ τ'.consumer = τ.consumer ∧ τ'.entry = τ.entry := by
  have hne : s'.tasks t ≠ none := tasks_ne_none_of_step h (by simp [htask])
  obtain ⟨τ', htask'⟩ := Option.ne_none_iff_exists'.mp hne
  rcases task_of_step h htask' with ⟨τ₀, hτ₀, hc, he⟩ | ⟨_, _, _, _, _, _, _, rfl⟩
  · cases htask.symm.trans hτ₀
    exact ⟨τ', htask', hc.symm, he.symm⟩
  · cases (hs.fresh _ le_rfl).symm.trans htask

theorem entry_of_exec {acts : List Act} {t : Nat} {τ τ' : Task} (hs : Coherent s)
    (h : Runs.exec (step cfg) s acts = some s') (htask : s.tasks t = some τ)
    (htask' : s'.tasks t = some τ') : τ'.entry = τ.entry := by
  have keep : ∀ u a u', (Coherent u ∧ ∃ τ', u.tasks t = some τ' ∧ τ'.entry = τ.entry) → True →
      step cfg u a = some u' →
      Coherent u' ∧ ∃ τ', u'.tasks t = some τ' ∧ τ'.entry = τ.entry := by
    rintro u a u' ⟨hu, τ₁, hτ₁, hentry⟩ _ hstep
    obtain ⟨τ₂, hτ₂, _, hentry₂⟩ := task_kept_of_step hu hstep hτ₁
    exact ⟨hu.step hstep, τ₂, hτ₂, hentry₂.trans hentry⟩
  obtain ⟨_, τ₁, hτ₁, hentry⟩ := Runs.invariant keep ⟨hs, τ, htask, rfl⟩ (.trivial s acts) h
  cases htask'.symm.trans hτ₁
  exact hentry

/-- The entries that a pass still has to handle. -/
def PassPoint.entries : PassPoint → List StreamEntry
  | check e rest | query e rest | dispatchClaimed e rest | poison e _ _ rest | poisonAck e rest
  | dispatchNew e rest _ => e :: rest
  | _ => []

/-- Everything that is pending, handled or about to be handled has been passed. -/
structure EntriesPassed (s : Sys) : Prop where
  pending : PendingPassed s
  tasks : ∀ t τ, s.tasks t = some τ → s.redis.passed τ.entry = true
  passes : ∀ name p, s.stageOf name = some (.looping p) →
    ∀ e ∈ p.entries, s.redis.passed e.id = true

theorem EntriesPassed.init : EntriesPassed Sys.init where
  pending := by
    intro id hid
    simp [Sys.init, Redis.isPending] at hid
  tasks := by
    intro t τ htask
    cases htask
  passes := by
    intro name p hstage
    cases hstage

theorem PassPoint.entries_nextClaimed (es : List StreamEntry) : (nextClaimed es).entries = es := by
  cases es <;> rfl

theorem PassPoint.entries_nextNew (total : Nat) (es : List StreamEntry) :
    (nextNew total es).entries = es := by
  cases es <;> rfl

theorem PassPoint.mem_of_dispatches {p : PassPoint} {e : StreamEntry}
    (h : p.dispatches = some e) : e ∈ p.entries := by
  cases p <;> cases h <;> exact List.mem_cons_self

theorem PassPoint.passed_next {cfg : Settings} {s s₁ s' : Sys} {a : Act} {name : ConsumerName}
    {c : Choice} {p : PassPoint} {e : Effect} {k : e.Reply → PassPoint} {r : e.Reply}
    (hr : Retained cfg s) (hpend : PendingPassed s)
    (hp : ∀ e ∈ p.entries, s.redis.passed e.id = true)
    (hnode : p.node cfg.toBrokerSettings = .await e k)
    (hperf : s.perform cfg (.worker name) c e = some (r, s₁)) (h : step cfg s a = some s')
    (hs' : s'.redis = s₁.redis) : ∀ e ∈ (k r).entries, s'.redis.passed e.id = true := by
  have kept : ∀ {es : List StreamEntry}, (∀ e ∈ es, s.redis.passed e.id = true) →
      ∀ e ∈ es, s'.redis.passed e.id = true := fun hes e he => passed_of_step h (hes e he)
  have none : ∀ e ∈ ([] : List StreamEntry), s'.redis.passed e.id = true := fun e he => by cases he
  have tail : ∀ {e : StreamEntry} {rest : List StreamEntry}, p.entries = e :: rest →
      ∀ x ∈ rest, s'.redis.passed x.id = true := by
    intro e rest hes
    rw [hes] at hp
    exact kept fun x hx => hp x (List.mem_cons_of_mem _ hx)
  cases p with
  | reclaimCapacity =>
    cases hnode
    change Int at r
    by_cases hn : r ≤ 0
    · simp only [hn, if_true]
      exact none
    · simp only [hn, if_false]
      exact none
  | autoclaim n =>
    cases hnode
    rcases r with x | es
    · exact none
    · simp only [afterAutoclaim, entries_nextClaimed]
      exact kept fun e he => hpend e.id (Sys.perform_xautoclaim hperf e he)
  | check x rest =>
    cases hnode
    change Bool at r
    cases r
    · exact kept hp
    · simp only [if_true, entries_nextClaimed]
      exact tail rfl
  | query x rest =>
    cases hnode
    rcases r with y | pending
    · exact none
    · simp only [afterQuery]
      split
      · cases JobMessage.fromFields x.fields with
        | ok m => exact kept hp
        | error y => exact none
      · exact kept hp
  | dispatchClaimed x rest =>
    cases hnode
    simp only [entries_nextClaimed]
    exact tail rfl
  | poison x m n rest =>
    cases hnode
    rcases r with y | _
    · cases y <;> exact none
    · exact kept hp
  | poisonAck x rest =>
    cases hnode
    rcases r with y | _
    · exact none
    · simp only [afterPoisonAck, entries_nextClaimed]
      exact tail rfl
  | readCapacity =>
    cases hnode
    change Int at r
    by_cases hn : r ≤ 0
    · simp only [hn, if_true]
      exact none
    · simp only [hn, if_false]
      exact none
  | read n =>
    cases hnode
    rcases r with y | es
    · exact none
    · simp only [afterRead, entries_nextNew]
      intro e he
      obtain ⟨other, g, hg, rfl, rfl⟩ := Sys.perform_xreadgroup hperf
      rw [hs']
      simp only [Redis.passed, Sys.readGroup, Option.any_some, decide_eq_true_eq]
      exact Group.le_deliver_of_mem hr.window.sorted he
  | dispatchNew x rest total =>
    cases hnode
    simp only [entries_nextNew]
    exact tail rfl
  | finished outcome => cases hnode

theorem EntriesPassed.step (hr : Retained cfg s) (hs : EntriesPassed s)
    (h : step cfg s a = some s') : EntriesPassed s' where
  pending := hs.pending.step hr h
  tasks := by
    intro t τ htask
    rcases task_of_step h htask with ⟨τ₀, hτ₀, _, he⟩ | ⟨c, p, e, _, hstage, hd, he, _⟩
    · exact he ▸ passed_of_step h (hs.tasks t τ₀ hτ₀)
    · exact he ▸ passed_of_step h (hs.passes _ p hstage e (PassPoint.mem_of_dispatches hd))
  passes := by
    intro name p hstage e he
    rcases step_stage h name with hr' | ⟨_, _, hr'⟩ | ⟨_, _, hr'⟩ | ⟨_, _, _, _, _, _, _, _, _, _, _, hr'⟩ |
      ⟨c, q, e', k, r, s₁, _, hold, hnode, hperf, hs', hr'⟩ | ⟨_, hr'⟩
    · exact passed_of_step h (hs.passes name p (hr' ▸ hstage) e he)
    · cases hr'.symm.trans hstage
    · cases hr'.symm.trans hstage
      cases he
    · cases hr'.symm.trans hstage
    · cases hr'.symm.trans hstage
      exact PassPoint.passed_next hr hs.pending (hs.passes name q hold) hnode hperf h
        (hs' ▸ rfl) e he
    · cases hr'.symm.trans hstage

structure Regular (cfg : Settings) (s : Sys) : Prop where
  coherent : Coherent s
  retained : Retained cfg s
  passed : EntriesPassed s

theorem Regular.init : Regular cfg Sys.init := ⟨.init, .init, .init⟩

theorem Regular.step (hs : Regular cfg s) (h : step cfg s a = some s') : Regular cfg s' :=
  ⟨hs.coherent.step h, hs.retained.step h, hs.passed.step hs.retained h⟩

theorem Reaches.regular {acts : List Act} (h : Reaches cfg acts s) : Regular cfg s :=
  Runs.invariant (P := fun _ _ => True) (fun _ _ _ hs _ h => hs.step h) .init (.trivial _ _) h

end

end InferenceEngine
