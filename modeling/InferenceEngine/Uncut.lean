import InferenceEngine.EndToEnd

/-!
# Runs without a submission and without cuts

A worker that takes nothing over does the same in the system to which nothing was submitted, and
every call has the same answer in the system whose streams were never cut off, as long as what was
cut off had been read.
-/

namespace InferenceEngine

set_option autoImplicit false

section
variable {cfg : Settings} {s s' : Sys}

/-! ### Without the submission -/

/-- The system to which nothing was submitted. -/
def Sys.forget (s : Sys) : Sys := { s with rows := fun _ => none, submissions := fun _ => none }

@[simp] theorem Sys.consumer_forget (s : Sys) (who : Actor) :
    s.forget.consumer who = s.consumer who := rfl
@[simp] theorem Sys.redis_forget (s : Sys) : s.forget.redis = s.redis := rfl
@[simp] theorem Sys.workers_forget (s : Sys) : s.forget.workers = s.workers := rfl

def Effect.onRows : Effect → Bool
  | .add _ | .get _ | .update _ => true
  | _ => false

theorem Sys.perform_forget (cfg : Settings) (s : Sys) (who : Actor) {c : Choice} {e : Effect}
    (hfate : c.fate = .ok) (he : e.onRows = false) (hwork : ∀ stream fields, e ≠ .xadd stream fields) :
    s.forget.perform cfg who { c with trim := 0 } e =
      (s.perform cfg who c e).map fun x => (x.1, x.2.forget) := by
  cases e with
  | add job | get j | update job => cases he
  | xadd stream fields => exact absurd rfl (hwork stream fields)
  | run job => cases who <;> rfl
  | xack n =>
    simp only [perform, Choice.reply, hfate]
    rfl
  | xgroupCreate =>
    simp only [perform, Choice.reply, hfate, createGroup, forget]
    cases s.redis.group <;> rfl
  | xautoclaim n =>
    simp only [perform, Choice.reply, hfate, if_true, consumer_forget, redis_forget, workers_forget]
    cases s.consumer who with
    | none => rfl
    | some name =>
      cases s.redis.group with
      | none => rfl
      | some g =>
        dsimp only
        split <;> rfl
  | xreadgroup n =>
    simp only [perform, Choice.reply, hfate, consumer_forget, redis_forget]
    cases s.consumer who with
    | none => rfl
    | some name => cases s.redis.group <;> rfl
  | xpending n =>
    simp only [perform, Choice.reply, hfate, forget]
    cases s.redis.group <;> rfl
  | inFlight n | freeCapacity =>
    simp only [perform, consumer_forget, workers_forget]
    cases s.consumer who with
    | none => rfl
    | some name =>
      simp only [bind, Option.bind_some]
      cases s.workers name <;> rfl
  | dispatch n fields | discard n =>
    simp only [perform, consumer_forget]
    cases s.consumer who <;> rfl

theorem Sys.rows_of_perform {who : Actor} {c : Choice} {e : Effect} {r : e.Reply} {s₁ : Sys}
    (he : e.onRows = false) (hperf : s.perform cfg who c e = some (r, s₁)) : s₁.rows = s.rows := by
  rcases (Sys.perform_change hperf).rows with hsame | ⟨job, rfl, _⟩ | ⟨job, row, rfl, _⟩
  · exact hsame
  · cases he
  · cases he

theorem PassPoint.effect_of_node {p : PassPoint} {e : Effect} {k : e.Reply → PassPoint}
    (howner : p.takesOver = false) (hnode : p.node cfg.toBrokerSettings = .await e k) :
    e.onRows = false ∧ (∀ n, e ≠ .xpending n) ∧ ∀ stream fields, e ≠ .xadd stream fields := by
  cases p with
  | query x rest | dispatchClaimed x rest | poison x m n rest | poisonAck x rest => cases howner
  | finished outcome => cases hnode
  | _ =>
    cases hnode
    exact ⟨rfl, by simp, by simp⟩

/-! ### Without the cuts -/

/-- The system with longer streams and another pending list. -/
def Sys.uncut (s : Sys) (cut dlq : List StreamEntry) (g : Group) : Sys :=
  { s with redis := { work := { s.redis.work with entries := cut ++ s.redis.work.entries },
                      dlq := { s.redis.dlq with entries := dlq }, group := some g } }

@[simp] theorem Sys.consumer_uncut (s : Sys) (cut dlq : List StreamEntry) (g : Group) (who : Actor) :
    (s.uncut cut dlq g).consumer who = s.consumer who := rfl
@[simp] theorem Sys.rows_uncut (s : Sys) (cut dlq : List StreamEntry) (g : Group) :
    (s.uncut cut dlq g).rows = s.rows := rfl
@[simp] theorem Sys.workers_uncut (s : Sys) (cut dlq : List StreamEntry) (g : Group) :
    (s.uncut cut dlq g).workers = s.workers := rfl
@[simp] theorem Sys.group_uncut (s : Sys) (cut dlq : List StreamEntry) (g : Group) :
    (s.uncut cut dlq g).redis.group = some g := rfl

/-- What was cut off had been read, and what is pending was so before the cut. -/
structure Uncut (s : Sys) (cut : List StreamEntry) (g : Group) : Prop where
  group : ∃ g₀, s.redis.group = some g₀ ∧ g.lastDelivered = g₀.lastDelivered ∧
    ∀ n, g₀.isPending n = true → g.isPending n = true
  read : ∀ e ∈ cut, e.id ≤ g.lastDelivered

/-- The same choice, when nothing is cut off and nothing was. -/
def Choice.uncut (c : Choice) (s : Sys) : Choice :=
  { c with trim := 0, claimed := c.claimed.filter s.redis.work.has }

def Effect.onRedis : Effect → Bool
  | .xadd _ _ | .xack _ | .xgroupCreate | .xautoclaim _ | .xpending _ | .xreadgroup _ => true
  | _ => false

theorem Sys.perform_uncut {who : Actor} {c : Choice} {e : Effect} {cut dlq : List StreamEntry}
    {g : Group} (hfate : c.fate = .ok) (he : e.onRedis = false) :
    (s.uncut cut dlq g).perform cfg who (c.uncut s) e =
      (s.perform cfg who c e).map fun x => (x.1, x.2.uncut cut dlq g) := by
  have hfate' : (c.uncut s).fate = .ok := hfate
  cases e with
  | xadd stream fields | xack n | xgroupCreate | xautoclaim n | xpending n | xreadgroup n => cases he
  | add job =>
    simp only [perform, Choice.reply, hfate, hfate', insertRow, rows_uncut]
    cases s.rows job.id <;> rfl
  | get j =>
    simp only [perform, Choice.reply, hfate, hfate']
    rfl
  | update job =>
    simp only [perform, Choice.reply, hfate, hfate', writeRow, rows_uncut]
    cases s.rows job.id <;> rfl
  | run job => cases who <;> rfl
  | inFlight n | freeCapacity =>
    simp only [perform, consumer_uncut, workers_uncut]
    cases s.consumer who with
    | none => rfl
    | some name =>
      simp only [bind, Option.bind_some]
      cases s.workers name <;> rfl
  | dispatch n fields | discard n =>
    simp only [perform, consumer_uncut]
    cases s.consumer who <;> rfl

theorem Sys.redis_of_perform {who : Actor} {c : Choice} {e : Effect} {r : e.Reply} {s₁ : Sys}
    (he : e.onRedis = false) (hperf : s.perform cfg who c e = some (r, s₁)) :
    s₁.redis = s.redis := by
  cases Sys.perform_change hperf with
  | refl | insert | write | ran | start | discard => rfl
  | xaddWork | xaddDlq | ack | create | claim | read => cases he

namespace Uncut

variable {cut : List StreamEntry} {g : Group}

theorem of_redis (hs : Uncut s cut g) (h : s'.redis = s.redis) : Uncut s' cut g where
  group := by
    rw [h]
    exact hs.group
  read := hs.read

theorem unread (hs : Uncut s cut g) {g₀ : Group} (hlast : g.lastDelivered = g₀.lastDelivered)
    (st : Stream) : g.unread { st with entries := cut ++ st.entries } = g₀.unread st := by
  have hnone : cut.filter (fun e => decide (g₀.lastDelivered < e.id)) = [] := by
    refine List.filter_eq_nil_iff.mpr fun e he => ?_
    have hle := hs.read e he
    simpa [hlast] using hle
  simp only [Group.unread, hlast, List.filter_append, hnone, List.nil_append]

theorem find_uncut {st : Stream} (hapart : ∀ x ∈ cut, ∀ y ∈ st.entries, x.id ≠ y.id)
    (ids : List Nat) :
    (ids.filter st.has).filterMap (fun n => (cut ++ st.entries).find? fun e => e.id = n) =
      ids.filterMap fun n => st.entries.find? fun e => e.id = n := by
  rw [List.filterMap_filter]
  refine List.filterMap_congr fun n _ => ?_
  by_cases hn : st.has n = true
  · rw [if_pos hn, List.find?_append]
    obtain ⟨y, hy, hid⟩ := List.any_eq_true.mp hn
    have hnone : cut.find? (fun e => decide (e.id = n)) = none := by
      refine List.find?_eq_none.mpr fun x hx heq => ?_
      exact hapart x hx y hy ((of_decide_eq_true heq).trans (of_decide_eq_true hid).symm)
    rw [hnone, Option.none_or]
  · rw [if_neg hn]
    refine (List.find?_eq_none.mpr fun y hy heq => hn ?_).symm
    exact List.any_eq_true.mpr ⟨y, hy, heq⟩

theorem xack (hs : Uncut s cut g) (who : Actor) (n : Nat) : Uncut (s.ackEntry who n) cut (g.ack n) where
  group := by
    obtain ⟨g₀, hg₀, hlast, hpending⟩ := hs.group
    refine ⟨g₀.ack n, by rw [Sys.ackEntry, hg₀]; rfl, hlast, fun i hi => ?_⟩
    rw [Group.isPending_ack] at hi ⊢
    obtain ⟨hne, hi⟩ := Bool.and_eq_true_iff.mp hi
    exact Bool.and_eq_true_iff.mpr ⟨hne, hpending i hi⟩
  read := hs.read

theorem xreadgroup (hs : Uncut s cut g) {g₀ : Group} (hg₀ : s.redis.group = some g₀)
    (name : ConsumerName) (n : Int) :
    ∃ g', Uncut (s.readGroup name g₀ n).2 cut g' ∧ ∀ dlq,
      (s.uncut cut dlq g).readGroup name g n =
        ((s.readGroup name g₀ n).1, (s.readGroup name g₀ n).2.uncut cut dlq g') := by
  obtain ⟨g₁, hg₁, hlast, hpending⟩ := hs.group
  obtain rfl := Option.some.inj (hg₀.symm.trans hg₁)
  have hread : g.unread { s.redis.work with entries := cut ++ s.redis.work.entries } =
      g₀.unread s.redis.work := hs.unread hlast _
  refine ⟨g.deliver name ((g₀.unread s.redis.work).take n.toNat), ⟨⟨_, rfl, ?_, ?_⟩, ?_⟩, ?_⟩
  · simp only [Group.deliver, hlast]
  · intro i hi
    rw [Group.isPending_deliver] at hi ⊢
    rcases Bool.or_eq_true_iff.mp hi with hi | hi
    · exact Bool.or_eq_true_iff.mpr (.inl (hpending i hi))
    · exact Bool.or_eq_true_iff.mpr (.inr hi)
  · intro e he
    rw [← hread]
    exact (hs.read e he).trans Group.lastDelivered_le_deliver
  · intro dlq
    simp only [Sys.readGroup, Sys.uncut, hread]

theorem xautoclaim (hs : Uncut s cut g) {g₀ : Group} (hg₀ : s.redis.group = some g₀)
    (hapart : ∀ x ∈ cut, ∀ y ∈ s.redis.work.entries, x.id ≠ y.id) (name : ConsumerName)
    (ids : List Nat) :
    ∃ g', Uncut (s.claimEntries name g₀ ids).2 cut g' ∧ ∀ dlq,
      (s.uncut cut dlq g).claimEntries name g (ids.filter s.redis.work.has) =
        ((s.claimEntries name g₀ ids).1, (s.claimEntries name g₀ ids).2.uncut cut dlq g') := by
  obtain ⟨g₁, hg₁, hlast, hpending⟩ := hs.group
  obtain rfl := Option.some.inj (hg₀.symm.trans hg₁)
  refine ⟨g.claim (s.uncut cut [] g).redis.work name (ids.filter s.redis.work.has),
    ⟨⟨_, rfl, hlast, fun i hi => ?_⟩, hs.read⟩, fun dlq => Prod.ext ?_ rfl⟩
  · rw [Group.isPending_claim] at hi ⊢
    obtain ⟨hi, hkept⟩ := Bool.and_eq_true_iff.mp hi
    refine Bool.and_eq_true_iff.mpr ⟨hpending i hi, Bool.or_eq_true_iff.mpr ?_⟩
    rcases Bool.or_eq_true_iff.mp hkept with hnot | hhas
    · exact .inl (decide_eq_true fun hmem => of_decide_eq_true hnot (List.mem_filter.mp hmem).1)
    · exact .inr (List.any_append.trans (Bool.or_eq_true_iff.mpr (.inr hhas)))
  · exact find_uncut hapart ids

theorem claimAllowed (hs : Uncut s cut g) {g₀ : Group} (hg₀ : s.redis.group = some g₀)
    {start : Nat} {n : Int} {ids : List Nat} (h : g₀.claimAllowed start n ids = true)
    (keep : Nat → Bool) : g.claimAllowed start n (ids.filter keep) = true := by
  obtain ⟨g₁, hg₁, _, hpending⟩ := hs.group
  obtain rfl := Option.some.inj (hg₀.symm.trans hg₁)
  simp only [Group.claimAllowed, Bool.and_eq_true, decide_eq_true_eq, List.all_eq_true] at h ⊢
  obtain ⟨⟨hnodup, hall⟩, hlength⟩ := h
  refine ⟨⟨hnodup.filter _, fun i hi => ?_⟩, ?_⟩
  · obtain ⟨hstart, hi⟩ := hall i (List.mem_filter.mp hi).1
    exact ⟨hstart, hpending i hi⟩
  · have hle := List.length_filter_le keep ids
    omega

theorem xadd (hs : Uncut s cut g) (who : Actor) (fields : Fields) {trim : Nat}
    (htrim : trim ≤ s.redis.work.entries.length)
    (hread : ∀ x ∈ s.redis.work.entries, x.id ≤ g.lastDelivered) :
    ∃ cut', Uncut (s.appendWork (some who) fields trim) cut' g ∧ ∀ dlq,
      (s.uncut cut dlq g).appendWork (some who) fields 0 =
        (s.appendWork (some who) fields trim).uncut cut' dlq g := by
  refine ⟨cut ++ s.redis.work.entries.take trim, ⟨hs.group, fun e he => ?_⟩, fun dlq => ?_⟩
  · rcases List.mem_append.mp he with he | he
    · exact hs.read e he
    · exact hread e (List.mem_of_mem_take he)
  · have hentries : cut ++ s.redis.work.entries ++ [Sys.nextEntry s.redis.work fields] =
        (cut ++ s.redis.work.entries.take trim) ++
          (s.redis.work.entries ++ [Sys.nextEntry s.redis.work fields]).drop trim := by
      rw [List.drop_append_of_le_length htrim, List.append_assoc, List.append_assoc,
        ← List.append_assoc (List.take trim _), List.take_append_drop]
    simp only [Sys.appendWork, Sys.uncut, Stream.add, List.drop_zero]
    simp only [Sys.nextEntry] at hentries
    rw [hentries]
    rfl

theorem perform (hs : Uncut s cut g) (hapart : ∀ x ∈ cut, ∀ y ∈ s.redis.work.entries, x.id ≠ y.id)
    (dlq : List StreamEntry) {who : Actor} {c : Choice} {e : Effect} {r : e.Reply} {s₁ : Sys}
    (hfate : c.fate = .ok) (hpending : ∀ n, e ≠ .xpending n)
    (hwork : ∀ fields, e = .xadd .work fields → c.trim ≤ s.redis.work.entries.length ∧
      ∀ x ∈ s.redis.work.entries, x.id ≤ g.lastDelivered)
    (hperf : s.perform cfg who c e = some (r, s₁)) :
    ∃ cut' dlq' g', Uncut s₁ cut' g' ∧
      (s.uncut cut dlq g).perform cfg who (c.uncut s) e = some (r, s₁.uncut cut' dlq' g') := by
  have hfate' : (c.uncut s).fate = .ok := hfate
  by_cases he : e.onRedis = false
  · refine ⟨cut, dlq, g, hs.of_redis (Sys.redis_of_perform he hperf), ?_⟩
    rw [Sys.perform_uncut hfate he, hperf]
    rfl
  obtain ⟨g₀, hg₀, hlast, _⟩ := hs.group
  cases e with
  | add job | get j | update job | run job | inFlight n | freeCapacity | dispatch n fields
  | discard n => exact absurd rfl he
  | xpending n => exact absurd rfl (hpending n)
  | xack n =>
    simp only [Sys.perform, Choice.reply, hfate] at hperf
    obtain ⟨rfl, rfl⟩ := hperf
    refine ⟨cut, dlq, g.ack n, hs.xack who n, ?_⟩
    simp only [Sys.perform, Choice.reply, hfate']
    rfl
  | xgroupCreate =>
    simp only [Sys.perform, Choice.reply, hfate, Sys.createGroup, hg₀] at hperf
    obtain ⟨rfl, rfl⟩ := hperf
    refine ⟨cut, dlq, g, hs, ?_⟩
    simp only [Sys.perform, Choice.reply, hfate']
    rfl
  | xreadgroup n =>
    simp only [Sys.perform, Choice.reply, hfate, hg₀] at hperf
    cases hc : s.consumer who with
    | none =>
      rw [hc] at hperf
      cases hperf
    | some name =>
      rw [hc] at hperf
      obtain ⟨rfl, rfl⟩ := hperf
      obtain ⟨g', hs', heq⟩ := hs.xreadgroup hg₀ name n
      refine ⟨cut, dlq, g', hs', ?_⟩
      simp only [Sys.perform, Choice.reply, hfate', Sys.consumer_uncut, hc, Sys.group_uncut, heq dlq]
      rfl
  | xautoclaim n =>
    simp only [Sys.perform, Choice.reply, hfate, hg₀] at hperf
    cases hc : s.consumer who with
    | none =>
      rw [hc] at hperf
      cases hperf
    | some name =>
      rw [hc] at hperf
      dsimp only at hperf
      split at hperf
      · rename_i hallowed
        obtain ⟨rfl, rfl⟩ := hperf
        obtain ⟨g', hs', heq⟩ := hs.xautoclaim hg₀ hapart name c.claimed
        refine ⟨cut, dlq, g', hs'.of_redis rfl, ?_⟩
        have hallowed' := hs.claimAllowed hg₀ hallowed s.redis.work.has
        have hclaimed : (c.uncut s).claimed = c.claimed.filter s.redis.work.has := rfl
        simp only [Sys.perform, Choice.reply, hfate', Sys.consumer_uncut, hc, Sys.group_uncut, hclaimed,
          Sys.workers_uncut, hallowed', heq dlq, if_true]
        rfl
      · cases hperf
  | xadd stream fields =>
    cases stream with
    | work =>
      obtain ⟨htrim, hread⟩ := hwork fields rfl
      simp only [Sys.perform, Choice.reply, hfate] at hperf
      split at hperf
      · obtain ⟨rfl, rfl⟩ := hperf
        obtain ⟨cut', hs', heq⟩ := hs.xadd who fields htrim hread
        refine ⟨cut', dlq, g, hs', ?_⟩
        have hallowed : (s.uncut cut dlq g).redis.work.trimAllowed cfg.maxlen 0 = true := rfl
        have hzero : (c.uncut s).trim = 0 := rfl
        simp only [Sys.perform, Choice.reply, hfate', hzero, hallowed, heq dlq, if_true]
        rfl
      · cases hperf
    | dlq =>
      simp only [Sys.perform, Choice.reply, hfate] at hperf
      split at hperf
      · obtain ⟨rfl, rfl⟩ := hperf
        refine ⟨cut, dlq ++ [Sys.nextEntry s.redis.dlq fields], g, ⟨hs.group, hs.read⟩, ?_⟩
        have hallowed : (s.uncut cut dlq g).redis.dlq.trimAllowed cfg.maxlen 0 = true := rfl
        have hzero : (c.uncut s).trim = 0 := rfl
        simp only [Sys.perform, Choice.reply, hfate', hzero, hallowed, if_true]
        rfl
      · cases hperf

end Uncut

theorem Steady.uncut_nil {g : Group} (hs : Steady cfg s) (hg : s.redis.group = some g) :
    Steady cfg (s.uncut [] s.redis.dlq.entries g) := by
  obtain ⟨⟨work, dlq, group⟩, rows, subs, workers, tasks, next, log⟩ := s
  cases hg
  exact hs

end

end InferenceEngine
