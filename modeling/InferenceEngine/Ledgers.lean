import InferenceEngine.Attempts

/-!
# What the log of a calm run says

Without trimming the stream holds every entry that was appended, in order, and the group has
delivered those it has passed, each once.
-/

namespace InferenceEngine

set_option autoImplicit false

def Event.appendedEntry : Event → Option StreamEntry
  | .appended _ e => some e
  | _ => none

def Event.deliveredEntry : Event → Option StreamEntry
  | .delivered _ e => some e
  | _ => none

/-- The log agrees with the stream and with the group. -/
structure Ledger (s : Sys) : Prop where
  appended : s.log.filterMap Event.appendedEntry = s.redis.work.entries
  delivered : s.log.filterMap Event.deliveredEntry =
    s.redis.work.entries.filter fun e => s.redis.passed e.id

section
variable {cfg : Settings} {s s' : Sys} {a : Act}

theorem Ledger.init : Ledger Sys.init where
  appended := rfl
  delivered := rfl

theorem Ledger.congr (hs : Ledger s) (hwork : s'.redis.work = s.redis.work)
    (hpassed : ∀ id, s'.redis.passed id = s.redis.passed id) {evs : List Event}
    (hlog : s'.log = s.log ++ evs)
    (hevs : ∀ ev ∈ evs, ev.appendedEntry = none ∧ ev.deliveredEntry = none) : Ledger s' where
  appended := by
    rw [hlog, hwork, List.filterMap_append,
      List.filterMap_eq_nil_iff.mpr fun ev hev => (hevs ev hev).1, List.append_nil, hs.appended]
  delivered := by
    rw [hlog, hwork, List.filterMap_append,
      List.filterMap_eq_nil_iff.mpr fun ev hev => (hevs ev hev).2, List.append_nil, hs.delivered]
    simp only [hpassed]

theorem filter_le_append_filter_lt {entries : List StreamEntry} (k : Nat)
    (hsorted : entries.Pairwise fun a b => a.id < b.id) :
    (entries.filter fun e => decide (e.id ≤ k)) ++ (entries.filter fun e => decide (k < e.id)) =
      entries := by
  induction entries with
  | nil => rfl
  | cons e rest ih =>
    obtain ⟨hfirst, hrest⟩ := List.pairwise_cons.mp hsorted
    by_cases hk : e.id ≤ k
    · rw [List.filter_cons_of_pos (by simpa using hk), List.filter_cons_of_neg (by simpa using hk),
        List.cons_append, ih hrest]
    · have hpast : ∀ x ∈ e :: rest, ¬ x.id ≤ k := by
        intro x hx
        rcases List.mem_cons.mp hx with rfl | hx
        · exact hk
        · have hlt := hfirst x hx
          omega
      have hnone : (e :: rest).filter (fun e => decide (e.id ≤ k)) = [] := by
        apply List.filter_eq_nil_iff.mpr
        intro x hx
        simpa using hpast x hx
      have hall : (e :: rest).filter (fun e => decide (k < e.id)) = e :: rest := by
        apply List.filter_eq_self.mpr
        intro x hx
        simpa using hpast x hx
      rw [hnone, hall, List.nil_append]

/-- What a read returns is what it lets the group pass. -/
theorem Group.filter_deliver {st : Stream} {g : Group} {name : ConsumerName} {n : Nat}
    (hsorted : st.entries.Pairwise fun a b => a.id < b.id) :
    (st.entries.filter fun e =>
        decide (e.id ≤ (g.deliver name ((g.unread st).take n)).lastDelivered)) =
      (st.entries.filter fun e => decide (e.id ≤ g.lastDelivered)) ++ (g.unread st).take n := by
  have hsplit := filter_le_append_filter_lt g.lastDelivered hsorted
  have hpassed : ((st.entries.filter fun e => decide (e.id ≤ g.lastDelivered)).filter fun e =>
      decide (e.id ≤ (g.deliver name ((g.unread st).take n)).lastDelivered)) =
      st.entries.filter fun e => decide (e.id ≤ g.lastDelivered) := by
    apply List.filter_eq_self.mpr
    intro e he
    have hle := (List.mem_filter.mp he).2
    have hmono := @lastDelivered_le_deliver g st name n
    simp only [decide_eq_true_eq] at hle ⊢
    omega
  have hread : ((g.unread st).filter fun e =>
      decide (e.id ≤ (g.deliver name ((g.unread st).take n)).lastDelivered)) =
      (g.unread st).take n := by
    rw [← List.take_append_drop n (g.unread st), List.filter_append, List.take_append_drop,
      List.filter_eq_self.mpr, List.filter_eq_nil_iff.mpr, List.append_nil]
    · intro e he
      have hlt := lastDelivered_lt_of_mem_drop (c := name) hsorted he
      simpa using hlt
    · intro e he
      simpa using le_deliver_of_mem (c := name) hsorted he
  calc st.entries.filter (fun e =>
        decide (e.id ≤ (g.deliver name ((g.unread st).take n)).lastDelivered))
      = ((st.entries.filter fun e => decide (e.id ≤ g.lastDelivered)) ++ g.unread st).filter
          (fun e => decide (e.id ≤ (g.deliver name ((g.unread st).take n)).lastDelivered)) := by
        unfold unread
        rw [hsplit]
    _ = _ := by rw [List.filter_append, hpassed, hread]

theorem Ledger.of_change {who : Actor} {c : Choice} {e : Effect} (hs : Ledger s)
    (hreg : Regular cfg s) (hu : Undisturbed s) (htrim : c.trim = 0)
    (h : Sys.Change cfg who c s e s') : Ledger s' := by
  cases h with
  | refl | insert job hf hrow | start id fields name hc | discard id name hc =>
    exact hs.congr rfl (fun _ => rfl) (List.append_nil s.log).symm (by simp)
  | write job row hf hrow | ran t job hw | xaddDlq fields hf htrim' =>
    exact hs.congr rfl (fun _ => rfl) rfl (by simp [Event.appendedEntry, Event.deliveredEntry])
  | claim n name g start f hf hc hg h hw =>
    refine hs.congr rfl (Redis.passed_congr ?_) (List.append_nil s.log).symm (by simp)
    simp [Sys.claimEntries, Sys.setGroup, Sys.modifyWorker, hg]
  | ack id hf =>
    refine hs.congr rfl (Redis.passed_congr ?_) rfl
      (by simp [Event.appendedEntry, Event.deliveredEntry])
    cases hg : s.redis.group <;> simp [Sys.ackEntry, hg]
  | xaddWork fields hf htrim' =>
    have hentries := Sys.entries_appendWork s (some who) fields
    rw [htrim]
    constructor
    · rw [hentries, ← hs.appended]
      simp [Sys.appendWork, Event.appendedEntry, Sys.nextEntry]
    · have hnew : (s.appendWork (some who) fields 0).redis.passed (s.redis.work.lastId + 1) = false := by
        apply Bool.eq_false_iff.mpr
        intro hpassed
        simp only [Redis.passed, Option.any_eq_true, decide_eq_true_eq] at hpassed
        obtain ⟨g, hg, hle⟩ := hpassed
        have hbound := hreg.retained.bound g hg
        omega
      rw [hentries, List.filter_append, List.filter_cons_of_neg (by simp [hnew])]
      have hlog : (s.appendWork (some who) fields 0).log.filterMap Event.deliveredEntry =
          s.log.filterMap Event.deliveredEntry := by
        simp [Sys.appendWork, Event.deliveredEntry, List.filterMap_cons]
      rw [hlog, hs.delivered, List.filter_nil, List.append_nil]
      rfl
  | create hf hnone =>
    obtain ⟨hentries, _⟩ := hu.closed hnone
    refine ⟨hs.appended, ?_⟩
    have hdelivered := hs.delivered
    rw [hentries] at hdelivered
    show s.log.filterMap Event.deliveredEntry = s.redis.work.entries.filter _
    rw [hentries, hdelivered]
    rfl
  | read n name g hf hc hg =>
    have hsorted := hreg.retained.window.sorted
    constructor
    · have hlog : (s.readGroup name g n).2.log.filterMap Event.appendedEntry =
          s.log.filterMap Event.appendedEntry := by
        have hnone : ((g.unread s.redis.work).take n.toNat).filterMap
            (Event.appendedEntry ∘ Event.delivered name) = [] :=
          List.filterMap_eq_nil_iff.mpr fun _ _ => rfl
        simp only [Sys.readGroup, List.filterMap_append, List.filterMap_map]
        rw [hnone, List.append_nil]
      exact hlog.trans hs.appended
    · have hlog : (s.readGroup name g n).2.log.filterMap Event.deliveredEntry =
          s.log.filterMap Event.deliveredEntry ++ (g.unread s.redis.work).take n.toNat := by
        simp only [Sys.readGroup, List.filterMap_append, List.filterMap_map]
        congr 1
        exact List.filterMap_some
      rw [hlog, hs.delivered]
      have hfilter := @Group.filter_deliver s.redis.work g name n.toNat hsorted
      simpa [Redis.passed, hg, Sys.readGroup] using hfilter.symm

theorem Ledger.step (hs : Ledger s) (hreg : Regular cfg s) (hu : Undisturbed s) (hcalm : Calm s a)
    (h : step cfg s a = some s') : Ledger s' := by
  have same : ∀ {s₁ s₂ : Sys}, Ledger s₁ → s₂.redis = s₁.redis → s₂.log = s₁.log → Ledger s₂ := by
    intro s₁ s₂ hs₁ hredis hlog
    exact hs₁.congr (by rw [hredis]) (fun _ => by rw [hredis])
      (hlog.trans (List.append_nil s₁.log).symm) (by simp)
  cases Sys.step_cases h with
  | submission id' c job p e k r s₁ hsub hnode hperf =>
    exact same (hs.of_change hreg hu hcalm.trim (Sys.perform_change hperf)) rfl rfl
  | starting name c w p e k r s₁ hw hst hnode hperf =>
    exact same (hs.of_change hreg hu hcalm.trim (Sys.perform_change hperf)) rfl rfl
  | looping name c w p e k r s₁ hw hst hnode hperf =>
    exact same (hs.of_change hreg hu hcalm.trim (Sys.perform_change hperf)) rfl rfl
  | task t c name id m p w q e k r s₁ htask hw hst hnode hperf =>
    exact same (hs.of_change hreg hu hcalm.trim (Sys.perform_change hperf)) rfl rfl
  | inject fields trim htrim => exact absurd rfl (hcalm.own fields trim)
  | _ => exact same hs rfl rfl

/-- What holds in every state of a calm run. -/
structure Steady (cfg : Settings) (s : Sys) : Prop where
  regular : Regular cfg s
  undisturbed : Undisturbed s
  custody : Custody s
  ledger : Ledger s
  journeys : ∀ id, Journey cfg.toBrokerSettings id (s.jobView id)

theorem Steady.init : Steady cfg Sys.init where
  regular := .init
  undisturbed := .init
  custody := .init
  ledger := .init
  journeys := fun _ => .absent rfl rfl ⟨rfl, fun _ => rfl, rfl, rfl⟩

theorem Steady.step (hs : Steady cfg s) (hcalm : Calm s a) (h : step cfg s a = some s') :
    Steady cfg s' where
  regular := hs.regular.step h
  undisturbed := hs.undisturbed.step hs.regular hcalm h
  custody := hs.custody.step hs.regular hs.undisturbed hcalm h
  ledger := hs.ledger.step hs.regular hs.undisturbed hcalm h
  journeys := by
    intro id
    rcases view_of_step hs.regular hs.undisturbed hs.custody hcalm h id with hsame | hmoves
    · exact hsame ▸ hs.journeys id
    · exact (hs.journeys id).step hmoves

/-- The outcomes that the pipelines of the jobs have, run after run. -/
def Assigned (f : UUID → Nat → Except Exn (Text × Int)) (s : Sys) : Act → Prop
  | .resume (.task t) c => ∀ name entry m job,
    s.tasks t = some ⟨name, entry, .handling m (.running job)⟩ →
      c.outcome = f m.jobId (s.jobView m.jobId).outcomes.length
  | _ => True

/-- The runs so far had the first outcomes. -/
def Outcomes (f : UUID → Nat → Except Exn (Text × Int)) (s : Sys) : Prop :=
  ∀ id, (s.jobView id).outcomes = (List.range (s.jobView id).outcomes.length).map (f id)

theorem Outcomes.init (f : UUID → Nat → Except Exn (Text × Int)) : Outcomes f Sys.init :=
  fun _ => rfl

theorem Sys.Change.outcomes {who : Actor} {c : Choice} {e : Effect}
    (h : Sys.Change cfg who c s e s') (id : UUID) :
    (s'.jobView id).outcomes = (s.jobView id).outcomes ∨
    ∃ t job, who = .task t ∧ e = .run job ∧ job.id = id ∧
      (s'.jobView id).outcomes = (s.jobView id).outcomes ++ [c.outcome] := by
  cases h with
  | ran t job hw =>
    by_cases hid : job.id = id
    · exact .inr ⟨t, job, hw, rfl, hid, by simp [Sys.jobView, Sys.record, Event.outcomeFor, hid]⟩
    · exact .inl (by simp [Sys.jobView, Sys.record, Event.outcomeFor, hid])
  | write job row hf hrow | xaddWork fields hf htrim | xaddDlq fields hf htrim | ack n hf =>
    exact .inl (Sys.outcomes_congr rfl (by simp [Event.outcomeFor]))
  | read n name g hf hc hg =>
    refine .inl (Sys.outcomes_congr rfl ?_)
    intro ev hev
    obtain ⟨x, _, rfl⟩ := List.mem_map.mp hev
    rfl
  | _ => exact .inl rfl

theorem outcomes_of_step (hs : Coherent s) (h : InferenceEngine.step cfg s a = some s') (id : UUID) :
    (s'.jobView id).outcomes = (s.jobView id).outcomes ∨
    ∃ t c name entry m job, a = .resume (.task t) c ∧
      s.tasks t = some ⟨name, entry, .handling m (.running job)⟩ ∧ m.jobId = id ∧
      (s'.jobView id).outcomes = (s.jobView id).outcomes ++ [c.outcome] := by
  cases Sys.step_cases h with
  | submission id' c job p e k r s₁ hsub hnode hperf =>
    rcases (Sys.perform_change hperf).outcomes id with hsame | ⟨t, _, hw, _⟩
    · exact .inl hsame
    · cases hw
  | starting name c w p e k r s₁ hw hst hnode hperf
  | looping name c w p e k r s₁ hw hst hnode hperf =>
    rcases (Sys.perform_change hperf).outcomes id with hsame | ⟨t, _, hw, _⟩
    · exact .inl hsame
    · cases hw
  | task t c name entry m p w q e k r s₁ htask hw hst hnode hperf =>
    rcases (Sys.perform_change hperf).outcomes id with hsame | ⟨u, job, hu, rfl, hid, hnew⟩
    · exact .inl hsame
    · cases hu
      cases p <;> cases hnode
      have hsound := hs.sound _ _ _ _ _ htask
      exact .inr ⟨t, c, name, entry, m, job, rfl, htask, hsound.1.symm.trans hid, hnew⟩
  | inject fields trim htrim => exact .inl (Sys.outcomes_congr rfl (by simp [Event.outcomeFor]))
  | _ => exact .inl rfl

theorem Outcomes.step {f : UUID → Nat → Except Exn (Text × Int)} (hf : Outcomes f s)
    (hs : Coherent s) (ha : Assigned f s a) (h : InferenceEngine.step cfg s a = some s') :
    Outcomes f s' := by
  intro id
  rcases outcomes_of_step hs h id with hsame | ⟨t, c, name, entry, m, job, rfl, htask, rfl, hnew⟩
  · rw [hsame]
    exact hf id
  · rw [hnew, ha name entry m job htask, List.length_append, List.length_singleton,
      List.range_succ, List.map_append, ← hf m.jobId]
    rfl

end

end InferenceEngine
