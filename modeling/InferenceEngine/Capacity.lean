import InferenceEngine.Redispatch

/-!
# The capacity of a consumer

`_free_capacity` is read twice in a pass and used after an await each time, while tasks end. A
pass is the only one that adds tasks to `_in_flight`, so what it has asked for or still holds
fits beside the tasks in flight.
-/

namespace InferenceEngine

set_option autoImplicit false

/-- `self._in_flight` of a consumer. -/
def Sys.takenBy (s : Sys) (name : ConsumerName) : List Nat :=
  ((s.workers name).map (·.inFlight)).getD []

namespace PassPoint

/-- The `COUNT` of the call that a pass awaits. -/
def asked : PassPoint → Option Int
  | autoclaim n | read n => some n
  | _ => none

/-- What a pass holds, or has asked for, fits beside the tasks in flight. -/
structure Fits (cfg : Settings) (taken : Nat) (p : PassPoint) : Prop where
  held : (taken : Int) + p.entries.length ≤ max 0 cfg.workerConcurrency
  asked : ∀ n, p.asked = some n → 0 < n ∧ (taken : Int) + n ≤ cfg.workerConcurrency

variable {cfg : Settings} {taken taken' : Nat} {p : PassPoint}

theorem Fits.mono (h : p.Fits cfg taken) (hle : taken' ≤ taken) : p.Fits cfg taken' := by
  refine ⟨?_, fun n hn => ?_⟩
  · have hheld := h.held
    omega
  · obtain ⟨hpos, hfits⟩ := h.asked n hn
    exact ⟨hpos, by omega⟩

theorem fits_of_held (hasked : p.asked = none)
    (h : (taken : Int) + p.entries.length ≤ max 0 cfg.workerConcurrency) : p.Fits cfg taken := by
  refine ⟨h, fun n hn => ?_⟩
  cases hasked.symm.trans hn

theorem fits_nextClaimed {es : List StreamEntry}
    (h : (taken : Int) + es.length ≤ max 0 cfg.workerConcurrency) :
    (nextClaimed es).Fits cfg taken := by
  cases es <;> exact fits_of_held rfl h

theorem fits_nextNew (total : Nat) {es : List StreamEntry}
    (h : (taken : Int) + es.length ≤ max 0 cfg.workerConcurrency) :
    (nextNew total es).Fits cfg taken := by
  cases es <;> exact fits_of_held rfl h

theorem fits_ask {n : Int} (hasked : p.asked = some n) (hheld : p.entries = []) (hpos : 0 < n)
    (h : (taken : Int) + n ≤ cfg.workerConcurrency) : p.Fits cfg taken := by
  refine ⟨?_, fun n' hn' => ?_⟩
  · rw [hheld, List.length_nil]
    omega
  · cases hasked.symm.trans hn'
    exact ⟨hpos, h⟩

end PassPoint

namespace Sys

variable {cfg : Settings} {who : Actor} {c : Choice} {s s' : Sys} {name : ConsumerName}

theorem takenBy_setStage (s : Sys) (other : ConsumerName) (stage : Stage) :
    (s.setStage other stage).takenBy name = s.takenBy name := by
  by_cases hn : name = other
  · subst hn
    simp [takenBy, setStage, Function.comp_def]
  · simp [takenBy, setStage, Function.update_of_ne hn]

theorem takenBy_startTask {w : Worker} (hw : s.workers name = some w) (id : Nat) (fields : Fields) :
    (s.startTask name id fields).takenBy name = s.nextTask :: s.takenBy name := by
  simp [takenBy, startTask, modifyWorker, hw]

theorem Change.taken {e : Effect} (h : Change cfg who c s e s') (name : ConsumerName)
    (hstart : ∀ id fields, e = .dispatch id fields → s.consumer who ≠ some name) :
    s'.takenBy name = s.takenBy name := by
  cases h with
  | claim n other g start f hf hc hg h hw =>
    by_cases hn : name = other
    · subst hn
      rcases hw with rfl | ⟨cursor, rfl⟩ <;>
        simp [takenBy, modifyWorker, claimEntries, setGroup, Function.comp_def]
    · simp [takenBy, modifyWorker, claimEntries, setGroup, Function.update_of_ne hn]
  | start id fields other hc =>
    have hn : name ≠ other := by
      intro hn
      exact hstart id fields rfl (hn ▸ hc)
    simp [takenBy, startTask, modifyWorker, Function.update_of_ne hn]
  | discard id other hc =>
    by_cases hn : name = other
    · subst hn
      simp [takenBy, discardId, modifyWorker, Function.comp_def]
    · simp [takenBy, discardId, modifyWorker, Function.update_of_ne hn]
  | _ => rfl

theorem length_of_xautoclaim {n : Int} {es : List StreamEntry}
    (h : s.perform cfg who c (.xautoclaim n) = some ((.ok es : Effect.Reply (.xautoclaim n)), s')) :
    (es.length : Int) ≤ n := by
  simp only [perform] at h
  split at h
  · rename_i other g hc hg
    split at h
    · rename_i hallowed
      have hes : es = (s.claimEntries other g c.claimed).1 := by
        rcases Choice.reply_eq (Option.some.inj h) with ⟨_, hr, _⟩ | ⟨_, hr, _⟩ | ⟨_, hr, _⟩
        · exact Except.ok.inj hr
        all_goals cases hr
      have hle : es.length ≤ c.claimed.length := by
        rw [hes]
        exact List.length_filterMap_le _ _
      simp only [Group.claimAllowed, Bool.and_eq_true, decide_eq_true_eq] at hallowed
      omega
    · cases h
  · cases congrArg Prod.fst (Option.some.inj h)
  · cases h

theorem perform_freeCapacity {n : Effect.Reply .freeCapacity}
    (h : s.perform cfg (.worker name) c .freeCapacity = some (n, s')) :
    s' = s ∧ n = cfg.workerConcurrency - ((s.takenBy name).length : Int) := by
  simp only [perform, consumer, bind, Option.bind_some, Option.bind_eq_some_iff] at h
  obtain ⟨w, hw, h⟩ := h
  obtain ⟨hn, hs⟩ := Prod.mk.inj (Option.some.inj h)
  refine ⟨hs.symm, ?_⟩
  rw [← hn, takenBy, hw]
  rfl

end Sys

/-- The tasks in flight are within the limit, and the pass fits beside them. -/
structure WithinCapacity (cfg : Settings) (name : ConsumerName) (s : Sys) : Prop where
  taken : ((s.takenBy name).length : Int) ≤ max 0 cfg.workerConcurrency
  pass : ∀ p, s.stageOf name = some (.looping p) → p.Fits cfg (s.takenBy name).length

section
variable {cfg : Settings} {s s' : Sys} {a : Act} {name : ConsumerName}

theorem step_taken (h : step cfg s a = some s') (name : ConsumerName) :
    (∃ c p e, a = .resume (.worker name) c ∧ s.stageOf name = some (.looping p) ∧
      p.dispatches = some e ∧ (s'.takenBy name).length = (s.takenBy name).length + 1) ∨
    (s'.takenBy name).length ≤ (s.takenBy name).length := by
  cases Sys.step_cases h with
  | submission id c job p e k r s₁ hsub hnode hperf =>
    right
    apply le_of_eq
    refine congrArg List.length ((Sys.perform_change hperf).taken name fun id fields he => ?_)
    subst he
    cases p <;> cases hnode
  | starting other c w p e k r s₁ hw hstage hnode hperf =>
    right
    rw [Sys.takenBy_setStage]
    apply le_of_eq
    refine congrArg List.length ((Sys.perform_change hperf).taken name fun id fields he => ?_)
    subst he
    cases p <;> cases hnode
  | looping other c w p e k r s₁ hw hstage hnode hperf =>
    rw [Sys.takenBy_setStage]
    by_cases hd : ∃ x, p.dispatches = some x ∧ other = name
    · obtain ⟨x, hd, rfl⟩ := hd
      have hlooping : s.stageOf other = some (.looping p) := by
        rw [Sys.stageOf, hw, Option.map_some, hstage]
      refine .inl ⟨c, p, x, rfl, hlooping, hd, ?_⟩
      cases p with
      | dispatchClaimed x rest =>
        cases hnode
        cases hperf
        rw [Sys.takenBy_startTask hw, List.length_cons]
      | dispatchNew x rest total =>
        cases hnode
        cases hperf
        rw [Sys.takenBy_startTask hw, List.length_cons]
      | _ => cases hd
    · right
      apply le_of_eq
      refine congrArg List.length ((Sys.perform_change hperf).taken name fun id fields he hc => ?_)
      subst he
      apply hd
      have hother : other = name := Option.some.inj hc
      cases p with
      | dispatchClaimed x rest => exact ⟨x, rfl, hother⟩
      | dispatchNew x rest total => exact ⟨x, rfl, hother⟩
      | _ => cases hnode
  | task t c other id m p w q e k r s₁ htask hw hstage hnode hperf =>
    right
    apply le_of_eq
    refine congrArg List.length ((Sys.perform_change hperf).taken name fun id fields he => ?_)
    subst he
    cases p <;> cases hnode
  | start other hfresh =>
    right
    by_cases hn : name = other
    · subst hn
      simp [Sys.takenBy]
    · simp [Sys.takenBy, Function.update_of_ne hn]
  | pass other w hw hstage => exact .inr (le_of_eq (congrArg List.length (s.takenBy_setStage other _)))
  | crash other w hw => exact .inr (le_of_eq (congrArg List.length (s.takenBy_setStage other _)))
  | reap t τ htask hdone =>
    right
    by_cases hn : name = τ.consumer
    · subst hn
      cases hw : s.workers τ.consumer with
      | none => simp [Sys.takenBy, hw]
      | some w => simpa [Sys.takenBy, hw] using List.length_filter_le _ w.inFlight
    · simp [Sys.takenBy, Function.update_of_ne hn]
  | _ => exact .inr le_rfl

theorem WithinCapacity.next {c : Choice} {p : PassPoint} {e : Effect} {k : e.Reply → PassPoint}
    {r : e.Reply} {s₁ : Sys} (hs : WithinCapacity cfg name s)
    (hstage : s.stageOf name = some (.looping p)) (hnode : p.node cfg.toBrokerSettings = .await e k)
    (hperf : s.perform cfg (.worker name) c e = some (r, s₁)) {taken : Nat}
    (htaken : taken ≤ (s.takenBy name).length ∨
      ∃ x, p.dispatches = some x ∧ taken = (s.takenBy name).length + 1) :
    (k r).Fits cfg taken := by
  have hlimit := hs.taken
  have hfits := hs.pass p hstage
  have quiet : p.dispatches = none → taken ≤ (s.takenBy name).length := by
    intro hnone
    rcases htaken with hle | ⟨x, hd, _⟩
    · exact hle
    · cases hnone.symm.trans hd
  have idle : ∀ {q : PassPoint}, p.dispatches = none → q.asked = none → q.entries = [] →
      q.Fits cfg taken := by
    intro q hnone hasked hentries
    have hle := quiet hnone
    apply PassPoint.fits_of_held hasked
    rw [hentries, List.length_nil]
    omega
  have keep : ∀ {q : PassPoint}, p.dispatches = none → q.asked = none → q.entries = p.entries →
      q.Fits cfg taken := by
    intro q hnone hasked hentries
    have hle := quiet hnone
    have hheld := hfits.held
    apply PassPoint.fits_of_held hasked
    rw [hentries]
    omega
  cases p with
  | reclaimCapacity | readCapacity =>
    cases hnode
    obtain ⟨_, rfl⟩ := Sys.perform_freeCapacity hperf
    have hle := quiet rfl
    dsimp only
    split
    · exact idle rfl rfl rfl
    · exact PassPoint.fits_ask rfl rfl (by omega) (by omega)
  | autoclaim n =>
    cases hnode
    have hle := quiet rfl
    cases r with
    | error x => exact idle rfl rfl rfl
    | ok es =>
      have hlength := Sys.length_of_xautoclaim hperf
      obtain ⟨hpos, hn⟩ := hfits.asked n rfl
      apply PassPoint.fits_nextClaimed
      omega
  | read n =>
    cases hnode
    have hle := quiet rfl
    cases r with
    | error x => exact idle rfl rfl rfl
    | ok es =>
      obtain ⟨other, g, _, rfl, _⟩ := Sys.perform_xreadgroup hperf
      have hlength : ((g.unread s.redis.work).take n.toNat).length ≤ n.toNat := by
        rw [List.length_take]
        omega
      obtain ⟨hpos, hn⟩ := hfits.asked n rfl
      apply PassPoint.fits_nextNew
      omega
  | check x rest =>
    cases hnode
    have hle := quiet rfl
    have hheld := hfits.held
    simp only [PassPoint.entries, List.length_cons] at hheld
    change Bool at r
    cases r with
    | true => exact PassPoint.fits_nextClaimed (by omega)
    | false => exact keep rfl rfl rfl
  | query x rest =>
    cases hnode
    cases r with
    | error y => exact idle rfl rfl rfl
    | ok pending =>
      simp only [PassPoint.afterQuery]
      split
      · cases JobMessage.fromFields x.fields with
        | ok m => exact keep rfl rfl rfl
        | error y => exact idle rfl rfl rfl
      · exact keep rfl rfl rfl
  | poison x m n rest =>
    cases hnode
    cases r with
    | error y => cases y <;> exact idle rfl rfl rfl
    | ok n => exact keep rfl rfl rfl
  | poisonAck x rest =>
    cases hnode
    have hle := quiet rfl
    have hheld := hfits.held
    simp only [PassPoint.entries, List.length_cons] at hheld
    cases r with
    | error y => exact idle rfl rfl rfl
    | ok u => exact PassPoint.fits_nextClaimed (by omega)
  | dispatchClaimed x rest =>
    cases hnode
    have hheld := hfits.held
    simp only [PassPoint.entries, List.length_cons] at hheld
    apply PassPoint.fits_nextClaimed
    omega
  | dispatchNew x rest total =>
    cases hnode
    have hheld := hfits.held
    simp only [PassPoint.entries, List.length_cons] at hheld
    apply PassPoint.fits_nextNew
    omega
  | finished outcome => cases hnode

theorem WithinCapacity.init : WithinCapacity cfg name Sys.init where
  taken := by simp [Sys.takenBy, Sys.init]
  pass := by
    intro p hstage
    cases hstage

theorem WithinCapacity.step_others (hs : WithinCapacity cfg name s) (h : step cfg s a = some s')
    (ha : ∀ c p, a = .resume (.worker name) c → s.stageOf name ≠ some (.looping p)) :
    WithinCapacity cfg name s' := by
  have hle : (s'.takenBy name).length ≤ (s.takenBy name).length := by
    rcases step_taken h name with ⟨c, p, _, hc, hstage, _⟩ | hle
    · exact absurd hstage (ha c p hc)
    · exact hle
  have htaken := hs.taken
  refine ⟨by omega, fun p hstage' => ?_⟩
  rcases step_stage h name with hsame | ⟨_, _, hr⟩ | ⟨_, _, hr⟩ | ⟨_, _, _, _, _, _, _, _, _, _, _, hr⟩ |
    ⟨c, q, _, _, _, _, hc, hstage, _⟩ | ⟨_, hr⟩
  · rw [hsame] at hstage'
    exact (hs.pass p hstage').mono hle
  · cases hr.symm.trans hstage'
  · cases hr.symm.trans hstage'
    apply PassPoint.fits_of_held rfl
    simp only [PassPoint.entries, List.length_nil]
    omega
  · cases hr.symm.trans hstage'
  · exact absurd hstage (ha c q hc)
  · cases hr.symm.trans hstage'

theorem WithinCapacity.step (hs : WithinCapacity cfg name s) (h : step cfg s a = some s') :
    WithinCapacity cfg name s' := by
  by_cases ha : ∃ c p, a = .resume (.worker name) c ∧ s.stageOf name = some (.looping p)
  · obtain ⟨c, p, rfl, hstage⟩ := ha
    obtain ⟨e, k, r, s₁, hnode, hperf, _, hstage'⟩ := pass_of_step hstage h
    have htaken : (s'.takenBy name).length ≤ (s.takenBy name).length ∨
        ∃ x, p.dispatches = some x ∧ (s'.takenBy name).length = (s.takenBy name).length + 1 := by
      rcases step_taken h name with ⟨_, q, x, _, hq, hd, hr⟩ | hle
      · cases hstage.symm.trans hq
        exact .inr ⟨x, hd, hr⟩
      · exact .inl hle
    refine ⟨?_, fun q hq => ?_⟩
    · have hheld := (hs.pass p hstage).held
      have hlimit := hs.taken
      rcases htaken with hle | ⟨x, hd, hr⟩
      · omega
      · have hpos := List.length_pos_of_mem (PassPoint.mem_of_dispatches hd)
        omega
    · cases hstage'.symm.trans hq
      exact hs.next hstage hnode hperf htaken
  · exact hs.step_others h fun c p hc hp => ha ⟨c, p, hc, hp⟩

theorem Reaches.withinCapacity {acts : List Act} (h : Reaches cfg acts s) (name : ConsumerName) :
    WithinCapacity cfg name s :=
  Runs.invariant (fun _ _ _ hs _ h => hs.step h) .init (Runs.Along.trivial _ _) h

/-- The tasks of a consumer never exceed its concurrency, a call to claim or to read asks for free
slots, and the entries that a pass still holds have theirs. -/
theorem inFlight_le_concurrency {acts : List Act} (h : Reaches cfg acts s) {w : Worker}
    (hw : s.workers name = some w) :
    (w.inFlight.length : Int) ≤ max 0 cfg.workerConcurrency ∧
    (∀ n, w.stage = .looping (.autoclaim n) ∨ w.stage = .looping (.read n) →
      0 < n ∧ n ≤ cfg.workerConcurrency - (w.inFlight.length : Int)) ∧
    ∀ p, w.stage = .looping p →
      (w.inFlight.length : Int) + p.entries.length ≤ max 0 cfg.workerConcurrency := by
  have hs := h.withinCapacity name
  have htaken : s.takenBy name = w.inFlight := by
    rw [Sys.takenBy, hw]
    rfl
  have hstage : s.stageOf name = some w.stage := by
    rw [Sys.stageOf, hw, Option.map_some]
  refine ⟨htaken ▸ hs.taken, fun n hn => ?_, fun p hp => ?_⟩
  · have hasked : ∃ p : PassPoint, w.stage = .looping p ∧ p.asked = some n := by
      rcases hn with hn | hn
      · exact ⟨_, hn, rfl⟩
      · exact ⟨_, hn, rfl⟩
    obtain ⟨p, hp, hasked⟩ := hasked
    have hfits := (hs.pass p (hstage.trans (congrArg some hp))).asked n hasked
    rw [htaken] at hfits
    exact ⟨hfits.1, by omega⟩
  · have hheld := (hs.pass p (hstage.trans (congrArg some hp))).held
    rwa [htaken] at hheld

end

/-- Two jobs, one slot: the pass reads one entry and starts its task. -/
def oneSlot : List Act := boot 0 ++ submitted 7 ++ submitted 8 ++ readPass 0 1

theorem oneSlot_within : ∃ s w, Reaches { workerConcurrency := 1 } oneSlot s ∧
    s.workers 0 = some w ∧ w.inFlight.length = 1 ∧ (w.inFlight.length : Int) ≤ max 0 1 := by
  obtain ⟨s, hs, hview⟩ := Runs.exec_of_map (step { workerConcurrency := 1 }) Sys.init oneSlot
    (fun s => (s.workers 0).map (·.inFlight.length)) (some 1) (by decide +kernel)
  obtain ⟨w, hw, hlength⟩ := Option.map_eq_some_iff.mp hview
  exact ⟨s, w, hs, hw, hlength, (inFlight_le_concurrency hs hw).1⟩

end InferenceEngine
