import InferenceEngine.Pending

/-!
# What is on the streams

Who appends what to the work stream and to the dead-letter stream. Every entry that is on the
work stream, pending, held by a pass or handled by a task was appended once.
-/

namespace InferenceEngine

set_option autoImplicit false

def Appended (s : Sys) (e : StreamEntry) : Prop := ∃ who, .appended who e ∈ s.log

section
variable {cfg : Settings} {s s' : Sys} {a : Act}

theorem Sys.Change.dlq {who : Actor} {c : Choice} {e : Effect}
    (h : Sys.Change cfg who c s e s') :
    s'.redis.dlq = s.redis.dlq ∨
      ∃ fields, e = .xadd .dlq fields ∧ s' = s.appendDlq who fields c.trim := by
  cases h with
  | xaddDlq fields hf h => exact .inr ⟨fields, rfl, rfl⟩
  | _ => exact .inl rfl

/-- What is on the dead-letter stream was there, or a task or a pass has dead-lettered it. -/
theorem step_dlq (h : step cfg s a = some s') {e : StreamEntry} (he : e ∈ s'.redis.dlq.entries) :
    e ∈ s.redis.dlq.entries ∨
    (∃ t c name id m reason error, a = .resume (.task t) c ∧
      s.tasks t = some ⟨name, id, .handling m (.deadLetter reason error)⟩ ∧
      e.fields = deadLetterFields m reason) ∨
    (∃ name c x m n rest, a = .resume (.worker name) c ∧
      s.stageOf name = some (.looping (.poison x m n rest)) ∧
      e.fields = deadLetterFields m (overDeliveredReason n)) := by
  have added : ∀ {fields : Fields} {trim : Nat}, e ∈ (s.redis.dlq.add fields trim).entries →
      e ∈ s.redis.dlq.entries ∨ e.fields = fields := by
    intro fields trim hmem
    rcases List.mem_append.mp (List.mem_of_mem_drop hmem) with hold | hnew
    · exact .inl hold
    · exact .inr (List.mem_singleton.mp hnew ▸ rfl)
  cases Sys.step_cases h with
  | submission id c job p e' k r s₁ hsub hnode hperf
  | starting name c w p e' k r s₁ hw hstage hnode hperf =>
    rcases (Sys.perform_change hperf).dlq with hdlq | ⟨fields, rfl, rfl⟩
    · exact .inl (hdlq ▸ he)
    · cases p <;> cases hnode
  | looping name c w p e' k r s₁ hw hstage hnode hperf =>
    rcases (Sys.perform_change hperf).dlq with hdlq | ⟨fields, rfl, rfl⟩
    · exact .inl (hdlq ▸ he)
    · cases p with
      | poison x m n rest =>
        cases hnode
        rcases added he with hold | hfields
        · exact .inl hold
        · refine .inr (.inr ⟨name, c, x, m, n, rest, rfl, ?_, hfields⟩)
          rw [Sys.stageOf, hw, Option.map_some, hstage]
      | _ => cases hnode
  | task t c name id m p w q e' k r s₁ htask hw hstage hnode hperf =>
    rcases (Sys.perform_change hperf).dlq with hdlq | ⟨fields, rfl, rfl⟩
    · exact .inl (hdlq ▸ he)
    · cases p with
      | deadLetter reason error =>
        cases hnode
        rcases added he with hold | hfields
        · exact .inl hold
        · exact .inr (.inl ⟨t, c, name, id, m, reason, error, rfl, htask, hfields⟩)
      | _ => cases hnode
  | _ => exact .inl he

/-- An append is a first delivery, a retry, or a foreign one. -/
theorem step_appended (h : step cfg s a = some s') {e : StreamEntry} (he : Appended s' e) :
    Appended s e ∨
    (∃ id c job left, a = .resume (.submission id) c ∧
      s.submissions id = some (job, .publishing left) ∧
      e.fields = (JobMessage.firstDelivery job).toFields) ∨
    (∃ t c name id m, a = .resume (.task t) c ∧
      s.tasks t = some ⟨name, id, .handling m .republish⟩ ∧ e.fields = m.nextAttempt.toFields) ∨
    (∃ trim, a = .inject e.fields trim) := by
  obtain ⟨who, hmem⟩ := he
  have added : ∀ {who' : Option Actor} {fields : Fields},
      .appended who e ∈ s.log ++ [.appended who' (Sys.nextEntry s.redis.work fields)] →
      Appended s e ∨ e.fields = fields := by
    intro who' fields hmem
    rcases List.mem_append.mp hmem with hold | hnew
    · exact .inl ⟨who, hold⟩
    · cases List.mem_singleton.mp hnew
      exact .inr rfl
  have old : ∀ {es : List Event} {log : List Event}, log = s.log ++ es →
      (∀ who e, Event.appended who e ∉ es) → .appended who e ∈ log → Appended s e := by
    intro es log hlog hes hmem
    rcases List.mem_append.mp (hlog ▸ hmem) with hold | hnew
    · exact ⟨who, hold⟩
    · exact absurd hnew (hes who e)
  cases Sys.step_cases h with
  | submission id c job p e' k r s₁ hsub hnode hperf =>
    rcases (Sys.perform_change hperf).stream with ⟨_, es, hlog, hes⟩ | ⟨fields, rfl, _, rfl⟩
    · exact .inl (old hlog hes hmem)
    · cases p with
      | publishing left =>
        cases hnode
        rcases added hmem with hold | hfields
        · exact .inl hold
        · exact .inr (.inl ⟨id, c, job, left, rfl, hsub, hfields⟩)
      | _ => cases hnode
  | starting name c w p e' k r s₁ hw hstage hnode hperf
  | looping name c w p e' k r s₁ hw hstage hnode hperf =>
    rcases (Sys.perform_change hperf).stream with ⟨_, es, hlog, hes⟩ | ⟨fields, rfl, _, _⟩
    · exact .inl (old hlog hes hmem)
    · cases p <;> cases hnode
  | task t c name id m p w q e' k r s₁ htask hw hstage hnode hperf =>
    rcases (Sys.perform_change hperf).stream with ⟨_, es, hlog, hes⟩ | ⟨fields, rfl, _, rfl⟩
    · exact .inl (old hlog hes hmem)
    · cases p with
      | republish =>
        cases hnode
        rcases added hmem with hold | hfields
        · exact .inl hold
        · exact .inr (.inr (.inl ⟨t, c, name, id, m, rfl, htask, hfields⟩))
      | _ => cases hnode
  | inject fields trim htrim =>
    rcases added hmem with hold | hfields
    · exact .inl hold
    · exact .inr (.inr (.inr ⟨trim, hfields ▸ rfl⟩))
  | _ => exact .inl ⟨who, hmem⟩

theorem Appended.of_step (h : step cfg s a = some s') {e : StreamEntry} (he : Appended s e) :
    Appended s' e := by
  obtain ⟨who, hmem⟩ := he
  exact ⟨who, log_mem_of_step h hmem⟩

theorem Sys.perform_xautoclaim_ok {who : Actor} {c : Choice} {n : Int} {es : List StreamEntry}
    (h : s.perform cfg who c (.xautoclaim n) = some ((.ok es : Effect.Reply (.xautoclaim n)), s')) :
    ∃ name g, s.consumer who = some name ∧ s.redis.group = some g ∧ c.claimed.Nodup ∧
      (∀ id ∈ c.claimed, s.redis.isPending id = true) ∧
      es = (s.claimEntries name g c.claimed).1 ∧
      s'.redis = (s.claimEntries name g c.claimed).2.redis := by
  simp only [perform] at h
  split at h
  · rename_i name g hc hg
    split at h
    · rename_i hallowed
      simp only [Group.claimAllowed, Bool.and_eq_true, decide_eq_true_eq,
        List.all_eq_true] at hallowed
      rcases Choice.reply_eq (Option.some.inj h) with ⟨hf, hr, hs⟩ | ⟨_, hr, _⟩ | ⟨_, hr, _⟩
      · refine ⟨name, g, hc, hg, hallowed.1.1, ?_, Except.ok.inj hr, ?_⟩
        · intro id hid
          rw [Redis.isPending, hg]
          exact (hallowed.1.2 id hid).2
        · rw [hs, if_pos hf]
          rfl
      all_goals cases hr
    · cases h
  · cases congrArg Prod.fst (Option.some.inj h)
  · cases h

theorem PassPoint.entries_next {name : ConsumerName} {c : Choice} {p : PassPoint} {e : Effect}
    {k : e.Reply → PassPoint} {r : e.Reply} {s₁ : Sys}
    (hnode : p.node cfg.toBrokerSettings = .await e k)
    (hperf : s.perform cfg (.worker name) c e = some (r, s₁)) :
    (k r).entries <:+ p.entries ∨
    (∃ g, s.redis.group = some g ∧ c.claimed.Nodup ∧
      (∀ id ∈ c.claimed, s.redis.isPending id = true) ∧
      (k r).entries = (s.claimEntries name g c.claimed).1) ∨
    (∃ other g n, s.redis.group = some g ∧ s₁ = (s.readGroup other g n).2 ∧
      (k r).entries = (g.unread s.redis.work).take n.toNat) := by
  have none : ∀ {q : PassPoint}, q.entries = [] → q.entries <:+ p.entries := by
    intro q hq
    rw [hq]
    exact List.nil_suffix
  cases p with
  | reclaimCapacity | readCapacity =>
    cases hnode
    change Int at r
    left
    by_cases hn : r ≤ 0
    · simp only [hn, if_true]
      exact none rfl
    · simp only [hn, if_false]
      exact none rfl
  | autoclaim n =>
    cases hnode
    rcases r with y | es
    · exact .inl (none rfl)
    · obtain ⟨name', g, hname, hg, hnodup, hpend, hes, _⟩ := Sys.perform_xautoclaim_ok hperf
      obtain rfl : name = name' := Option.some.inj hname
      refine .inr (.inl ⟨g, hg, hnodup, hpend, ?_⟩)
      rw [← hes]
      exact entries_nextClaimed es
  | check x rest =>
    cases hnode
    change Bool at r
    left
    cases r with
    | false => exact List.suffix_rfl
    | true =>
      simp only [if_true, entries_nextClaimed]
      exact List.suffix_cons x rest
  | query x rest =>
    cases hnode
    left
    rcases r with y | pending
    · exact none rfl
    · simp only [afterQuery]
      split
      · cases JobMessage.fromFields x.fields with
        | ok m => exact List.suffix_rfl
        | error y => exact none rfl
      · exact List.suffix_rfl
  | dispatchClaimed x rest =>
    cases hnode
    simp only [entries_nextClaimed]
    exact .inl (List.suffix_cons x rest)
  | poison x m n rest =>
    cases hnode
    left
    rcases r with y | _
    · cases y <;> exact none rfl
    · exact List.suffix_rfl
  | poisonAck x rest =>
    cases hnode
    left
    rcases r with y | _
    · exact none rfl
    · simp only [afterPoisonAck, entries_nextClaimed]
      exact List.suffix_cons x rest
  | read n =>
    cases hnode
    rcases r with y | es
    · exact .inl (none rfl)
    · obtain ⟨other, g, hg, hes, hs₁⟩ := Sys.perform_xreadgroup hperf
      refine .inr (.inr ⟨other, g, n, hg, hs₁, ?_⟩)
      rw [← hes]
      exact entries_nextNew es.length es
  | dispatchNew x rest total =>
    cases hnode
    simp only [entries_nextNew]
    exact .inl (List.suffix_cons x rest)
  | finished outcome => cases hnode

/-- A pass judges an entry by its counter, and dead-letters the message that it carries. -/
theorem PassPoint.query_of_verdict {p : PassPoint} {e : Effect} {k : e.Reply → PassPoint} {r : e.Reply}
    (hnode : p.node cfg.toBrokerSettings = .await e k) {x : StreamEntry} {m : JobMessage} {n : Nat}
    {rest : List StreamEntry} (hk : k r = .poison x m n rest) :
    p = .query x rest ∧ JobMessage.fromFields x.fields = .ok m := by
  have claims : ∀ es, nextClaimed es ≠ .poison x m n rest := by
    intro es
    cases es <;> simp [nextClaimed]
  have news : ∀ total es, nextNew total es ≠ .poison x m n rest := by
    intro total es
    cases es <;> simp [nextNew]
  cases p with
  | reclaimCapacity | readCapacity =>
    cases hnode
    change Int at r
    by_cases hn : r ≤ 0
    · simp only [hn, if_true] at hk
      cases hk
    · simp only [hn, if_false] at hk
      cases hk
  | autoclaim n =>
    cases hnode
    rcases r with y | es
    · cases hk
    · exact absurd hk (claims es)
  | check y rest =>
    cases hnode
    change Bool at r
    cases r
    · cases hk
    · exact absurd hk (claims rest)
  | query y rest =>
    cases hnode
    rcases r with z | pending
    · cases hk
    · simp only [afterQuery] at hk
      split at hk
      · cases hm : JobMessage.fromFields y.fields with
        | ok m' =>
          simp only [hm] at hk
          cases hk
          exact ⟨rfl, hm⟩
        | error z =>
          simp only [hm] at hk
          cases hk
      · cases hk
  | dispatchClaimed y rest =>
    cases hnode
    exact absurd hk (claims rest)
  | poison y m n rest =>
    cases hnode
    rcases r with z | _
    · cases z <;> cases hk
    · cases hk
  | poisonAck y rest =>
    cases hnode
    rcases r with z | _
    · cases hk
    · exact absurd hk (claims rest)
  | read n =>
    cases hnode
    rcases r with z | es
    · cases hk
    · exact absurd hk (news es.length es)
  | dispatchNew y rest total =>
    cases hnode
    exact absurd hk (news total rest)
  | finished outcome => cases hnode

theorem PassPoint.mem_entries_next {name : ConsumerName} {c : Choice} {p : PassPoint} {e : Effect}
    {k : e.Reply → PassPoint} {r : e.Reply} {s₁ : Sys}
    (hnode : p.node cfg.toBrokerSettings = .await e k)
    (hperf : s.perform cfg (.worker name) c e = some (r, s₁)) :
    ∀ x ∈ (k r).entries, x ∈ p.entries ∨ x ∈ s.redis.work.entries := by
  intro x hx
  rcases entries_next hnode hperf with hsuffix | ⟨g, _, _, _, hes⟩ | ⟨_, g, n, _, _, hes⟩
  · exact .inl (hsuffix.subset hx)
  · rw [hes] at hx
    obtain ⟨id, _, hfind⟩ := List.mem_filterMap.mp hx
    exact .inr (List.mem_of_find?_eq_some hfind)
  · rw [hes] at hx
    exact .inr (List.mem_filter.mp (List.mem_of_mem_take hx)).1

def TaskBody.decoded : TaskBody → Except Exn JobMessage
  | .handling m _ => .ok m
  | .undecodable x => .error x

theorem TaskBody.decoded_of (fields : Fields) :
    (TaskBody.of fields).decoded = JobMessage.fromFields fields := by
  unfold TaskBody.of
  cases JobMessage.fromFields fields <;> rfl

/-- Whatever is on the stream, pending, held or handled was appended. -/
structure AllAppended (s : Sys) : Prop where
  stream : ∀ e ∈ s.redis.work.entries, Appended s e
  pending : ∀ id, s.redis.isPending id = true → ∃ e, Appended s e ∧ e.id = id
  passes : ∀ name p, s.stageOf name = some (.looping p) → ∀ e ∈ p.entries, Appended s e
  tasks : ∀ t τ, s.tasks t = some τ → ∃ e, Appended s e ∧ e.id = τ.entry ∧
    JobMessage.fromFields e.fields = τ.body.decoded
  unique : ∀ e e', Appended s e → Appended s e' → e.id = e'.id → e = e'

theorem AllAppended.init : AllAppended Sys.init where
  stream := by
    intro e he
    cases he
  pending := by
    intro id hid
    simp [Sys.init, Redis.isPending] at hid
  passes := by
    intro name p hstage
    cases hstage
  tasks := by
    intro t τ htask
    cases htask
  unique := by
    rintro e e' ⟨who, he⟩
    cases he

theorem AllAppended.step (hr : Retained cfg s) (hs : AllAppended s) (h : step cfg s a = some s') :
    AllAppended s' where
  stream := by
    intro e he
    rcases step_work h with ⟨hwork, _⟩ | ⟨who, fields, _, hredis, hlog⟩
    · exact (hs.stream e (hwork ▸ he)).of_step h
    · rw [hredis] at he
      rcases List.mem_append.mp (List.mem_of_mem_drop he) with hold | hnew
      · exact (hs.stream e hold).of_step h
      · rw [List.mem_singleton.mp hnew]
        exact ⟨who, hlog ▸ List.mem_append_right _ (List.mem_singleton_self _)⟩
  pending := by
    intro id hid
    rcases pending_of_step h hid with hold | ⟨n, name, g, e, he, rfl, hg, _⟩
    · obtain ⟨e, he, heid⟩ := hs.pending id hold
      exact ⟨e, he.of_step h, heid⟩
    · exact ⟨e, (hs.stream e (List.mem_filter.mp (List.mem_of_mem_take he)).1).of_step h, rfl⟩
  passes := by
    intro name p hstage e he
    rcases step_stage h name with hr | ⟨_, _, hr⟩ | ⟨_, _, hr⟩ | ⟨_, _, _, _, _, _, _, _, _, _, _, hr⟩ |
      ⟨c, q, e', k, r, s₁, _, hold, hnode, hperf, _, hr⟩ | ⟨_, hr⟩
    · exact (hs.passes name p (hr ▸ hstage) e he).of_step h
    · cases hr.symm.trans hstage
    · cases hr.symm.trans hstage
      cases he
    · cases hr.symm.trans hstage
    · cases hr.symm.trans hstage
      rcases PassPoint.mem_entries_next hnode hperf e he with hheld | hstream
      · exact (hs.passes name q hold e hheld).of_step h
      · exact (hs.stream e hstream).of_step h
    · cases hr.symm.trans hstage
  tasks := by
    intro t τ htask
    have old : ∀ τ₀ : Task, s.tasks t = some τ₀ → τ₀.entry = τ.entry →
        τ₀.body.decoded = τ.body.decoded → ∃ e, Appended s' e ∧ e.id = τ.entry ∧
          JobMessage.fromFields e.fields = τ.body.decoded := by
      intro τ₀ hτ₀ hentry hbody
      obtain ⟨e, he, hid, hdecoded⟩ := hs.tasks t τ₀ hτ₀
      exact ⟨e, he.of_step h, hid.trans hentry, hdecoded.trans hbody⟩
    rcases step_tasks h with ⟨hr, _⟩ | ⟨name, c, w, p, e, _, hw, hstage, hd, _, hr⟩ |
      ⟨u, c, name, id, m, p, e, k, r, s₁, _, hold, _, _, _, hr⟩
    · exact old τ (hr ▸ htask) rfl rfl
    · by_cases ht : t = s.nextTask
      · subst ht
        rw [hr, Function.update_self] at htask
        cases htask
        have hlooping : s.stageOf name = some (.looping p) := by
          rw [Sys.stageOf, hw, Option.map_some, hstage]
        have he := hs.passes name p hlooping e (PassPoint.mem_of_dispatches hd)
        exact ⟨e, he.of_step h, rfl, (TaskBody.decoded_of e.fields).symm⟩
      · rw [hr, Function.update_of_ne ht] at htask
        exact old τ htask rfl rfl
    · by_cases ht : t = u
      · subst ht
        rw [hr, Function.update_self] at htask
        cases htask
        exact old _ hold rfl rfl
      · rw [hr, Function.update_of_ne ht] at htask
        exact old τ htask rfl rfl
  unique := by
    have fresh : ∀ e, Appended s e → e.id ≤ s.redis.work.lastId := by
      rintro e ⟨who, he⟩
      exact (hr.appended who e he).2.1
    rcases step_work h with ⟨_, es, hlog, hes⟩ | ⟨who, fields, _, _, hlog⟩
    · have old : ∀ e, Appended s' e → Appended s e := by
        rintro e ⟨who, he⟩
        rcases List.mem_append.mp (hlog ▸ he) with he | he
        · exact ⟨who, he⟩
        · exact absurd he (hes who e)
      exact fun e e' he he' => hs.unique e e' (old e he) (old e' he')
    · have cases' : ∀ e, Appended s' e → Appended s e ∨ e = Sys.nextEntry s.redis.work fields := by
        rintro e ⟨who', he⟩
        rcases List.mem_append.mp (hlog ▸ he) with he | he
        · exact .inl ⟨who', he⟩
        · cases List.mem_singleton.mp he
          exact .inr rfl
      intro e e' he he' hid
      rcases cases' e he with he | rfl
      · rcases cases' e' he' with he' | rfl
        · exact hs.unique e e' he he' hid
        · have hle := fresh e he
          simp only [Sys.nextEntry] at hid
          omega
      · rcases cases' e' he' with he' | rfl
        · have hle := fresh e' he'
          simp only [Sys.nextEntry] at hid
          omega
        · rfl

theorem Reaches.allAppended {acts : List Act} (h : Reaches cfg acts s) : AllAppended s := by
  refine (Runs.invariant (P := fun _ _ => True) (I := fun s => Retained cfg s ∧ AllAppended s) ?_
    ⟨.init, .init⟩ (.trivial _ _) h).2
  rintro s a s' ⟨hr, hs⟩ _ h
  exact ⟨hr.step h, hs.step hr h⟩

end

end InferenceEngine
