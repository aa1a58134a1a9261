import InferenceEngine.Engine
import InferenceEngine.Handlers
import InferenceEngine.Library.Conditions
import InferenceEngine.Pending

/-!
# A SUCCESS row points at its own artifact

A pipeline puts under the key of its own job only, and returns a reference only after a put.
The SUCCESS row of the job is written from that reference, and objects are never removed.
-/

namespace InferenceEngine

set_option autoImplicit false

open Programs

variable {V : Type}

/-- A pipeline may put its own artifact only; whether it has is tracked. -/
def putsOwn (V : Type) (cfg : EngineSettings) (job : InferenceJob) :
    Protocol (Call V) Call.Reply Bool where
  allowed
    | .putObject key data _ => key = artifactKey job ∧ IsArtifact cfg.reprs job.id data
    | _ => True
  next
    | .putObject _ _ _, r, stored =>
      match r with
      | .ok () => true
      | .error _ => stored
    | _, _, stored => stored

def ReturnsOwn (cfg : EngineSettings) (job : InferenceJob) (r : Except Exn Text) (stored : Bool) :
    Prop :=
  ∀ ref, r = .ok ref → ref = s3Ref cfg.bucket (artifactKey job) ∧ stored = true

namespace Pipe

variable {cfg : EngineSettings} {job : InferenceJob} {stored : Bool}

def Quiet {α : Type} (cfg : EngineSettings) (job : InferenceJob) (x : Pipe V α) : Prop :=
  ∀ stored (Q : Except Exn α → Bool → Prop), (∀ r, Q r stored) →
    x.run.Keeps (putsOwn V cfg job) stored Q

theorem quiet_ofExcept {α : Type} (x : Except Exn α) : Quiet (V := V) cfg job (ofExcept x) :=
  fun _ _ h => h x

theorem quiet_pure {α : Type} (a : α) : Quiet (V := V) cfg job (pure a) :=
  fun _ _ h => h (.ok a)

theorem quiet_search (query : Text) (n : Int) : Quiet (V := V) cfg job (search query n) :=
  fun _ _ h => ⟨trivial, h⟩

theorem quiet_embed (texts : List Text) : Quiet (V := V) cfg job (embed texts) :=
  fun _ _ h => ⟨trivial, h⟩

theorem quiet_upsert (records : List (VectorRecord V)) (ns : Text) :
    Quiet cfg job (upsert records ns) :=
  fun _ _ h => ⟨trivial, h⟩

theorem quiet_query (vector : V) (topK : Int) (ns : Text) :
    Quiet cfg job (query vector topK ns) :=
  fun _ _ h => ⟨trivial, h⟩

theorem quiet_complete (prompt : Text) (n : Int) : Quiet (V := V) cfg job (complete prompt n) :=
  fun _ _ h => ⟨trivial, h⟩

theorem quiet_unlessEmpty {α β : Type} (xs : List α) (b : β) {call : Pipe V β}
    (h : Quiet cfg job call) : Quiet cfg job (unlessEmpty xs b call) := by
  unfold unlessEmpty
  split
  · exact quiet_pure b
  · exact h

theorem Quiet.bind {α : Type} {x : Pipe V α} {f : α → Pipe V Text} (hx : Quiet cfg job x)
    (hf : ∀ a, (f a).run.Keeps (putsOwn V cfg job) stored (ReturnsOwn cfg job)) :
    (x >>= f).run.Keeps (putsOwn V cfg job) stored (ReturnsOwn cfg job) := by
  refine Program.keeps_exceptBind.mpr (hx stored _ fun r => ?_)
  rcases r with x | a
  · rintro ref ⟨⟩
  · exact hf a

theorem keeps_callPut {key : Text} {data : List UInt8} (contentType : Text)
    (hkey : key = artifactKey job) (hdata : IsArtifact cfg.reprs job.id data) (left : Nat) :
    (callPut key data contentType left).Keeps (putsOwn V cfg job) stored
      fun r stored => r = .ok () → stored = true := by
  have once : ∀ stored, (putOnce key data contentType).Keeps (putsOwn V cfg job) stored
      fun r stored => r = .ok () → stored = true := by
    refine fun stored => ⟨⟨hkey, hdata⟩, fun r => ?_⟩
    rcases r with x | u
    · rintro ⟨⟩
    · exact fun _ => rfl
  induction left generalizing stored with
  | zero => exact once stored
  | succ left ih =>
    refine Program.keeps_bind.mpr ((once stored).mono fun r stored hr => ?_)
    rcases r with x | u
    · cases x with
      | transient msg => exact ih
      | _ => rintro ⟨⟩
    · exact hr

theorem keeps_putBytes {key : Text} {data : List UInt8} (contentType : Text)
    (hkey : key = artifactKey job) (hdata : IsArtifact cfg.reprs job.id data) :
    (putBytes (V := V) cfg key data contentType).run.Keeps (putsOwn V cfg job) stored
      (ReturnsOwn cfg job) := by
  refine Program.keeps_exceptBind.mpr
    ((keeps_callPut contentType hkey hdata _).mono fun r stored hr => ?_)
  rcases r with x | u
  · rintro ref ⟨⟩
  · rintro ref ⟨⟩
    exact ⟨hkey ▸ rfl, hr rfl⟩

end Pipe

section
variable {cfg : EngineSettings} {job : InferenceJob}

theorem isArtifact_ragResult (query answer : Text) (context ids : List Text) :
    IsArtifact cfg.reprs job.id
      (encodeUtf8 (dumps cfg.reprs (.dict (ragResult job query answer context ids)))) :=
  ⟨_, rfl, rfl⟩

theorem isArtifact_embedManifest (docId : Text) (chunks : List Chunk) :
    IsArtifact cfg.reprs job.id
      (encodeUtf8 (dumps cfg.reprs (.dict (embedManifest job docId chunks)))) :=
  ⟨_, rfl, rfl⟩

theorem keeps_ragQueryRun (hty : job.jobType = .ragQuery) (stored : Bool) :
    (ragQueryRun (V := V) cfg job).run.Keeps (putsOwn V cfg job) stored (ReturnsOwn cfg job) := by
  have hkey : resultKey job ".json".toList = artifactKey job := by
    rw [artifactKey, hty]
    rfl
  unfold ragQueryRun
  refine (Pipe.quiet_ofExcept _).bind fun query => ?_
  refine (Pipe.quiet_ofExcept _).bind fun topK => ?_
  refine (Pipe.quiet_search _ _).bind fun snippets => ?_
  refine (Pipe.quiet_unlessEmpty _ _ (Pipe.quiet_embed _)).bind fun vectors => ?_
  refine (Pipe.quiet_ofExcept _).bind fun pairs => ?_
  refine (Pipe.quiet_unlessEmpty _ _ (Pipe.quiet_upsert _ _)).bind fun _ => ?_
  refine (Pipe.quiet_embed _).bind fun embedded => ?_
  refine (Pipe.quiet_ofExcept _).bind fun queryVector => ?_
  refine (Pipe.quiet_unlessEmpty _ _ (Pipe.quiet_query _ _ _)).bind fun hits => ?_
  refine (Pipe.quiet_complete _ _).bind fun answer => ?_
  exact Pipe.keeps_putBytes _ hkey (isArtifact_ragResult _ _ _ _)

theorem keeps_embedDocumentRun (hty : job.jobType = .embedDocument) (stored : Bool) :
    (embedDocumentRun (V := V) cfg job).run.Keeps (putsOwn V cfg job) stored
      (ReturnsOwn cfg job) := by
  have hkey : resultKey job "-manifest.json".toList = artifactKey job := by
    rw [artifactKey, hty]
    rfl
  unfold embedDocumentRun
  refine (Pipe.quiet_ofExcept _).bind fun document => ?_
  refine (Pipe.quiet_ofExcept _).bind fun size => ?_
  refine (Pipe.quiet_ofExcept _).bind fun overlap => ?_
  refine (Pipe.quiet_ofExcept _).bind fun chunks => ?_
  refine (Pipe.quiet_unlessEmpty _ _ (Pipe.quiet_embed _)).bind fun vectors => ?_
  refine (Pipe.quiet_ofExcept _).bind fun pairs => ?_
  refine (Pipe.quiet_unlessEmpty _ _ (Pipe.quiet_upsert _ _)).bind fun _ => ?_
  exact Pipe.keeps_putBytes _ hkey (isArtifact_embedManifest _ _)

/-- A pipeline puts its own artifact only, and returns its reference after a put. -/
theorem keeps_pipeline (cfg : EngineSettings) (job : InferenceJob) (stored : Bool) :
    (pipeline (V := V) cfg job).Keeps (putsOwn V cfg job) stored (ReturnsOwn cfg job) := by
  unfold pipeline
  split
  · exact keeps_ragQueryRun ‹_› stored
  · exact keeps_embedDocumentRun ‹_› stored

end

def PointsToOwn (cfg : EngineSettings) (stores : Stores V) (job : InferenceJob) : Prop :=
  job.resultRef = some (s3Ref cfg.bucket (artifactKey job)) ∧
    (stores.objects (artifactKey job)).isSome = true

/-- What the stores, the pipelines and the copies of the rows have to do with each other. -/
structure OwnArtifacts (cfg : EngineSettings) (e : Engine V) : Prop where
  started : ∀ t, e.running t ≠ none → ∃ name id m p,
    e.sys.tasks t = some ⟨name, id, .handling m p⟩ ∧ p.rank ≤ 7
  objects : ∀ job obj, e.stores.objects (artifactKey job) = some obj →
    IsArtifact cfg.reprs job.id obj.data
  left : ∀ t name id m job, e.sys.tasks t = some ⟨name, id, .handling m (.running job)⟩ →
    ∃ stored, ((e.running t).getD (pipeline cfg job)).Keeps (putsOwn V cfg job) stored
      (ReturnsOwn cfg job) ∧
      (stored = true → (e.stores.objects (artifactKey job)).isSome = true)
  copies : ∀ t name id m seen job,
    e.sys.tasks t = some ⟨name, id, .handling m (.writeSuccess seen job)⟩ →
    PointsToOwn cfg e.stores job
  rows : ∀ j row, e.sys.rows j = some row → row.status = .success → PointsToOwn cfg e.stores row

section
variable {cfg : EngineSettings} {e e' : Engine V} {s s' : Sys}

theorem Answer.perform_objects (c : Answer V) (st : Stores V) (call : Call V) :
    (c.perform st call).2.objects = st.objects ∨
    ∃ key data contentType, call = .putObject key data contentType ∧
      (c.perform st call).2.objects =
        Function.update st.objects key (some ⟨data, contentType⟩) := by
  cases call with
  | upsert records ns => exact .inl (Stores.upsert_objects _ _ _)
  | putObject key data contentType =>
    simp only [perform]
    split
    · exact .inr ⟨key, data, contentType, rfl, rfl⟩
    · exact .inl rfl
  | _ => exact .inl rfl

theorem Answer.perform_objects_isSome (c : Answer V) {st : Stores V} (call : Call V) {key : Text}
    (h : (st.objects key).isSome = true) : ((c.perform st call).2.objects key).isSome = true := by
  rcases c.perform_objects st call with hsame | ⟨key', data, contentType, _, hput⟩
  · rwa [hsame]
  · rw [hput]
    by_cases hkey : key = key'
    · rw [hkey, Function.update_self, Option.isSome_some]
    · rwa [Function.update_of_ne hkey]

theorem TaskPoint.Sound.writeSuccess_of_write {m : JobMessage} {p : TaskPoint}
    {seen job : InferenceJob} (h : p.Sound m) (hw : p.write = some (seen, job))
    (hstatus : job.status = .success) : p = .writeSuccess seen job := by
  cases p <;> cases hw
  case writeRunning =>
    obtain ⟨_, now, h⟩ := h
    obtain ⟨_, rfl⟩ := InferenceJob.markRunning_ok_iff.mp h
    cases hstatus
  case writePending =>
    obtain ⟨_, now, h⟩ := h
    obtain ⟨_, rfl⟩ := InferenceJob.requeue_ok_iff.mp h
    cases hstatus
  case writeFailed =>
    obtain ⟨_, error, now, h⟩ := h
    obtain ⟨_, rfl⟩ := InferenceJob.markFailed_ok_iff.mp h
    cases hstatus
  case writeSuccess => rfl

theorem TaskPoint.running_of_next {cfg : BrokerSettings} {id : Nat} {m : JobMessage}
    {p : TaskPoint} {e : Effect} {k : e.Reply → TaskPoint} {r : e.Reply} {seen job : InferenceJob}
    (hnode : p.node cfg id m = .await e k) (hk : k r = .writeSuccess seen job) :
    p = .running seen := by
  have hlt := rank_next hnode r
  rw [hk] at hlt
  cases p with
  | guard =>
    cases hnode
    rcases r with x | ⟨row, now⟩
    · cases x <;> cases hk
    · simp only [afterGuard] at hk
      split at hk <;> cases hk
  | load =>
    cases hnode
    rcases afterLoad_cases cfg m r with ⟨_, _, _, _, _, hload⟩ | ⟨x, hload, _⟩
    · cases hload.symm.trans hk
    · have hrank := rank_routed cfg m x
      rw [← hload, hk] at hrank
      simp [rank] at hrank
  | writeRunning seen job =>
    cases hnode
    rcases r with x | u
    · have hrank := rank_routed cfg m (.error x)
      have hk : routed cfg m (.error x) = _ := hk
      rw [hk] at hrank
      simp [rank] at hrank
    · cases hk
  | running job =>
    cases hnode
    rcases afterRun_cases cfg m job r with ⟨_, _, _, _, _, _, hrun⟩ | ⟨x, hrun⟩
    · cases hrun.symm.trans hk
      rfl
    · have hrank := rank_routed cfg m x
      rw [← hrun, hk] at hrank
      simp [rank] at hrank
  | _ => simp [rank] at hlt

theorem InferenceJob.pointsToOwn_of_markSuccess {stores : Stores V} {job job' : InferenceJob}
    {ref : Text} {d : Option Int} {now : Time} (h : job.markSuccess ref d now = .ok job')
    (href : ref = s3Ref cfg.bucket (artifactKey job))
    (hobj : (stores.objects (artifactKey job)).isSome = true) : PointsToOwn cfg stores job' := by
  obtain ⟨_, rfl⟩ := InferenceJob.markSuccess_ok_iff.mp h
  exact ⟨congrArg some href, hobj⟩

/-- A handler that reaches its pipeline finds it at its beginning. -/
theorem OwnArtifacts.idle (he : OwnArtifacts cfg e) {t id : Nat} {name : ConsumerName}
    {m : JobMessage} {p : TaskPoint} {f : Effect} {k : f.Reply → TaskPoint} {r : f.Reply}
    {job : InferenceJob} (htask : e.sys.tasks t = some ⟨name, id, .handling m p⟩)
    (hnode : p.node cfg.toBrokerSettings id m = .await f k) (hk : k r = .running job) :
    e.running t = none := by
  by_contra hrun
  obtain ⟨_, _, _, q, hq, hrank⟩ := he.started t hrun
  cases htask.symm.trans hq
  have hlt := TaskPoint.rank_next hnode r
  have hseven : (TaskPoint.running job).rank = 7 := rfl
  rw [hk, hseven] at hlt
  omega

theorem OwnArtifacts.of_sys {a : Act} (hs : Coherent e.sys) (he : OwnArtifacts cfg e)
    (h : InferenceEngine.step cfg.toSettings e.sys a = some s')
    (hret : ∀ t c name id m job, a = .resume (.task t) c →
      e.sys.tasks t = some ⟨name, id, .handling m (.running job)⟩ →
      ∀ ref ms, c.outcome = .ok (ref, ms) → ref = s3Ref cfg.bucket (artifactKey job) ∧
        (e.stores.objects (artifactKey job)).isSome = true) :
    OwnArtifacts cfg { e with sys := s' } := by
  refine ⟨?_, he.objects, ?_, ?_, ?_⟩
  · intro t hrun
    obtain ⟨name, id, m, p, htask, hrank⟩ := he.started t hrun
    rcases step_tasks h with ⟨hr, _⟩ | ⟨_, _, _, _, _, _, _, _, _, _, hr⟩ |
      ⟨u, c, name', id', m', p', f, k, r, s₁, _, hu, hnode, _, _, hr⟩
    · exact ⟨name, id, m, p, hr ▸ htask, hrank⟩
    · have hne : t ≠ e.sys.nextTask := by
        rintro rfl
        cases (hs.fresh _ le_rfl).symm.trans htask
      exact ⟨name, id, m, p, by rwa [hr, Function.update_of_ne hne], hrank⟩
    · by_cases htu : t = u
      · subst htu
        cases htask.symm.trans hu
        have hlt := TaskPoint.rank_next hnode r
        exact ⟨name, id, m, k r, by rw [hr, Function.update_self], by omega⟩
      · exact ⟨name, id, m, p, by rwa [hr, Function.update_of_ne htu], hrank⟩
  · intro t name id m job htask
    rcases handling_of_step h htask with hold | hguard | ⟨c, p, f, k, r, s₁, _, hold, hnode, _, hk⟩
    · exact he.left t name id m job hold
    · cases hguard
    · refine ⟨false, ?_, fun h => by cases h⟩
      rw [he.idle hold hnode hk.symm]
      exact keeps_pipeline cfg job false
  · intro t name id m seen job htask
    rcases handling_of_step h htask with hold | hguard | ⟨c, p, f, k, r, s₁, ha, hold, hnode, hperf, hk⟩
    · exact he.copies t name id m seen job hold
    · cases hguard
    · obtain rfl := TaskPoint.running_of_next hnode hk.symm
      cases hnode
      obtain ⟨hreply, _⟩ := Sys.perform_run hperf
      rcases TaskPoint.afterRun_cases cfg.toBrokerSettings m seen r with
        ⟨ref, d, now, job', hok, hsucc, hrun⟩ | ⟨x, hrun⟩
      · cases hrun.symm.trans hk.symm
        cases hout : c.outcome with
        | error y =>
          rw [hout] at hreply
          cases hok.symm.trans hreply
        | ok out =>
          rw [hout] at hreply
          cases hok.symm.trans hreply
          obtain ⟨href, hobj⟩ := hret t c name id m seen ha hold _ _ hout
          exact InferenceJob.pointsToOwn_of_markSuccess hsucc href hobj
      · have hrank := TaskPoint.rank_routed cfg.toBrokerSettings m x
        have hk : TaskPoint.afterRun cfg.toBrokerSettings m seen r = .writeSuccess seen job := hk.symm
        rw [← hrun, hk] at hrank
        simp [TaskPoint.rank] at hrank
  · intro j row hrow hstatus
    rcases step_rows h with hr | ⟨id, c, job, _, hsub, _, hr⟩ |
      ⟨t, c, name, id, m, p, seen, job, row', _, _, htask, hwrite, _, hr⟩
    · exact he.rows j row (hr ▸ hrow) hstatus
    · by_cases hj : j = job.id
      · subst hj
        rw [hr, Function.update_self] at hrow
        cases hrow
        obtain ⟨_, _, _, _, rfl⟩ := hs.submitted id row _ hsub
        cases hstatus
      · rw [hr, Function.update_of_ne hj] at hrow
        exact he.rows j row hrow hstatus
    · by_cases hj : j = job.id
      · subst hj
        rw [hr, Function.update_self] at hrow
        cases hrow
        have hsound := hs.sound t name id m p htask
        obtain rfl := hsound.writeSuccess_of_write hwrite hstatus
        exact he.copies t name id m seen row htask
      · rw [hr, Function.update_of_ne hj] at hrow
        exact he.rows j row hrow hstatus

theorem OwnArtifacts.call {t : Nat} {c : Answer V} {call : Call V}
    {k : call.Reply → PipelineRun V Text} (he : OwnArtifacts cfg e)
    (hleft : e.pipelineOf cfg t = some (.await call k)) :
    OwnArtifacts cfg
      { e with stores := (c.perform e.stores call).2,
               running := Function.update e.running t (some (k (c.perform e.stores call).1)) } := by
  obtain ⟨name, id, m, job, q, htask, _, hp⟩ := Engine.pipelineOf_eq_some.mp hleft
  obtain ⟨stored, hkeeps, hstored⟩ := he.left t name id m job htask
  rw [← hp] at hkeeps
  obtain ⟨hallowed, hrest⟩ := hkeeps
  have kept : ∀ {key : Text}, (e.stores.objects key).isSome = true →
      ((c.perform e.stores call).2.objects key).isSome = true :=
    fun h => c.perform_objects_isSome call h
  refine ⟨?_, ?_, ?_, ?_, ?_⟩
  · intro u hu
    by_cases htu : u = t
    · subst htu
      exact ⟨name, id, m, .running job, htask, le_rfl⟩
    · simp only [Function.update_of_ne htu] at hu
      exact he.started u hu
  · intro job' obj hobj
    rcases c.perform_objects e.stores call with hsame | ⟨key, data, contentType, rfl, hput⟩
    · exact he.objects job' obj (hsame ▸ hobj)
    · simp only [hput] at hobj
      by_cases hkey : artifactKey job' = key
      · rw [hkey, Function.update_self] at hobj
        cases hobj
        obtain ⟨hown, hdata⟩ := hallowed
        rwa [artifactKey_injective (hkey.trans hown)]
      · rw [Function.update_of_ne hkey] at hobj
        exact he.objects job' obj hobj
  · intro u name' id' m' job' hu
    by_cases htu : u = t
    · subst htu
      cases htask.symm.trans hu
      simp only [Function.update_self, Option.getD_some]
      refine ⟨_, hrest (c.perform e.stores call).1, fun hnext => ?_⟩
      -- the artifact was stored before, or this call has stored it
      cases call with
      | putObject key data contentType =>
        obtain ⟨rfl, _⟩ := hallowed
        simp only [Answer.perform]
        split
        · simp only [Stores.put, Function.update_self, Option.isSome_some]
        · rename_i hraised
          cases hs3 : c.s3Raised with
          | none => simp [hs3] at hraised
          | some x =>
            simp only [putsOwn, Answer.perform, orRaised, hs3] at hnext
            exact hstored hnext
      | _ => exact kept (hstored hnext)
    · simp only [Function.update_of_ne htu]
      obtain ⟨stored', hkeeps', hstored'⟩ := he.left u name' id' m' job' hu
      exact ⟨stored', hkeeps', fun h => kept (hstored' h)⟩
  · intro u name' id' m' seen job' hu
    obtain ⟨href, hobj⟩ := he.copies u name' id' m' seen job' hu
    exact ⟨href, kept hobj⟩
  · intro j row hrow hstatus
    obtain ⟨href, hobj⟩ := he.rows j row hrow hstatus
    exact ⟨href, kept hobj⟩

theorem OwnArtifacts.step {a : EngineAct V} (hs : Coherent e.sys) (he : OwnArtifacts cfg e)
    (h : e.step cfg a = some e') : OwnArtifacts cfg e' := by
  cases Engine.step_cases h with
  | base a s hfree hstep =>
    refine he.of_sys hs hstep ?_
    rintro t c name id m job rfl htask
    simp [Sys.awaitsPipeline, htask] at hfree
  | call t c call k hleft => exact he.call hleft
  | finish t ms now r s hleft hstep =>
    refine he.of_sys hs hstep ?_
    rintro t' c name id m job ha htask ref ms' hout
    cases ha
    obtain ⟨name', id', m', job', q, htask', _, hp⟩ := Engine.pipelineOf_eq_some.mp hleft
    cases htask.symm.trans htask'
    obtain ⟨stored, hkeeps, hstored⟩ := he.left t name id m job htask
    rw [← hp] at hkeeps
    cases r with
    | error x => cases hout
    | ok ref' =>
      cases hout
      obtain ⟨href, hown⟩ := hkeeps _ rfl
      exact ⟨href, hstored hown⟩

theorem OwnArtifacts.init : OwnArtifacts cfg ({} : Engine V) where
  started := fun _ h => absurd rfl h
  objects := by
    intro job obj h
    cases h
  left := by
    intro t name id m job h
    cases h
  copies := by
    intro t name id m seen job h
    cases h
  rows := by
    intro j row h
    cases h

structure Engine.Regular (cfg : EngineSettings) (e : Engine V) : Prop where
  sys : InferenceEngine.Regular cfg.toSettings e.sys
  own : OwnArtifacts cfg e

theorem Engine.Regular.init : Engine.Regular cfg ({} : Engine V) := ⟨.init, .init⟩

theorem Engine.Regular.step {a : EngineAct V} (he : e.Regular cfg) (h : e.step cfg a = some e') :
    e'.Regular cfg := by
  refine ⟨?_, he.own.step he.sys.coherent h⟩
  rcases Engine.sys_of_step h with hsame | ⟨b, hb⟩
  · rw [hsame]
    exact he.sys
  · exact he.sys.step hb

theorem Engine.Reaches.regular {acts : List (EngineAct V)} (h : Engine.Reaches cfg acts e) :
    e.Regular cfg :=
  Runs.invariant (P := fun _ _ => True) (fun _ _ _ he _ h => he.step h) .init (.trivial _ acts) h

/-- Every SUCCESS row points at its own artifact, and puts go to the job's own key. -/
structure ArtifactsOwned (cfg : EngineSettings) (e : Engine V) : Prop where
  success : ∀ j row, e.sys.rows j = some row → row.status = .success →
    row.id = j ∧ row.resultRef = some (s3Ref cfg.bucket (artifactKey row)) ∧
      ∃ obj, e.stores.objects (artifactKey row) = some obj ∧ IsArtifact cfg.reprs j obj.data
  puts : ∀ t key data contentType k,
    e.pipelineOf cfg t = some (.await (.putObject key data contentType) k) →
    ∃ name id m job, e.sys.tasks t = some ⟨name, id, .handling m (.running job)⟩ ∧
      job.id = m.jobId ∧ key = artifactKey job ∧ IsArtifact cfg.reprs m.jobId data
  distinct : ∀ job job', job.id ≠ job'.id → artifactKey job ≠ artifactKey job'

theorem artifactsOwned {acts : List (EngineAct V)} (h : Engine.Reaches cfg acts e) :
    ArtifactsOwned cfg e := by
  obtain ⟨hsys, hown⟩ := h.regular
  refine ⟨?_, ?_, fun job job' hne hkey => hne (artifactKey_injective hkey)⟩
  · intro j row hrow hstatus
    have hid := hsys.coherent.keyed j row hrow
    obtain ⟨href, hobj⟩ := hown.rows j row hrow hstatus
    obtain ⟨obj, hobj⟩ := Option.isSome_iff_exists.mp hobj
    exact ⟨hid, href, obj, hobj, hid ▸ hown.objects row obj hobj⟩
  · intro t key data contentType k hleft
    obtain ⟨name, id, m, job, q, htask, _, hp⟩ := Engine.pipelineOf_eq_some.mp hleft
    obtain ⟨stored, hkeeps, _⟩ := hown.left t name id m job htask
    rw [← hp] at hkeeps
    obtain ⟨⟨hkey, hdata⟩, _⟩ := hkeeps
    have hid : job.id = m.jobId := (hsys.coherent.sound t name id m _ htask).1
    exact ⟨name, id, m, job, htask, hid, hkey, hid ▸ hdata⟩

end

/-- A document is embedded; nothing fails. -/
def embedded : List (EngineAct Nat) :=
  (boot 0 ++ .submit .embedDocument [("text".toList, .str "a".toList)] 7 0 0 ::
    steps (.submission 7) 2 ++ readPass 0 1 ++ steps (.task 0) 3).map .base ++
  [.call 0 { vectors := [5] }, .call 0 {}, .call 0 {}, .finish 0 12 0] ++
  (steps (.task 0) 2).map .base

def plainReprs : Reprs := ⟨fun _ => [], id⟩

theorem embedded_owned : ∃ (e : Engine Nat) (row : InferenceJob),
    Engine.Reaches { reprs := plainReprs } embedded e ∧ e.sys.rows 7 = some row ∧
    row.resultRef = some (s3Ref "aie-artifacts".toList (artifactKey row)) ∧
    ∃ obj, e.stores.objects (artifactKey row) = some obj ∧ IsArtifact plainReprs 7 obj.data := by
  obtain ⟨e, he, hview⟩ := Runs.exec_of_map (Engine.step (V := Nat) { reprs := plainReprs }) {}
    embedded (fun e => (e.sys.rows 7).map (·.status)) (some .success) (by decide +kernel)
  obtain ⟨row, hrow, hstatus⟩ := Option.map_eq_some_iff.mp hview
  obtain ⟨_, href, hobj⟩ := (artifactsOwned he).success 7 row hrow hstatus
  exact ⟨e, row, he, hrow, href, hobj⟩

end InferenceEngine
