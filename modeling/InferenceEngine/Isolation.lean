import InferenceEngine.CallOrder
import InferenceEngine.OwnArtifacts
import InferenceEngine.FakeProviders
import InferenceEngine.Library.Pools

/-!
# Jobs do not see one another

Pipelines of any jobs make their calls in any order over the same stores. Each of them reads and
writes its own namespace and key only, and a RAG query shares its namespace with no other job: it
makes the calls, and ends as it does when it runs alone.
-/

namespace InferenceEngine

set_option autoImplicit false

open Programs

variable {V S : Type} [LinearOrder S]

def World.SameAt (ns key : Text) (w w' : World V) : Prop :=
  (w.vectors.bucket ns).get? = (w'.vectors.bucket ns).get? ∧ w.objects key = w'.objects key

def Call.Outside (ns key : Text) : Call V → Prop
  | .upsert _ ns' => ns' ≠ ns
  | .putObject key' _ _ => key' ≠ key
  | _ => True

/-- The namespaces agree, and so do the artifacts once there is one. -/
def SameArea (cfg : EngineSettings) (job : InferenceJob) (g : Progress) (w w₀ : World V) : Prop :=
  (w.vectors.bucket (jobNamespace cfg.reprs job)).get? =
      (w₀.vectors.bucket (jobNamespace cfg.reprs job)).get? ∧
    ∀ obj, g.stored = some obj →
      w.objects (artifactKey job) = some obj ∧ w₀.objects (artifactKey job) = some obj

def jobPool (cfg : EngineSettings) (jobs : Nat → Option InferenceJob) (w : World V) :
    Pool (Call V) Call.Reply (Except Exn Text) (World V) where
  store := w
  programs t := (jobs t).map (pipeline cfg)

section
variable {cfg : EngineSettings} {job other : InferenceJob} {providers : Providers V S}
  {g : Progress} {w w₀ : World V} {call : Call V}

theorem jobNamespace_ne (hty : job.jobType = .ragQuery) (hid : other.id ≠ job.id) :
    jobNamespace cfg.reprs other ≠ jobNamespace cfg.reprs job := by
  unfold jobNamespace
  rw [hty]
  cases other.jobType with
  | ragQuery =>
    intro h
    exact hid (uuidText_injective (List.append_cancel_left h))
  | embedDocument =>
    intro h
    have hhead := congrArg List.head? h
    simp [documentNamespace] at hhead

theorem outside_of_carries (hns : jobNamespace cfg.reprs other ≠ jobNamespace cfg.reprs job)
    (hid : other.id ≠ job.id) (h : Carries cfg other g call) :
    call.Outside (jobNamespace cfg.reprs job) (artifactKey job) := by
  cases call with
  | upsert records ns => exact fun heq => hns (h.1.symm.trans heq)
  | putObject key data contentType => exact fun heq => hid (artifactKey_injective (h.1.symm.trans heq))
  | _ => trivial

theorem sameAt_of_outside {ns key : Text} (h : call.Outside ns key) :
    World.SameAt ns key (serveFakes providers call w).2 w := by
  cases call with
  | upsert records ns' =>
    refine ⟨?_, rfl⟩
    simp only [serveFakes, FakeVectorStore.bucket_upsert]
    rw [if_neg (Ne.symm h)]
  | putObject key' data contentType => exact ⟨rfl, Function.update_of_ne (Ne.symm h) _ _⟩
  | _ => exact ⟨rfl, rfl⟩

/-- What a call replies and leaves in the area of its job depends on that area only. -/
theorem SameArea.own (h : SameArea cfg job g w w₀) (hcall : Carries cfg job g call) :
    (serveFakes providers call w).1 = (serveFakes providers call w₀).1 ∧
      SameArea cfg job (g.next call (serveFakes providers call w₀).1)
        (serveFakes providers call w).2 (serveFakes providers call w₀).2 := by
  cases call with
  | upsert records ns =>
    refine ⟨rfl, ?_, h.2⟩
    obtain ⟨rfl, -⟩ := hcall
    simp only [serveFakes, FakeVectorStore.bucket_upsert, if_pos]
    rw [Dicts.Dict.get?_setAll, Dicts.Dict.get?_setAll, h.1]
  | query vector topK ns =>
    obtain ⟨rfl, -⟩ := hcall
    exact ⟨congrArg Except.ok (FakeVectorStore.query_congr h.1 vector topK), h.1, h.2⟩
  | putObject key data contentType =>
    obtain ⟨rfl, -⟩ := hcall
    refine ⟨rfl, h.1, fun obj hobj => ?_⟩
    cases hobj
    exact ⟨Function.update_self _ _ _, Function.update_self _ _ _⟩
  | _ => exact ⟨rfl, h⟩

theorem SameArea.foreign (h : SameArea cfg job g w w₀)
    (hcall : call.Outside (jobNamespace cfg.reprs job) (artifactKey job)) :
    SameArea cfg job g (serveFakes providers call w).2 w₀ := by
  have hsame : World.SameAt _ _ (serveFakes providers call w).2 w := sameAt_of_outside hcall
  obtain ⟨hns, hkey⟩ := hsame
  exact ⟨hns.trans h.1, fun obj hobj => ⟨hkey.trans (h.2 obj hobj).1, (h.2 obj hobj).2⟩⟩

theorem othersForeign_jobPool {jobs : Nat → Option InferenceJob} {t : Nat}
    (hty : job.jobType = .ragQuery)
    (hothers : ∀ u other, u ≠ t → jobs u = some other → other.id ≠ job.id) (w : World V) :
    OthersForeign (Call.Outside (jobNamespace cfg.reprs job) (artifactKey job))
      (jobPool cfg jobs w) t := by
  intro u p hu hp
  obtain ⟨other, hother, rfl⟩ := Option.map_eq_some_iff.mp hp
  have hid := hothers u other hu hother
  apply (orderly_pipeline cfg other).transfer (M := fun _ _ => True) trivial
  · exact fun g _ call _ hcall => outside_of_carries (jobNamespace_ne hty hid) hid hcall.2
  · exact fun _ _ _ _ _ _ => trivial
  · exact fun _ _ _ _ _ => trivial

/-- Whatever the other jobs call in between, a RAG query makes the calls that it makes alone,
leaves the same in its namespace and ends with the same result and artifact; and its calls leave
the namespaces and keys of the other jobs alone. -/
theorem ragQuery_isolated (cfg : EngineSettings) (providers : Providers V S)
    (jobs : Nat → Option InferenceJob) (t : Nat) (job : InferenceJob) (hjob : jobs t = some job)
    (hty : job.jobType = .ragQuery)
    (hothers : ∀ u other, u ≠ t → jobs u = some other → other.id ≠ job.id) (w w₀ : World V)
    (hsame : (w.vectors.bucket (jobNamespace cfg.reprs job)).get? =
      (w₀.vectors.bucket (jobNamespace cfg.reprs job)).get?)
    (schedule : List Nat) (P : Pool (Call V) Call.Reply (Except Exn Text) (World V))
    (h : Runs.exec (Pool.step (serveFakes providers)) (jobPool cfg jobs w) schedule = some P) :
    P.issuedBy t = (pipeline cfg job).awaited (serveFakes providers) (schedule.count t) w₀ ∧
    (P.store.vectors.bucket (jobNamespace cfg.reprs job)).get? =
      (((pipeline cfg job).advance (serveFakes providers)
        (schedule.count t) w₀).2.vectors.bucket (jobNamespace cfg.reprs job)).get? ∧
    (∀ r, P.programs t = some (.pure r) → ∃ w₁,
      (pipeline cfg job).run (serveFakes providers) w₀ = (r, w₁) ∧
      (P.store.vectors.bucket (jobNamespace cfg.reprs job)).get? =
        (w₁.vectors.bucket (jobNamespace cfg.reprs job)).get? ∧
      ∀ ref, r = .ok ref → ∃ obj, P.store.objects (artifactKey job) = some obj ∧
        w₁.objects (artifactKey job) = some obj) ∧
    ∀ u other, u ≠ t → jobs u = some other → ∀ call ∈ P.issuedBy t, ∀ w,
      World.SameAt (jobNamespace cfg.reprs other) (artifactKey other)
        (serveFakes providers call w).2 w := by
  have hstart : Tracks (callOrder V cfg job) (SameArea cfg job) StoredIfOk (jobPool cfg jobs w) t
      (pipeline cfg job, w₀) [] {} := by
    refine ⟨?_, rfl, orderly_pipeline cfg job, hsame, ?_⟩
    · simp only [jobPool, hjob, Option.map_some]
    · intro obj hobj
      cases hobj
  obtain ⟨g, hend⟩ := noninterference (fun _ _ _ _ hcall hs => hs.own hcall.2)
    (fun _ _ _ _ hcall hs => hs.foreign hcall) hstart (othersForeign_jobPool hty hothers w) h
  refine ⟨hend.issued, hend.same.1, ?_, ?_⟩
  · intro r hr
    have hpure : ((pipeline cfg job).advance (serveFakes providers) (schedule.count t) w₀).1 =
        .pure r := Option.some.inj (hend.program.symm.trans hr)
    refine ⟨_, Program.run_of_advance hpure, hend.same.1, ?_⟩
    intro ref href
    have hobeys := hend.obeys
    rw [hpure] at hobeys
    obtain ⟨obj, hobj⟩ := Option.ne_none_iff_exists'.mp (hobeys ref href)
    exact ⟨obj, hend.same.2 obj hobj⟩
  · intro u other hu hother call hcall w
    have hid := hothers u other hu hother
    rw [hend.issued] at hcall
    obtain ⟨g', -, hcarries⟩ := (orderly_pipeline cfg job).awaited hcall
    exact sameAt_of_outside
      (outside_of_carries (jobNamespace_ne hty hid).symm hid.symm hcarries)

end

/-- Two RAG queries and a document under the id of the first. -/
def neighbours : Nat → Option InferenceJob
  | 0 => some (.new .ragQuery [("query".toList, .str "why".toList)] 1 0 0)
  | 1 => some (.new .ragQuery [("query".toList, .str "how".toList)] 2 0 0)
  | 2 => some (.new .embedDocument [("text".toList, .str "because".toList),
      ("document_id".toList, .str (uuidText 1))] 3 0 0)
  | _ => none

def echoProviders : Providers Nat Nat where
  search query _ := .ok [{ title := [], url := [], snippet := query }]
  embed texts := .ok (texts.map List.length)
  complete prompt _ := .ok prompt
  similarity u v := u * v

theorem neighbours_isolated : ∃ P,
    Runs.exec (Pool.step (serveFakes echoProviders)) (jobPool { reprs := plainReprs } neighbours {})
      [1, 0, 2, 0, 1, 1, 0, 2, 0, 0, 1, 2, 0, 0] = some P ∧
    P.issuedBy 0 = (pipeline { reprs := plainReprs }
      (.new .ragQuery [("query".toList, .str "why".toList)] 1 0 0)).awaited
        (serveFakes echoProviders) 7 ({} : World Nat) := by
  have hsome : (Runs.exec (Pool.step (serveFakes echoProviders))
      (jobPool { reprs := plainReprs } neighbours {})
      [1, 0, 2, 0, 1, 1, 0, 2, 0, 0, 1, 2, 0, 0]).isSome = true := by decide +kernel
  obtain ⟨P, hP⟩ := Option.isSome_iff_exists.mp hsome
  refine ⟨P, hP, ?_⟩
  refine (ragQuery_isolated { reprs := plainReprs } echoProviders neighbours 0 _ rfl rfl ?_ {} {}
    rfl _ P hP).1
  intro u other hu hother
  match u, hu, hother with
  | 1, _, rfl => decide
  | 2, _, rfl => decide

end InferenceEngine
