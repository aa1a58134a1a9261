import InferenceEngine.CallOrder
import InferenceEngine.FakeProviders
import InferenceEngine.Library.Replays

/-!
# An execution may be cut off and repeated

Over providers that are functions of their arguments, a pipeline that is started again repeats
its calls to no effect: what it has upserted is upserted once more, and its query finds the
namespace as it was.
-/

namespace InferenceEngine

set_option autoImplicit false

open Programs

variable {V S : Type} [LinearOrder S]
variable {cfg : EngineSettings} {job : InferenceJob} {providers : Providers V S}

section
variable {g : Progress} {p : PipelineRun V Text} {w w' : World V}

theorem eq_of_stored (hp : p.Obeys (callOrder V cfg job) g StoredIfOk) (hg : g.Sound)
    (hstored : g.stored ≠ none) (h : Program.Visits (serveFakes providers) p w w') : w' = w := by
  cases h with
  | here => rfl
  | next h => exact absurd (hp.1.1.stored hg) hstored

theorem vectors_of_upserted (hp : p.Obeys (callOrder V cfg job) g StoredIfOk)
    (hrank : Site.upsert.rank ≤ g.rank) (h : Program.Visits (serveFakes providers) p w w') :
    w'.vectors = w.vectors := by
  induction h generalizing g with
  | here p w => rfl
  | @next call k w w' h ih =>
    have hlater : Site.upsert.rank < (g.siteOf call).rank := by
      rcases hp.1.1 with hlt | ⟨hput, -, -⟩
      · omega
      · rw [hput]
        decide
    have hrest := ih (hp.2 _) (by
      rw [callOrder, Progress.next_rank]
      omega)
    rw [hrest]
    cases call with
    | upsert records ns => exact absurd hlater (Nat.lt_irrefl 3)
    | _ => rfl

theorem lasting_of_obeys (hp : p.Obeys (callOrder V cfg job) g StoredIfOk) (hg : g.Sound)
    (w : World V) : p.Lasting (serveFakes providers) w := by
  induction p generalizing g w with
  | pure r => trivial
  | await call k ih =>
    refine ⟨fun t ht => ?_, ih _ (hp.2 _) (hg.next hp.1.1 _) _⟩
    cases call with
    | upsert records ns =>
      have hvectors : t.vectors = w.vectors.upsert records ns :=
        vectors_of_upserted (hp.2 (.ok ())) (Nat.le_refl 3) ht
      have hagain : t.vectors.upsert records ns = t.vectors := by
        rw [hvectors, FakeVectorStore.upsert_upsert]
      simp only [serveFakes, hagain]
    | query vector topK ns =>
      have hvectors : t.vectors = w.vectors :=
        vectors_of_upserted (hp.2 _) (Nat.le_add_left 3 2) ht
      simp only [serveFakes, hvectors]
    | putObject key data contentType =>
      have hnext := hg.next hp.1.1 (serveFakes providers (.putObject key data contentType) w).1
      have hsame := eq_of_stored (hp.2 (.ok ())) hnext (Option.some_ne_none _) ht
      rw [hsame]
      simp only [serveFakes, Function.update_idem]
    | _ => rfl

/-- A complete execution after any number of executions that were cut off returns what it returns
without them, and leaves the same in both stores. -/
theorem reexecution_idempotent (cfg : EngineSettings) (job : InferenceJob)
    (providers : Providers V S) (w : World V) (cuts : List Nat) :
    (pipeline cfg job).run (serveFakes providers)
        ((pipeline cfg job).retried (serveFakes providers) cuts w) =
      (pipeline cfg job).run (serveFakes providers) w :=
  (lasting_of_obeys (orderly_pipeline cfg job) .init w).run_retried cuts

end

end InferenceEngine
