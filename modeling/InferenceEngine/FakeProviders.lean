import InferenceEngine.Engine
import InferenceEngine.Library.Dicts
import InferenceEngine.Library.Replays
import Mathlib.Data.List.Lex
import Mathlib.Data.Char

/-!
# The in-process vector store

`FakeVectorStore` of `app/adapters/providers/fake.py`, for a similarity with values in a linear
order, beside an object store that keeps the last write of a key. The search, embedding and
language-model providers are functions of their arguments, which may raise. Each job has an area
of the stores: a namespace and a key.
-/

namespace InferenceEngine

set_option autoImplicit false

open Programs Dicts

/-- What the store keeps under an id: `(values, metadata)`. -/
abbrev StoredVector (V : Type) := V × List (Text × Json)

structure FakeVectorStore (V : Type) where
  namespaces : Dict Text (Dict Text (StoredVector V)) := {}

/-- `xs[:k]`. -/
def sliceTo {α : Type} (xs : List α) (k : Int) : List α :=
  if 0 ≤ k then xs.take k.toNat else xs.take (xs.length - (-k).toNat)

theorem sliceTo_map {α β : Type} (f : α → β) (xs : List α) (k : Int) :
    sliceTo (xs.map f) k = (sliceTo xs k).map f := by
  unfold sliceTo
  split
  · rw [List.map_take]
  · rw [List.map_take, List.length_map]

structure ScoredMatch (S : Type) where
  id : Text
  score : S
  metadata : List (Text × Json)

/-- The order of `key=lambda m: (-m["score"], m["id"])`. -/
def ScoredMatch.KeyLe {S : Type} [LinearOrder S] (a b : ScoredMatch S) : Prop :=
  b.score < a.score ∨ b.score = a.score ∧ a.id ≤ b.id

instance {S : Type} [LinearOrder S] : DecidableRel (ScoredMatch.KeyLe (S := S)) :=
  fun a b => inferInstanceAs (Decidable (b.score < a.score ∨ _ ∧ _))

namespace FakeVectorStore

variable {V S : Type}

/-- `self._ns.get(namespace, {})`. -/
def bucket (store : FakeVectorStore V) (ns : Text) : Dict Text (StoredVector V) :=
  (store.namespaces.get? ns).getD {}

def upsert (store : FakeVectorStore V) (records : List (VectorRecord V)) (ns : Text) :
    FakeVectorStore V where
  namespaces := store.namespaces.set ns ((store.bucket ns).setAll records)

def scored (similarity : V → V → S) (vector : V) (item : Text × StoredVector V) : ScoredMatch S where
  id := item.1
  score := similarity vector item.2.1
  metadata := item.2.2

theorem bucket_upsert (store : FakeVectorStore V) (records : List (VectorRecord V)) (ns ns' : Text) :
    (store.upsert records ns).bucket ns' =
      if ns' = ns then (store.bucket ns).setAll records else store.bucket ns' := by
  unfold bucket upsert
  rw [Dict.get?_set]
  by_cases hns : ns' = ns
  · rw [hns, Function.update_self, if_pos rfl]
    rfl
  · rw [Function.update_of_ne hns, if_neg hns]

theorem upsert_upsert (store : FakeVectorStore V) (records : List (VectorRecord V)) (ns : Text) :
    (store.upsert records ns).upsert records ns = store.upsert records ns := by
  have hbucket : (store.upsert records ns).bucket ns = (store.bucket ns).setAll records := by
    rw [bucket_upsert, if_pos rfl]
  unfold upsert at hbucket ⊢
  rw [hbucket, Dict.setAll_setAll]
  congr 1
  apply Dict.set_get?
  rw [Dict.get?_set, Function.update_self]

section
variable [LinearOrder S]

/-- `query`, with the scores of the matches. -/
def scoredQuery (similarity : V → V → S) (store : FakeVectorStore V) (vector : V) (topK : Int)
    (ns : Text) : List (ScoredMatch S) :=
  sliceTo (((store.bucket ns).items.map (scored similarity vector)).insertionSort ScoredMatch.KeyLe)
    topK

/-- What the pipelines see of a query. -/
def query (similarity : V → V → S) (store : FakeVectorStore V) (vector : V) (topK : Int)
    (ns : Text) : List VectorMatch :=
  (store.scoredQuery similarity vector topK ns).map fun m => { id := m.id, metadata := m.metadata }

theorem scoredQuery_eq {similarity : V → V → S} {store : FakeVectorStore V} {vector : V}
    {topK : Int} {ns : Text} : store.scoredQuery similarity vector topK ns =
      (sliceTo (ranked (fun record => similarity vector record.1) (store.bucket ns)) topK).map
        (scored similarity vector) := by
  unfold scoredQuery ranked
  rw [← sliceTo_map, ← List.map_insertionSort (Before fun record => similarity vector record.1)]
  intro a _ b _
  rfl

theorem query_eq {similarity : V → V → S} {store : FakeVectorStore V} {vector : V} {topK : Int}
    {ns : Text} : store.query similarity vector topK ns =
      (sliceTo (ranked (fun record => similarity vector record.1) (store.bucket ns)) topK).map
        fun item => { id := item.1, metadata := item.2.2 } := by
  unfold query
  rw [scoredQuery_eq, List.map_map]
  rfl

theorem query_congr {similarity : V → V → S} {store store' : FakeVectorStore V} {ns : Text}
    (h : (store.bucket ns).get? = (store'.bucket ns).get?) (vector : V) (topK : Int) :
    store.query similarity vector topK ns = store'.query similarity vector topK ns := by
  rw [query_eq, query_eq, ranked_congr _ h]

end

end FakeVectorStore

structure World (V : Type) where
  vectors : FakeVectorStore V := {}
  objects : Text → Option Object := fun _ => none

/-- Search, embedding and language model, and the similarity of the vector store. -/
structure Providers (V S : Type) where
  search : Text → Int → Except Exn (List SearchResult)
  embed : List Text → Except Exn (List V)
  complete : Text → Int → Except Exn Text
  similarity : V → V → S

section
variable {V S : Type} [LinearOrder S]

def serveFakes (providers : Providers V S) : (call : Call V) → World V → call.Reply × World V
  | .search query n, w => (providers.search query n, w)
  | .embed texts, w => (providers.embed texts, w)
  | .upsert records ns, w => (.ok (), { w with vectors := w.vectors.upsert records ns })
  | .query vector topK ns, w =>
    (.ok (w.vectors.query providers.similarity vector topK ns), w)
  | .complete prompt n, w => (providers.complete prompt n, w)
  | .putObject key data contentType, w =>
    (.ok (), { w with objects := Function.update w.objects key (some { data, contentType }) })

end

namespace World

variable {V S : Type} [LinearOrder S]

def toStores (w : World V) : Stores V where
  vectors ns := (w.vectors.bucket ns).get?
  objects := w.objects

omit [LinearOrder S] in
theorem toStores_upsert (w : World V) (records : List (VectorRecord V)) (ns : Text) :
    ({ w with vectors := w.vectors.upsert records ns } : World V).toStores =
      w.toStores.upsert ns records := by
  have hvectors : (fun ns' => ((w.vectors.upsert records ns).bucket ns').get?) =
      (w.toStores.upsert ns records).vectors := by
    rw [Stores.upsert_vectors]
    funext ns'
    rw [FakeVectorStore.bucket_upsert]
    by_cases hns : ns' = ns
    · rw [hns, if_pos rfl, Function.update_self, Dict.get?_setAll]
      rfl
    · rw [if_neg hns, Function.update_of_ne hns]
      rfl
  have hobjects : w.objects = (w.toStores.upsert ns records).objects := by
    rw [Stores.upsert_objects]
    rfl
  exact congrArg₂ Stores.mk hvectors hobjects

end World

end InferenceEngine
