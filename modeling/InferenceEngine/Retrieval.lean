import InferenceEngine.FakeProviders

/-!
# What the in-process vector store answers

A history of upserts leaves, in each namespace, the last triple written under each id. A query
ranks these, whatever the order in which they have come.
-/

namespace InferenceEngine

set_option autoImplicit false

open Dicts LastWrites

structure Upsert (V : Type) where
  vectors : List (VectorRecord V)
  ns : Text

/-- The triples that the calls write into a namespace, in order. -/
def writtenInto {V : Type} (history : List (Upsert V)) (ns : Text) : List (VectorRecord V) :=
  (history.filter fun call => call.ns = ns).flatMap (·.vectors)

def lastWritten {V : Type} (history : List (Upsert V)) (ns id : Text) : Option (StoredVector V) :=
  (writtenInto history ns).reverse.lookup id

namespace FakeVectorStore

variable {V S : Type}

def afterCalls (history : List (Upsert V)) : FakeVectorStore V :=
  history.foldl (fun store call => store.upsert call.vectors call.ns) {}

end FakeVectorStore

/-! ### The specification of a query -/

section
variable {V S : Type} [LinearOrder S]

/-- The matches of all records that were written last, the best first. -/
structure RanksLast (score : V → S) (last : Text → Option (StoredVector V))
    (ms : List (ScoredMatch S)) : Prop where
  ids : (ms.map (·.id)).Nodup
  mem : ∀ m, m ∈ ms ↔ ∃ v, last m.id = some (v, m.metadata) ∧ m.score = score v
  ordered : ms.Pairwise fun a b => b.score < a.score ∨ b.score = a.score ∧ a.id < b.id

end

namespace FakeVectorStore

variable {V S : Type}

theorem writtenInto_append_singleton (history : List (Upsert V)) (call : Upsert V) (ns : Text) :
    writtenInto (history ++ [call]) ns =
      writtenInto history ns ++ if call.ns = ns then call.vectors else [] := by
  unfold writtenInto
  rw [List.filter_append, List.flatMap_append]
  by_cases hns : call.ns = ns
  · simp [hns]
  · simp [hns]

theorem bucket_afterCalls (history : List (Upsert V)) (ns : Text) :
    (afterCalls history).bucket ns = ({} : Dict Text (StoredVector V)).setAll
      (writtenInto history ns) := by
  induction history using List.reverseRecOn with
  | nil => rfl
  | append_singleton history call ih =>
    have hcall : (afterCalls (history ++ [call])).bucket ns =
        if ns = call.ns then ((afterCalls history).bucket call.ns).setAll call.vectors
        else (afterCalls history).bucket ns := by
      unfold afterCalls
      rw [List.foldl_append, List.foldl_cons, List.foldl_nil, bucket_upsert]
    rw [hcall, writtenInto_append_singleton]
    by_cases hns : ns = call.ns
    · subst hns
      rw [if_pos rfl, if_pos rfl, ih]
      exact (List.foldl_append ..).symm
    · rw [if_neg hns, if_neg (Ne.symm hns), List.append_nil, ih]

/-- As a map, a namespace holds the last triple of each id. -/
theorem bucket_get? (history : List (Upsert V)) (ns : Text) :
    ((afterCalls history).bucket ns).get? = lastWritten history ns := by
  funext id
  rw [bucket_afterCalls, Dict.get?_setAll, writeAll_eq_lookup]
  exact Option.or_none

variable [LinearOrder S]

theorem ranksLast_ranked (similarity : V → V → S) (history : List (Upsert V)) (vector : V)
    (ns : Text) :
    RanksLast (similarity vector) (lastWritten history ns)
      ((ranked (fun record => similarity vector record.1) ((afterCalls history).bucket ns)).map
        (scored similarity vector)) := by
  constructor
  · rw [List.map_map]
    exact nodup_ranked _ _
  · intro m
    rw [← bucket_get?, List.mem_map]
    constructor
    · rintro ⟨⟨id, v, metadata⟩, hitem, rfl⟩
      exact ⟨v, mem_ranked_iff.mp hitem, rfl⟩
    · rintro ⟨v, hlast, hscore⟩
      refine ⟨(m.id, v, m.metadata), mem_ranked_iff.mpr hlast, ?_⟩
      unfold scored
      rw [← hscore]
  · exact List.pairwise_map.mpr
      (strict_ranked (fun record : StoredVector V => similarity vector record.1) _)

theorem score_le_of_not_returned {similarity : V → V → S} {d : Dict Text (StoredVector V)} {vector : V}
    {k : Nat} {m m' : ScoredMatch S}
    (hm : m ∈ ((ranked (fun record => similarity vector record.1) d).map
      (scored similarity vector)).take k)
    (hm' : m' ∈ (ranked (fun record => similarity vector record.1) d).map (scored similarity vector))
    (hout : m' ∉ ((ranked (fun record => similarity vector record.1) d).map
      (scored similarity vector)).take k) : m'.score ≤ m.score := by
  rw [← List.map_take] at hm hout
  obtain ⟨a, ha, rfl⟩ := List.mem_map.mp hm
  obtain ⟨b, hb, rfl⟩ := List.mem_map.mp hm'
  have hb' : b ∉ (ranked (fun record => similarity vector record.1) d).take k :=
    fun h => hout (List.mem_map_of_mem h)
  exact score_le_of_left_out ha hb hb'

/-- The store refines its specification, and its answers depend on the last triples only. -/
theorem refines_lastWritten (similarity : V → V → S) (history : List (Upsert V)) :
    (∀ (vector : V) (topK : Nat) (ns : Text), ∃ ms,
      RanksLast (similarity vector) (lastWritten history ns) ms ∧
      (afterCalls history).scoredQuery similarity vector topK ns = ms.take (min topK ms.length) ∧
      ∀ m ∈ ms.take (min topK ms.length), ∀ m' ∈ ms, m' ∉ ms.take (min topK ms.length) →
        m'.score ≤ m.score) ∧
    ∀ history' : List (Upsert V),
      (∀ ns id, lastWritten history ns id = lastWritten history' ns id) →
      ∀ (vector : V) (topK : Int) (ns : Text),
        (afterCalls history).scoredQuery similarity vector topK ns =
          (afterCalls history').scoredQuery similarity vector topK ns := by
  constructor
  · intro vector topK ns
    refine ⟨_, ranksLast_ranked similarity history vector ns, ?_, ?_⟩
    · rw [scoredQuery_eq, ← sliceTo_map]
      unfold sliceTo
      rw [if_pos (Int.natCast_nonneg topK), Int.toNat_natCast, ← List.take_eq_take_min]
    · intro m hm m' hm' hout
      exact score_le_of_not_returned hm hm' hout
  · intro history' hsame vector topK ns
    have hmap : ((afterCalls history).bucket ns).get? = ((afterCalls history').bucket ns).get? := by
      rw [bucket_get?, bucket_get?]
      exact funext (hsame ns)
    rw [scoredQuery_eq, scoredQuery_eq, ranked_congr _ hmap]

/-- Two calls of which the second overwrites the first, against the second alone. -/
def overwritten : List (Upsert Nat) :=
  [⟨[("a".toList, 1, [])], "n".toList⟩, ⟨[("b".toList, 3, []), ("a".toList, 2, [])], "n".toList⟩]

theorem refines_lastWritten_overwritten :
    (afterCalls overwritten).scoredQuery (fun v w : Nat => v * w) 3 5 "n".toList =
      (afterCalls (overwritten.drop 1)).scoredQuery (fun v w : Nat => v * w) 3 5 "n".toList := by
  refine (refines_lastWritten (fun v w : Nat => v * w) overwritten).2 _ ?_ 3 5 "n".toList
  intro ns id
  by_cases hns : ns = ['n']
  · by_cases hid : id = ['a']
    · simp [lastWritten, writtenInto, overwritten, hns, hid]
    · have hbeq : (id == ['a']) = false := by simpa using hid
      simp [lastWritten, writtenInto, overwritten, hns, List.lookup_cons, hbeq]
  · simp [lastWritten, writtenInto, overwritten, Ne.symm hns]

end FakeVectorStore

end InferenceEngine
