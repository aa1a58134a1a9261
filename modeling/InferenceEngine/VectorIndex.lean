import InferenceEngine.OwnArtifacts
import InferenceEngine.Library.LastWrites

/-!
# The index of a document and its latest manifest

Jobs that embed documents, run one after another over a vector store that starts empty. What a
namespace holds is, id by id, what the latest job that wrote the id has left: a job that finds
fewer chunks than an earlier one leaves the surplus ids in place.
-/

namespace InferenceEngine

set_option autoImplicit false

open Programs LastWrites

variable {V : Type}

/-- Every call is answered; the embedding provider computes its batches. -/
def answerOf (embedAll : List Text → List V) : Call V → Answer V
  | .embed texts => { vectors := embedAll texts }
  | _ => {}

def serve (embedAll : List Text → List V) (call : Call V) (st : Stores V) :
    call.Reply × Stores V :=
  (answerOf embedAll call).perform st call

section
variable (cfg : EngineSettings) (embedAll : List Text → List V)

def runJob (st : Stores V) (job : InferenceJob) : Except Exn Text × Stores V :=
  Program.run (serve embedAll) (embedDocumentRun cfg job).run st

def runJobs (st : Stores V) (jobs : List InferenceJob) : Stores V :=
  jobs.foldl (fun st job => (runJob cfg embedAll st job).2) st

def documentChunks (job : InferenceJob) : Except Exn (List Chunk) := do
  let document ← requireStr job.payload "text".toList
  let size ← optionalInt job.payload "chunk_size".toList 512
  let overlap ← optionalInt job.payload "chunk_overlap".toList 64
  chunkText document size overlap

/-- The vectors of the chunks, in one batch. -/
def chunkVectors (chunks : List Chunk) : List V :=
  if chunks.isEmpty then [] else embedAll (chunks.map (·.text))

/-- The chunks that a job embeds, with their vectors, unless it raises. -/
def embeddedChunks (job : InferenceJob) : Except Exn (List (Chunk × V)) := do
  let chunks ← documentChunks job
  zipStrict chunks (chunkVectors embedAll chunks)

end

def manifestObject (cfg : EngineSettings) (job : InferenceJob) (chunks : List Chunk) : Object where
  data := encodeUtf8 (dumps cfg.reprs (.dict (embedManifest job (documentId cfg.reprs job) chunks)))
  contentType := "application/json".toList

section
variable {cfg : EngineSettings} {embedAll : List Text → List V} {st : Stores V}
  {job : InferenceJob}

theorem run_ofExcept {α β : Type} (v : Except Exn α) (f : α → Pipe V β) (st : Stores V) :
    Program.run (serve embedAll) (Pipe.ofExcept v >>= f).run st =
        match v with
        | .error x => (.error x, st)
        | .ok a => Program.run (serve embedAll) (f a).run st := by
  cases v with
  | error x => exact Program.run_exceptBind_error rfl
  | ok a => exact Program.run_exceptBind_ok rfl

theorem run_embedChunks {β : Type} (chunks : List Chunk) (f : List V → Pipe V β) (st : Stores V) :
    Program.run (serve embedAll) (unlessEmpty chunks [] (Pipe.embed (chunks.map (·.text))) >>= f).run st =
        Program.run (serve embedAll) (f (chunkVectors embedAll chunks)).run st := by
  refine Program.run_exceptBind_ok ?_
  unfold unlessEmpty chunkVectors
  split <;> rfl

theorem run_upsertRecords {β : Type} (ns : Text) (records : List (VectorRecord V))
    (f : Unit → Pipe V β) (st : Stores V) :
    Program.run (serve embedAll) (unlessEmpty records () (Pipe.upsert records ns) >>= f).run st =
        Program.run (serve embedAll) (f ()).run (st.upsert ns records) := by
  refine Program.run_exceptBind_ok ?_
  unfold unlessEmpty
  cases records <;> rfl

theorem run_putBytes (key : Text) (data : List UInt8) (contentType : Text) (st : Stores V) :
    Program.run (serve embedAll) (putBytes cfg key data contentType).run st =
        (.ok (s3Ref cfg.bucket key), st.put key ⟨data, contentType⟩) := by
  refine Program.run_exceptBind_ok (a := ()) ?_
  cases cfg.retryMaxAttempts - 1 <;> rfl

/-- A completed job has stored its records and its manifest; one that raises has stored
nothing. -/
theorem runJob_eq : runJob cfg embedAll st job =
    match embeddedChunks embedAll job with
    | .error x => (.error x, st)
    | .ok pairs =>
      (.ok (s3Ref cfg.bucket (resultKey job "-manifest.json".toList)),
        (st.upsert (documentNamespace (documentId cfg.reprs job))
          (chunkRecords (documentId cfg.reprs job) pairs)).put
          (resultKey job "-manifest.json".toList) (manifestObject cfg job (pairs.map (·.1)))) := by
  unfold runJob embedDocumentRun embeddedChunks documentChunks
  rw [run_ofExcept]
  cases requireStr job.payload "text".toList with
  | error x => rfl
  | ok document =>
    dsimp only
    rw [run_ofExcept]
    cases optionalInt job.payload "chunk_size".toList 512 with
    | error x => rfl
    | ok size =>
      dsimp only
      rw [run_ofExcept]
      cases optionalInt job.payload "chunk_overlap".toList 64 with
      | error x => rfl
      | ok overlap =>
        dsimp only
        rw [run_ofExcept]
        simp only [bind, Except.bind]
        cases chunkText document size overlap with
        | error x => rfl
        | ok chunks =>
          refine (run_embedChunks _ _ _).trans ((run_ofExcept _ _ _).trans ?_)
          cases hpairs : zipStrict chunks (chunkVectors embedAll chunks) with
          | error x => simp only [hpairs]
          | ok pairs =>
            obtain ⟨hfst, _⟩ := zipStrict_ok hpairs
            simp only [hpairs, hfst]
            exact (run_upsertRecords _ _ _ _).trans (run_putBytes _ _ _ _)

end

/-! ### What the jobs leave in the index -/

def indexRecords (cfg : EngineSettings) (embedAll : List Text → List V) (job : InferenceJob) :
    List (VectorRecord V) :=
  match embeddedChunks embedAll job with
  | .ok pairs => chunkRecords (documentId cfg.reprs job) pairs
  | .error _ => []

def wroteRecord (cfg : EngineSettings) (embedAll : List Text → List V) (job : InferenceJob)
    (at_ : Text × Text) : Option (V × List (Text × Json)) :=
  if documentId cfg.reprs job = at_.1 then (indexRecords cfg embedAll job).lookup at_.2 else none

/-- The number of chunks of a completed job, zero when the job has raised. -/
def chunkCount (embedAll : List Text → List V) (job : InferenceJob) : Nat :=
  match embeddedChunks embedAll job with
  | .ok pairs => pairs.length
  | .error _ => 0

section
variable {cfg : EngineSettings} {embedAll : List Text → List V} {st : Stores V}
  {job : InferenceJob}

theorem chunkId_injective (d : Text) : Function.Injective (chunkId d) := by
  intro i i' h
  simp only [chunkId, List.append_right_inj] at h
  exact Int.ofNat_inj.mp (intText_injective h)

theorem documentNamespace_injective : Function.Injective documentNamespace := by
  intro d d' h
  simpa only [documentNamespace, List.append_right_inj] using h

theorem documentChunks_indices {chunks : List Chunk} (h : documentChunks job = .ok chunks) :
    chunks.map (·.index) = List.range chunks.length := by
  obtain ⟨document, _, h⟩ := except_bind_ok.mp h
  obtain ⟨size, _, h⟩ := except_bind_ok.mp h
  obtain ⟨overlap, _, h⟩ := except_bind_ok.mp h
  exact chunkText_indices h

theorem embeddedChunks_ok {pairs : List (Chunk × V)} (h : embeddedChunks embedAll job = .ok pairs) :
    documentChunks job = .ok (pairs.map (·.1)) ∧
      pairs.map (·.2) = chunkVectors embedAll (pairs.map (·.1)) ∧
      pairs.map (·.1.index) = List.range pairs.length := by
  obtain ⟨chunks, hchunks, h⟩ := except_bind_ok.mp h
  obtain ⟨rfl, hsnd⟩ := zipStrict_ok h
  have hindices := documentChunks_indices hchunks
  rw [List.map_map, List.length_map] at hindices
  exact ⟨hchunks, hsnd, hindices⟩

theorem chunkRecords_eq {pairs : List (Chunk × V)} (d : Text)
    (h : pairs.map (·.1.index) = List.range pairs.length) :
    chunkRecords d pairs = pairs.mapIdx fun i pair => (chunkId d i, pair.2, chunkMetadata pair.1) := by
  refine List.ext_getElem (by simp [chunkRecords]) fun i hi _ => ?_
  have hlt : i < pairs.length := by simpa [chunkRecords] using hi
  have hindex : pairs[i].1.index = i := by
    have hget := congrArg (·[i]?) h
    simpa [hlt] using hget
  simp [chunkRecords, hindex]

theorem chunkRecords_keys {pairs : List (Chunk × V)} (d : Text)
    (h : pairs.map (·.1.index) = List.range pairs.length) :
    (chunkRecords d pairs).map (·.1) = (List.range pairs.length).map (chunkId d) := by
  rw [← h]
  simp [chunkRecords, Function.comp_def]

theorem nodup_chunkRecords {pairs : List (Chunk × V)} (d : Text)
    (h : pairs.map (·.1.index) = List.range pairs.length) :
    ((chunkRecords d pairs).map (·.1)).Nodup := by
  rw [chunkRecords_keys d h]
  exact List.nodup_range.map (chunkId_injective d)

/-- A job overwrites the ids that it writes and leaves the others as they are. -/
theorem vectors_runJob (st : Stores V) (job : InferenceJob) (at_ : Text × Text) :
    (runJob cfg embedAll st job).2.vectors (documentNamespace at_.1) at_.2 =
      (wroteRecord cfg embedAll job at_).or (st.vectors (documentNamespace at_.1) at_.2) := by
  obtain ⟨d, id⟩ := at_
  rw [runJob_eq]
  unfold wroteRecord indexRecords
  cases hpairs : embeddedChunks embedAll job with
  | error x => simp
  | ok pairs =>
    obtain ⟨_, _, hindices⟩ := embeddedChunks_ok hpairs
    simp only [Stores.put, Stores.upsert_vectors]
    by_cases hd : documentId cfg.reprs job = d
    · subst hd
      rw [Function.update_self, if_pos rfl]
      exact writeAll_apply (nodup_chunkRecords _ hindices) _ _
    · have hns : documentNamespace d ≠ documentNamespace (documentId cfg.reprs job) :=
        fun h => hd (documentNamespace_injective h).symm
      rw [Function.update_of_ne hns, if_neg hd]
      rfl

/-- After any jobs, the index holds the latest record of every id. -/
theorem vectors_runJobs (cfg : EngineSettings) (embedAll : List Text → List V)
    (objects : Text → Option Object) (jobs : List InferenceJob) (at_ : Text × Text) :
    (runJobs cfg embedAll { objects } jobs).vectors (documentNamespace at_.1) at_.2 =
      latest (wroteRecord cfg embedAll) jobs at_ := by
  have hview := view_foldl (wroteRecord cfg embedAll)
    (fun st job => (runJob cfg embedAll st job).2)
    (fun st at_ => st.vectors (documentNamespace at_.1) at_.2)
    (fun st job at_ => vectors_runJob st job at_) { objects } jobs at_
  rwa [Option.or_none] at hview

theorem wroteRecord_isSome_iff (d id : Text) :
    (wroteRecord cfg embedAll job (d, id)).isSome = true ↔
      documentId cfg.reprs job = d ∧ ∃ i < chunkCount embedAll job, id = chunkId d i := by
  unfold wroteRecord indexRecords chunkCount
  by_cases hd : documentId cfg.reprs job = d
  · subst hd
    cases hpairs : embeddedChunks embedAll job with
    | error x => simp
    | ok pairs =>
      obtain ⟨_, _, hindices⟩ := embeddedChunks_ok hpairs
      have hkeys := chunkRecords_keys (documentId cfg.reprs job) hindices
      have hmem : (∃ p ∈ chunkRecords (documentId cfg.reprs job) pairs, (id == p.1) = true) ↔
          id ∈ (chunkRecords (documentId cfg.reprs job) pairs).map (·.1) := by
        simp only [List.mem_map, beq_iff_eq]
        simp only [eq_comm]
      rw [if_pos rfl, List.lookup_isSome_iff, hmem, hkeys]
      simp only [List.mem_map, List.mem_range, true_and, eq_comm]
  · simp [hd]

theorem wroteRecord_chunk {pairs : List (Chunk × V)} (h : embeddedChunks embedAll job = .ok pairs)
    (i : Nat) : wroteRecord cfg embedAll job
        (documentId cfg.reprs job, chunkId (documentId cfg.reprs job) i) =
      pairs[i]?.map fun pair => (pair.2, chunkMetadata pair.1) := by
  obtain ⟨_, _, hindices⟩ := embeddedChunks_ok h
  unfold wroteRecord indexRecords
  rw [h, if_pos rfl]
  simp only [chunkRecords_eq _ hindices]
  exact lookup_mapIdx (chunkId_injective _) (fun pair : Chunk × V => (pair.2, chunkMetadata pair.1))
    pairs i

end

/-! ### The index and the manifest -/

def Json.field (key : Text) : Json → Option Json
  | .dict kvs => kvs.lookup key
  | _ => none

def manifestEntries (manifest : List (Text × Json)) : List Json :=
  match manifest.lookup "chunks".toList with
  | some (.list entries) => entries
  | _ => []

/-- Under the id of each chunk of the manifest stand its vector and the offsets of its entry. -/
structure AgreesWith (d : Text) (manifest : List (Text × Json)) (vectors : List V)
    (st : Stores V) : Prop where
  count : manifest.lookup "chunk_count".toList = some (.int vectors.length)
  entries : (manifestEntries manifest).length = vectors.length
  stored : ∀ i v entry, vectors[i]? = some v → (manifestEntries manifest)[i]? = some entry →
    ∃ metadata, st.vectors (documentNamespace d) (chunkId d i) = some (v, metadata) ∧
      metadata.lookup "chunk_index".toList = entry.field "index".toList ∧
      metadata.lookup "start".toList = entry.field "start".toList ∧
      metadata.lookup "end".toList = entry.field "end".toList

section
variable {cfg : EngineSettings} {embedAll : List Text → List V} {job : InferenceJob}

theorem embedManifest_count (d : Text) (chunks : List Chunk) :
    (embedManifest job d chunks).lookup "chunk_count".toList = some (.int chunks.length) := rfl

theorem manifestEntries_embedManifest (d : Text) (chunks : List Chunk) :
    manifestEntries (embedManifest job d chunks) = chunks.map chunkEntry := rfl

theorem chunkMetadata_agrees (c : Chunk) :
    (chunkMetadata c).lookup "chunk_index".toList = (chunkEntry c).field "index".toList ∧
    (chunkMetadata c).lookup "start".toList = (chunkEntry c).field "start".toList ∧
    (chunkMetadata c).lookup "end".toList = (chunkEntry c).field "end".toList := ⟨rfl, rfl, rfl⟩

theorem indexAgrees {objects : Text → Option Object} {jobs : List InferenceJob} {ref : Text}
    (h : (runJob cfg embedAll (runJobs cfg embedAll { objects } jobs) job).1 = .ok ref) :
    ∃ chunks, documentChunks job = .ok chunks ∧
      (runJobs cfg embedAll { objects } (jobs ++ [job])).objects
        (resultKey job "-manifest.json".toList) = some (manifestObject cfg job chunks) ∧
      AgreesWith (documentId cfg.reprs job) (embedManifest job (documentId cfg.reprs job) chunks)
        (chunkVectors embedAll chunks) (runJobs cfg embedAll { objects } (jobs ++ [job])) ∧
      ∀ id, ((runJobs cfg embedAll { objects } (jobs ++ [job])).vectors
          (documentNamespace (documentId cfg.reprs job)) id).isSome = true ↔
        ∃ other ∈ jobs ++ [job], documentId cfg.reprs other = documentId cfg.reprs job ∧
          ∃ i < chunkCount embedAll other, id = chunkId (documentId cfg.reprs job) i := by
  rw [runJob_eq] at h
  cases hpairs : embeddedChunks embedAll job with
  | error x =>
    rw [hpairs] at h
    cases h
  | ok pairs =>
    obtain ⟨hchunks, hvectors, _⟩ := embeddedChunks_ok hpairs
    have hlength : (chunkVectors embedAll (pairs.map (·.1))).length = pairs.length := by
      rw [← hvectors, List.length_map]
    refine ⟨pairs.map (·.1), hchunks, ?_, ⟨?_, ?_, ?_⟩, ?_⟩
    · rw [runJobs, List.foldl_append, List.foldl_cons, List.foldl_nil, runJob_eq, hpairs]
      exact Function.update_self _ _ _
    · rw [embedManifest_count, hlength, List.length_map]
    · rw [manifestEntries_embedManifest, hlength, List.length_map, List.length_map]
    · intro i v entry hv hentry
      rw [← hvectors, List.getElem?_map] at hv
      obtain ⟨pair, hpair, rfl⟩ := Option.map_eq_some_iff.mp hv
      rw [manifestEntries_embedManifest, List.getElem?_map, List.getElem?_map, hpair] at hentry
      cases hentry
      refine ⟨chunkMetadata pair.1, ?_, chunkMetadata_agrees pair.1⟩
      have hlatest := vectors_runJobs cfg embedAll objects (jobs ++ [job])
        (documentId cfg.reprs job, chunkId (documentId cfg.reprs job) i)
      rw [latest_append_singleton, wroteRecord_chunk hpairs, hpair] at hlatest
      exact hlatest
    · intro id
      have hlatest := vectors_runJobs cfg embedAll objects (jobs ++ [job])
        (documentId cfg.reprs job, id)
      rw [hlatest, latest_isSome_iff]
      simp only [wroteRecord_isSome_iff]

end

/-! ### A document that has become shorter -/

/-- A job that embeds a document character by character. -/
def embedJob (id : UUID) (text : Text) : InferenceJob :=
  .new .embedDocument [("text".toList, .str text), ("document_id".toList, .str "d".toList),
    ("chunk_size".toList, .int 1), ("chunk_overlap".toList, .int 0)] id 0 0

def longIndex : Stores Nat :=
  runJobs { reprs := plainReprs } (·.map List.length) {} [embedJob 1 "abc".toList]

theorem shortened_agrees : ∃ chunks,
    documentChunks (embedJob 2 "a".toList) = .ok chunks ∧
    AgreesWith "d".toList (embedManifest (embedJob 2 "a".toList) "d".toList chunks)
      (chunkVectors (·.map List.length) chunks)
      (runJobs { reprs := plainReprs } (·.map List.length) {}
        ([embedJob 1 "abc".toList] ++ [embedJob 2 "a".toList])) := by
  have hdone : (runJob { reprs := plainReprs } (·.map List.length) longIndex
      (embedJob 2 "a".toList)).1.toOption.isSome = true := by decide +kernel
  cases hrun : (runJob { reprs := plainReprs } (·.map List.length) longIndex
      (embedJob 2 "a".toList)).1 with
  | error x =>
    rw [hrun] at hdone
    cases hdone
  | ok ref =>
    obtain ⟨chunks, hchunks, _, hagrees, _⟩ := indexAgrees hrun
    exact ⟨chunks, hchunks, hagrees⟩

/-- Two ids of the longer document are still there. -/
theorem shortened_surplus :
    (runJob { reprs := plainReprs } (·.map List.length) longIndex
      (embedJob 2 "a".toList)).1.toOption.isSome = true ∧
    ¬ ∀ id, ((runJob { reprs := plainReprs } (·.map List.length) longIndex
        (embedJob 2 "a".toList)).2.vectors (documentNamespace "d".toList) id).isSome = true ↔
      ∃ i < chunkCount (V := Nat) (·.map List.length) (embedJob 2 "a".toList),
        id = chunkId "d".toList i := by
  refine ⟨by decide +kernel, fun h => ?_⟩
  have hstored : ((runJob { reprs := plainReprs } (·.map List.length) longIndex
      (embedJob 2 "a".toList)).2.vectors (documentNamespace "d".toList)
        (chunkId "d".toList 1)).isSome = true := by decide +kernel
  have hcount : chunkCount (V := Nat) (·.map List.length) (embedJob 2 "a".toList) = 1 := by
    decide +kernel
  obtain ⟨i, hi, hid⟩ := (h (chunkId "d".toList 1)).mp hstored
  have hone := chunkId_injective "d".toList hid
  omega

end InferenceEngine
