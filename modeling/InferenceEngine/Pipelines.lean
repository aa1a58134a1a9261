import InferenceEngine.Artifacts
import InferenceEngine.Chunking
import InferenceEngine.Library.Programs
import InferenceEngine.System

/-!
# The pipelines

`app/services/pipelines.py` over the ports, and `S3ObjectStore.put_bytes` with its retries.
Vectors are an arbitrary type. What a port replies is the environment's; a call that raises
may have taken effect.
-/

namespace InferenceEngine

set_option autoImplicit false

open Programs

/-- The numbers of the broker, the bucket of the artifacts and how values are printed. -/
structure EngineSettings extends Settings where
  bucket : Text := "aie-artifacts".toList
  reprs : Reprs

structure SearchResult where
  title : Text
  url : Text
  snippet : Text

/-- A vector-search hit, without its score. -/
structure VectorMatch where
  id : Text
  metadata : List (Text × Json)

/-- What `upsert` takes: an id, a vector and metadata. -/
abbrev VectorRecord (V : Type) := Text × V × List (Text × Json)

inductive BotoError where
  | connection (text : Text)
  | client (status : Int) (code message : Text)
  | botocore (text : Text)
  | unexpected (repr : Text)

/-- The calls of the provider ports and of the S3 client. -/
inductive Call (V : Type) where
  | search (query : Text) (maxResults : Int)
  | embed (texts : List Text)
  | upsert (records : List (VectorRecord V)) (ns : Text)
  | query (vector : V) (topK : Int) (ns : Text)
  | complete (prompt : Text) (maxNewTokens : Int)
  | putObject (key : Text) (data : List UInt8) (contentType : Text)

def Call.Reply {V : Type} : Call V → Type
  | .search _ _ => Except Exn (List SearchResult)
  | .embed _ => Except Exn (List V)
  | .upsert _ _ => Except Exn Unit
  | .query _ _ _ => Except Exn (List VectorMatch)
  | .complete _ _ => Except Exn Text
  | .putObject _ _ _ => Except BotoError Unit

abbrev PipelineRun (V α : Type) := Program (Call V) Call.Reply (Except Exn α)

abbrev Pipe (V α : Type) := ExceptT Exn (Program (Call V) Call.Reply) α

namespace Pipe

variable {V : Type}

def ofExcept {α : Type} (x : Except Exn α) : Pipe V α := ExceptT.mk (.pure x)

def search (query : Text) (maxResults : Int) : Pipe V (List SearchResult) :=
  ExceptT.mk (.await (.search query maxResults) .pure)

def embed (texts : List Text) : Pipe V (List V) := ExceptT.mk (.await (.embed texts) .pure)

def upsert (records : List (VectorRecord V)) (ns : Text) : Pipe V Unit :=
  ExceptT.mk (.await (.upsert records ns) .pure)

def query (vector : V) (topK : Int) (ns : Text) : Pipe V (List VectorMatch) :=
  ExceptT.mk (.await (.query vector topK ns) .pure)

def complete (prompt : Text) (maxNewTokens : Int) : Pipe V Text :=
  ExceptT.mk (.await (.complete prompt maxNewTokens) .pure)

end Pipe

/-! ### `object_store` -/

def transientClientCodes : List Text :=
  ["InternalError".toList, "ServiceUnavailable".toList, "SlowDown".toList,
   "RequestTimeout".toList, "RequestTimeoutException".toList, "ThrottlingException".toList,
   "TooManyRequests".toList]

def classifyBotocoreError : BotoError → Exn
  | .connection text => .transient ("S3 connection error: ".toList ++ text)
  | .client status code message =>
    let rest := intText status ++ " ".toList ++ code ++ ": ".toList ++ message
    if 500 ≤ status ∨ code ∈ transientClientCodes ∨ status = 429 then
      .transient ("S3 transient ".toList ++ rest)
    else .permanent ("S3 permanent ".toList ++ rest)
  | .botocore text => .permanent ("S3 client error: ".toList ++ text)
  | .unexpected repr => .permanent ("Unexpected S3 error: ".toList ++ repr)

section
variable {V : Type}

/-- One `put_object`, its error translated. -/
def putOnce (key : Text) (data : List UInt8) (contentType : Text) : PipelineRun V Unit :=
  .await (.putObject key data contentType) fun
    | .ok () => .pure (.ok ())
    | .error e => .pure (.error (classifyBotocoreError e))

/-- `_call(put_object, ..)`: `retrying` with `left` tries after the current one. -/
def callPut (key : Text) (data : List UInt8) (contentType : Text) : Nat → PipelineRun V Unit
  | 0 => putOnce key data contentType
  | left + 1 => (putOnce key data contentType).bind fun
    | .error (.transient _) => callPut key data contentType left
    | r => .pure r

def putBytes (cfg : EngineSettings) (key : Text) (data : List UInt8) (contentType : Text) :
    Pipe V Text := do
  ExceptT.mk (callPut key data contentType (cfg.retryMaxAttempts - 1))
  return s3Ref cfg.bucket key

/-! ### `pipelines.py` -/

/-- The message of a payload field of the wrong type. -/
def fieldError (key expected : Text) (typeName : Text) : Exn :=
  .permanent ("payload field '".toList ++ key ++ "' must be ".toList ++ expected ++
    ", got ".toList ++ typeName)

def requireStr (payload : List (Text × Json)) (key : Text) : Except Exn Text :=
  match payload.lookup key with
  | some (.str s) => .ok s
  | some x => .error (fieldError key "a string".toList x.typeName)
  | none => .error (fieldError key "a string".toList Json.null.typeName)

/-- `_optional_int`; a float counts when it is an integer. -/
def optionalInt (payload : List (Text × Json)) (key : Text) (default : Int) : Except Exn Int :=
  match payload.lookup key with
  | none => .ok default
  | some (.int n) => .ok n
  | some (.float q) =>
    if q.den = 1 then .ok q.num else .error (fieldError key "an int".toList (Json.float q).typeName)
  | some x => .error (fieldError key "an int".toList x.typeName)

def ragPrompt (query : Text) (context : List Text) : Text :=
  if context = [] then query
  else "Context:\n".toList ++ joinText "\n\n".toList context ++ "\n\nQuestion: ".toList ++ query ++
    "\n\nAnswer:".toList

/-- `zip(xs, ys, strict=True)`. -/
def zipStrict {α β : Type} (xs : List α) (ys : List β) : Except Exn (List (α × β)) :=
  if ys.length < xs.length then
    .error (.valueError "zip() argument 2 is shorter than argument 1".toList)
  else if xs.length < ys.length then
    .error (.valueError "zip() argument 2 is longer than argument 1".toList)
  else .ok (xs.zip ys)

theorem zipStrict_ok {α β : Type} {xs : List α} {ys : List β} {pairs : List (α × β)}
    (h : zipStrict xs ys = .ok pairs) : pairs.map (·.1) = xs ∧ pairs.map (·.2) = ys := by
  unfold zipStrict at h
  split at h
  · cases h
  · split at h
    · cases h
    · cases h
      exact ⟨List.map_fst_zip (by omega), List.map_snd_zip (by omega)⟩

theorem zipStrict_of_length {α β : Type} {xs : List α} {ys : List β} (h : xs.length = ys.length) :
    zipStrict xs ys = .ok (xs.zip ys) := by
  unfold zipStrict
  rw [if_neg (by omega), if_neg (by omega)]

/-- `(x,) = xs`. -/
def unpackOne {α : Type} : List α → Except Exn α
  | [x] => .ok x
  | [] => .error (.valueError "not enough values to unpack (expected 1, got 0)".toList)
  | _ => .error (.valueError "too many values to unpack (expected 1)".toList)

/-- A call that is made only for a non-empty argument. -/
def unlessEmpty {α β : Type} (xs : List α) (default : β) (call : Pipe V β) : Pipe V β :=
  if xs.isEmpty then return default else call

def snippetRecords (pairs : List (V × Text)) : List (VectorRecord V) :=
  pairs.mapIdx fun i pair =>
    ("snip:".toList ++ intText i, pair.1, [("text".toList, .str pair.2)])

def ragResult (job : InferenceJob) (query answer : Text) (context ids : List Text) :
    List (Text × Json) :=
  [("job_id".toList, .str (uuidText job.id)), ("query".toList, .str query),
   ("answer".toList, .str answer), ("context".toList, .list (context.map .str)),
   ("retrieved_ids".toList, .list (ids.map .str))]

/-- `RagQueryPipeline.run`. -/
def ragQueryRun (cfg : EngineSettings) (job : InferenceJob) : Pipe V Text := do
  let query ← Pipe.ofExcept (requireStr job.payload "query".toList)
  let topK ← Pipe.ofExcept (optionalInt job.payload "top_k".toList 3)
  let snippets ← Pipe.search query (topK * 2)
  let texts := snippets.map (·.snippet)
  let vectors ← unlessEmpty texts [] (Pipe.embed texts)
  let ns := "job:".toList ++ uuidText job.id
  let records := snippetRecords (← Pipe.ofExcept (zipStrict vectors texts))
  unlessEmpty records () (Pipe.upsert records ns)
  let queryVector ← Pipe.ofExcept (unpackOne (← Pipe.embed [query]))
  let hits ← unlessEmpty records [] (Pipe.query queryVector topK ns)
  let context := hits.filterMap fun m => (m.metadata.lookup "text".toList).map (Json.text cfg.reprs)
  let answer ← Pipe.complete (ragPrompt query context) 512
  let body := dumps cfg.reprs (.dict (ragResult job query answer context (hits.map (·.id))))
  putBytes cfg (resultKey job ".json".toList) (encodeUtf8 body) "application/json".toList

/-- `doc_id`. -/
def documentId (r : Reprs) (job : InferenceJob) : Text :=
  match job.payload.lookup "document_id".toList with
  | some x => x.text r
  | none => uuidText job.id

/-- What is stored about a chunk beside its vector. -/
def chunkMetadata (c : Chunk) : List (Text × Json) :=
  [("chunk_index".toList, .int c.index), ("start".toList, .int c.start), ("end".toList, .int c.stop)]

def chunkId (docId : Text) (index : Nat) : Text := docId ++ ":chunk:".toList ++ intText index

def chunkRecords (docId : Text) (pairs : List (Chunk × V)) : List (VectorRecord V) :=
  pairs.map fun pair => (chunkId docId pair.1.index, pair.2, chunkMetadata pair.1)

def documentNamespace (docId : Text) : Text := "doc:".toList ++ docId

def chunkEntry (c : Chunk) : Json :=
  .dict [("index".toList, .int c.index), ("start".toList, .int c.start), ("end".toList, .int c.stop)]

def embedManifest (job : InferenceJob) (docId : Text) (chunks : List Chunk) : List (Text × Json) :=
  [("job_id".toList, .str (uuidText job.id)), ("document_id".toList, .str docId),
   ("chunk_count".toList, .int chunks.length),
   ("namespace".toList, .str (documentNamespace docId)),
   ("chunks".toList, .list (chunks.map chunkEntry))]

/-- `EmbedDocumentPipeline.run`. -/
def embedDocumentRun (cfg : EngineSettings) (job : InferenceJob) : Pipe V Text := do
  let document ← Pipe.ofExcept (requireStr job.payload "text".toList)
  let docId := documentId cfg.reprs job
  let size ← Pipe.ofExcept (optionalInt job.payload "chunk_size".toList 512)
  let overlap ← Pipe.ofExcept (optionalInt job.payload "chunk_overlap".toList 64)
  let chunks ← Pipe.ofExcept (chunkText document size overlap)
  let vectors ← unlessEmpty chunks [] (Pipe.embed (chunks.map (·.text)))
  let records := chunkRecords docId (← Pipe.ofExcept (zipStrict chunks vectors))
  unlessEmpty records () (Pipe.upsert records (documentNamespace docId))
  let body := dumps cfg.reprs (.dict (embedManifest job docId chunks))
  putBytes cfg (resultKey job "-manifest.json".toList) (encodeUtf8 body) "application/json".toList

/-- `PIPELINES[job.job_type].run(job, ctx)`. -/
def pipeline (cfg : EngineSettings) (job : InferenceJob) : PipelineRun V Text :=
  match job.jobType with
  | .ragQuery => (ragQueryRun cfg job).run
  | .embedDocument => (embedDocumentRun cfg job).run

end

end InferenceEngine
