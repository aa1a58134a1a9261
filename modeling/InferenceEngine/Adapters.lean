import InferenceEngine.CallOrder
import InferenceEngine.Library.Traces

/-!
# The adapters behind the ports

`huggingface.py`, `pinecone_store.py`, `search.py` and `_errors.py` of `app/adapters/providers`. A
port call is one operation of an SDK in a loop of `retrying`, its error classified and its result
normalized; the loop of `put_object` is that of `putBytes`.
-/

namespace InferenceEngine

set_option autoImplicit false

open Programs

/-! ### `_errors.py` -/

inductive HfError where
  | inferenceTimeout (text : Text)
  | http (status : Option Int) (text : Text)
  | other (repr : Text)

structure PineconeError where
  status : Option Int
  typeName : Text
  text : Text
  repr : Text

inductive DdgsError where
  | ratelimit (text : Text)
  | timeout (text : Text)
  | ddgs (text : Text)
  | other (repr : Text)

def classifyHfError : HfError → Exn
  | .inferenceTimeout text => .transient ("HF inference timeout: ".toList ++ text)
  | .http none text => .transient ("HF transient HTTP None: ".toList ++ text)
  | .http (some status) text =>
    if 500 ≤ status ∨ status = 429 then
      .transient ("HF transient HTTP ".toList ++ intText status ++ ": ".toList ++ text)
    else .permanent ("HF permanent HTTP ".toList ++ intText status ++ ": ".toList ++ text)
  | .other repr => .permanent ("HF error: ".toList ++ repr)

def classifyPineconeError (e : PineconeError) : Exn :=
  match e.status with
  | some status =>
    if 500 ≤ status ∨ status = 429 then
      .transient ("Pinecone transient ".toList ++ intText status ++ ": ".toList ++ e.text)
    else .permanent ("Pinecone permanent ".toList ++ intText status ++ ": ".toList ++ e.text)
  | none =>
    let name := e.typeName.map Char.toLower
    if "timeout".toList <:+: name ∨ "connection".toList <:+: name ∨ "service".toList <:+: name then
      .transient ("Pinecone connection error: ".toList ++ e.text)
    else .permanent ("Pinecone error: ".toList ++ e.repr)

def classifyDdgsError : DdgsError → Exn
  | .ratelimit text | .timeout text => .transient ("ddgs transient: ".toList ++ text)
  | .ddgs text => .permanent ("ddgs error: ".toList ++ text)
  | .other repr => .permanent ("ddgs unexpected error: ".toList ++ repr)

/-! ### What the SDKs return -/

abbrev RawHit := List (Text × Json)

/-- `str(hit.get(key, ""))`. -/
def hitText (r : Reprs) (hit : RawHit) (key : Text) : Text :=
  match hit.lookup key with
  | some x => x.text r
  | none => []

def normalizeHits (r : Reprs) (raw : List RawHit) : List SearchResult :=
  raw.map fun hit =>
    { title := hitText r hit "title".toList, url := hitText r hit "href".toList,
      snippet := hitText r hit "body".toList }

/-- What `feature_extraction` returns: one vector, a batch of them, or something else. -/
inductive Extracted (V : Type) where
  | flat (v : V)
  | rows (vs : List V)
  | other (typeRepr : Text)

def ndarrayToLists {V : Type} (batch : Nat) : Extracted V → Except Exn (List V)
  | .flat v => .ok [v]
  | .rows rows => .ok (if rows.length ≠ batch ∧ batch = 1 ∧ 1 ≤ rows.length then rows.take 1 else rows)
  | .other typeRepr =>
    let msg := "Unexpected feature_extraction output: ".toList ++ typeRepr
    -- the name of a class comes in single quotes, so `repr` takes double ones
    .error (.other msg ("TypeError(\"".toList ++ msg ++ "\")".toList))

/-- A match of a query response, without its score. -/
structure RawMatch where
  id : Json
  metadata : Option (List (Text × Json))

def matchesFromResponse (r : Reprs) (raw : Option (List RawMatch)) : List VectorMatch :=
  (raw.getD []).map fun m => { id := m.id.text r, metadata := m.metadata.getD [] }

/-! ### Operations -/

section
variable {V : Type}

/-- The operations of the SDKs, with what the adapters pass from the port call. -/
inductive SdkOp (V : Type) where
  | text (query : Text) (maxResults : Int)
  | featureExtraction (texts : List Text)
  | upsert (vectors : List (VectorRecord V)) (ns : Text)
  | query (vector : V) (topK : Int) (ns : Text)
  | textGeneration (prompt : Text) (maxNewTokens : Int)
  | putObject (key : Text) (data : List UInt8) (contentType : Text)

namespace SdkOp

def Error : SdkOp V → Type
  | .text _ _ => DdgsError
  | .featureExtraction _ => HfError
  | .upsert _ _ => PineconeError
  | .query _ _ _ => PineconeError
  | .textGeneration _ _ => HfError
  | .putObject _ _ _ => BotoError

def Result : SdkOp V → Type
  | .text _ _ => List RawHit
  | .featureExtraction _ => Extracted V
  | .upsert _ _ => Unit
  | .query _ _ _ => Option (List RawMatch)
  | .textGeneration _ _ => Text
  | .putObject _ _ _ => Unit

def classify : (op : SdkOp V) → op.Error → Exn
  | .text _ _ => classifyDdgsError
  | .featureExtraction _ => classifyHfError
  | .upsert _ _ => classifyPineconeError
  | .query _ _ _ => classifyPineconeError
  | .textGeneration _ _ => classifyHfError
  | .putObject _ _ _ => classifyBotocoreError

end SdkOp

/-- An operation, and the place of `pipelines.py` that it is issued for. -/
structure Operation (V : Type) where
  site : Site
  op : SdkOp V

def Operation.Reply (o : Operation V) : Type := Except o.op.Error o.op.Result

abbrev SdkRun (V α : Type) := Program (Operation V) Operation.Reply α

/-- What `retrying` retries. -/
def Exn.isTransient : Exn → Bool
  | .transient _ => true
  | _ => false

/-- `_call`: the operation in a loop of `retrying`, its error translated. -/
def Operation.call (cfg : EngineSettings) (o : Operation V) : SdkRun V (Except Exn o.op.Result) :=
  Program.retry o (fun r : Except o.op.Error o.op.Result => r.mapError o.op.classify)
    Exn.isTransient (cfg.retryMaxAttempts - 1)

def adapter (cfg : EngineSettings) (site : Site) : (call : Call V) → SdkRun V call.Reply
  | .search query n =>
    ((⟨site, .text query n⟩ : Operation V).call cfg).bind fun r : Except Exn (List RawHit) =>
      .pure (r.map (normalizeHits cfg.reprs))
  | .embed texts =>
    ((⟨site, .featureExtraction texts⟩ : Operation V).call cfg).bind
      fun r : Except Exn (Extracted V) => .pure (r.bind (ndarrayToLists texts.length))
  | .upsert records ns => (⟨site, .upsert records ns⟩ : Operation V).call cfg
  | .query vector topK ns =>
    ((⟨site, .query vector topK ns⟩ : Operation V).call cfg).bind
      fun r : Except Exn (Option (List RawMatch)) => .pure (r.map (matchesFromResponse cfg.reprs))
  | .complete prompt n => (⟨site, .textGeneration prompt n⟩ : Operation V).call cfg
  | .putObject key data contentType => .await ⟨site, .putObject key data contentType⟩ .pure

def adapted {α : Type} (cfg : EngineSettings) : Progress → Program (Call V) Call.Reply α → SdkRun V α
  | _, .pure a => .pure a
  | g, .await call k =>
    (adapter cfg (g.siteOf call) call).bind fun r => adapted cfg (g.next call r) (k r)

abbrev Issued (V : Type) := Σ o : Operation V, o.Reply

/-- The operations that the first runs of the job's pipeline issue, answered one after the other. -/
def issued (cfg : EngineSettings) (w : Nat → (o : Operation V) → o.Reply) (job : InferenceJob) :
    Nat → List (Issued V)
  | 0 => []
  | n + 1 => (Program.run (Program.nextReply w) (adapted cfg {} (pipeline cfg job))
      (issued cfg w job n)).2

/-- How the run after the first `n` ends. -/
def outcomeOf (cfg : EngineSettings) (w : Nat → (o : Operation V) → o.Reply) (job : InferenceJob)
    (n : Nat) : Except Exn Text :=
  (Program.run (Program.nextReply w) (adapted cfg {} (pipeline cfg job)) (issued cfg w job n)).1

end

end InferenceEngine
