import InferenceEngine.Admission
import InferenceEngine.FakeProviders
import InferenceEngine.Grounding
import InferenceEngine.Library.Words

/-!
# The providers without keys

`FakeSearch`, `FakeLLM` and `FakeEmbedding` of `app/adapters/providers/fake.py`, which
`build_providers` chooses where no key is configured, beside the in-process vector store.
`str.lower` and the vector of a text are parameters. A RAG query that the API has accepted gets
an answer from these, over the best pages of the corpus.
-/

namespace InferenceEngine

set_option autoImplicit false

open Programs Dicts Words

/-- What `str.split()` splits at. -/
def isBlank (c : Char) : Bool := decide (c ∈ blanks)

namespace FakeSearch

/-- `_CORPUS`, by address. -/
def corpus : Dict Text SearchResult where
  items :=
    [ { title := "Asynchronous I/O in Python".toList,
        url := "https://example.test/async-python".toList,
        snippet := "asyncio offloads blocking calls to a thread pool via to_thread.".toList },
      { title := "Hexagonal Architecture".toList,
        url := "https://example.test/hexagonal".toList,
        snippet := "Ports and adapters isolate the core from frameworks and SDKs.".toList },
      { title := "Vector Databases and Cosine Similarity".toList,
        url := "https://example.test/vector-db".toList,
        snippet := "Embeddings are ranked by cosine similarity for retrieval.".toList },
      { title := "Retry with Exponential Backoff".toList,
        url := "https://example.test/retry-backoff".toList,
        snippet := "Transient upstream errors are retried with jittered backoff.".toList } ].map
      fun page => (page.url, page)
  nodup := by decide

variable (lower : Text → Text)

/-- `{t.lower() for t in query.split() if t}`. -/
def terms (query : Text) : List Text := ((words isBlank query).map lower).dedup

def termOverlap (terms : List Text) (result : SearchResult) : Nat :=
  (terms.filter fun t => decide (t <:+: lower (result.title ++ " ".toList ++ result.snippet))).length

def search (query : Text) (maxResults : Int) : List SearchResult :=
  let overlap := termOverlap lower (terms lower query)
  let pages := ranked overlap corpus
  let hits := pages.filter fun item => decide (0 < overlap item.2)
  (sliceTo (if hits.isEmpty then pages else hits) maxResults).map (·.2)

end FakeSearch

namespace FakeLLM

def preamble : Text :=
  "Based on the provided context, here is the answer to your query. ".toList

def complete (prompt : Text) (maxNewTokens : Int) : Text :=
  joinText " ".toList
    (sliceTo (words isBlank (preamble ++ strip blanks prompt)) (max 1 maxNewTokens))

end FakeLLM

/-- `build_providers` without keys. -/
def defaultBundle {V S : Type} (lower : Text → Text) (vector : Text → V) (similarity : V → V → S) :
    Providers V S where
  search query n := .ok (FakeSearch.search lower query n)
  embed texts := .ok (texts.map vector)
  complete prompt n := .ok (FakeLLM.complete prompt n)
  similarity

/-! ### The best pages -/

theorem sliceTo_natCast {α : Type} (xs : List α) (n : Nat) : sliceTo xs n = xs.take n := by
  unfold sliceTo
  rw [if_pos (Int.natCast_nonneg n), Int.toNat_natCast]

namespace FakeSearch

variable {lower : Text → Text} {query : Text}

/-- How many pages have a term of the query. -/
def matching (lower : Text → Text) (query : Text) : Nat :=
  corpus.items.countP fun item => decide (0 < termOverlap lower (terms lower query) item.2)

/-- How many pages a search chooses from. -/
def candidates (lower : Text → Text) (query : Text) : Nat :=
  if matching lower query = 0 then corpus.items.length else matching lower query

theorem candidates_pos : 0 < candidates lower query := by
  unfold candidates
  split
  · decide
  · omega

theorem candidates_le : candidates lower query ≤ corpus.items.length := by
  unfold candidates
  split
  · exact Nat.le_refl _
  · exact List.countP_le_length

theorem key_eq_url : ∀ item ∈ corpus.items, item.1 = item.2.url := by decide

/-- A search returns the first pages of one ranking. -/
theorem search_eq_take (n : Nat) : search lower query n =
    ((ranked (termOverlap lower (terms lower query)) corpus).take
      (min n (candidates lower query))).map (·.2) := by
  have hlength : (ranked (termOverlap lower (terms lower query)) corpus).length =
      corpus.items.length := (perm_ranked _ corpus).length_eq
  have hmatching : ((ranked (termOverlap lower (terms lower query)) corpus).filter fun item =>
      decide (0 < termOverlap lower (terms lower query) item.2)).length = matching lower query := by
    rw [← List.countP_eq_length_filter]
    exact (perm_ranked _ corpus).countP_eq _
  unfold search candidates
  simp only [sliceTo_natCast, List.isEmpty_iff, ← List.length_eq_zero_iff, hmatching]
  split
  · rw [← hlength, ← List.take_eq_take_min]
  · rw [filter_ranked, List.take_take]
    rfl

theorem length_search (n : Nat) :
    (search lower query n).length = min n (candidates lower query) := by
  have hle : candidates lower query ≤ corpus.items.length := candidates_le
  rw [search_eq_take, List.length_map, List.length_take, (perm_ranked _ corpus).length_eq]
  omega

/-- The pages that a search returns for a positive bound: as many as there are up to the bound,
each one once and the best ones first; none that it leaves out overlaps more, and where any page
has a term of the query, each of them has one. -/
theorem search_best (lower : Text → Text) (query : Text) (n : Nat) (hn : 0 < n) :
    (search lower query n).length = min n (candidates lower query) ∧
    search lower query n ≠ [] ∧
    ((search lower query n).map (·.url)).Nodup ∧
    (∀ page ∈ search lower query n, (page.url, page) ∈ corpus.items) ∧
    (search lower query n).Pairwise (fun page other =>
      termOverlap lower (terms lower query) other ≤ termOverlap lower (terms lower query) page) ∧
    (∀ page ∈ search lower query n, ∀ other, (other.url, other) ∈ corpus.items →
      other ∉ search lower query n →
      termOverlap lower (terms lower query) other ≤ termOverlap lower (terms lower query) page) ∧
    ((∃ other, (other.url, other) ∈ corpus.items ∧
        0 < termOverlap lower (terms lower query) other) →
      ∀ page ∈ search lower query n, 0 < termOverlap lower (terms lower query) page) := by
  have hkey : ∀ item ∈ ranked (termOverlap lower (terms lower query)) corpus,
      item.1 = item.2.url := fun item h => key_eq_url item ((perm_ranked _ corpus).mem_iff.mp h)
  have hlength : (search lower query n).length = min n (candidates lower query) :=
    length_search n
  have hpages : ∀ page ∈ search lower query n, (page.url, page) ∈
      (ranked (termOverlap lower (terms lower query)) corpus).take
        (min n (candidates lower query)) := by
    intro page hpage
    rw [search_eq_take] at hpage
    obtain ⟨⟨key, page⟩, hitem, rfl⟩ := List.mem_map.mp hpage
    rw [← hkey _ (List.mem_of_mem_take hitem)]
    exact hitem
  refine ⟨hlength, ?_, ?_, ?_, ?_, ?_, ?_⟩
  · have hpos : 0 < candidates lower query := candidates_pos
    apply List.ne_nil_of_length_pos
    omega
  · have hurls : (search lower query n).map (·.url) =
        ((ranked (termOverlap lower (terms lower query)) corpus).map (·.1)).take
          (min n (candidates lower query)) := by
      rw [search_eq_take, List.map_map, ← List.map_take]
      apply List.map_congr_left
      intro item hitem
      exact (hkey item (List.mem_of_mem_take hitem)).symm
    rw [hurls]
    exact (List.take_sublist _ _).nodup (nodup_ranked _ corpus)
  · intro page hpage
    exact (perm_ranked _ corpus).mem_iff.mp (List.mem_of_mem_take (hpages page hpage))
  · rw [search_eq_take]
    apply List.pairwise_map.mpr
    apply ((pairwise_ranked _ corpus).sublist (List.take_sublist _ _)).imp
    rintro a b (hlt | ⟨heq, _⟩)
    · exact Nat.le_of_lt hlt
    · exact Nat.le_of_eq heq
  · intro page hpage other hother hout
    apply score_le_of_left_out (hpages page hpage) ((perm_ranked _ corpus).mem_iff.mpr hother)
    intro hmem
    apply hout
    rw [search_eq_take]
    exact List.mem_map.mpr ⟨_, hmem, rfl⟩
  · rintro ⟨other, hother, hoverlap⟩ page hpage
    have hmatching : matching lower query ≠ 0 := by
      intro hzero
      have hnone := List.countP_eq_zero.mp hzero _ hother
      exact hnone (decide_eq_true hoverlap)
    have hitem := hpages page hpage
    unfold candidates at hitem
    rw [if_neg hmatching, ← List.take_take] at hitem
    have hfirst := List.mem_of_mem_take hitem
    unfold matching at hfirst
    rw [← filter_ranked] at hfirst
    exact of_decide_eq_true (List.mem_filter.mp hfirst).2

end FakeSearch

/-! ### The words of an answer -/

theorem joinText_eq_intercalate (sep : Text) (ts : List Text) :
    joinText sep ts = sep.intercalate ts := by
  induction ts with
  | nil => rfl
  | cons t ts ih =>
    cases ts with
    | nil => simp [joinText]
    | cons t' ts =>
      rw [List.intercalate_cons_cons, ← ih]
      rfl

theorem FakeLLM.words_complete (prompt : Text) (n : Nat) :
    words isBlank (FakeLLM.complete prompt n) =
      (words isBlank (FakeLLM.preamble ++ strip blanks prompt)).take (max 1 n) := by
  have hmax : max 1 (n : Int) = ((max 1 n : Nat) : Int) := by omega
  unfold FakeLLM.complete
  rw [hmax, sliceTo_natCast, joinText_eq_intercalate]
  apply words_intercalate (by decide)
  intro w hw
  exact isWord_of_mem (List.mem_of_mem_take hw)

/-! ### An accepted query is answered -/

section
variable {V S : Type} [LinearOrder S] {cfg : EngineSettings} {lower : Text → Text}
  {vector : Text → V} {similarity : V → V → S}

def foundBy (lower : Text → Text) (p : RagQueryPayload) : List Text :=
  (FakeSearch.search lower p.query (p.topK * 2)).map (·.snippet)

def recordsOf (lower : Text → Text) (vector : Text → V) (p : RagQueryPayload) :
    List (VectorRecord V) :=
  snippetRecords (((foundBy lower p).map vector).zip (foundBy lower p))

def hitsOf (lower : Text → Text) (vector : Text → V) (similarity : V → V → S) (p : RagQueryPayload)
    (w : World V) (ns : Text) : List VectorMatch :=
  (w.vectors.upsert (recordsOf lower vector p) ns).query similarity (vector p.query) p.topK ns

theorem foundBy_length (p : RagQueryPayload) :
    (foundBy lower p).length = min (p.topK.1.toNat * 2) (FakeSearch.candidates lower p.query) := by
  have hpos := p.topK.2.1
  have htopK : (p.topK : Int) * 2 = ((p.topK.1.toNat * 2 : Nat) : Int) := by omega
  unfold foundBy
  rw [List.length_map, htopK]
  exact FakeSearch.length_search _

theorem run_checked {α β : Type} {σ : Type} {handle : (call : Call V) → σ → call.Reply × σ}
    {r : Except Exn α} {a : α} (h : r = .ok a) (f : α → Pipe V β) (s : σ) :
    Program.run handle (Pipe.ofExcept r >>= f).run s = Program.run handle (f a).run s := by
  subst h
  exact Program.run_exceptBind_ok rfl

theorem run_unlessEmpty {α β γ : Type} {σ : Type} {handle : (call : Call V) → σ → call.Reply × σ}
    {xs : List α} {default a : β} {call : Pipe V β} {f : β → Pipe V γ} {s s' : σ} (hne : xs ≠ [])
    (h : Program.run handle call.run s = (.ok a, s')) :
    Program.run handle (unlessEmpty xs default call >>= f).run s =
      Program.run handle (f a).run s' := by
  refine Program.run_exceptBind_ok ?_
  unfold unlessEmpty
  rw [List.isEmpty_eq_false_iff.mpr hne]
  exact h

theorem run_embedTexts {β : Type} (texts : List Text) (f : List V → Pipe V β) (w : World V) :
    Program.run (serveFakes (defaultBundle lower vector similarity))
        (unlessEmpty texts [] (Pipe.embed texts) >>= f).run w =
      Program.run (serveFakes (defaultBundle lower vector similarity))
        (f (texts.map vector)).run w := by
  refine Program.run_exceptBind_ok ?_
  cases texts <;> rfl

theorem run_putArtifact (providers : Providers V S) (key : Text) (data : List UInt8)
    (contentType : Text) (w : World V) :
    Program.run (serveFakes providers) (putBytes cfg key data contentType).run w =
      (.ok (s3Ref cfg.bucket key),
        { w with objects := Function.update w.objects key (some { data, contentType }) }) := by
  refine Program.run_exceptBind_ok (a := ()) ?_
  cases cfg.retryMaxAttempts - 1 <;> rfl

theorem recordsOf_ne_nil (p : RagQueryPayload) : recordsOf lower vector p ≠ [] := by
  have hlength : (recordsOf lower vector p).length = (foundBy lower p).length := by
    unfold recordsOf snippetRecords
    simp
  have hpos := p.topK.2.1
  have hcandidates : 0 < FakeSearch.candidates lower p.query := FakeSearch.candidates_pos
  apply List.ne_nil_of_length_pos
  rw [hlength, foundBy_length]
  omega

theorem run_default_rag {job : InferenceJob} {p : RagQueryPayload} (htype : job.jobType = .ragQuery)
    (hpayload : job.payload = (JobPayload.ragQuery p).modelDump) (w : World V) :
    (pipeline cfg job).run (serveFakes (defaultBundle lower vector similarity)) w =
      (.ok (s3Ref cfg.bucket (artifactKey job)),
        { vectors := w.vectors.upsert (recordsOf lower vector p) (jobNamespace cfg.reprs job),
          objects := Function.update w.objects (artifactKey job) (some
            { data := ragArtifact cfg.reprs job p.query
                (FakeLLM.complete (ragPrompt p.query (contextOf cfg.reprs
                  (hitsOf lower vector similarity p w (jobNamespace cfg.reprs job)))) 512)
                (hitsOf lower vector similarity p w (jobNamespace cfg.reprs job)),
              contentType := "application/json".toList }) }) := by
  have hchecks : PassesChecks cfg job (.ragQuery p) := passesChecks_of_dump hpayload
  have hpairs : zipStrict ((foundBy lower p).map vector) (foundBy lower p) =
      .ok (((foundBy lower p).map vector).zip (foundBy lower p)) :=
    zipStrict_of_length (by rw [List.length_map])
  have hrecords : recordsOf lower vector p ≠ [] := recordsOf_ne_nil p
  unfold pipeline artifactKey jobNamespace
  rw [htype]
  unfold ragQueryRun
  refine (run_checked hchecks.1 _ _).trans ((run_checked hchecks.2.1 _ _).trans ?_)
  refine (Program.run_exceptBind_ok rfl).trans ((run_embedTexts _ _ _).trans ?_)
  refine (run_checked hpairs _ _).trans ?_
  refine (run_unlessEmpty hrecords rfl).trans ?_
  refine (Program.run_exceptBind_ok rfl).trans ((run_checked rfl _ _).trans ?_)
  refine (run_unlessEmpty hrecords rfl).trans ?_
  refine (Program.run_exceptBind_ok rfl).trans ?_
  exact run_putArtifact _ _ _ _ _

theorem keys_snippetRecords (pairs : List (V × Text)) :
    (snippetRecords pairs).map (·.1) = (List.range pairs.length).map snippetId := by
  apply List.ext_getElem
  · simp [snippetRecords]
  · intro i h₁ h₂
    rw [List.getElem_map, List.getElem_map, List.getElem_range]
    simp only [snippetRecords, List.getElem_mapIdx]
    rfl

theorem hits_of_empty (lower : Text → Text) (vector : Text → V) (similarity : V → V → S)
    (p : RagQueryPayload) {ns : Text} {w : World V} (hempty : w.vectors.bucket ns = {}) :
    (hitsOf lower vector similarity p w ns).length =
      min p.topK.1.toNat (foundBy lower p).length ∧
    ((hitsOf lower vector similarity p w ns).map (·.id)).Nodup ∧
    ∀ hit ∈ hitsOf lower vector similarity p w ns, ∃ i text, hit.id = snippetId i ∧
      hit.metadata = [("text".toList, .str text)] ∧ (foundBy lower p)[i]? = some text := by
  have hpairs : (((foundBy lower p).map vector).zip (foundBy lower p)).map (·.2) =
      foundBy lower p := List.map_snd_zip (by simp)
  have hnodup : ((recordsOf lower vector p).map (·.1)).Nodup := by
    unfold recordsOf
    rw [keys_snippetRecords]
    exact List.nodup_range.map snippetId_injective
  have hitems : ((w.vectors.upsert (recordsOf lower vector p) ns).bucket ns).items =
      recordsOf lower vector p := by
    rw [FakeVectorStore.bucket_upsert, if_pos rfl, hempty, Dict.items_setAll _ hnodup]
    · rfl
    · intro record _ hmem
      cases hmem
  have htopK : (p.topK : Int) = ((p.topK.1.toNat : Nat) : Int) := by
    have hpos := p.topK.2.1
    omega
  have hperm := perm_ranked (fun record => similarity (vector p.query) record.1)
    ((w.vectors.upsert (recordsOf lower vector p) ns).bucket ns)
  rw [hitems] at hperm
  unfold hitsOf
  rw [FakeVectorStore.query_eq, htopK, sliceTo_natCast]
  refine ⟨?_, ?_, ?_⟩
  · have hrecords : (recordsOf lower vector p).length = (foundBy lower p).length := by
      unfold recordsOf snippetRecords
      simp
    rw [List.length_map, List.length_take, hperm.length_eq, hrecords]
    rfl
  · rw [List.map_map]
    exact ((List.take_sublist _ _).map _).nodup ((hperm.map (·.1)).nodup_iff.mpr hnodup)
  · intro hit hhit
    obtain ⟨⟨key, stored⟩, hitem, rfl⟩ := List.mem_map.mp hhit
    obtain ⟨i, text, hkey, hmetadata, hfound⟩ :=
      mem_snippetRecords (hperm.mem_iff.mp (List.mem_of_mem_take hitem))
    rw [hpairs] at hfound
    exact ⟨i, text, hkey, hmetadata, hfound⟩

/-- Without keys, a RAG query that the API has accepted is answered: the artifact holds as many of
the snippets found as were asked for, each of them once and at least one, and an answer made of
the first words of the template over them. -/
theorem default_answers (cfg : EngineSettings) (lower : Text → Text) (vector : Text → V)
    (similarity : V → V → S) (job : InferenceJob) (p : RagQueryPayload)
    (htype : job.jobType = .ragQuery) (hpayload : job.payload = (JobPayload.ragQuery p).modelDump)
    (w : World V) (hempty : w.vectors.bucket (jobNamespace cfg.reprs job) = {}) :
    ∃ (retrieved : List (Nat × Text)) (answer : Text) (w' : World V),
      (pipeline cfg job).run (serveFakes (defaultBundle lower vector similarity)) w =
        (.ok (s3Ref cfg.bucket (artifactKey job)), w') ∧
      w'.objects (artifactKey job) = some
        { data := encodeUtf8 (dumps cfg.reprs (.dict (ragResult job p.query answer
            (retrieved.map (·.2)) (retrieved.map fun s => snippetId s.1)))),
          contentType := "application/json".toList } ∧
      retrieved.length = min p.topK.1.toNat (FakeSearch.candidates lower p.query) ∧
      retrieved ≠ [] ∧ (retrieved.map (·.1)).Nodup ∧
      (∀ s ∈ retrieved, (foundBy lower p)[s.1]? = some s.2) ∧
      words isBlank answer = (words isBlank (FakeLLM.preamble ++
        strip blanks (ragPrompt p.query (retrieved.map (·.2))))).take 512 := by
  obtain ⟨hlength, hnodup, hhits⟩ := hits_of_empty lower vector similarity p hempty
  obtain ⟨retrieved, hcontext, hids, hfound⟩ := exists_retrieved hhits cfg.reprs
  have hsame : retrieved.length = (hitsOf lower vector similarity p w
      (jobNamespace cfg.reprs job)).length := by
    rw [← List.length_map (fun s : Nat × Text => snippetId s.1), ← hids, List.length_map]
  have hcount : retrieved.length = min p.topK.1.toNat (FakeSearch.candidates lower p.query) := by
    rw [hsame, hlength, foundBy_length]
    omega
  refine ⟨retrieved, FakeLLM.complete (ragPrompt p.query (retrieved.map (·.2))) 512, _,
    run_default_rag htype hpayload w, ?_, hcount, ?_, ?_, hfound, ?_⟩
  · refine (Function.update_self _ _ _).trans ?_
    unfold ragArtifact
    rw [hids, hcontext]
  · have hpos := p.topK.2.1
    have hcandidates : 0 < FakeSearch.candidates lower p.query := FakeSearch.candidates_pos
    apply List.ne_nil_of_length_pos
    omega
  · have hindices : (retrieved.map fun s => snippetId s.1) =
        (retrieved.map (·.1)).map snippetId := by
      rw [List.map_map]
      rfl
    rw [hids, hindices] at hnodup
    exact hnodup.of_map snippetId
  · exact FakeLLM.words_complete _ 512

end

def lowerAscii (t : Text) : Text := t.map Char.toLower

/-- A query that two pages have a term of. -/
def aboutVectors : RagQueryPayload where
  query := ⟨"Why COSINE thread pools?".toList, by decide⟩
  topK := ⟨3, by decide⟩

theorem search_aboutVectors : (FakeSearch.search lowerAscii aboutVectors.query 1).length = 1 ∧
    ∀ page ∈ FakeSearch.search lowerAscii aboutVectors.query 1,
      0 < FakeSearch.termOverlap lowerAscii (FakeSearch.terms lowerAscii aboutVectors.query) page := by
  obtain ⟨hlength, _, _, _, _, _, hrelevant⟩ :=
    FakeSearch.search_best lowerAscii aboutVectors.query 1 Nat.one_pos
  have hcandidates : 0 < FakeSearch.candidates lowerAscii aboutVectors.query :=
    FakeSearch.candidates_pos
  refine ⟨hlength.trans (by omega), hrelevant ?_⟩
  exact ⟨⟨"Asynchronous I/O in Python".toList, "https://example.test/async-python".toList,
    "asyncio offloads blocking calls to a thread pool via to_thread.".toList⟩,
    List.mem_cons_self, by decide +kernel⟩

theorem aboutVectors_answered : ∃ (retrieved : List (Nat × Text)) (ref : Text) (w : World Nat),
    (pipeline { reprs := plainReprs } (.new .ragQuery (JobPayload.ragQuery aboutVectors).modelDump
      7 0 0)).run (serveFakes (defaultBundle lowerAscii List.length fun u v : Nat => u * v)) {} =
      (.ok ref, w) ∧ retrieved.length = 2 ∧
    ∀ s ∈ retrieved, (foundBy lowerAscii aboutVectors)[s.1]? = some s.2 := by
  obtain ⟨retrieved, answer, w, hrun, _, hcount, _, _, hfound, _⟩ :=
    default_answers { reprs := plainReprs } lowerAscii List.length (fun u v : Nat => u * v)
      (.new .ragQuery (JobPayload.ragQuery aboutVectors).modelDump 7 0 0) aboutVectors rfl rfl {} rfl
  have hcandidates : FakeSearch.candidates lowerAscii aboutVectors.query = 2 := by decide +kernel
  rw [hcandidates] at hcount
  exact ⟨retrieved, _, w, hrun, hcount, hfound⟩

end InferenceEngine
