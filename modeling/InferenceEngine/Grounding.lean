import InferenceEngine.CallOrder
import InferenceEngine.FakeProviders
import InferenceEngine.OwnArtifacts

/-!
# What the answer to a RAG query is grounded in

Executions of one RAG query, each of which is cut off anywhere, and a last one that completes.
Every execution overwrites the snippets of the earlier ones from the first on; what an earlier
one has stored beyond them is still found.
-/

namespace InferenceEngine

set_option autoImplicit false

open Programs LastWrites

variable {V : Type}

def Answer.act (c : Answer V) (call : Call V) (st : Stores V) : call.Reply × Stores V :=
  c.perform st call

/-- The pipeline of the job makes its calls, one for each answer. -/
def attempt (cfg : EngineSettings) (job : InferenceJob) (st : Stores V)
    (answers : List (Answer V)) : Option (PipelineRun V Text × Stores V) :=
  Runs.exec (Program.step Answer.act) (pipeline cfg job, st) answers

/-- The stores after an attempt that is cut off after these calls. -/
def cutOff (cfg : EngineSettings) (job : InferenceJob) (st : Stores V)
    (answers : List (Answer V)) : Option (Stores V) :=
  (attempt cfg job st answers).map (·.2)

/-- A vector store finds what it holds, and no more than it is asked for. -/
def Answer.Honest (c : Answer V) (st : Stores V) : Call V → Prop
  | .query _ topK ns => c.raised = none →
    (∀ hit ∈ c.hits, ∃ v, st.vectors ns hit.id = some (v, hit.metadata)) ∧
      (0 ≤ topK → (c.hits.length : Int) ≤ topK)
  | _ => True

def HonestStep (at_ : PipelineRun V Text × Stores V) (c : Answer V) : Prop :=
  ∀ call k, at_.1 = .await call k → c.Honest at_.2 call

/-- The snippets that the search of an execution has returned; it is the first call. -/
def snippetsOf : List (Answer V) → List Text
  | [] => []
  | c :: _ => if c.raised.isNone then c.results.map (·.snippet) else []

/-- The snippets of an execution that has come as far as its upsert, the third call. -/
def upsertedBy (answers : List (Answer V)) : List Text :=
  if 3 ≤ answers.length then snippetsOf answers else []

def snippetId (i : Nat) : Text := "snip:".toList ++ intText i

theorem honest_of_fake {S : Type} [LinearOrder S] (w : World V) (similarity : V → V → S)
    (vector : V) (topK : Int) (ns : Text) :
    ({ hits := w.vectors.query similarity vector topK ns } : Answer V).Honest w.toStores
      (.query vector topK ns) := by
  intro _
  rw [FakeVectorStore.query_eq]
  refine ⟨fun hit hhit => ?_, fun hk => ?_⟩
  · obtain ⟨⟨id, v, metadata⟩, hmem, rfl⟩ := List.mem_map.mp hhit
    refine ⟨v, ?_⟩
    have hranked : (id, v, metadata) ∈
        Dicts.ranked (fun record : StoredVector V => similarity vector record.1)
          (w.vectors.bucket ns) := by
      unfold sliceTo at hmem
      split at hmem
      · exact List.mem_of_mem_take hmem
      · exact List.mem_of_mem_take hmem
    exact Dicts.mem_ranked_iff.mp hranked
  · simp only [sliceTo, if_pos hk, List.length_map, List.length_take]
    omega

/-- Where a snippet under an id comes from. -/
def SnippetAt (history : List (List (Answer V))) (own : List Text) (i : Nat) (text : Text) : Prop :=
  own[i]? = some text ∨ ∃ earlier ∈ history, (upsertedBy earlier)[i]? = some text

/-- What stands in the namespace of the query, whatever its searches and queries return. -/
structure Filled (cfg : EngineSettings) (job : InferenceJob) (history : List (List (Answer V)))
    (g : Progress) (st : Stores V) (done : List (Answer V)) : Prop where
  sound : g.Sound
  begun : g.last = none ↔ done = []
  embedded : g.last = some .embedTexts → g.found ≠ [] → 2 ≤ done.length
  found : g.found = [] ∨ g.found = snippetsOf done
  contents : ∀ id v metadata, st.vectors (jobNamespace cfg.reprs job) id = some (v, metadata) →
    ∃ i text, id = snippetId i ∧ metadata = [("text".toList, .str text)] ∧
      SnippetAt history (upsertedBy done) i text
  indexed : ∀ i text, g.indexed[i]? = some text →
    ∃ v, st.vectors (jobNamespace cfg.reprs job) (snippetId i) =
      some (v, [("text".toList, .str text)])

/-- What an execution has made of honest queries. A snippet that it has found itself stands under
its id by then. -/
structure Grounded (cfg : EngineSettings) (job : InferenceJob) (history : List (List (Answer V)))
    (g : Progress) (st : Stores V) (done : List (Answer V)) : Prop
    extends Filled cfg job history g st done where
  hits : ∀ hit ∈ g.hits, g.found ≠ [] ∧ ∃ i text, hit.id = snippetId i ∧
    hit.metadata = [("text".toList, .str text)] ∧
    (∀ own, g.found[i]? = some own → text = own) ∧ SnippetAt history g.found i text
  count : ∀ topK, optionalInt job.payload "top_k".toList 3 = .ok topK → 0 ≤ topK →
    (g.hits.length : Int) ≤ topK
  stored : ∀ obj, g.stored = some obj → st.objects (artifactKey job) = some obj ∧
    ∃ query answer, obj.data = ragArtifact cfg.reprs job query answer g.hits

section
variable {cfg : EngineSettings} {job : InferenceJob} {history : List (List (Answer V))}
  {g : Progress} {st : Stores V} {done : List (Answer V)} {call : Call V} {c : Answer V}

theorem snippetsOf_append (hne : done ≠ []) (cs : List (Answer V)) :
    snippetsOf (done ++ cs) = snippetsOf done := by
  cases done with
  | nil => exact absurd rfl hne
  | cons c done => rfl

theorem upsertedBy_append {i : Nat} {text : Text} (h : (upsertedBy done)[i]? = some text)
    (cs : List (Answer V)) : (upsertedBy (done ++ cs))[i]? = some text := by
  unfold upsertedBy at h ⊢
  split at h
  · rename_i hlength
    rw [if_pos (by rw [List.length_append]; omega), snippetsOf_append]
    · exact h
    · rintro rfl
      cases hlength
  · cases h

theorem SnippetAt.append {i : Nat} {text : Text} (h : SnippetAt history (upsertedBy done) i text)
    (cs : List (Answer V)) : SnippetAt history (upsertedBy (done ++ cs)) i text :=
  h.imp_left fun hown => upsertedBy_append hown cs

theorem snippetId_injective : Function.Injective snippetId := by
  intro i j h
  exact Int.ofNat_inj.mp (intText_injective (List.append_cancel_left h))

theorem Progress.rank_eq_zero : g.rank = 0 ↔ g.last = none := by
  unfold Progress.rank
  cases g.last with
  | none => simp
  | some site => cases site <;> simp [Site.rank]

theorem Answer.act_vectors (h : g.siteOf call ≠ .upsert) :
    (c.act call st).2.vectors = st.vectors := by
  cases call with
  | upsert records ns => exact absurd rfl h
  | putObject key data contentType =>
    simp only [Answer.act, Answer.perform]
    split <;> rfl
  | _ => rfl

theorem Filled.next_begun : (g.next call (c.act call st).1).last = none ↔ done ++ [c] = [] := by
  rw [Progress.next_last]
  simp

theorem Filled.next_embedded (hg : Filled cfg job history g st done)
    (hlast : (g.next call (c.act call st).1).last = some .embedTexts)
    (hfound : (g.next call (c.act call st).1).found ≠ []) : 2 ≤ (done ++ [c]).length := by
  rw [Progress.next_last, Option.some_inj] at hlast
  have hsame := g.next_found (c.act call st).1 (by rw [hlast]; nofun)
  rw [hsame] at hfound
  have hbegun : done ≠ [] := by
    intro hdone
    have hnone := hg.begun.mpr hdone
    exact hfound (hg.sound.found (by rw [Progress.rank_eq_zero.mpr hnone]; decide))
  have hlength := List.length_pos_iff.mpr hbegun
  rw [List.length_append, List.length_singleton]
  omega

theorem Filled.next_found (hg : Filled cfg job history g st done) (hfollows : g.Follows call) :
    (g.next call (c.act call st).1).found = [] ∨
      (g.next call (c.act call st).1).found = snippetsOf (done ++ [c]) := by
  by_cases hsite : g.siteOf call = .search
  · obtain ⟨query, n, rfl⟩ := Progress.eq_search_of_siteOf hsite
    have hzero : g.rank = 0 := Nat.lt_one_iff.mp (hfollows.lt nofun)
    rw [hg.begun.mp (Progress.rank_eq_zero.mp hzero)]
    cases hraised : c.raised with
    | none =>
      right
      simp [Progress.next, Answer.act, Answer.perform, orRaised, snippetsOf, hraised]
    | some x =>
      left
      simp only [Progress.next, Answer.act, Answer.perform, orRaised, hraised]
      exact hg.sound.found (by rw [hzero]; decide)
  · rw [g.next_found _ hsite]
    by_cases hdone : done = []
    · have hnone := hg.begun.mpr hdone
      exact .inl (hg.sound.found (by rw [Progress.rank_eq_zero.mpr hnone]; decide))
    · rw [snippetsOf_append hdone]
      exact hg.found

theorem upsertRecords_spec {ns : Text} {pairs : List (V × Text)} {i : Nat} {text : Text}
    (h : (pairs.map (·.2))[i]? = some text) :
    ∃ v, (st.upsert ns (snippetRecords pairs)).vectors ns (snippetId i) =
      some (v, [("text".toList, .str text)]) := by
  rw [List.getElem?_map] at h
  obtain ⟨pair, hpair, rfl⟩ := Option.map_eq_some_iff.mp h
  refine ⟨pair.1, ?_⟩
  have hrecords : snippetRecords pairs = pairs.mapIdx fun i pair =>
    (snippetId i, (pair.1, [("text".toList, Json.str pair.2)])) := rfl
  rw [Stores.upsert_vectors, Function.update_self, hrecords,
    writeAll_apply (nodup_mapIdx snippetId_injective _ _),
    lookup_mapIdx snippetId_injective (fun pair : V × Text => (pair.1, [("text".toList, Json.str pair.2)])),
    hpair]
  rfl

theorem mem_snippetRecords {pairs : List (V × Text)} {id : Text}
    {stored : V × List (Text × Json)} (h : (id, stored) ∈ snippetRecords pairs) :
    ∃ i text, id = snippetId i ∧ stored.2 = [("text".toList, .str text)] ∧
      (pairs.map (·.2))[i]? = some text := by
  obtain ⟨i, hi, heq⟩ := List.mem_mapIdx.mp h
  cases heq
  exact ⟨i, pairs[i].2, rfl, rfl, by simp [hi]⟩

theorem Filled.next_contents (hg : Filled cfg job history g st done)
    (hty : job.jobType = .ragQuery) (hcarries : Carries cfg job g call)
    (id : Text) (v : V) (metadata : List (Text × Json))
    (h : (c.act call st).2.vectors (jobNamespace cfg.reprs job) id = some (v, metadata)) :
    ∃ i text, id = snippetId i ∧ metadata = [("text".toList, .str text)] ∧
      SnippetAt history (upsertedBy (done ++ [c])) i text := by
  by_cases hsite : g.siteOf call = .upsert
  · obtain ⟨records, ns, rfl⟩ := Progress.eq_upsert_of_siteOf hsite
    obtain ⟨rfl, hrag⟩ := hcarries
    obtain ⟨hlast, pairs, rfl, hpairs⟩ := hrag hty
    simp only [Answer.act, Answer.perform, Stores.upsert_vectors, Function.update_self] at h
    rcases writeAll_eq_some h with hnew | hold
    · have hmem : (id, v, metadata) ∈ snippetRecords pairs := by
        split at hnew
        · exact hnew
        · exact List.mem_of_mem_take hnew
      obtain ⟨i, text, hid, hmetadata, htext⟩ := mem_snippetRecords hmem
      rw [hpairs] at htext
      have hne : g.found ≠ [] := by
        intro hnil
        rw [hnil] at htext
        cases htext
      have htwo := hg.embedded hlast hne
      have hdone : done ≠ [] := by
        rintro rfl
        cases htwo
      refine ⟨i, text, hid, hmetadata, .inl ?_⟩
      rw [upsertedBy, if_pos (by rw [List.length_append, List.length_singleton]; omega),
        snippetsOf_append hdone, ← hg.found.resolve_left hne]
      exact htext
    · obtain ⟨i, text, hid, hmetadata, hat⟩ := hg.contents id v metadata hold
      exact ⟨i, text, hid, hmetadata, hat.append [c]⟩
  · rw [Answer.act_vectors hsite] at h
    obtain ⟨i, text, hid, hmetadata, hat⟩ := hg.contents id v metadata h
    exact ⟨i, text, hid, hmetadata, hat.append [c]⟩

theorem Filled.next_indexed (hg : Filled cfg job history g st done)
    (hty : job.jobType = .ragQuery) (hcarries : Carries cfg job g call)
    (hfollows : g.Follows call) (i : Nat) (text : Text)
    (h : (g.next call (c.act call st).1).indexed[i]? = some text) :
    ∃ v, (c.act call st).2.vectors (jobNamespace cfg.reprs job) (snippetId i) =
      some (v, [("text".toList, .str text)]) := by
  by_cases hsite : g.siteOf call = .upsert
  · obtain ⟨records, ns, rfl⟩ := Progress.eq_upsert_of_siteOf hsite
    obtain ⟨rfl, hrag⟩ := hcarries
    obtain ⟨-, pairs, rfl, hpairs⟩ := hrag hty
    cases hraised : c.raised with
    | none =>
      simp only [Progress.next, Answer.act, Answer.perform, orRaised, hraised] at h ⊢
      rw [← hpairs] at h
      exact upsertRecords_spec h
    | some x =>
      simp only [Progress.next, Answer.act, Answer.perform, orRaised, hraised] at h
      rw [hg.sound.indexed (hfollows.lt fun hput => by cases hput)] at h
      cases h
  · rw [g.next_indexed _ hsite] at h
    rw [Answer.act_vectors hsite]
    exact hg.indexed i text h

theorem SnippetAt.of_found {own : List Text} {i : Nat} {text : Text}
    (hown : own = snippetsOf done) (h : SnippetAt history (upsertedBy done) i text) :
    SnippetAt history own i text := by
  apply h.imp_left
  intro hmine
  unfold upsertedBy at hmine
  split at hmine
  · rw [hown]
    exact hmine
  · cases hmine

theorem Filled.hit_of_query (hg : Filled cfg job history g st done) (hne : g.found ≠ [])
    (hindexed : g.indexed = g.found) {hit : VectorMatch} {v : V}
    (h : st.vectors (jobNamespace cfg.reprs job) hit.id = some (v, hit.metadata)) :
    ∃ i text, hit.id = snippetId i ∧ hit.metadata = [("text".toList, .str text)] ∧
      (∀ own, g.found[i]? = some own → text = own) ∧ SnippetAt history g.found i text := by
  obtain ⟨i, text, hid, hmetadata, hat⟩ := hg.contents hit.id v hit.metadata h
  refine ⟨i, text, hid, hmetadata, ?_, hat.of_found (hg.found.resolve_left hne)⟩
  intro own hown
  rw [← hindexed] at hown
  obtain ⟨v', hv'⟩ := hg.indexed i own hown
  rw [hid, hv', hmetadata] at h
  simp only [Option.some_inj, Prod.mk.injEq, List.cons.injEq, Json.str.injEq, true_and,
    and_true] at h
  exact h.2.symm

theorem Grounded.next_hits (hg : Grounded cfg job history g st done)
    (hcarries : Carries cfg job g call) (hfollows : g.Follows call) (hhonest : c.Honest st call)
    (hit : VectorMatch) (h : hit ∈ (g.next call (c.act call st).1).hits) :
    (g.next call (c.act call st).1).found ≠ [] ∧ ∃ i text, hit.id = snippetId i ∧
      hit.metadata = [("text".toList, .str text)] ∧
      (∀ own, (g.next call (c.act call st).1).found[i]? = some own → text = own) ∧
      SnippetAt history (g.next call (c.act call st).1).found i text := by
  by_cases hsearch : g.siteOf call = .search
  · have hlt := hfollows.lt (by rw [hsearch]; nofun)
    rw [hsearch] at hlt
    rw [g.next_hits _ (by rw [hsearch]; nofun),
      hg.sound.hits (Nat.lt_trans hlt (by decide))] at h
    cases h
  rw [g.next_found _ hsearch]
  by_cases hquery : g.siteOf call = .query
  · obtain ⟨vector, topK, ns, rfl⟩ := Progress.eq_query_of_siteOf hquery
    obtain ⟨rfl, -, hne, hindexed⟩ := hcarries
    cases hraised : c.raised with
    | none =>
      simp only [Progress.next, Answer.act, Answer.perform, orRaised, hraised] at h
      obtain ⟨v, hv⟩ := (hhonest hraised).1 hit h
      exact ⟨hne, hg.hit_of_query hne hindexed hv⟩
    | some x =>
      simp only [Progress.next, Answer.act, Answer.perform, orRaised, hraised] at h
      exact hg.hits hit h
  · rw [g.next_hits _ hquery] at h
    exact hg.hits hit h

theorem Grounded.next_count (hg : Grounded cfg job history g st done)
    (hcarries : Carries cfg job g call) (hhonest : c.Honest st call) (topK : Int)
    (htopK : optionalInt job.payload "top_k".toList 3 = .ok topK) (hpos : 0 ≤ topK) :
    ((g.next call (c.act call st).1).hits.length : Int) ≤ topK := by
  by_cases hquery : g.siteOf call = .query
  · obtain ⟨vector, asked, ns, rfl⟩ := Progress.eq_query_of_siteOf hquery
    obtain ⟨-, hasked, -, -⟩ := hcarries
    cases hasked.symm.trans htopK
    cases hraised : c.raised with
    | none =>
      simp only [Progress.next, Answer.act, Answer.perform, orRaised, hraised]
      exact (hhonest hraised).2 hpos
    | some x =>
      simp only [Progress.next, Answer.act, Answer.perform, orRaised, hraised]
      exact hg.count _ htopK hpos
  · rw [g.next_hits _ hquery]
    exact hg.count topK htopK hpos

theorem Grounded.next_stored (hg : Grounded cfg job history g st done)
    (hty : job.jobType = .ragQuery) (hcarries : Carries cfg job g call) (hfollows : g.Follows call)
    (obj : Object) (h : (g.next call (c.act call st).1).stored = some obj) :
    (c.act call st).2.objects (artifactKey job) = some obj ∧
      ∃ query answer,
        obj.data = ragArtifact cfg.reprs job query answer (g.next call (c.act call st).1).hits := by
  have hnone := hfollows.stored hg.sound
  by_cases hput : g.siteOf call = .put
  · obtain ⟨key, data, contentType, rfl⟩ := Progress.eq_put_of_siteOf hput
    obtain ⟨rfl, hrag⟩ := hcarries
    cases hraised : c.s3Raised with
    | none =>
      simp only [Progress.next, Answer.act, Answer.perform, orRaised, hraised, Option.some_inj] at h
      subst h
      refine ⟨?_, hrag hty⟩
      simp [Answer.act, Answer.perform, hraised, Stores.put]
    | some x =>
      simp only [Progress.next, Answer.act, Answer.perform, orRaised, hraised, hnone] at h
      cases h
  · rw [g.next_stored _ hput, hnone] at h
    cases h

theorem Filled.next (hg : Filled cfg job history g st done) (hty : job.jobType = .ragQuery)
    (hallowed : (callOrder V cfg job).allowed g call) :
    Filled cfg job history (g.next call (c.act call st).1) (c.act call st).2 (done ++ [c]) where
  sound := hg.sound.next hallowed.1 _
  begun := next_begun
  embedded := hg.next_embedded
  found := hg.next_found hallowed.1
  contents := hg.next_contents hty hallowed.2
  indexed := hg.next_indexed hty hallowed.2 hallowed.1

theorem Grounded.next (hg : Grounded cfg job history g st done) (hty : job.jobType = .ragQuery)
    (hallowed : (callOrder V cfg job).allowed g call) (hhonest : c.Honest st call) :
    Grounded cfg job history (g.next call (c.act call st).1) (c.act call st).2 (done ++ [c]) where
  toFilled := hg.toFilled.next hty hallowed
  hits := hg.next_hits hallowed.2 hallowed.1 hhonest
  count := hg.next_count hallowed.2 hhonest
  stored := hg.next_stored hty hallowed.2 hallowed.1

/-! ### Attempts one after another -/

/-- What earlier attempts have left in the namespace of the query. -/
def LeftBy (cfg : EngineSettings) (job : InferenceJob) (history : List (List (Answer V)))
    (st : Stores V) : Prop :=
  ∀ id v metadata, st.vectors (jobNamespace cfg.reprs job) id = some (v, metadata) →
    ∃ i text, id = snippetId i ∧ metadata = [("text".toList, .str text)] ∧
      ∃ earlier ∈ history, (upsertedBy earlier)[i]? = some text

theorem LeftBy.filled (h : LeftBy cfg job history st) : Filled cfg job history {} st [] where
  sound := .init
  begun := by simp
  embedded := nofun
  found := .inl rfl
  contents := by
    intro id v metadata hstored
    obtain ⟨i, text, hid, hmetadata, hearlier⟩ := h id v metadata hstored
    exact ⟨i, text, hid, hmetadata, .inr hearlier⟩
  indexed := by
    intro i text h
    cases h

theorem LeftBy.grounded (h : LeftBy cfg job history st) : Grounded cfg job history {} st [] where
  toFilled := h.filled
  hits := by
    intro hit h
    cases h
  count := fun topK _ hpos => hpos
  stored := by
    intro obj h
    cases h

variable {answers : List (Answer V)} {st' : Stores V}

theorem LeftBy.cutOff (h : LeftBy cfg job history st) (hty : job.jobType = .ragQuery)
    (hrun : cutOff cfg job st answers = some st') :
    LeftBy cfg job (history ++ [answers]) st' := by
  obtain ⟨⟨left, st''⟩, hexec, rfl⟩ := Option.map_eq_some_iff.mp hrun
  obtain ⟨g, -, hg⟩ := Program.Obeys.exec (I := Filled cfg job history)
    (fun _ _ _ _ _ _ hallowed _ hinv => hinv.next hty hallowed)
    (orderly_pipeline cfg job) h.filled (Runs.Along.trivial _ answers) hexec
  intro id v metadata hstored
  obtain ⟨i, text, hid, hmetadata, hat⟩ := hg.contents id v metadata hstored
  refine ⟨i, text, hid, hmetadata, ?_⟩
  rcases hat with hown | ⟨earlier, hmem, hearlier⟩
  · exact ⟨answers, List.mem_append_right _ (List.mem_singleton.mpr rfl), hown⟩
  · exact ⟨earlier, List.mem_append_left _ hmem, hearlier⟩

theorem LeftBy.exec {later : List (List (Answer V))} (h : LeftBy cfg job history st)
    (hty : job.jobType = .ragQuery)
    (hrun : Runs.exec (InferenceEngine.cutOff cfg job) st later = some st') :
    LeftBy cfg job (history ++ later) st' := by
  induction later generalizing history st with
  | nil =>
    cases hrun
    rwa [List.append_nil]
  | cons answers later ih =>
    obtain ⟨st₁, hfirst, hrest⟩ := Runs.exec_cons_iff.mp hrun
    have hlater := ih (h.cutOff hty hfirst) hrest
    rwa [List.append_assoc] at hlater

theorem exists_retrieved {hits : List VectorMatch} {P : Nat → Text → Prop}
    (h : ∀ hit ∈ hits, ∃ i text, hit.id = snippetId i ∧
      hit.metadata = [("text".toList, .str text)] ∧ P i text) (r : Reprs) :
    ∃ retrieved : List (Nat × Text), contextOf r hits = retrieved.map (·.2) ∧
      hits.map (·.id) = retrieved.map (fun s => snippetId s.1) ∧
      ∀ s ∈ retrieved, P s.1 s.2 := by
  induction hits with
  | nil => exact ⟨[], rfl, rfl, nofun⟩
  | cons hit hits ih =>
    obtain ⟨i, text, hid, hmetadata, hP⟩ := h hit List.mem_cons_self
    obtain ⟨retrieved, hcontext, hids, hrest⟩ :=
      ih fun hit' hmem => h hit' (List.mem_cons_of_mem _ hmem)
    refine ⟨(i, text) :: retrieved, ?_, ?_, ?_⟩
    · rw [List.map_cons, ← hcontext]
      unfold contextOf
      rw [List.filterMap_cons, hmetadata]
      rfl
    · rw [List.map_cons, List.map_cons, hid, hids]
    · intro s hs
      rcases List.mem_cons.mp hs with rfl | hmem
      · exact hP
      · exact hrest s hmem

/-- The artifact of a RAG query that completes after any attempts. What it retrieves are at most
`top_k` snippets by their ids. Those that its own search has returned stand under their ids; any
others come from an earlier attempt that has upserted more. -/
theorem answer_grounded (cfg : EngineSettings) (job : InferenceJob)
    (hty : job.jobType = .ragQuery) (st₀ st st' : Stores V)
    (hempty : ∀ id, st₀.vectors (jobNamespace cfg.reprs job) id = none)
    (history : List (List (Answer V))) (answers : List (Answer V)) (ref : Text)
    (hhistory : Runs.exec (cutOff cfg job) st₀ history = some st)
    (hhonest : Runs.Along (Program.step Answer.act) HonestStep (pipeline cfg job, st) answers)
    (hrun : attempt cfg job st answers = some (.pure (.ok ref), st')) :
    ∃ (query answer : Text) (retrieved : List (Nat × Text)) (obj : Object),
      st'.objects (artifactKey job) = some obj ∧
      obj.data = encodeUtf8 (dumps cfg.reprs (.dict (ragResult job query answer
        (retrieved.map (·.2)) (retrieved.map fun s => snippetId s.1)))) ∧
      (∀ topK, optionalInt job.payload "top_k".toList 3 = .ok topK → 0 ≤ topK →
        (retrieved.length : Int) ≤ topK) ∧
      ∀ s ∈ retrieved,
        (s.1 < (snippetsOf answers).length → (snippetsOf answers)[s.1]? = some s.2) ∧
        ((snippetsOf answers).length ≤ s.1 →
          ∃ earlier ∈ history, (upsertedBy earlier)[s.1]? = some s.2) := by
  have hstart : LeftBy cfg job [] st₀ := by
    intro id v metadata hstored
    cases (hempty id).symm.trans hstored
  obtain ⟨g, hobeys, hg⟩ := Program.Obeys.exec (I := Grounded cfg job history)
    (fun _ call k _ _ _ hallowed hgood hinv => hinv.next hty hallowed (hgood call k rfl))
    (orderly_pipeline cfg job) (hstart.exec hty hhistory).grounded hhonest hrun
  rw [List.nil_append] at hg
  obtain ⟨obj, hobj⟩ := Option.ne_none_iff_exists'.mp (hobeys ref rfl)
  obtain ⟨hstored, query, answer, hdata⟩ := hg.stored obj hobj
  have hsources : ∀ hit ∈ g.hits, ∃ i text, hit.id = snippetId i ∧
      hit.metadata = [("text".toList, .str text)] ∧
      (i < (snippetsOf answers).length → (snippetsOf answers)[i]? = some text) ∧
      ((snippetsOf answers).length ≤ i →
        ∃ earlier ∈ history, (upsertedBy earlier)[i]? = some text) := by
    intro hit hhit
    obtain ⟨hne, i, text, hid, hmetadata, hown, hat⟩ := hg.hits hit hhit
    rw [hg.found.resolve_left hne] at hown hat
    refine ⟨i, text, hid, hmetadata, fun hlt => ?_, fun hle => ?_⟩
    · have hget := List.getElem?_eq_getElem hlt
      rw [hget, hown _ hget]
    · apply hat.resolve_left
      rw [List.getElem?_eq_none hle]
      nofun
  obtain ⟨retrieved, hcontext, hids, hretrieved⟩ := exists_retrieved hsources cfg.reprs
  refine ⟨query, answer, retrieved, obj, hstored, ?_, ?_, hretrieved⟩
  · rw [hdata, ragArtifact, hcontext, hids]
  · intro topK htopK hpos
    have hlength := congrArg List.length hids
    rw [List.length_map, List.length_map] at hlength
    rw [← hlength]
    exact hg.count topK htopK hpos

end

/-! ### A search that finds less than before -/

def whyJob : InferenceJob := .new .ragQuery [("query".toList, .str "why".toList)] 1 0 0

/-- An attempt that is cut off after the upsert of two snippets. -/
def firstAnswers : List (Answer Nat) :=
  [{ results := [⟨[], [], "old".toList⟩, ⟨[], [], "older".toList⟩] }, { vectors := [1, 2] }, {}]

/-- A complete attempt whose search finds one snippet; the store finds two. -/
def secondAnswers : List (Answer Nat) :=
  [{ results := [⟨[], [], "new".toList⟩] }, { vectors := [1] }, {}, { vectors := [1] },
   { hits := [⟨snippetId 0, [("text".toList, .str "new".toList)]⟩,
      ⟨snippetId 1, [("text".toList, .str "older".toList)]⟩] },
   { text := "because".toList }, {}]

def leftovers : Stores Nat := (cutOff { reprs := plainReprs } whyJob {} firstAnswers).getD {}

def sameSnippet : List (Text × Json) → List (Text × Json) → Bool
  | [(k, .str t)], [(k', .str t')] => k = k' ∧ t = t'
  | _, _ => false

def honestCheck (at_ : PipelineRun Nat Text × Stores Nat) (c : Answer Nat) : Bool :=
  match at_.1 with
  | .await (.query _ topK ns) _ =>
    (c.hits.all fun hit =>
      match at_.2.vectors ns hit.id with
      | some stored => sameSnippet stored.2 hit.metadata
      | none => false) && c.hits.length ≤ topK
  | _ => true

theorem honestCheck_sound {at_ : PipelineRun Nat Text × Stores Nat} {c : Answer Nat}
    (h : honestCheck at_ c = true) : HonestStep at_ c := by
  intro call k hcall
  cases call with
  | query vector topK ns =>
    simp only [honestCheck, hcall, Bool.and_eq_true, List.all_eq_true, decide_eq_true_eq] at h
    intro _
    refine ⟨fun hit hhit => ?_, fun _ => h.2⟩
    have hstored := h.1 hit hhit
    split at hstored
    · rename_i stored hget
      refine ⟨stored.1, hget.trans ?_⟩
      have hsame : stored.2 = hit.metadata := by
        unfold sameSnippet at hstored
        split at hstored
        · rename_i hone htwo
          simp only [decide_eq_true_eq] at hstored
          rw [hone, htwo, hstored.1, hstored.2]
        · cases hstored
      rw [← hsame]
    · cases hstored
  | _ => trivial

theorem leftovers_eq :
    Runs.exec (cutOff { reprs := plainReprs } whyJob) {} [firstAnswers] = some leftovers := by
  have hsome : (cutOff { reprs := plainReprs } whyJob {} firstAnswers).isSome = true := by
    decide +kernel
  obtain ⟨st, hst⟩ := Option.isSome_iff_exists.mp hsome
  rw [Runs.exec_cons, hst, leftovers, hst]
  rfl

theorem secondAnswers_honest : Runs.Along (Program.step Answer.act) HonestStep
    (pipeline { reprs := plainReprs } whyJob, leftovers) secondAnswers :=
  Runs.Along.of_check (fun _ _ => honestCheck_sound) (by decide +kernel)

def hasReturned : PipelineRun V Text → Bool
  | .pure (.ok _) => true
  | _ => false

theorem hasReturned_iff {p : PipelineRun V Text} : hasReturned p = true ↔ ∃ ref, p = .pure (.ok ref) := by
  unfold hasReturned
  split <;> simp_all

theorem secondAnswers_end : ∃ ref st',
    attempt { reprs := plainReprs } whyJob leftovers secondAnswers = some (.pure (.ok ref), st') := by
  have hend : (attempt { reprs := plainReprs } whyJob leftovers secondAnswers).any
      (hasReturned ·.1) = true := by decide +kernel
  obtain ⟨⟨p, st'⟩, heq, hp⟩ := (Option.any_eq_true _ _).mp hend
  obtain ⟨ref, rfl⟩ := hasReturned_iff.mp hp
  exact ⟨ref, st', heq⟩

theorem secondAnswers_grounded : ∃ (st' : Stores Nat) (query answer : Text)
    (retrieved : List (Nat × Text)) (obj : Object),
    st'.objects (artifactKey whyJob) = some obj ∧
    obj.data = encodeUtf8 (dumps plainReprs (.dict (ragResult whyJob query answer
      (retrieved.map (·.2)) (retrieved.map fun s => snippetId s.1)))) ∧
    (retrieved.length : Int) ≤ 3 ∧ ∀ s ∈ retrieved, s.1 < 1 → s.2 = "new".toList := by
  obtain ⟨ref, st', hend⟩ := secondAnswers_end
  obtain ⟨query, answer, retrieved, obj, hstored, hdata, hcount, hsources⟩ :=
    answer_grounded { reprs := plainReprs } whyJob rfl {} leftovers st' (fun _ => rfl)
      [firstAnswers] secondAnswers ref leftovers_eq secondAnswers_honest hend
  refine ⟨st', query, answer, retrieved, obj, hstored, hdata, hcount 3 rfl (by decide), ?_⟩
  intro s hs hlt
  have hown := (hsources s hs).1 hlt
  obtain ⟨i, text⟩ := s
  obtain rfl : i = 0 := Nat.lt_one_iff.mp hlt
  exact (Option.some.inj hown).symm

/-- The second snippet of the first attempt is retrieved by the second. -/
theorem leftover_retrieved : ∃ (ref : Text) (st' : Stores Nat) (context ids : List Text),
    Runs.exec (cutOff { reprs := plainReprs } whyJob) {} [firstAnswers] = some leftovers ∧
    Runs.Along (Program.step Answer.act) HonestStep
      (pipeline { reprs := plainReprs } whyJob, leftovers) secondAnswers ∧
    attempt { reprs := plainReprs } whyJob leftovers secondAnswers =
      some (.pure (.ok ref), st') ∧
    (st'.objects (artifactKey whyJob)).map (·.data) = some (encodeUtf8 (dumps plainReprs
      (.dict (ragResult whyJob "why".toList "because".toList context ids)))) ∧
    ¬ (∀ text ∈ context, text ∈ snippetsOf secondAnswers) ∧
    ¬ ∀ id ∈ ids, ∃ i < (snippetsOf secondAnswers).length, id = snippetId i := by
  obtain ⟨ref, st', hend⟩ := secondAnswers_end
  refine ⟨ref, st', ["new".toList, "older".toList], [snippetId 0, snippetId 1],
    leftovers_eq, secondAnswers_honest, hend, ?_, by decide, ?_⟩
  · have hbytes : (attempt { reprs := plainReprs } whyJob leftovers secondAnswers).bind
        (fun s => (s.2.objects (artifactKey whyJob)).map (·.data)) =
      some (encodeUtf8 (dumps plainReprs (.dict (ragResult whyJob "why".toList "because".toList
        ["new".toList, "older".toList] [snippetId 0, snippetId 1])))) := by decide +kernel
    rwa [hend] at hbytes
  · intro h
    obtain ⟨i, hi, hid⟩ := h (snippetId 1) (List.mem_cons_of_mem _ List.mem_cons_self)
    have hone := snippetId_injective hid
    have hlength : (snippetsOf secondAnswers).length = 1 := rfl
    omega

end InferenceEngine
