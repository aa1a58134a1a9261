import InferenceEngine.Engine
import InferenceEngine.Library.Conditions

/-!
# What a pipeline calls, and in which order

A run of a pipeline makes each of its calls at most once, in the order of the source, apart from
the tries of its put. It reads and writes one namespace and puts under one key, and the artifact of
a RAG query is made from the hits of its own query.
-/

namespace InferenceEngine

set_option autoImplicit false

open Programs

/-- The places of `pipelines.py` at which a port is called. -/
inductive Site where
  | search | embedTexts | upsert | embedQuery | query | complete | put
  deriving DecidableEq

def Site.rank : Site → Nat
  | .search => 1
  | .embedTexts => 2
  | .upsert => 3
  | .embedQuery => 4
  | .query => 5
  | .complete => 6
  | .put => 7

/-- What a run has been told so far. -/
structure Progress where
  last : Option Site := none
  found : List Text := []
  indexed : List Text := []
  hits : List VectorMatch := []
  stored : Option Object := none

namespace Progress

variable {V : Type}

/-- The rank of the last call, zero before the first. -/
def rank (g : Progress) : Nat := (g.last.map Site.rank).getD 0

/-- The site of a call. The texts are embedded before anything is stored, and a RAG query embeds
them only if its search has found some. -/
def siteOf (g : Progress) : Call V → Site
  | .search _ _ => .search
  | .embed _ =>
    if g.last = none ∨ (g.last = some .search ∧ g.found ≠ []) then .embedTexts else .embedQuery
  | .upsert _ _ => .upsert
  | .query _ _ _ => .query
  | .complete _ _ => .complete
  | .putObject _ _ _ => .put

theorem siteOf_embed_cases (g : Progress) (texts : List Text) :
    g.siteOf (.embed texts : Call V) = .embedTexts ∨
      g.siteOf (.embed texts : Call V) = .embedQuery :=
  ite_eq_or_eq _ _ _

theorem eq_search_of_siteOf {g : Progress} {call : Call V} (h : g.siteOf call = .search) :
    ∃ query n, call = .search query n := by
  cases call with
  | search query n => exact ⟨query, n, rfl⟩
  | embed texts => rcases g.siteOf_embed_cases texts with he | he <;> cases he.symm.trans h
  | _ => cases h

theorem eq_upsert_of_siteOf {g : Progress} {call : Call V} (h : g.siteOf call = .upsert) :
    ∃ records ns, call = .upsert records ns := by
  cases call with
  | upsert records ns => exact ⟨records, ns, rfl⟩
  | embed texts => rcases g.siteOf_embed_cases texts with he | he <;> cases he.symm.trans h
  | _ => cases h

theorem eq_query_of_siteOf {g : Progress} {call : Call V} (h : g.siteOf call = .query) :
    ∃ vector topK ns, call = .query vector topK ns := by
  cases call with
  | query vector topK ns => exact ⟨vector, topK, ns, rfl⟩
  | embed texts => rcases g.siteOf_embed_cases texts with he | he <;> cases he.symm.trans h
  | _ => cases h

theorem eq_put_of_siteOf {g : Progress} {call : Call V} (h : g.siteOf call = .put) :
    ∃ key data contentType, call = .putObject key data contentType := by
  cases call with
  | putObject key data contentType => exact ⟨key, data, contentType, rfl⟩
  | embed texts => rcases g.siteOf_embed_cases texts with he | he <;> cases he.symm.trans h
  | _ => cases h

def next (g : Progress) : (call : Call V) → call.Reply → Progress
  | .search query n, r =>
    { g with last := some (g.siteOf (.search query n : Call V)),
             found := match r with
               | .ok results => results.map (·.snippet)
               | .error _ => g.found }
  | .upsert records ns, r =>
    { g with last := some (g.siteOf (.upsert records ns)),
             indexed := match r with
               | .ok () => g.found
               | .error _ => g.indexed }
  | .query vector topK ns, r =>
    { g with last := some (g.siteOf (.query vector topK ns)),
             hits := match r with
               | .ok hits => hits
               | .error _ => g.hits }
  | .putObject key data contentType, r =>
    { g with last := some (g.siteOf (.putObject key data contentType : Call V)),
             stored := match r with
               | .ok () => some { data, contentType }
               | .error _ => g.stored }
  | call, _ => { g with last := some (g.siteOf call) }

@[simp] theorem next_last (g : Progress) (call : Call V) (r : call.Reply) :
    (g.next call r).last = some (g.siteOf call) := by
  cases call <;> rfl

@[simp] theorem next_rank (g : Progress) (call : Call V) (r : call.Reply) :
    (g.next call r).rank = (g.siteOf call).rank := by
  rw [rank, next_last]
  rfl

theorem next_found (g : Progress) {call : Call V} (r : call.Reply)
    (h : g.siteOf call ≠ .search) : (g.next call r).found = g.found := by
  cases call with
  | search query n => exact absurd rfl h
  | _ => rfl

theorem next_indexed (g : Progress) {call : Call V} (r : call.Reply)
    (h : g.siteOf call ≠ .upsert) : (g.next call r).indexed = g.indexed := by
  cases call with
  | upsert records ns => exact absurd rfl h
  | _ => rfl

theorem next_hits (g : Progress) {call : Call V} (r : call.Reply)
    (h : g.siteOf call ≠ .query) : (g.next call r).hits = g.hits := by
  cases call with
  | query vector topK ns => exact absurd rfl h
  | _ => rfl

theorem next_stored (g : Progress) {call : Call V} (r : call.Reply)
    (h : g.siteOf call ≠ .put) : (g.next call r).stored = g.stored := by
  cases call with
  | putObject key data contentType => exact absurd rfl h
  | _ => rfl

end Progress

def jobNamespace (r : Reprs) (job : InferenceJob) : Text :=
  match job.jobType with
  | .ragQuery => "job:".toList ++ uuidText job.id
  | .embedDocument => documentNamespace (documentId r job)

def contextOf (r : Reprs) (hits : List VectorMatch) : List Text :=
  hits.filterMap fun m => (m.metadata.lookup "text".toList).map (Json.text r)

def ragArtifact (r : Reprs) (job : InferenceJob) (query answer : Text) (hits : List VectorMatch) :
    List UInt8 :=
  encodeUtf8 (dumps r (.dict (ragResult job query answer (contextOf r hits) (hits.map (·.id)))))

section
variable {V : Type}

def Carries (cfg : EngineSettings) (job : InferenceJob) (g : Progress) : Call V → Prop
  | .upsert records ns => ns = jobNamespace cfg.reprs job ∧
    (job.jobType = .ragQuery → g.last = some .embedTexts ∧
      ∃ pairs, records = snippetRecords pairs ∧ pairs.map (·.2) = g.found)
  | .query _ topK ns => ns = jobNamespace cfg.reprs job ∧
    optionalInt job.payload "top_k".toList 3 = .ok topK ∧ g.found ≠ [] ∧ g.indexed = g.found
  | .putObject key data _ => key = artifactKey job ∧
    (job.jobType = .ragQuery → ∃ query answer, data = ragArtifact cfg.reprs job query answer g.hits)
  | _ => True

/-- The call comes later in the source than the last one, or is another try of a put. -/
def Progress.Follows (g : Progress) (call : Call V) : Prop :=
  g.rank < (g.siteOf call).rank ∨ (g.siteOf call = .put ∧ g.last = some .put ∧ g.stored = none)

/-- What has been established belongs to calls that have been made. -/
structure Progress.Sound (g : Progress) : Prop where
  found : g.rank < Site.search.rank → g.found = []
  indexed : g.rank < Site.upsert.rank → g.indexed = []
  hits : g.rank < Site.query.rank → g.hits = []
  stored : g.stored ≠ none → g.rank = Site.put.rank

theorem Progress.Sound.init : ({} : Progress).Sound :=
  ⟨fun _ => rfl, fun _ => rfl, fun _ => rfl, fun h => absurd rfl h⟩

theorem Site.rank_le (site : Site) : site.rank ≤ Site.put.rank := by
  cases site <;> decide

theorem Progress.Follows.stored {g : Progress} {call : Call V} (hg : g.Sound)
    (h : g.Follows call) : g.stored = none := by
  by_contra hstored
  have hrank := hg.stored hstored
  rcases h with hlt | ⟨-, -, hnone⟩
  · have hle := (g.siteOf call).rank_le
    omega
  · exact hstored hnone

theorem Progress.Follows.lt {g : Progress} {call : Call V} (h : g.Follows call)
    (hput : g.siteOf call ≠ .put) : g.rank < (g.siteOf call).rank :=
  h.resolve_right fun hretry => hput hretry.1

theorem Progress.Follows.lt_of_lt {g : Progress} {call : Call V} (h : g.Follows call) {n : Nat}
    (hn : n ≤ Site.put.rank) (hlt : (g.siteOf call).rank < n) : g.rank < n := by
  rcases h with hfollows | ⟨hput, -, -⟩
  · omega
  · rw [hput] at hlt
    omega

theorem Progress.Sound.next {g : Progress} {call : Call V} (hg : g.Sound) (h : g.Follows call)
    (r : call.Reply) : (g.next call r).Sound := by
  have before : ∀ site : Site, (g.next call r).rank < site.rank →
      g.siteOf call ≠ site ∧ g.rank < site.rank := by
    intro site hlt
    rw [next_rank] at hlt
    refine ⟨?_, h.lt_of_lt site.rank_le hlt⟩
    rintro rfl
    omega
  refine ⟨fun hlt => ?_, fun hlt => ?_, fun hlt => ?_, fun hstored => ?_⟩
  · obtain ⟨hsite, hrank⟩ := before .search hlt
    exact (next_found g r hsite).trans (hg.found hrank)
  · obtain ⟨hsite, hrank⟩ := before .upsert hlt
    exact (next_indexed g r hsite).trans (hg.indexed hrank)
  · obtain ⟨hsite, hrank⟩ := before .query hlt
    exact (next_hits g r hsite).trans (hg.hits hrank)
  · rw [next_rank]
    by_cases hput : g.siteOf call = .put
    · rw [hput]
    · exact absurd ((next_stored g r hput).trans (h.stored hg)) hstored

def callOrder (V : Type) (cfg : EngineSettings) (job : InferenceJob) :
    Policy (Call V) Call.Reply Progress where
  allowed g call := g.Follows call ∧ Carries cfg job g call
  next call r g := g.next call r

/-- A run that returns has stored its artifact. -/
def StoredIfOk (r : Except Exn Text) (g : Progress) : Prop := ∀ ref, r = .ok ref → g.stored ≠ none

namespace Pipe

variable {cfg : EngineSettings} {job : InferenceJob} {g : Progress} {α β : Type}

theorem orderly_ofExcept {x : Except Exn α} {f : α → Pipe V Text}
    (h : ∀ a, x = .ok a → (f a).run.Obeys (callOrder V cfg job) g StoredIfOk) :
    (ofExcept x >>= f).run.Obeys (callOrder V cfg job) g StoredIfOk := by
  apply Program.obeys_exceptBind.mpr
  cases x with
  | ok a => exact h a rfl
  | error x =>
    intro ref href
    cases href

theorem orderly_bind {x : Pipe V α} {f : α → Pipe V Text} {P : α → Progress → Prop}
    (hx : x.run.Obeys (callOrder V cfg job) g fun r g => ∀ a, r = .ok a → P a g)
    (hf : ∀ a g, P a g → (f a).run.Obeys (callOrder V cfg job) g StoredIfOk) :
    (x >>= f).run.Obeys (callOrder V cfg job) g StoredIfOk := by
  apply Program.obeys_exceptBind.mpr
  apply hx.mono
  intro r g hr
  cases r with
  | ok a => exact hf a g (hr a rfl)
  | error x =>
    intro ref href
    cases href

theorem orderly_unlessEmpty {γ : Type} {xs : List γ} {b : β} {call : Pipe V β}
    {P : β → Progress → Prop} (hb : xs = [] → P b g)
    (hcall : xs ≠ [] → call.run.Obeys (callOrder V cfg job) g fun r g => ∀ a, r = .ok a → P a g) :
    (unlessEmpty xs b call).run.Obeys (callOrder V cfg job) g
      fun r g => ∀ a, r = .ok a → P a g := by
  unfold unlessEmpty
  by_cases hxs : xs = []
  · rw [if_pos (List.isEmpty_iff.mpr hxs)]
    intro a ha
    cases ha
    exact hb hxs
  · rw [if_neg (mt List.isEmpty_iff.mp hxs)]
    exact hcall hxs

theorem orderly_callPut {key : Text} {data : List UInt8} {contentType : Text}
    (hcarries : ∀ g' : Progress, g'.hits = g.hits →
      Carries cfg job g' (.putObject key data contentType : Call V))
    (hfollows : g.Follows (.putObject key data contentType : Call V)) (hstored : g.stored = none)
    (left : Nat) :
    (callPut key data contentType left).Obeys (callOrder V cfg job) g
      fun r g => r = .ok () → g.stored ≠ none := by
  have once : ∀ g : Progress, g.Follows (.putObject key data contentType : Call V) →
      Carries cfg job g (.putObject key data contentType : Call V) → g.stored = none →
      (putOnce key data contentType).Obeys (callOrder V cfg job) g fun r g' =>
        g'.last = some .put ∧ g'.hits = g.hits ∧ (r = .ok () ↔ g'.stored ≠ none) := by
    intro g hfollows hcarries hstored
    refine ⟨⟨hfollows, hcarries⟩, fun r => ?_⟩
    cases r with
    | ok u => exact ⟨rfl, rfl, fun _ => Option.some_ne_none _, fun _ => rfl⟩
    | error x =>
      refine ⟨rfl, rfl, ?_, fun h => absurd hstored h⟩
      intro h
      cases h
  induction left generalizing g with
  | zero =>
    apply (once g hfollows (hcarries g rfl) hstored).mono
    exact fun r g' hr => hr.2.2.mp
  | succ left ih =>
    apply Program.obeys_bind.mpr
    apply (once g hfollows (hcarries g rfl) hstored).mono
    intro r g' hr
    obtain ⟨hlast, hhits, hiff⟩ := hr
    cases r with
    | ok u => exact hiff.mp
    | error x =>
      have hnone : g'.stored = none := by
        by_contra hsome
        cases hiff.mpr hsome
      cases x with
      | transient msg =>
        exact ih (fun g'' h => hcarries g'' (h.trans hhits)) (.inr ⟨rfl, hlast, hnone⟩) hnone
      | _ =>
        intro h
        cases h

theorem orderly_putBytes {key : Text} {data : List UInt8} {contentType : Text}
    (hcarries : ∀ g' : Progress, g'.hits = g.hits →
      Carries cfg job g' (.putObject key data contentType : Call V))
    (hrank : g.rank < Site.put.rank) (hstored : g.stored = none) :
    (putBytes cfg key data contentType : Pipe V Text).run.Obeys (callOrder V cfg job) g
      StoredIfOk := by
  apply Program.obeys_exceptBind.mpr
  apply (orderly_callPut hcarries (.inl hrank) hstored _).mono
  intro r g hr
  cases r with
  | ok u => exact fun _ _ => hr rfl
  | error x =>
    intro ref href
    cases href

end Pipe

variable {cfg : EngineSettings} {job : InferenceJob}

/-- A run of a RAG query that has come up to a site, with what it has found, indexed and hit. -/
structure Progress.Upto (g : Progress) (site : Site) (texts indexed : List Text)
    (hits : List VectorMatch) : Prop where
  rank : g.rank ≤ site.rank
  last : g.last ≠ none
  searched : g.last = some .search → texts = []
  found : g.found = texts
  indexed : g.indexed = indexed
  hits : g.hits = hits
  stored : g.stored = none

namespace Progress.Upto

variable {g : Progress} {site : Site} {texts indexed : List Text} {hits : List VectorMatch}

theorem follows {call : Call V} (hg : g.Upto site texts indexed hits)
    (h : site.rank < (g.siteOf call).rank) : g.Follows call :=
  .inl (Nat.lt_of_le_of_lt hg.rank h)

theorem next {call : Call V} (hg : g.Upto site texts indexed hits) (r : call.Reply)
    (hsite : g.siteOf call = .embedQuery ∨ g.siteOf call = .complete) :
    (g.next call r).Upto (g.siteOf call) texts indexed hits := by
  have hsame : g.next call r = { g with last := some (g.siteOf call) } := by
    cases call with
    | embed => rfl
    | complete => rfl
    | _ => simp [siteOf] at hsite
  refine ⟨Nat.le_of_eq (next_rank g call r), ?_, ?_, ?_, ?_, ?_, ?_⟩
  · rw [next_last]
    exact Option.some_ne_none _
  · intro hsearch
    rw [next_last, Option.some_inj] at hsearch
    rw [hsearch] at hsite
    simp at hsite
  · rw [hsame, ← hg.found]
  · rw [hsame, ← hg.indexed]
  · rw [hsame, ← hg.hits]
  · rw [hsame, ← hg.stored]

theorem siteOf_embed (hg : g.Upto site texts indexed hits) (batch : List Text) :
    g.siteOf (.embed batch : Call V) = .embedQuery := by
  apply if_neg
  intro h
  rcases h with hnone | ⟨hsearch, hfound⟩
  · exact hg.last hnone
  · exact hfound (hg.found.trans (hg.searched hsearch))

end Progress.Upto

theorem snippetRecords_eq_nil {pairs : List (V × Text)} :
    snippetRecords pairs = [] ↔ pairs.map (·.2) = [] := by
  simp [snippetRecords]

theorem orderly_ragQueryRun (hty : job.jobType = .ragQuery) :
    (ragQueryRun (V := V) cfg job).run.Obeys (callOrder V cfg job) {} StoredIfOk := by
  have hns : "job:".toList ++ uuidText job.id = jobNamespace cfg.reprs job := by
    rw [jobNamespace, hty]
  have hkey : resultKey job ".json".toList = artifactKey job := by
    rw [artifactKey, hty]
    rfl
  unfold ragQueryRun
  apply Pipe.orderly_ofExcept
  intro query _
  apply Pipe.orderly_ofExcept
  intro topK htopK
  apply Pipe.orderly_bind
    (P := fun results g => g = { last := some .search, found := results.map (·.snippet) })
  · refine ⟨⟨.inl (Nat.zero_lt_succ 0), trivial⟩, ?_⟩
    intro r results hr
    cases hr
    rfl
  intro results g hg
  generalize results.map (·.snippet) = texts at hg ⊢
  apply Pipe.orderly_bind
    (P := fun _ g => g.Upto .embedTexts texts [] [] ∧ (texts ≠ [] → g.last = some .embedTexts))
  · subst hg
    apply Pipe.orderly_unlessEmpty
    · exact fun hempty =>
        ⟨⟨Nat.le_succ 1, Option.some_ne_none _, fun _ => hempty, rfl, rfl, rfl, rfl⟩,
          fun hne => absurd hempty hne⟩
    · intro hne
      have hsite : Progress.siteOf { last := some .search, found := texts }
          (.embed texts : Call V) = .embedTexts := if_pos (.inr ⟨rfl, hne⟩)
      refine ⟨⟨.inl ?_, trivial⟩, ?_⟩
      · rw [hsite]
        exact Nat.lt_succ_self 1
      · intro r vectors _
        refine ⟨⟨Nat.le_of_eq ?_, Option.some_ne_none _, ?_, rfl, rfl, rfl, rfl⟩,
          fun _ => congrArg some hsite⟩
        · exact (Progress.next_rank _ _ _).trans (congrArg Site.rank hsite)
        · intro h
          cases hsite.symm.trans (Option.some.inj h)
  intro vectors g hg
  obtain ⟨hg, hembedded⟩ := hg
  apply Pipe.orderly_ofExcept
  intro pairs hpairs
  obtain ⟨-, rfl⟩ := zipStrict_ok hpairs
  apply Pipe.orderly_bind
    (P := fun _ g => g.Upto .upsert (pairs.map (·.2)) (pairs.map (·.2)) [])
  · apply Pipe.orderly_unlessEmpty
    · intro hempty
      rw [snippetRecords_eq_nil] at hempty
      exact { hg with
        rank := Nat.le_succ_of_le hg.rank
        indexed := hg.indexed.trans hempty.symm }
    · intro hne
      rw [ne_eq, snippetRecords_eq_nil] at hne
      refine ⟨⟨hg.follows (Nat.lt_succ_self 2), hns, fun _ => ⟨hembedded hne, pairs, rfl, ?_⟩⟩, ?_⟩
      · exact hg.found.symm
      · intro r u hr
        cases hr
        exact ⟨Nat.le_refl 3, Option.some_ne_none _, (fun h => by cases h), hg.found, hg.found, hg.hits, hg.stored⟩
  intro _ g hg
  apply Pipe.orderly_bind
    (P := fun _ g => g.Upto .embedQuery (pairs.map (·.2)) (pairs.map (·.2)) [])
  · have hsite := hg.siteOf_embed (V := V) [query]
    refine ⟨⟨hg.follows ?_, trivial⟩, fun r _ _ => ?_⟩
    · rw [hsite]
      exact Nat.lt_succ_self 3
    · have hnext := hg.next r (.inl hsite)
      rwa [hsite] at hnext
  intro embedded g hg
  apply Pipe.orderly_ofExcept
  intro queryVector _
  apply Pipe.orderly_bind
    (P := fun hits g => g.Upto .query (pairs.map (·.2)) (pairs.map (·.2)) hits)
  · apply Pipe.orderly_unlessEmpty
    · exact fun _ => { hg with rank := Nat.le_succ_of_le hg.rank }
    · intro hne
      rw [ne_eq, snippetRecords_eq_nil, ← hg.found] at hne
      refine ⟨⟨hg.follows (Nat.lt_succ_self 4), hns, htopK, hne, hg.indexed.trans hg.found.symm⟩, ?_⟩
      intro r hits hr
      cases hr
      exact ⟨Nat.le_refl 5, Option.some_ne_none _, (fun h => by cases h), hg.found, hg.indexed, rfl, hg.stored⟩
  intro hits g hg
  apply Pipe.orderly_bind
    (P := fun _ g => g.Upto .complete (pairs.map (·.2)) (pairs.map (·.2)) hits)
  · exact ⟨⟨hg.follows (Nat.lt_succ_self 5), trivial⟩, fun r _ _ => hg.next r (.inr rfl)⟩
  intro answer g hg
  apply Pipe.orderly_putBytes
  · intro g' hhits
    refine ⟨hkey, fun _ => ⟨query, answer, ?_⟩⟩
    rw [hhits, hg.hits]
    rfl
  · exact Nat.lt_succ_of_le hg.rank
  · exact hg.stored

theorem orderly_embedDocumentRun (hty : job.jobType = .embedDocument) :
    (embedDocumentRun (V := V) cfg job).run.Obeys (callOrder V cfg job) {} StoredIfOk := by
  have hns : documentNamespace (documentId cfg.reprs job) = jobNamespace cfg.reprs job := by
    rw [jobNamespace, hty]
  have hkey : resultKey job "-manifest.json".toList = artifactKey job := by
    rw [artifactKey, hty]
    rfl
  have hnotRag : job.jobType ≠ .ragQuery := by
    rw [hty]
    simp
  unfold embedDocumentRun
  apply Pipe.orderly_ofExcept
  intro document _
  apply Pipe.orderly_ofExcept
  intro size _
  apply Pipe.orderly_ofExcept
  intro overlap _
  apply Pipe.orderly_ofExcept
  intro chunks _
  apply Pipe.orderly_bind (P := fun _ g => g.rank ≤ Site.embedTexts.rank ∧ g.stored = none)
  · apply Pipe.orderly_unlessEmpty
    · exact fun _ => ⟨Nat.zero_le 2, rfl⟩
    · exact fun _ => ⟨⟨.inl (Nat.zero_lt_succ 1), trivial⟩, fun r _ _ => ⟨Nat.le_refl 2, rfl⟩⟩
  intro vectors g hg
  apply Pipe.orderly_ofExcept
  intro pairs _
  apply Pipe.orderly_bind (P := fun _ g => g.rank ≤ Site.upsert.rank ∧ g.stored = none)
  · apply Pipe.orderly_unlessEmpty
    · exact fun _ => ⟨Nat.le_succ_of_le hg.1, hg.2⟩
    · exact fun _ => ⟨⟨.inl (Nat.lt_succ_of_le hg.1), hns, fun h => absurd h hnotRag⟩,
        fun r _ _ => ⟨Nat.le_refl 3, hg.2⟩⟩
  intro _ g hg
  apply Pipe.orderly_putBytes
  · exact fun g' _ => ⟨hkey, fun h => absurd h hnotRag⟩
  · exact Nat.lt_of_le_of_lt hg.1 (by decide)
  · exact hg.2

theorem orderly_pipeline (cfg : EngineSettings) (job : InferenceJob) :
    (pipeline (V := V) cfg job).Obeys (callOrder V cfg job) {} StoredIfOk := by
  unfold pipeline
  cases hty : job.jobType with
  | ragQuery => exact orderly_ragQueryRun hty
  | embedDocument => exact orderly_embedDocumentRun hty

end

end InferenceEngine
