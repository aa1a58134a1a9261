import InferenceEngine.Coverage
import InferenceEngine.VectorIndex

/-!
# Offsets into the submitted document

`Chunk` documents `start` and `end` as offsets into the original text, and the pipeline stores
them with the vectors and in the manifest. `chunk_text` counts them in the stripped text: they
are shifted by the blanks in front of it.
-/

namespace InferenceEngine

set_option autoImplicit false

open Cuts

/-- `text[start:stop]`. -/
def slice (text : Text) (start stop : Nat) : Text := (text.drop start).take (stop - start)

/-- The chunk's offsets cut its text out of the document. -/
def Chunk.Addresses (c : Chunk) (document : Text) : Prop := slice document c.start c.stop = c.text

/-- A document without blanks in front of its first other character. -/
def Flush (document : Text) : Prop :=
  (∀ c ∈ document, c ∈ blanks) ∨ ∀ c ∈ document.head?, c ∉ blanks

def CutsOut (document : Text) (offsets : Json) (text : Text) : Prop :=
  ∃ start stop : Nat, offsets.field "start".toList = some (.int start) ∧
    offsets.field "end".toList = some (.int stop) ∧ slice document start stop = text

/-- The offsets stored for each chunk, with its vector and in the manifest, cut the chunk's text
out of the document. -/
def StoredOffsetsCut {V : Type} (cfg : EngineSettings) (job : InferenceJob) (document : Text)
    (chunks : List Chunk) (st : Stores V) : Prop :=
  ∀ i c, chunks[i]? = some c →
    (∃ v metadata, st.vectors (documentNamespace (documentId cfg.reprs job))
        (chunkId (documentId cfg.reprs job) i) = some (v, metadata) ∧
      CutsOut document (.dict metadata) c.text) ∧
    ∃ entry, (manifestEntries (embedManifest job (documentId cfg.reprs job) chunks))[i]? =
      some entry ∧ CutsOut document entry c.text

section
variable {text : Text} {size overlap : Int} {chunks : List Chunk}

theorem slice_append {front rest : Text} {start stop : Nat} (h : stop ≤ front.length) :
    slice (front ++ rest) start stop = slice front start stop := by
  unfold slice
  by_cases hle : start ≤ front.length
  · rw [List.drop_append_of_le_length hle]
    apply List.take_append_of_le_length
    rw [List.length_drop]
    omega
  · have hzero : stop - start = 0 := by omega
    rw [hzero, List.take_zero, List.take_zero]

theorem chunkText_addresses_strip (h : chunkText text size overlap = .ok chunks) {c : Chunk}
    (hc : c ∈ chunks) : c.stop ≤ (strip blanks text).length ∧ c.Addresses (strip blanks text) := by
  obtain ⟨hsize, _, _, rfl⟩ := chunkText_ok_iff.mp h
  obtain ⟨_, hle, hslice⟩ := chunkLoop_slices (by omega) hc
  exact ⟨hle, hslice.symm⟩

/-- Unless everything is stripped, the first chunk begins with what is left. -/
theorem chunkText_first (h : chunkText text size overlap = .ok chunks)
    (hleft : strip blanks text ≠ []) :
    ∃ c ∈ chunks, c.start = 0 ∧ 0 < c.stop ∧ c.text = (strip blanks text).take c.stop := by
  obtain ⟨hsize, hoverlap, hlt, rfl⟩ := chunkText_ok_iff.mp h
  obtain ⟨fuel, hfuel⟩ := Nat.exists_eq_succ_of_ne_zero
    (fun h0 => hleft (List.eq_nil_of_length_eq_zero h0))
  have hpos : 0 < (strip blanks text).length := by omega
  have hstop : 0 < stopAt (strip blanks text).length size.toNat 0 := by
    unfold stopAt
    omega
  rw [hfuel, chunkLoop_succ fuel 0 hpos]
  exact ⟨_, List.mem_cons_self, rfl, hstop, rfl⟩

/-- The offsets cut the chunks out of the text as it was passed in exactly when nothing is
stripped in front of it. -/
theorem addresses_iff (h : chunkText text size overlap = .ok chunks) :
    (∀ c ∈ chunks, c.Addresses text) ↔ Flush text := by
  constructor
  · intro hall
    by_cases hleft : strip blanks text = []
    · exact .inl (strip_eq_nil_iff.mp hleft)
    · obtain ⟨c, hc, hstart, hpos, htext⟩ := chunkText_first h hleft
      have hcut := hall c hc
      unfold Chunk.Addresses slice at hcut
      rw [htext, hstart, List.drop_zero, Nat.sub_zero] at hcut
      have hhead : text.head? = (strip blanks text).head? := by
        have hcut := congrArg List.head? hcut
        rwa [List.head?_take, List.head?_take, if_neg (by omega), if_neg (by omega)] at hcut
      apply Or.inr
      intro b hb
      rw [hhead] at hb
      exact head?_strip hb
  · intro hflush c hc
    obtain ⟨hstop, hcut⟩ := chunkText_addresses_strip h hc
    rcases hflush with hblank | hhead
    · have hnil := strip_eq_nil_iff.mpr hblank
      obtain ⟨_, _, _, rfl⟩ := chunkText_ok_iff.mp h
      rw [hnil] at hc
      cases hc
    · obtain ⟨rest, hrest⟩ := strip_prefix_of_head hhead
      unfold Chunk.Addresses at hcut ⊢
      rw [← hrest, slice_append hstop, hcut]

end

/-! ### The two places that store them -/

section
variable {document text : Text}

theorem cutsOut_int {offsets : Json} {start stop : Nat}
    (hstart : offsets.field "start".toList = some (.int start))
    (hstop : offsets.field "end".toList = some (.int stop)) :
    CutsOut document offsets text ↔ slice document start stop = text := by
  constructor
  · rintro ⟨start', stop', hstart', hstop', hslice⟩
    rw [hstart] at hstart'
    rw [hstop] at hstop'
    cases hstart'
    cases hstop'
    exact hslice
  · intro hslice
    exact ⟨start, stop, hstart, hstop, hslice⟩

theorem cutsOut_metadata {c : Chunk} :
    CutsOut document (.dict (chunkMetadata c)) c.text ↔ c.Addresses document :=
  cutsOut_int rfl rfl

theorem cutsOut_entry {c : Chunk} : CutsOut document (chunkEntry c) c.text ↔ c.Addresses document :=
  cutsOut_int rfl rfl

end

section
variable {V : Type} {cfg : EngineSettings} {embedAll : List Text → List V} {st : Stores V}
  {job : InferenceJob}

theorem runJob_stored {ref : Text} (h : (runJob cfg embedAll st job).1 = .ok ref) :
    ∃ chunks, documentChunks job = .ok chunks ∧
      (runJob cfg embedAll st job).2.objects (resultKey job "-manifest.json".toList) =
        some (manifestObject cfg job chunks) ∧
      ∀ i c, chunks[i]? = some c → ∃ v,
        (runJob cfg embedAll st job).2.vectors (documentNamespace (documentId cfg.reprs job))
          (chunkId (documentId cfg.reprs job) i) = some (v, chunkMetadata c) := by
  cases hpairs : embeddedChunks embedAll job with
  | error x =>
    rw [runJob_eq, hpairs] at h
    cases h
  | ok pairs =>
    obtain ⟨hchunks, _, _⟩ := embeddedChunks_ok hpairs
    refine ⟨pairs.map (·.1), hchunks, ?_, ?_⟩
    · rw [runJob_eq, hpairs]
      exact Function.update_self _ _ _
    · intro i c hc
      rw [List.getElem?_map, Option.map_eq_some_iff] at hc
      obtain ⟨pair, hpair, rfl⟩ := hc
      have hvectors := @vectors_runJob V cfg embedAll st job
        (documentId cfg.reprs job, chunkId (documentId cfg.reprs job) i)
      rw [wroteRecord_chunk hpairs, hpair] at hvectors
      exact ⟨pair.2, hvectors⟩

theorem documentChunks_document {document : Text} {chunks : List Chunk}
    (hdocument : requireStr job.payload "text".toList = .ok document)
    (h : documentChunks job = .ok chunks) :
    ∃ size overlap, chunkText document size overlap = .ok chunks := by
  obtain ⟨document', hdocument', h⟩ := except_bind_ok.mp h
  obtain ⟨size, _, h⟩ := except_bind_ok.mp h
  obtain ⟨overlap, _, h⟩ := except_bind_ok.mp h
  rw [hdocument] at hdocument'
  cases hdocument'
  exact ⟨size, overlap, h⟩

theorem storedOffsetsCut_iff {document : Text} {chunks : List Chunk}
    (hstored : ∀ i c, chunks[i]? = some c → ∃ v,
      st.vectors (documentNamespace (documentId cfg.reprs job))
        (chunkId (documentId cfg.reprs job) i) = some (v, chunkMetadata c)) :
    StoredOffsetsCut cfg job document chunks st ↔ ∀ c ∈ chunks, c.Addresses document := by
  constructor
  · intro hcut c hc
    obtain ⟨i, hi⟩ := List.mem_iff_getElem?.mp hc
    obtain ⟨_, entry, hentry, hcuts⟩ := hcut i c hi
    rw [manifestEntries_embedManifest, List.getElem?_map, hi] at hentry
    cases hentry
    exact cutsOut_entry.mp hcuts
  · intro hall i c hi
    have haddresses := hall c (List.mem_of_getElem? hi)
    obtain ⟨v, hv⟩ := hstored i c hi
    refine ⟨⟨v, _, hv, cutsOut_metadata.mpr haddresses⟩, chunkEntry c, ?_,
      cutsOut_entry.mpr haddresses⟩
    rw [manifestEntries_embedManifest, List.getElem?_map, hi]
    rfl

end

/-- Over every text with all valid windows, and over every completed job. -/
theorem offsets_address_document {V : Type} (cfg : EngineSettings) (embedAll : List Text → List V)
    (st : Stores V) :
    (∀ (text : Text) (size overlap : Int), 0 < size → 0 ≤ overlap → overlap < size →
      ∃ chunks, chunkText text size overlap = .ok chunks ∧
        ((∀ c ∈ chunks, c.Addresses text) ↔ Flush text)) ∧
    ∀ (job : InferenceJob) (document ref : Text),
      requireStr job.payload "text".toList = .ok document →
      (runJob cfg embedAll st job).1 = .ok ref →
      ∃ chunks, documentChunks job = .ok chunks ∧
        (runJob cfg embedAll st job).2.objects (resultKey job "-manifest.json".toList) =
          some (manifestObject cfg job chunks) ∧
        (StoredOffsetsCut cfg job document chunks (runJob cfg embedAll st job).2 ↔
          Flush document) := by
  constructor
  · intro text size overlap hsize hoverlap hlt
    have hok := (@chunkText_ok_iff text size overlap _).mpr ⟨hsize, hoverlap, hlt, rfl⟩
    exact ⟨_, hok, addresses_iff hok⟩
  · intro job document ref hdocument href
    obtain ⟨chunks, hchunks, hmanifest, hstored⟩ := runJob_stored href
    obtain ⟨size, overlap, hok⟩ := documentChunks_document hdocument hchunks
    exact ⟨chunks, hchunks, hmanifest, (storedOffsetsCut_iff hstored).trans (addresses_iff hok)⟩

def indentedJob : InferenceJob := embedJob 1 " ab".toList

theorem offsets_address_indented :
    (∃ chunks, chunkText " ab".toList 1 0 = .ok chunks ∧
      ((∀ c ∈ chunks, c.Addresses " ab".toList) ↔ Flush " ab".toList)) ∧
    ∃ chunks, documentChunks indentedJob = .ok chunks ∧
      (StoredOffsetsCut { reprs := plainReprs } indentedJob " ab".toList chunks
        (runJob { reprs := plainReprs } (·.map List.length) {} indentedJob).2 ↔
          Flush " ab".toList) := by
  have hdone : (runJob { reprs := plainReprs } (·.map List.length) {} indentedJob).1.toOption.isSome
      = true := by decide +kernel
  obtain ⟨htext, hjob⟩ := offsets_address_document { reprs := plainReprs } (·.map List.length) {}
  refine ⟨htext _ 1 0 (by decide) (by decide) (by decide), ?_⟩
  cases hrun : (runJob { reprs := plainReprs } (·.map List.length) {} indentedJob).1 with
  | error x =>
    rw [hrun] at hdone
    cases hdone
  | ok ref =>
    obtain ⟨chunks, hchunks, _, hiff⟩ := hjob indentedJob " ab".toList ref rfl hrun
    exact ⟨chunks, hchunks, hiff⟩

/-- The chunk "abc" of the text " abc" is said to end before its last letter. -/
theorem indented_misses :
    chunkText " abc".toList 512 64 = .ok [⟨0, 0, 3, "abc".toList⟩] ∧
    ¬ ∀ c ∈ [(⟨0, 0, 3, "abc".toList⟩ : Chunk)], c.Addresses " abc".toList := by
  refine ⟨chunkText_ok_iff.mpr ⟨by decide, by decide, by decide, by decide +kernel⟩, fun h => ?_⟩
  have hcut := h _ (List.mem_singleton_self _)
  revert hcut
  unfold Chunk.Addresses
  decide

end InferenceEngine
