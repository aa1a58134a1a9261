import InferenceEngine.Chunking
import InferenceEngine.Library.Cuts

/-!
# The chunks cover the document

The loop of `chunk_text` cuts the stripped text into the pieces of `Cuts`: it leaves by the
first of its two exits, with the piece that reaches the end.
-/

namespace InferenceEngine

set_option autoImplicit false

open Cuts

def chunkAt (text : Text) (size stride index : Nat) : Chunk where
  index := index
  start := index * stride
  stop := stopAt text.length size (index * stride)
  text := piece text (index * stride) (stopAt text.length size (index * stride))

section
variable {text : Text} {size overlap stride : Nat}

theorem chunkLoop_succ {start : Nat} (fuel index : Nat) (hlt : start < text.length) :
    chunkLoop text size stride (fuel + 1) start index =
      { index, start, stop := stopAt text.length size start,
        text := piece text start (stopAt text.length size start) } ::
        if stopAt text.length size start = text.length then []
        else chunkLoop text size stride fuel (start + stride) (index + 1) := by
  simp only [chunkLoop, if_pos hlt]
  unfold stopAt piece
  split <;> rfl

/-- From a round on, the loop makes the remaining chunks. -/
theorem chunkLoop_eq (hstride : 0 < stride) (hle : stride ≤ size) {fuel index : Nat}
    (hindex : index < count text.length size stride)
    (hfuel : text.length ≤ index * stride + fuel) :
    chunkLoop text size stride fuel (index * stride) index =
      (List.range' index (count text.length size stride - index)).map
        (chunkAt text size stride) := by
  induction fuel generalizing index with
  | zero =>
    have hstart := start_lt_of_lt_count hstride hle hindex
    omega
  | succ fuel ih =>
    have hstart := start_lt_of_lt_count hstride hle hindex
    have hleft : count text.length size stride - index =
        (count text.length size stride - (index + 1)) + 1 := by omega
    have hlast := stopAt_eq_iff hstride hle hindex
    rw [chunkLoop_succ fuel index hstart, hleft, List.range'_succ, List.map_cons]
    congr 1
    split
    · rename_i hstop
      have hend := hlast.mp hstop
      rw [hend, Nat.sub_self]
      rfl
    · rename_i hstop
      have hnext : index + 1 < count text.length size stride := by
        have hne : index + 1 ≠ count text.length size stride := fun h => hstop (hlast.mpr h)
        omega
      rw [← Nat.succ_mul]
      apply ih hnext
      rw [Nat.succ_mul]
      omega

theorem chunkLoop_start (hstride : 0 < stride) (hle : stride ≤ size) :
    chunkLoop text size stride text.length 0 0 =
      (List.range (count text.length size stride)).map (chunkAt text size stride) := by
  by_cases hpos : text.length = 0
  · rw [count_eq_zero_iff.mpr hpos, hpos]
    rfl
  · have hcount : 0 < count text.length size stride := by
      have hne : count text.length size stride ≠ 0 := fun h => hpos (count_eq_zero_iff.mp h)
      omega
    have hfuel : text.length ≤ 0 * stride + text.length := by omega
    have hloop := chunkLoop_eq hstride hle hcount hfuel
    rwa [Nat.zero_mul, Nat.sub_zero, ← List.range_eq_range'] at hloop

end

/-- What `chunk_text` makes of a stripped text. -/
structure Covers (text : Text) (size overlap : Nat) (chunks : List Chunk) : Prop where
  empty : chunks = [] ↔ text.length = 0
  single : text.length ≠ 0 → text.length ≤ size → chunks.length = 1
  several : size < text.length →
    chunks.length = (text.length - size) ⌈/⌉ (size - overlap) + 1
  chunk : ∀ i c, chunks[i]? = some c → c.index = i ∧ c.start = i * (size - overlap) ∧
    c.stop = min (c.start + size) text.length ∧
    c.text = (text.drop c.start).take (c.stop - c.start) ∧
    1 ≤ c.text.length ∧ c.text.length ≤ size
  last : ∀ i c, chunks[i]? = some c → (c.stop = text.length ↔ i + 1 = chunks.length)
  shared : ∀ i c d, chunks[i]? = some c → chunks[i + 1]? = some d →
    d.start + overlap = c.stop ∧ d.text.take overlap = c.text.drop (c.text.length - overlap)
  longer : ∀ i d, chunks[i + 1]? = some d → overlap < d.text.length
  whole : ∀ c rest, chunks = c :: rest →
    c.text ++ rest.flatMap (fun d => d.text.drop overlap) = text

section
variable {text : Text} {size overlap : Nat}

theorem getElem?_chunks {n i : Nat} {c : Chunk} {stride : Nat}
    (h : ((List.range n).map (chunkAt text size stride))[i]? = some c) :
    i < n ∧ c = chunkAt text size stride i := by
  rw [List.getElem?_map, Option.map_eq_some_iff] at h
  obtain ⟨j, hj, rfl⟩ := h
  obtain ⟨hlt, hget⟩ := List.getElem?_eq_some_iff.mp hj
  rw [List.getElem_range] at hget
  rw [List.length_range] at hlt
  exact ⟨hlt, by rw [hget]⟩

theorem length_chunkAt {stride index : Nat} :
    (chunkAt text size stride index).text.length =
      stopAt text.length size (index * stride) - index * stride :=
  length_piece (Nat.min_le_right _ _)

theorem covers_chunkLoop (hlt : overlap < size) :
    Covers text size overlap (chunkLoop text size (size - overlap) text.length 0 0) := by
  have hstride : 0 < size - overlap := by omega
  have hle : size - overlap ≤ size := Nat.sub_le _ _
  rw [chunkLoop_start hstride hle]
  refine ⟨?_, ?_, ?_, ?_, ?_, ?_, ?_, ?_⟩
  · rw [List.map_eq_nil_iff, List.range_eq_nil, count_eq_zero_iff]
  · intro hpos hshort
    rw [List.length_map, List.length_range, count_of_le hpos hshort]
  · intro hlong
    rw [List.length_map, List.length_range, count_of_lt hlong]
  · intro i c hc
    obtain ⟨hi, rfl⟩ := getElem?_chunks hc
    have hstart := start_lt_of_lt_count hstride hle hi
    refine ⟨rfl, rfl, rfl, rfl, ?_, ?_⟩
    · rw [length_chunkAt]
      unfold stopAt
      omega
    · rw [length_chunkAt]
      unfold stopAt
      omega
  · intro i c hc
    obtain ⟨hi, rfl⟩ := getElem?_chunks hc
    rw [List.length_map, List.length_range]
    exact stopAt_eq_iff hstride hle hi
  · intro i c d hc hd
    obtain ⟨hi, rfl⟩ := getElem?_chunks hc
    obtain ⟨hnext, rfl⟩ := getElem?_chunks hd
    have hpos : text.length ≠ 0 := by
      have := start_lt_of_lt_count hstride hle hi
      omega
    have hfull := (succ_lt_count_iff hstride hpos).mp hnext
    have hstart := start_lt_of_lt_count hstride hle hnext
    have hstop : stopAt text.length size (i * (size - overlap)) = i * (size - overlap) + size := by
      unfold stopAt
      omega
    have hshift : (i + 1) * (size - overlap) = i * (size - overlap) + (size - overlap) :=
      Nat.succ_mul _ _
    refine ⟨?_, ?_⟩
    · change (i + 1) * (size - overlap) + overlap = stopAt text.length size (i * (size - overlap))
      omega
    · rw [length_chunkAt, hstop]
      change (piece text _ _).take overlap = (piece text _ _).drop _
      rw [take_piece, drop_piece, hstop]
      · congr 1
        · omega
        · omega
      · unfold stopAt
        omega
  · intro i d hd
    obtain ⟨hnext, rfl⟩ := getElem?_chunks hd
    have hpos : text.length ≠ 0 := by
      have := start_lt_of_lt_count hstride hle hnext
      omega
    have hfull := (succ_lt_count_iff hstride hpos).mp hnext
    have hshift : (i + 1) * (size - overlap) = i * (size - overlap) + (size - overlap) :=
      Nat.succ_mul _ _
    rw [length_chunkAt]
    unfold stopAt
    omega
  · intro c rest hchunks
    have hpos : text.length ≠ 0 := by
      intro hzero
      rw [count_eq_zero_iff.mpr hzero] at hchunks
      cases hchunks
    obtain ⟨n, hn⟩ : ∃ n, count text.length size (size - overlap) = n + 1 := by
      have hne : count text.length size (size - overlap) ≠ 0 := by
        intro h
        exact hpos (count_eq_zero_iff.mp h)
      exact Nat.exists_eq_succ_of_ne_zero hne
    have hwhole := reassemble hlt text hpos
    rw [hn, List.range_succ_eq_map, List.map_cons, List.map_map] at hchunks
    obtain ⟨rfl, rfl⟩ := List.cons.inj hchunks
    rw [hn, Nat.add_sub_cancel] at hwhole
    rw [List.flatMap_map]
    unfold chunkAt
    rw [Nat.zero_mul]
    exact hwhole

end

/-- `chunk_text` raises for invalid arguments only, and otherwise leaves its loop by itself and
covers the stripped text. -/
theorem chunkText_covers (text : Text) (size overlap : Int) :
    ((∃ msg, chunkText text size overlap = .error (.valueError msg)) ↔
      size ≤ 0 ∨ ¬ (0 ≤ overlap ∧ overlap < size)) ∧
    ((∃ chunks, chunkText text size overlap = .ok chunks) ↔
      0 < size ∧ 0 ≤ overlap ∧ overlap < size) ∧
    ∀ chunks, chunkText text size overlap = .ok chunks →
      Covers (strip blanks text) size.toNat overlap.toNat chunks ∧
      ∀ extra, chunkLoop (strip blanks text) size.toNat (size - overlap).toNat
        ((strip blanks text).length + extra) 0 0 = chunks := by
  have hok : (∃ chunks, chunkText text size overlap = .ok chunks) ↔
      0 < size ∧ 0 ≤ overlap ∧ overlap < size := by
    constructor
    · rintro ⟨chunks, h⟩
      obtain ⟨hsize, hlow, hhigh, _⟩ := chunkText_ok_iff.mp h
      exact ⟨hsize, hlow, hhigh⟩
    · rintro ⟨hsize, hlow, hhigh⟩
      exact ⟨_, chunkText_ok_iff.mpr ⟨hsize, hlow, hhigh, rfl⟩⟩
  refine ⟨?_, hok, ?_⟩
  · constructor
    · rintro ⟨msg, h⟩
      by_contra hvalid
      rw [not_or, not_not] at hvalid
      obtain ⟨chunks, hchunks⟩ := hok.mpr ⟨by omega, hvalid.2.1, hvalid.2.2⟩
      rw [hchunks] at h
      cases h
    · intro hinvalid
      unfold chunkText
      split
      · exact ⟨_, rfl⟩
      · rename_i hsize
        rw [if_pos (by omega)]
        exact ⟨_, rfl⟩
  · intro chunks h
    obtain ⟨hsize, hlow, hhigh, rfl⟩ := chunkText_ok_iff.mp h
    have hstride : (size - overlap).toNat = size.toNat - overlap.toNat := by omega
    rw [hstride]
    refine ⟨covers_chunkLoop (by omega), fun extra => ?_⟩
    apply chunkLoop_fuel (by omega)
    omega

end InferenceEngine
