import InferenceEngine.Messages
import Mathlib.Data.List.DropRight

/-!
# Chunking

`app/domain/chunking.py`: overlapping windows over a stripped document. The loop is bounded by
the length of the text; every round moves the window on.
-/

namespace InferenceEngine

set_option autoImplicit false

/-- One contiguous slice of the document; `stop` is exclusive. -/
structure Chunk where
  index : Nat
  start : Nat
  stop : Nat
  text : Text
  deriving DecidableEq

theorem strip_prefix (chars s : Text) :
    strip chars s <+: s.dropWhile fun c => decide (c ∈ chars) :=
  List.rdropWhile_prefix _ _

theorem strip_eq_nil_iff {chars s : Text} : strip chars s = [] ↔ ∀ c ∈ s, c ∈ chars := by
  refine List.rdropWhile_eq_nil_iff.trans ?_
  constructor
  · intro h
    have hall : s.dropWhile (fun c => decide (c ∈ chars)) = [] := by
      apply List.eq_nil_iff_forall_not_mem.mpr
      intro c hc
      have hne := List.ne_nil_of_mem hc
      have hhead := List.head_dropWhile_not (fun c => decide (c ∈ chars)) hne
      rw [h _ (List.head_mem hne)] at hhead
      cases hhead
    intro c hc
    exact of_decide_eq_true (List.dropWhile_eq_nil_iff.mp hall c hc)
  · intro h c hc
    exact decide_eq_true (h c ((List.dropWhile_sublist _).subset hc))

theorem head?_strip {chars s : Text} {c : Char} (h : (strip chars s).head? = some c) :
    c ∉ chars := by
  obtain ⟨rest, hrest⟩ := strip_prefix chars s
  have hhead : (s.dropWhile fun c => decide (c ∈ chars)).head? = some c := by
    rw [← hrest, List.head?_append, h]
    rfl
  have hnot := List.head?_dropWhile_not (fun c => decide (c ∈ chars)) s
  rw [hhead] at hnot
  exact of_decide_eq_false hnot

theorem strip_prefix_of_head {chars s : Text} (h : ∀ c ∈ s.head?, c ∉ chars) :
    strip chars s <+: s := by
  have hself : (s.dropWhile fun c => decide (c ∈ chars)) = s := by
    cases s with
    | nil => rfl
    | cons c s =>
      apply List.dropWhile_cons_of_neg
      simpa using h c rfl
  have hprefix := strip_prefix chars s
  rwa [hself] at hprefix

/-- The `while` loop of `chunk_text`. -/
def chunkLoop (text : Text) (size stride : Nat) : Nat → Nat → Nat → List Chunk
  | 0, _, _ => []
  | fuel + 1, start, index =>
    if start < text.length then
      let stop := min (start + size) text.length
      let chunk := { index, start, stop, text := (text.drop start).take (stop - start) }
      if stop = text.length then [chunk]
      else chunk :: chunkLoop text size stride fuel (start + stride) (index + 1)
    else []

def chunkText (text : Text) (size overlap : Int) : Except Exn (List Chunk) :=
  if size ≤ 0 then
    .error (.valueError ("size must be positive, got ".toList ++ intText size))
  else if ¬ (0 ≤ overlap ∧ overlap < size) then
    .error (.valueError ("overlap must satisfy 0 <= overlap < size, got ".toList ++ intText overlap ++
      " (size=".toList ++ intText size ++ ")".toList))
  else
    let stripped := strip blanks text
    .ok (chunkLoop stripped size.toNat (size - overlap).toNat stripped.length 0 0)

section
variable {text : Text} {size stride : Nat}

/-- Once the bound covers the rest of the text, the loop has ended by itself. -/
theorem chunkLoop_fuel (hstride : 0 < stride) {fuel start : Nat} (index : Nat)
    (h : text.length ≤ start + fuel) (extra : Nat) :
    chunkLoop text size stride (fuel + extra) start index =
      chunkLoop text size stride fuel start index := by
  induction fuel generalizing start index with
  | zero =>
    have hend : ¬ start < text.length := by omega
    cases extra with
    | zero => rfl
    | succ n => simp only [chunkLoop, hend, if_false]
  | succ fuel ih =>
    rw [Nat.add_right_comm]
    simp only [chunkLoop]
    rw [ih (index + 1) (by omega)]

theorem chunkLoop_indices (fuel start index : Nat) :
    (chunkLoop text size stride fuel start index).map (·.index) =
      List.range' index (chunkLoop text size stride fuel start index).length := by
  induction fuel generalizing start index with
  | zero => rfl
  | succ fuel ih =>
    simp only [chunkLoop]
    split
    · split
      · rfl
      · simp only [List.map_cons, List.length_cons, List.range'_succ, ih]
    · rfl

theorem chunkLoop_slices (hsize : 0 < size) {fuel start index : Nat} {c : Chunk}
    (hc : c ∈ chunkLoop text size stride fuel start index) :
    c.start < c.stop ∧ c.stop ≤ text.length ∧
      c.text = (text.drop c.start).take (c.stop - c.start) := by
  induction fuel generalizing start index with
  | zero => cases hc
  | succ fuel ih =>
    simp only [chunkLoop] at hc
    split at hc
    · rename_i hlt
      have hhead : start < min (start + size) text.length := by omega
      split at hc
      · cases List.mem_singleton.mp hc
        exact ⟨hhead, Nat.min_le_right _ _, rfl⟩
      · rcases List.mem_cons.mp hc with rfl | hc
        · exact ⟨hhead, Nat.min_le_right _ _, rfl⟩
        · exact ih hc
    · cases hc

/-- The accepted arguments, and what is returned for them. -/
theorem chunkText_ok_iff {text : Text} {size overlap : Int} {chunks : List Chunk} :
    chunkText text size overlap = .ok chunks ↔ 0 < size ∧ 0 ≤ overlap ∧ overlap < size ∧
      chunks = chunkLoop (strip blanks text) size.toNat (size - overlap).toNat
        (strip blanks text).length 0 0 := by
  unfold chunkText
  split
  · simp only [reduceCtorEq, false_iff]
    omega
  · split
    · simp only [reduceCtorEq, false_iff]
      tauto
    · rename_i hsize hoverlap
      rw [not_not] at hoverlap
      simp only [Except.ok.injEq]
      constructor
      · rintro rfl
        exact ⟨by omega, hoverlap.1, hoverlap.2, rfl⟩
      · rintro ⟨_, _, _, rfl⟩
        rfl

theorem chunkText_indices {text : Text} {size overlap : Int} {chunks : List Chunk}
    (h : chunkText text size overlap = .ok chunks) :
    chunks.map (·.index) = List.range chunks.length := by
  obtain ⟨_, _, _, rfl⟩ := chunkText_ok_iff.mp h
  rw [chunkLoop_indices, List.range_eq_range']

example : (chunkText " abcdef ".toList 4 1).toOption = some
    [⟨0, 0, 4, "abcd".toList⟩, ⟨1, 3, 6, "def".toList⟩] := by decide +kernel

end

end InferenceEngine
