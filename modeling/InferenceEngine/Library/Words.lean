import Mathlib.Data.List.Basic

/-!
# Words

The words of a text are its longest runs of letters, where a predicate says which letters are
blank. Words that are joined by a blank are the words of what they are joined to.
-/

namespace Words

set_option autoImplicit false

universe u
variable {α : Type u} {blank : α → Bool}

/-- The runs of letters between blanks. -/
def words (blank : α → Bool) (text : List α) : List (List α) :=
  (text.splitOnP blank).filter fun piece => !piece.isEmpty

/-- A list that a split can return: some letters, none of them blank. -/
structure IsWord (blank : α → Bool) (w : List α) : Prop where
  nonempty : w ≠ []
  letters : ∀ a ∈ w, blank a = false

theorem letters_of_mem_splitOnP {text piece : List α} (h : piece ∈ text.splitOnP blank) :
    ∀ a ∈ piece, blank a = false := by
  induction text generalizing piece with
  | nil =>
    rw [List.splitOnP_nil, List.mem_singleton] at h
    simp [h]
  | cons b text ih =>
    rw [List.splitOnP_cons_eq_if_modifyHead] at h
    by_cases hb : blank b = true
    · rw [if_pos hb, List.mem_cons] at h
      rcases h with rfl | h
      · simp
      · exact ih h
    · rw [if_neg hb] at h
      obtain ⟨first, rest, hsplit⟩ :=
        List.exists_cons_of_ne_nil (List.splitOnP_ne_nil blank text)
      rw [hsplit] at ih
      rw [hsplit, List.modifyHead_cons] at h
      rcases List.mem_cons.mp h with rfl | h
      · intro a ha
        rcases List.mem_cons.mp ha with rfl | ha
        · simpa using hb
        · exact ih List.mem_cons_self a ha
      · exact ih (List.mem_cons_of_mem first h)

theorem isWord_of_mem {text w : List α} (h : w ∈ words blank text) : IsWord blank w := by
  obtain ⟨hsplit, hkept⟩ := List.mem_filter.mp h
  refine ⟨?_, letters_of_mem_splitOnP hsplit⟩
  rintro rfl
  cases hkept

theorem words_append_cons {b : α} (hb : blank b = true) (before after : List α) :
    words blank (before ++ b :: after) = words blank before ++ words blank after := by
  unfold words
  rw [List.splitOnP_append_cons before after hb, List.filter_append]

theorem words_of_isWord {w : List α} (h : IsWord blank w) : words blank w = [w] := by
  unfold words
  rw [List.splitOnP_eq_singleton h.letters]
  apply List.filter_eq_self.mpr
  intro piece hpiece
  rw [List.mem_singleton.mp hpiece]
  simpa using h.nonempty

/-- Joined by a blank, words are found again. -/
theorem words_intercalate {b : α} (hb : blank b = true) {ws : List (List α)}
    (h : ∀ w ∈ ws, IsWord blank w) : words blank ([b].intercalate ws) = ws := by
  induction ws with
  | nil => rfl
  | cons w ws ih =>
    have hw := words_of_isWord (h w List.mem_cons_self)
    cases ws with
    | nil => simpa using hw
    | cons w' ws =>
      have hrest := ih fun v hv => h v (List.mem_cons_of_mem w hv)
      rw [List.intercalate_cons_cons, List.append_assoc]
      change words blank (w ++ b :: [b].intercalate (w' :: ws)) = w :: w' :: ws
      rw [words_append_cons hb, hw, hrest]
      rfl

end Words
