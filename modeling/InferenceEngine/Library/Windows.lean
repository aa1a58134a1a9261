import Mathlib.Data.List.Nodup
import Mathlib.Data.List.Range

/-!
# Windows of a numbered log

A log numbers its items 1, 2, 3, ... in the order of their appends and may forget a prefix.
`Window num last l` says that `l` is what remains of such a log after `last` appends: the
items at its end, without gaps.
-/

namespace Windows

set_option autoImplicit false

universe u
variable {α : Type u} {num : α → Nat} {last : Nat} {l : List α} {a b : α}

/-- The items `l` are the last ones of a log of length `last`. -/
structure Window (num : α → Nat) (last : Nat) (l : List α) : Prop where
  length_le : l.length ≤ last
  nums : l.map num = List.range' (last + 1 - l.length) l.length

theorem window_nil (num : α → Nat) : Window num 0 [] :=
  ⟨le_rfl, rfl⟩

namespace Window

theorem push (h : Window num last l) (ha : num a = last + 1) :
    Window num (last + 1) (l ++ [a]) where
  length_le := by
    have := h.length_le
    simp only [List.length_append, List.length_cons, List.length_nil]
    omega
  nums := by
    have hle := h.length_le
    have hstart : last + 1 + 1 - (l.length + 1) = last + 1 - l.length := by omega
    have hend : last + 1 - l.length + l.length = last + 1 := by omega
    simp only [List.map_append, h.nums, List.map_cons, List.map_nil, ha, List.length_append,
      List.length_cons, List.length_nil, Nat.zero_add, hstart]
    rw [List.range'_1_concat, hend]

theorem drop (h : Window num last l) (n : Nat) : Window num last (l.drop n) where
  length_le := by
    have := h.length_le
    rw [List.length_drop]
    omega
  nums := by
    have hle := h.length_le
    rw [List.map_drop, h.nums, List.drop_range', List.length_drop]
    by_cases hn : n ≤ l.length
    · congr 1
      omega
    · have hzero : l.length - n = 0 := by omega
      rw [hzero, List.range'_zero, List.range'_zero]

theorem mem_nums (h : Window num last l) (n : Nat) :
    (∃ a ∈ l, num a = n) ↔ last < n + l.length ∧ n ≤ last := by
  have hle := h.length_le
  have hmem : (∃ a ∈ l, num a = n) ↔ n ∈ l.map num := List.mem_map.symm
  rw [hmem, h.nums, List.mem_range'_1]
  omega

theorem num_le (h : Window num last l) (ha : a ∈ l) : num a ≤ last :=
  ((h.mem_nums (num a)).mp ⟨a, ha, rfl⟩).2

theorem sorted (h : Window num last l) : l.Pairwise fun a b => num a < num b := by
  have hsort : (l.map num).Pairwise (· < ·) := by
    rw [h.nums]
    exact List.pairwise_lt_range'
  exact List.pairwise_map.mp hsort

theorem unique (h : Window num last l) (ha : a ∈ l) (hb : b ∈ l) (hab : num a = num b) :
    a = b := by
  have hnodup : (l.map num).Nodup := by
    rw [h.nums]
    exact List.nodup_range'
  exact List.inj_on_of_nodup_map hnodup ha hb hab

theorem mem_drop (h : Window num last l) {n : Nat} (ha : a ∈ l)
    (hnum : last < num a + (l.drop n).length) : a ∈ l.drop n := by
  obtain ⟨b, hb, hab⟩ := ((h.drop n).mem_nums (num a)).mpr ⟨hnum, h.num_le ha⟩
  have heq : b = a := h.unique (List.mem_of_mem_drop hb) ha hab
  exact heq ▸ hb

end Window

end Windows
