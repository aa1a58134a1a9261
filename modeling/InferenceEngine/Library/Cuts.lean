import Mathlib.Algebra.Order.Floor.Div
import Mathlib.Data.List.Basic

/-!
# Cutting a list into overlapping pieces

Pieces of `size` elements start every `stride` positions until one reaches the end of the list.
`count` is how many there are; with `stride = size - overlap` each piece repeats the last
`overlap` elements of the one before, and dropping these repetitions gives the list back.
-/

namespace Cuts

set_option autoImplicit false

universe u
variable {α : Type u} {length size stride overlap : Nat}

def piece (t : List α) (start stop : Nat) : List α := (t.drop start).take (stop - start)

def stopAt (length size start : Nat) : Nat := min (start + size) length

def count (length size stride : Nat) : Nat :=
  if length = 0 then 0 else (length - size) ⌈/⌉ stride + 1

theorem count_eq_zero_iff : count length size stride = 0 ↔ length = 0 := by
  unfold count
  split
  · simpa
  · simpa

theorem count_of_le (hpos : length ≠ 0) (h : length ≤ size) : count length size stride = 1 := by
  unfold count
  rw [if_neg hpos, Nat.sub_eq_zero_of_le h, zero_ceilDiv]

theorem count_of_lt (h : size < length) :
    count length size stride = (length - size) ⌈/⌉ stride + 1 := by
  unfold count
  rw [if_neg (by omega)]

theorem succ_lt_count_iff (hstride : 0 < stride) (hpos : length ≠ 0) {i : Nat} :
    i + 1 < count length size stride ↔ i * stride + size < length := by
  have hceil : (length - size) ⌈/⌉ stride ≤ i ↔ length - size ≤ stride * i :=
    ceilDiv_le_iff_le_mul hstride
  unfold count
  rw [if_neg hpos, Nat.mul_comm i stride]
  omega

theorem start_lt_of_lt_count (hstride : 0 < stride) (hle : stride ≤ size) {i : Nat}
    (hi : i < count length size stride) : i * stride < length := by
  have hpos : length ≠ 0 := by
    intro h
    rw [count_eq_zero_iff.mpr h] at hi
    omega
  cases i with
  | zero => omega
  | succ i =>
    have hprev := (succ_lt_count_iff hstride hpos).mp hi
    rw [Nat.succ_mul]
    omega

theorem stopAt_eq_iff (hstride : 0 < stride) (hle : stride ≤ size) {i : Nat}
    (hi : i < count length size stride) :
    stopAt length size (i * stride) = length ↔ i + 1 = count length size stride := by
  have hstart := start_lt_of_lt_count hstride hle hi
  have hpos : length ≠ 0 := by omega
  have hnext : i + 1 < count length size stride ↔ i * stride + size < length :=
    succ_lt_count_iff hstride hpos
  unfold stopAt
  omega

theorem length_piece {t : List α} {start stop : Nat} (h : stop ≤ t.length) :
    (piece t start stop).length = stop - start := by
  unfold piece
  rw [List.length_take, List.length_drop]
  omega

theorem take_append_piece {t : List α} {start stop : Nat} (h : start ≤ stop) :
    t.take start ++ piece t start stop = t.take stop := by
  have hstop : stop = start + (stop - start) := by omega
  unfold piece
  rw [hstop, List.take_add, Nat.add_sub_cancel_left]

theorem drop_piece (t : List α) (start stop n : Nat) :
    (piece t start stop).drop n = piece t (start + n) stop := by
  unfold piece
  rw [List.drop_take, List.drop_drop, Nat.sub_sub]

theorem take_piece (t : List α) {start stop n : Nat} (h : start + n ≤ stop) :
    (piece t start stop).take n = piece t start (start + n) := by
  unfold piece
  rw [List.take_take, Nat.min_eq_left (by omega), Nat.add_sub_cancel_left]

theorem reassemble_upTo (hlt : overlap < size) (t : List α) {n : Nat}
    (hn : n < count t.length size (size - overlap)) :
    piece t 0 (stopAt t.length size 0) ++
        (List.range n).flatMap (fun i => (piece t ((i + 1) * (size - overlap))
          (stopAt t.length size ((i + 1) * (size - overlap)))).drop overlap) =
      t.take (stopAt t.length size (n * (size - overlap))) := by
  have hstride : 0 < size - overlap := by omega
  induction n with
  | zero =>
    rw [List.range_zero, List.flatMap_nil, List.append_nil, Nat.zero_mul]
    unfold piece
    rw [List.drop_zero, Nat.sub_zero]
  | succ n ih =>
    have hpos : t.length ≠ 0 := by
      intro h
      rw [count_eq_zero_iff.mpr h] at hn
      omega
    have hprev := (succ_lt_count_iff hstride hpos).mp hn
    have hstop : stopAt t.length size (n * (size - overlap)) = (n + 1) * (size - overlap) + overlap := by
      unfold stopAt
      rw [Nat.succ_mul]
      omega
    have hstart := start_lt_of_lt_count hstride (Nat.sub_le _ _) hn
    rw [List.range_succ, List.flatMap_append, ← List.append_assoc, ih (by omega), List.flatMap_cons,
      List.flatMap_nil, List.append_nil, drop_piece, hstop]
    apply take_append_piece
    unfold stopAt
    rw [Nat.succ_mul] at *
    omega

/-- The first piece followed by the later ones without their repetitions is the list. -/
theorem reassemble (hlt : overlap < size) (t : List α) (hpos : t.length ≠ 0) :
    piece t 0 (stopAt t.length size 0) ++
        (List.range (count t.length size (size - overlap) - 1)).flatMap
          (fun i => (piece t ((i + 1) * (size - overlap))
            (stopAt t.length size ((i + 1) * (size - overlap)))).drop overlap) = t := by
  have hcount : count t.length size (size - overlap) ≠ 0 := by
    intro h
    exact hpos (count_eq_zero_iff.mp h)
  have hn : count t.length size (size - overlap) - 1 < count t.length size (size - overlap) := by
    omega
  have hlast := (stopAt_eq_iff (by omega) (Nat.sub_le _ _) hn).mpr (by omega)
  rw [reassemble_upTo hlt t hn, hlast, List.take_length]

end Cuts
