import Mathlib.Algebra.BigOperators.Group.Finset.Basic
import Mathlib.Algebra.Order.BigOperators.Group.Finset
import Mathlib.Tactic.Linarith

/-!
# Credits

Parties `i : ι` hold credits, some were spent, and there is a limit: `Within spent held limit`
says that what was spent and what any finitely many parties hold together stays within the
limit. A step grants one party one credit, lets one party spend one, or takes credits away.
-/

namespace Credits

set_option autoImplicit false

universe u
variable {ι : Type u}

/-- What was spent and what is held stays within the limit. -/
def Within (spent : Nat) (held : ι → Nat) (limit : Int) : Prop :=
  ∀ F : Finset ι, (spent : Int) + (∑ i ∈ F, held i : Nat) ≤ limit

variable {spent : Nat} {held held' : ι → Nat} {limit limit' : Int} {i : ι}

theorem Within.spent_le (h : Within spent held limit) : (spent : Int) ≤ limit := by
  simpa using h ∅

theorem Within.spent_add_le (h : Within spent held limit) (i : ι) :
    (spent : Int) + held i ≤ limit := by
  simpa using h {i}

theorem Within.mono (h : Within spent held limit) (hheld : ∀ i, held' i ≤ held i)
    (hlimit : limit ≤ limit') : Within spent held' limit' := by
  intro F
  have hsum : ∑ i ∈ F, held' i ≤ ∑ i ∈ F, held i := Finset.sum_le_sum fun i _ => hheld i
  have hF := h F
  omega

theorem within_none (h : ∀ i, held i = 0) (hlimit : (spent : Int) ≤ limit) :
    Within spent held limit := by
  intro F
  rw [Finset.sum_eq_zero fun i _ => h i]
  simpa using hlimit

theorem Within.grant (h : Within spent held limit) (hi : held' i ≤ held i + 1)
    (hother : ∀ j, j ≠ i → held' j ≤ held j) : Within spent held' (limit + 1) := by
  classical
  intro F
  have hF := h F
  have hrest : ∑ j ∈ F.erase i, held' j ≤ ∑ j ∈ F.erase i, held j :=
    Finset.sum_le_sum fun j hj => hother j (Finset.ne_of_mem_erase hj)
  by_cases hmem : i ∈ F
  · have hold := Finset.add_sum_erase F held hmem
    have hnew := Finset.add_sum_erase F held' hmem
    omega
  · rw [Finset.erase_eq_of_notMem hmem] at hrest
    omega

theorem Within.spend (h : Within spent held limit) (hi : held' i + 1 ≤ held i)
    (hother : ∀ j, j ≠ i → held' j ≤ held j) : Within (spent + 1) held' limit := by
  classical
  intro F
  have hF := h (insert i (F.erase i))
  rw [Finset.sum_insert (Finset.notMem_erase i F)] at hF
  have hrest : ∑ j ∈ F.erase i, held' j ≤ ∑ j ∈ F.erase i, held j :=
    Finset.sum_le_sum fun j hj => hother j (Finset.ne_of_mem_erase hj)
  by_cases hmem : i ∈ F
  · have hnew := Finset.add_sum_erase F held' hmem
    omega
  · rw [Finset.erase_eq_of_notMem hmem] at hrest hF
    omega

theorem within_first (hi : held i ≤ 1) (hother : ∀ j, j ≠ i → held j = 0) (hlimit : 1 ≤ limit) :
    Within 0 held limit := by
  have hnone : Within 0 (fun _ : ι => 0) 0 := within_none (fun _ => rfl) le_rfl
  have hone : Within 0 held (0 + 1) :=
    hnone.grant (i := i) (by omega) fun j hj => (hother j hj).le
  exact hone.mono (fun _ => le_rfl) (by omega)

end Credits
