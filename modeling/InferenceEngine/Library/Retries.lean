import Mathlib.Data.Nat.Find
import Mathlib.Tactic.TypeStar

/-!
# How often a retry loop tries

A loop that goes on after the outcomes that `again` accepts, at most `limit` times, makes a number
of tries that is determined by its outcomes.
-/

namespace Retries

set_option autoImplicit false

variable {α : Type*} {again : α → Bool} {f : Nat → α} {limit k l : Nat}

/-- Try `k`, counted from 1, is the last one: the first whose outcome is not retried, or the last
one allowed. -/
structure LastTry (again : α → Bool) (f : Nat → α) (limit k : Nat) : Prop where
  pos : 0 < k
  le : k ≤ limit
  retried : ∀ i, i + 1 < k → again (f i) = true
  stop : again (f (k - 1)) = true → k = limit

namespace LastTry

theorem le_of_lastTry (hk : LastTry again f limit k) (hl : LastTry again f limit l) : k ≤ l := by
  by_contra hlt
  have hpos := hl.pos
  have hretried := hk.retried (l - 1) (by omega)
  have hlast := hl.stop hretried
  have hle := hk.le
  omega

theorem unique (hk : LastTry again f limit k) (hl : LastTry again f limit l) : k = l :=
  Nat.le_antisymm (hk.le_of_lastTry hl) (hl.le_of_lastTry hk)

end LastTry

end Retries
