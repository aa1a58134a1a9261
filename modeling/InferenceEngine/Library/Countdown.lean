import InferenceEngine.Library.Runs

/-!
# Steps that are counted down

Some steps lower a measure and no step raises it: a run takes at most as many of them as the
measure says at its start.
-/

namespace Runs

set_option autoImplicit false

universe u v
variable {S : Type u} {A : Type v} (step : S → A → Option S) (mine : S → A → Bool)

/-- How many steps of the run satisfy `mine` at the state they are taken from. -/
def count : S → List A → Nat
  | _, [] => 0
  | s, a :: as => (if mine s a then 1 else 0) + (step s a).elim 0 fun s' => count s' as

variable {step mine}

theorem count_cons {s s' : S} {a : A} {as : List A} (h : step s a = some s') :
    count step mine s (a :: as) = (if mine s a then 1 else 0) + count step mine s' as := by
  rw [count, h]
  rfl

/-- What is left of the measure and the steps already taken never exceed what there was. -/
theorem count_add_le {I : S → Prop} {measure : S → Nat}
    (keep : ∀ s a s', I s → step s a = some s' → I s')
    (lower : ∀ s a s', I s → mine s a = true → step s a = some s' → measure s' < measure s)
    (level : ∀ s a s', I s → mine s a = false → step s a = some s' → measure s' ≤ measure s)
    {s s' : S} {as : List A} (hs : I s) (h : exec step s as = some s') :
    count step mine s as + measure s' ≤ measure s := by
  induction as generalizing s with
  | nil =>
    obtain rfl : s = s' := Option.some.inj h
    simp [count]
  | cons a as ih =>
    obtain ⟨t, ht, h⟩ := exec_cons_iff.mp h
    have hrest := ih (keep s a t hs ht) h
    rw [count_cons ht]
    cases hmine : mine s a with
    | true =>
      have hlt := lower s a t hs hmine ht
      simp only [if_true]
      omega
    | false =>
      have hle := level s a t hs hmine ht
      simp only [Bool.false_eq_true, if_false]
      omega

end Runs
