import InferenceEngine.Library.Conditions

/-!
# Runs that are cut off and started again

`advance n p s` performs at most `n` effects of `p`. A program is `Lasting` from a store if each
of its effects, performed once more on any store that the rest of the run passes through,
gets the same reply and changes nothing. Such a program may be cut off and started again any
number of times: a complete run then ends as if it had been the first.
-/

namespace Programs

set_option autoImplicit false

universe u v

namespace Program

variable {E : Type} {R : E → Type} {α : Type} {σ : Type u} (handle : (e : E) → σ → R e × σ)

/-- What is left of a program and the store, after `n` effects or at its end. -/
def advance : Nat → Program E R α → σ → Program E R α × σ
  | 0, p, s => (p, s)
  | _ + 1, .pure a, s => (.pure a, s)
  | n + 1, .await e k, s => advance n (k (handle e s).1) (handle e s).2

def awaited : Nat → Program E R α → σ → List E
  | 0, _, _ => []
  | _ + 1, .pure _, _ => []
  | n + 1, .await e k, s => e :: awaited n (k (handle e s).1) (handle e s).2

/-- The run of the program passes through the store. -/
inductive Visits : Program E R α → σ → σ → Prop
  | here (p : Program E R α) (s : σ) : Visits p s s
  | next {e : E} {k : R e → Program E R α} {s t : σ}
      (h : Visits (k (handle e s).1) (handle e s).2 t) : Visits (.await e k) s t

def Lasting : Program E R α → σ → Prop
  | .pure _, _ => True
  | .await e k, s =>
    (∀ t, Visits handle (k (handle e s).1) (handle e s).2 t → handle e t = ((handle e s).1, t)) ∧
      Lasting (k (handle e s).1) (handle e s).2

variable {handle}

theorem run_of_advance {n : Nat} {p : Program E R α} {s : σ} {a : α}
    (h : (advance handle n p s).1 = .pure a) : run handle p s = (a, (advance handle n p s).2) := by
  induction n generalizing p s with
  | zero =>
    obtain rfl : p = .pure a := h
    rfl
  | succ n ih =>
    cases p with
    | pure b =>
      cases h
      rfl
    | await e k => exact ih h

/-- A program that obeys a policy awaits what the policy allows at some time. -/
theorem Obeys.awaited {G : Type v} {π : Policy E R G} {p : Program E R α} {g : G}
    {Q : α → G → Prop} (hp : p.Obeys π g Q) {n : Nat} {s : σ} {e : E}
    (he : e ∈ p.awaited handle n s) : ∃ g', π.allowed g' e := by
  induction n generalizing p g s with
  | zero => cases he
  | succ n ih =>
    cases p with
    | pure a => cases he
    | await e' k =>
      rcases List.mem_cons.mp he with rfl | hrest
      · exact ⟨g, hp.1⟩
      · exact ih (hp.2 _) hrest

theorem visits_advance (n : Nat) (p : Program E R α) (s : σ) :
    Visits handle p s (advance handle n p s).2 := by
  induction n generalizing p s with
  | zero => exact .here p s
  | succ n ih =>
    cases p with
    | pure a => exact .here _ s
    | await e k => exact .next (ih _ _)

/-- A program that is started again on a store it has passed through performs what it has
performed, to no effect, and goes on. -/
theorem Lasting.run_of_visits {p : Program E R α} {s t : σ} (hp : p.Lasting handle s)
    (h : Visits handle p s t) : run handle p t = run handle p s := by
  induction h with
  | here p s => rfl
  | @next e k s t h ih =>
    have hagain := hp.1 t h
    rw [run, run, hagain]
    exact ih hp.2

theorem Lasting.visits_trans {p : Program E R α} {s t u : σ} (hp : p.Lasting handle s)
    (h : Visits handle p s t) (h' : Visits handle p t u) : Visits handle p s u := by
  induction h generalizing u with
  | here p s => exact h'
  | @next e k s t h ih =>
    cases h' with
    | here => exact .next h
    | next h' =>
      rw [hp.1 t h] at h'
      exact .next (ih hp.2 h')

/-- The store after executions that were cut off. -/
def retried (handle : (e : E) → σ → R e × σ) (p : Program E R α) (cuts : List Nat) (s : σ) : σ :=
  cuts.foldl (fun s n => (advance handle n p s).2) s

/-- A complete run after executions that were cut off is the run without them. -/
theorem Lasting.run_retried {p : Program E R α} {s : σ} (hp : p.Lasting handle s)
    (cuts : List Nat) : run handle p (retried handle p cuts s) = run handle p s := by
  have visited : ∀ (cuts : List Nat) (t : σ), Visits handle p s t →
      Visits handle p s (retried handle p cuts t) := by
    intro cuts
    induction cuts with
    | nil => exact fun t h => h
    | cons n cuts ih =>
      intro t h
      exact ih _ (hp.visits_trans h (visits_advance n p t))
  exact hp.run_of_visits (visited cuts s (.here p s))

end Program

end Programs
