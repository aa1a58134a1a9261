import InferenceEngine.Library.Replays
import InferenceEngine.Library.Runs
import Mathlib.Data.List.Count
import Mathlib.Logic.Function.Basic

/-!
# Programs that share a store

A pool performs the effects of its programs one at a time, in any order. `noninterference`: when
the effects of the others leave alone what a program's effects depend on, the program performs
the same effects, with the same replies, as when it runs alone.
-/

namespace Programs

set_option autoImplicit false

universe u v

/-- Programs by index, what is left of them, and the effects performed so far. -/
structure Pool (E : Type) (R : E → Type) (α : Type) (σ : Type u) where
  store : σ
  programs : Nat → Option (Program E R α)
  issued : List (Nat × E) := []

namespace Pool

variable {E : Type} {R : E → Type} {α : Type} {σ : Type u}

def step (handle : (e : E) → σ → R e × σ) (P : Pool E R α σ) (t : Nat) : Option (Pool E R α σ) :=
  match P.programs t with
  | some (.await e k) =>
    some { store := (handle e P.store).2,
           programs := Function.update P.programs t (some (k (handle e P.store).1)),
           issued := P.issued ++ [(t, e)] }
  | _ => none

def issuedBy (P : Pool E R α σ) (t : Nat) : List E :=
  P.issued.filterMap fun i => if i.1 = t then some i.2 else none

variable {handle : (e : E) → σ → R e × σ} {P P' : Pool E R α σ} {t u : Nat}

theorem step_eq_some (h : P.step handle t = some P') : ∃ e k,
    P.programs t = some (.await e k) ∧
    P' = { store := (handle e P.store).2,
           programs := Function.update P.programs t (some (k (handle e P.store).1)),
           issued := P.issued ++ [(t, e)] } := by
  unfold step at h
  split at h
  · rename_i e k hprogram
    exact ⟨e, k, hprogram, (Option.some.inj h).symm⟩
  · cases h

end Pool

section
variable {E : Type} {R : E → Type} {α : Type} {σ : Type u} {G : Type v}
variable {handle : (e : E) → σ → R e × σ} {π : Policy E R G} {Same : G → σ → σ → Prop}
  {foreign : E → Prop} {Q : α → G → Prop}

/-- Where a program stands in the pool, compared with where it stands when it runs alone. -/
structure Tracks (π : Policy E R G) (Same : G → σ → σ → Prop) (Q : α → G → Prop)
    (P : Pool E R α σ) (t : Nat) (alone : Program E R α × σ) (done : List E) (g : G) : Prop where
  program : P.programs t = some alone.1
  issued : P.issuedBy t = done
  obeys : alone.1.Obeys π g Q
  same : Same g P.store alone.2

def OthersForeign (foreign : E → Prop) (P : Pool E R α σ) (t : Nat) : Prop :=
  ∀ u p, u ≠ t → P.programs u = some p →
    p.Obeys (⟨fun _ => foreign, fun _ _ g => g⟩ : Policy E R Unit) () fun _ _ => True

theorem OthersForeign.step {P P' : Pool E R α σ} {t u : Nat} (hP : OthersForeign foreign P t)
    (h : P.step handle u = some P') : OthersForeign foreign P' t := by
  obtain ⟨e, k, hprogram, rfl⟩ := Pool.step_eq_some h
  intro v p hv hp
  by_cases hvu : v = u
  · subst hvu
    simp only [Function.update_self] at hp
    obtain rfl := Option.some.inj hp
    exact (hP v _ hv hprogram).2 _
  · simp only [Function.update_of_ne hvu] at hp
    exact hP v p hv hp

variable (hown : ∀ g e s s₀, π.allowed g e → Same g s s₀ →
    (handle e s).1 = (handle e s₀).1 ∧
      Same (π.next e (handle e s₀).1 g) (handle e s).2 (handle e s₀).2)
  (hforeign : ∀ g e s s₀, foreign e → Same g s s₀ → Same g (handle e s).2 s₀)

include hforeign in
theorem Tracks.other {P P' : Pool E R α σ} {t u : Nat} {alone : Program E R α × σ} {done : List E}
    {g : G} (hP : Tracks π Same Q P t alone done g) (hothers : OthersForeign foreign P t)
    (hu : u ≠ t) (h : P.step handle u = some P') : Tracks π Same Q P' t alone done g := by
  obtain ⟨e, k, hprogram, rfl⟩ := Pool.step_eq_some h
  refine ⟨?_, ?_, hP.obeys, hforeign g e P.store alone.2 (hothers u _ hu hprogram).1 hP.same⟩
  · exact (Function.update_of_ne hu.symm _ _).trans hP.program
  · rw [← hP.issued]
    simp [Pool.issuedBy, List.filterMap_append, hu]

include hown in
/-- A step of the program itself is the step it takes when it runs alone. -/
theorem Tracks.own {P P' : Pool E R α σ} {t : Nat} {p : Program E R α} {s₀ : σ} {done : List E}
    {g : G} (hP : Tracks π Same Q P t (p, s₀) done g) (h : P.step handle t = some P') :
    ∃ e k g', p = .await e k ∧
      Tracks π Same Q P' t (k (handle e s₀).1, (handle e s₀).2) (done ++ [e]) g' := by
  obtain ⟨e, k, hprogram, rfl⟩ := Pool.step_eq_some h
  obtain rfl : p = .await e k := Option.some.inj (hP.program.symm.trans hprogram)
  obtain ⟨hreply, hsame⟩ := hown g e P.store s₀ hP.obeys.1 hP.same
  refine ⟨e, k, _, rfl, ?_, ?_, hP.obeys.2 (handle e s₀).1, hsame⟩
  · rw [← hreply]
    exact Function.update_self _ _ _
  · rw [← hP.issued]
    simp [Pool.issuedBy, List.filterMap_append]

include hown hforeign in
theorem noninterference {P P' : Pool E R α σ} {t : Nat} {p : Program E R α} {s₀ : σ}
    {done : List E} {g : G} {schedule : List Nat} (hP : Tracks π Same Q P t (p, s₀) done g)
    (hothers : OthersForeign foreign P t)
    (h : Runs.exec (Pool.step handle) P schedule = some P') :
    ∃ g', Tracks π Same Q P' t (p.advance handle (schedule.count t) s₀)
      (done ++ p.awaited handle (schedule.count t) s₀) g' := by
  induction schedule generalizing P p s₀ done g with
  | nil =>
    cases h
    exact ⟨g, by simpa [Program.advance, Program.awaited] using hP⟩
  | cons u schedule ih =>
    obtain ⟨P₁, hstep, hrest⟩ := Runs.exec_cons_iff.mp h
    have hothers₁ := hothers.step hstep
    by_cases hu : u = t
    · subst hu
      obtain ⟨e, k, g', rfl, hP₁⟩ := hP.own hown hstep
      obtain ⟨g'', hP'⟩ := ih hP₁ hothers₁ hrest
      refine ⟨g'', ?_⟩
      rw [List.count_cons_self, Program.advance, Program.awaited]
      simpa only [List.append_assoc, List.singleton_append] using hP'
    · obtain ⟨g', hP'⟩ := ih (hP.other hforeign hothers hu hstep) hothers₁ hrest
      rw [List.count_cons_of_ne hu]
      exact ⟨g', hP'⟩

end

end Programs
