import Mathlib.Data.Option.Basic
import Mathlib.Data.List.Basic
import Mathlib.Data.List.Induction
import Mathlib.Tactic.TypeStar

/-!
# Runs of a partial step function

A system is a function `step : S → A → Option S`; an action that is not enabled gives
`none`. `exec` performs a list of actions in order. `Along P` says that every step the
list takes starts from a state at which its action satisfies `P`; run properties are
derived from one-step properties by the rules at the end.
-/

namespace Runs

set_option autoImplicit false

universe u v
variable {S : Type u} {A : Type v} (step : S → A → Option S)

/-- The state after a list of actions, when each of them is enabled in turn. -/
def exec : S → List A → Option S
  | s, [] => some s
  | s, a :: as => (step s a).bind fun s' => exec s' as

/-- Every step of the run satisfies `P` at the state it is taken from. -/
def Along (P : S → A → Prop) : S → List A → Prop
  | _, [] => True
  | s, a :: as => P s a ∧ ∀ s', step s a = some s' → Along P s' as

variable {step}

@[simp] theorem exec_nil (s : S) : exec step s [] = some s := rfl

@[simp] theorem exec_cons (s : S) (a : A) (as : List A) :
    exec step s (a :: as) = (step s a).bind fun s' => exec step s' as := rfl

theorem exec_cons_iff {s s' : S} {a : A} {as : List A} :
    exec step s (a :: as) = some s' ↔ ∃ t, step s a = some t ∧ exec step t as = some s' := by
  simp only [exec_cons, Option.bind_eq_some_iff]

theorem exec_append (s : S) (as bs : List A) :
    exec step s (as ++ bs) = (exec step s as).bind fun s' => exec step s' bs := by
  induction as generalizing s with
  | nil => rfl
  | cons a as ih =>
    simp only [List.cons_append, exec_cons, Option.bind_assoc]
    congr 1
    funext t
    exact ih t

theorem exec_append_iff {s s' : S} {as bs : List A} :
    exec step s (as ++ bs) = some s' ↔
      ∃ t, exec step s as = some t ∧ exec step t bs = some s' := by
  simp only [exec_append, Option.bind_eq_some_iff]

theorem Along.mono {P Q : S → A → Prop} (h : ∀ s a, P s a → Q s a) {s : S} {as : List A}
    (hs : Along step P s as) : Along step Q s as := by
  induction as generalizing s with
  | nil => trivial
  | cons a as ih => exact ⟨h s a hs.1, fun s' hs' => ih (hs.2 s' hs')⟩

theorem Along.trivial (s : S) (as : List A) : Along step (fun _ _ => True) s as := by
  induction as generalizing s with
  | nil => exact True.intro
  | cons a as ih => exact ⟨True.intro, fun s' _ => ih s'⟩

theorem Along.and {P Q : S → A → Prop} {s : S} {as : List A} (hP : Along step P s as)
    (hQ : Along step Q s as) : Along step (fun s a => P s a ∧ Q s a) s as := by
  induction as generalizing s with
  | nil => exact True.intro
  | cons a as ih => exact ⟨⟨hP.1, hQ.1⟩, fun s' hs' => ih (hP.2 s' hs') (hQ.2 s' hs')⟩

theorem Along.of_prefixes {P : S → A → Prop} {s : S} {as : List A}
    (h : ∀ before a after t, as = before ++ a :: after → exec step s before = some t → P t a) :
    Along step P s as := by
  induction as generalizing s with
  | nil => exact True.intro
  | cons a as ih =>
    refine ⟨h [] a as s rfl rfl, fun t ht => ih fun before b after u hsplit hu => ?_⟩
    exact h (a :: before) b after u (congrArg (a :: ·) hsplit) (exec_cons_iff.mpr ⟨t, ht, hu⟩)

theorem Along.append {P : S → A → Prop} {s : S} {as bs : List A} (ha : Along step P s as)
    (hb : ∀ t, exec step s as = some t → Along step P t bs) : Along step P s (as ++ bs) := by
  induction as generalizing s with
  | nil => exact hb s rfl
  | cons a as ih =>
    refine ⟨ha.1, fun t ht => ih (ha.2 t ht) fun u hu => hb u ?_⟩
    exact exec_cons_iff.mpr ⟨t, ht, hu⟩

theorem Along.of_forall {P : S → A → Prop} {as : List A} (h : ∀ a ∈ as, ∀ s, P s a) (s : S) :
    Along step P s as := by
  induction as generalizing s with
  | nil => exact True.intro
  | cons a as ih =>
    exact ⟨h a List.mem_cons_self s, fun t _ => ih (fun b hb => h b (List.mem_cons_of_mem _ hb)) t⟩

def check (step : S → A → Option S) (p : S → A → Bool) : S → List A → Bool
  | _, [] => true
  | s, a :: as =>
    p s a && match step s a with
      | some s' => check step p s' as
      | none => true

theorem Along.of_check {P : S → A → Prop} {p : S → A → Bool}
    (hp : ∀ s a, p s a = true → P s a) {s : S} {as : List A} (h : check step p s as = true) :
    Along step P s as := by
  induction as generalizing s with
  | nil => exact True.intro
  | cons a as ih =>
    simp only [check, Bool.and_eq_true] at h
    refine ⟨hp s a h.1, fun s' hs' => ih ?_⟩
    simpa only [hs'] using h.2

/-- What a computed view of the final state shows is true of a final state. -/
theorem exec_of_map {V : Type*} (step : S → A → Option S) (s : S) (as : List A) (f : S → V)
    (v : V) (h : (exec step s as).map f = some v) : ∃ s', exec step s as = some s' ∧ f s' = v :=
  Option.map_eq_some_iff.mp h

theorem Along.append_left {P : S → A → Prop} {s : S} {as bs : List A}
    (h : Along step P s (as ++ bs)) : Along step P s as := by
  induction as generalizing s with
  | nil => trivial
  | cons a as ih => exact ⟨h.1, fun s' hs' => ih (h.2 s' hs')⟩

theorem Along.append_right {P : S → A → Prop} {s t : S} {as bs : List A}
    (h : Along step P s (as ++ bs)) (ht : exec step s as = some t) : Along step P t bs := by
  induction as generalizing s with
  | nil =>
    obtain rfl : s = t := Option.some.inj ht
    exact h
  | cons a as ih =>
    obtain ⟨s', hs', ht⟩ := exec_cons_iff.mp ht
    exact ih (h.2 s' hs') ht

/-- A property kept by every step that satisfies `P` holds at the end of a run of such steps. -/
theorem invariant {I : S → Prop} {P : S → A → Prop}
    (keep : ∀ s a s', I s → P s a → step s a = some s' → I s')
    {s s' : S} {as : List A} (hs : I s) (hP : Along step P s as)
    (h : exec step s as = some s') : I s' := by
  induction as generalizing s with
  | nil => exact Option.some.inj h ▸ hs
  | cons a as ih =>
    obtain ⟨t, ht, h⟩ := exec_cons_iff.mp h
    exact ih (keep s a t hs hP.1 ht) (hP.2 t ht) h

/-- What an invariant says of a step that satisfies `P` is true of every step of such a run. -/
theorem Along.of_invariant {I : S → Prop} {P Q : S → A → Prop}
    (keep : ∀ s a s', I s → P s a → step s a = some s' → I s')
    (imp : ∀ s a, I s → P s a → Q s a) {s : S} {as : List A} (hs : I s)
    (hP : Along step P s as) : Along step Q s as := by
  induction as generalizing s with
  | nil => exact True.intro
  | cons a as ih => exact ⟨imp s a hs hP.1, fun t ht => ih (keep s a t hs hP.1 ht) (hP.2 t ht)⟩

/-- A property of a run and its end that the empty run has, and that no step takes away. -/
theorem history {I : List A → S → Prop} {s₀ : S} (init : I [] s₀)
    (keep : ∀ as s a s', exec step s₀ as = some s → I as s → step s a = some s' →
      I (as ++ [a]) s')
    {s : S} {as : List A} (h : exec step s₀ as = some s) : I as s := by
  induction as using List.reverseRecOn generalizing s with
  | nil => exact Option.some.inj h ▸ init
  | append_singleton as a ih =>
    obtain ⟨t, ht, hlast⟩ := exec_append_iff.mp h
    obtain ⟨u, hu, hend⟩ := exec_cons_iff.mp hlast
    obtain rfl : u = s := Option.some.inj hend
    exact keep as t a u ht (ih ht) hu

/-- A transitive relation that holds across every step from an invariant state holds across
the run. -/
theorem stable {I : S → Prop} {P : S → A → Prop} {R : S → S → Prop}
    (refl : ∀ s, R s s) (trans : ∀ {a b c}, R a b → R b c → R a c)
    (keep : ∀ s a s', I s → P s a → step s a = some s' → I s')
    (rel : ∀ s a s', I s → P s a → step s a = some s' → R s s')
    {s s' : S} {as : List A} (hs : I s) (hP : Along step P s as)
    (h : exec step s as = some s') : R s s' := by
  induction as generalizing s with
  | nil => exact Option.some.inj h ▸ refl s
  | cons a as ih =>
    obtain ⟨t, ht, h⟩ := exec_cons_iff.mp h
    exact trans (rel s a t hs hP.1 ht) (ih (keep s a t hs hP.1 ht) (hP.2 t ht) h)

/-- A machine whose steps are steps of a machine below it, or none of its steps, runs as that
machine does. -/
theorem exec_project {T : Type*} {B : Type*} {low : T → B → Option T} {f : S → T}
    (hstep : ∀ s a s', step s a = some s' → f s' = f s ∨ ∃ b, low (f s) b = some (f s'))
    {s s' : S} {as : List A} (h : exec step s as = some s') :
    ∃ bs, exec low (f s) bs = some (f s') := by
  induction as generalizing s with
  | nil => exact ⟨[], congrArg some (congrArg f (Option.some.inj h))⟩
  | cons a as ih =>
    obtain ⟨t, ht, hrest⟩ := exec_cons_iff.mp h
    obtain ⟨bs, hbs⟩ := ih hrest
    rcases hstep s a t ht with hsame | ⟨b, hb⟩
    · exact ⟨bs, hsame ▸ hbs⟩
    · exact ⟨b :: bs, exec_cons_iff.mpr ⟨f t, hb, hbs⟩⟩

end Runs
