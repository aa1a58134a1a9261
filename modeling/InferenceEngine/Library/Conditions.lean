import InferenceEngine.Library.Programs
import InferenceEngine.Library.Runs

/-!
# Verification conditions of programs

A `Policy` tracks, by a ghost value, what the replies to a program's effects have established,
and says which effects the program may await with it. `p.Obeys π g Q` states that `p`, started
with `g`, awaits allowed effects only, whatever the replies are, and ends in `Q`. A `Protocol`
is a policy that allows the same effects at all times; `p.Keeps π g Q` is then the same statement.
Where the environment chooses how each effect ends, the runs of a program are runs of
`Program.step`, and a program that obeys a policy keeps what the allowed effects keep.
-/

namespace Programs

set_option autoImplicit false

universe u v w

structure Protocol (E : Type) (R : E → Type) (G : Type u) where
  allowed : E → Prop
  next : (e : E) → R e → G → G

structure Policy (E : Type) (R : E → Type) (G : Type u) where
  allowed : G → E → Prop
  next : (e : E) → R e → G → G

def Protocol.toPolicy {E : Type} {R : E → Type} {G : Type u} (π : Protocol E R G) :
    Policy E R G where
  allowed _ := π.allowed
  next := π.next

namespace Program

variable {E : Type} {R : E → Type} {α β : Type} {G : Type u}

def Obeys (π : Policy E R G) : Program E R α → G → (α → G → Prop) → Prop
  | .pure a, g, Q => Q a g
  | .await e k, g, Q => π.allowed g e ∧ ∀ r, (k r).Obeys π (π.next e r g) Q

def Keeps (π : Protocol E R G) : Program E R α → G → (α → G → Prop) → Prop
  | .pure a, g, Q => Q a g
  | .await e k, g, Q => π.allowed e ∧ ∀ r, (k r).Keeps π (π.next e r g) Q

section
variable {π : Policy E R G} {p : Program E R α} {f : α → Program E R β} {g : G}

@[simp] theorem obeys_pure {a : α} {Q : α → G → Prop} : (Program.pure a).Obeys π g Q ↔ Q a g :=
  Iff.rfl

@[simp] theorem obeys_await {e : E} {k : R e → Program E R α} {Q : α → G → Prop} :
    (Program.await e k).Obeys π g Q ↔ π.allowed g e ∧ ∀ r, (k r).Obeys π (π.next e r g) Q :=
  Iff.rfl

theorem obeys_bind {Q : β → G → Prop} :
    (p.bind f).Obeys π g Q ↔ p.Obeys π g fun a g => (f a).Obeys π g Q := by
  induction p generalizing g with
  | pure a => rfl
  | await e k ih => exact and_congr_right fun _ => forall_congr' fun r => ih r

theorem Obeys.mono {Q Q' : α → G → Prop} (h : p.Obeys π g Q) (hQ : ∀ a g, Q a g → Q' a g) :
    p.Obeys π g Q' := by
  induction p generalizing g with
  | pure a => exact hQ a g h
  | await e k ih => exact ⟨h.1, fun r => ih r (h.2 r)⟩

/-- A policy that is simulated by a more liberal one. -/
theorem Obeys.transfer {G' : Type v} {π' : Policy E R G'} {M : G → G' → Prop} {g' : G'}
    {Q : α → G → Prop} {Q' : α → G' → Prop} (hp : p.Obeys π g Q) (hsim : M g g')
    (hallowed : ∀ g g' e, M g g' → π.allowed g e → π'.allowed g' e)
    (hnext : ∀ g g' e r, M g g' → π.allowed g e → M (π.next e r g) (π'.next e r g'))
    (hQ : ∀ a g g', M g g' → Q a g → Q' a g') : p.Obeys π' g' Q' := by
  induction p generalizing g g' with
  | pure a => exact hQ a g g' hsim hp
  | await e k ih =>
    refine ⟨hallowed g g' e hsim hp.1, fun r => ?_⟩
    exact ih r (hp.2 r) (hnext g g' e r hsim hp.1)

/-- A program whose result may be an exception, which the rest of the computation lets out. -/
theorem obeys_exceptBind {ε : Type} {x : ExceptT ε (Program E R) α}
    {f : α → ExceptT ε (Program E R) β} {Q : Except ε β → G → Prop} :
    Obeys π (x >>= f).run g Q ↔ Obeys π x.run g fun r g =>
      match r with
      | .ok a => Obeys π (f a).run g Q
      | .error e => Q (.error e) g := by
  rw [exceptBind_run, obeys_bind]
  refine ⟨fun h => h.mono ?_, fun h => h.mono ?_⟩
  · rintro (e | a) g hr <;> exact hr
  · rintro (e | a) g hr <;> exact hr

end

section
variable {π : Protocol E R G} {p : Program E R α} {f : α → Program E R β} {g : G}

theorem keeps_iff_obeys {Q : α → G → Prop} : p.Keeps π g Q ↔ p.Obeys π.toPolicy g Q := by
  induction p generalizing g with
  | pure a => rfl
  | await e k ih => exact and_congr_right fun _ => forall_congr' fun r => ih r

@[simp] theorem keeps_pure {a : α} {Q : α → G → Prop} : (Program.pure a).Keeps π g Q ↔ Q a g :=
  Iff.rfl

@[simp] theorem keeps_await {e : E} {k : R e → Program E R α} {Q : α → G → Prop} :
    (Program.await e k).Keeps π g Q ↔ π.allowed e ∧ ∀ r, (k r).Keeps π (π.next e r g) Q :=
  Iff.rfl

theorem keeps_bind {Q : β → G → Prop} :
    (p.bind f).Keeps π g Q ↔ p.Keeps π g fun a g => (f a).Keeps π g Q := by
  simp only [keeps_iff_obeys, obeys_bind]

theorem Keeps.mono {Q Q' : α → G → Prop} (h : p.Keeps π g Q) (hQ : ∀ a g, Q a g → Q' a g) :
    p.Keeps π g Q' :=
  keeps_iff_obeys.mpr ((keeps_iff_obeys.mp h).mono hQ)

theorem keeps_exceptBind {ε : Type} {x : ExceptT ε (Program E R) α}
    {f : α → ExceptT ε (Program E R) β} {Q : Except ε β → G → Prop} :
    Keeps π (x >>= f).run g Q ↔ Keeps π x.run g fun r g =>
      match r with
      | .ok a => Keeps π (f a).run g Q
      | .error e => Q (.error e) g := by
  simp only [keeps_iff_obeys]
  rw [obeys_exceptBind]

end

/-- One effect, which ends as the choice says. -/
def step {C : Type w} {σ : Type v} (act : C → (e : E) → σ → R e × σ) :
    Program E R α × σ → C → Option (Program E R α × σ)
  | (.await e k, s), c => some (k (act c e s).1, (act c e s).2)
  | (.pure _, _), _ => none

/-- The rule for invariants of ghost value, store and choices so far. -/
theorem Obeys.exec {C : Type w} {σ : Type v} {act : C → (e : E) → σ → R e × σ}
    {π : Policy E R G} {Q : α → G → Prop} {I : G → σ → List C → Prop}
    {good : Program E R α × σ → C → Prop}
    (keep : ∀ g e k s c done, π.allowed g e → good (.await e k, s) c → I g s done →
      I (π.next e (act c e s).1 g) (act c e s).2 (done ++ [c]))
    {p p' : Program E R α} {g : G} {s s' : σ} {cs done : List C} (hp : p.Obeys π g Q)
    (hinv : I g s done) (hgood : Runs.Along (step act) good (p, s) cs)
    (h : Runs.exec (step act) (p, s) cs = some (p', s')) :
    ∃ g', p'.Obeys π g' Q ∧ I g' s' (done ++ cs) := by
  induction cs generalizing p g s done with
  | nil =>
    cases h
    exact ⟨g, hp, by rwa [List.append_nil]⟩
  | cons c cs ih =>
    obtain ⟨⟨p₁, s₁⟩, hstep, hrest⟩ := Runs.exec_cons_iff.mp h
    cases p with
    | pure a => cases hstep
    | await e k =>
      cases hstep
      obtain ⟨g', hp', hinv'⟩ := ih (hp.2 _) (keep g e k s c done hp.1 hgood.1 hinv)
        (hgood.2 _ rfl) hrest
      exact ⟨g', hp', by rwa [List.append_assoc] at hinv'⟩

end Program

end Programs
