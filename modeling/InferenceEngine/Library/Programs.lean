import Mathlib.Data.List.Basic

/-!
# Resumable programs

`Program E R α` is a computation that awaits effects `e : E`, receives a reply of type
`R e` for each and ends with a value. A machine is any type `X` with a function
`node : X → Node E R α X` that says what its states do next; programs are one machine.
`Lockstep node f` states that `f` maps the states of a machine to programs without
changing what they do: program points of a coroutine are such a machine.
-/

namespace Programs

set_option autoImplicit false

universe u
variable {E : Type} {R : E → Type} {α β : Type} {X Y : Type}

inductive Program (E : Type) (R : E → Type) (α : Type) where
  | pure (a : α) : Program E R α
  | await (e : E) (k : R e → Program E R α) : Program E R α

/-- One step of a computation: it has ended, or it awaits an effect. -/
inductive Node (E : Type) (R : E → Type) (α X : Type) where
  | done (a : α) : Node E R α X
  | await (e : E) (k : R e → X) : Node E R α X

def Node.map (f : X → Y) : Node E R α X → Node E R α Y
  | .done a => .done a
  | .await e k => .await e fun r => f (k r)

namespace Program

def bind : Program E R α → (α → Program E R β) → Program E R β
  | .pure a, f => f a
  | .await e k, f => .await e fun r => (k r).bind f

instance : Monad (Program E R) where
  pure := .pure
  bind := bind

def perform (e : E) : Program E R (R e) := .await e .pure

def node : Program E R α → Node E R α (Program E R α)
  | .pure a => .done a
  | .await e k => .await e k

@[simp] theorem pure_bind (a : α) (f : α → Program E R β) : (Program.pure a).bind f = f a := rfl

@[simp] theorem await_bind (e : E) (k : R e → Program E R α) (f : α → Program E R β) :
    (Program.await e k).bind f = .await e fun r => (k r).bind f := rfl

theorem bind_pure (p : Program E R α) : p.bind .pure = p := by
  induction p with
  | pure a => rfl
  | await e k ih => exact congrArg (Program.await e) (funext ih)

theorem bind_assoc {γ : Type} (p : Program E R α) (f : α → Program E R β) (g : β → Program E R γ) :
    (p.bind f).bind g = p.bind fun a => (f a).bind g := by
  induction p with
  | pure a => rfl
  | await e k ih => exact congrArg (Program.await e) (funext ih)

instance : LawfulMonad (Program E R) :=
  LawfulMonad.mk' (Program E R) bind_pure (fun _ _ => rfl) bind_assoc

/-- Run a program against a handler that answers each effect from a store. -/
def run {σ : Type u} (handle : (e : E) → σ → R e × σ) : Program E R α → σ → α × σ
  | .pure a, s => (a, s)
  | .await e k, s => run handle (k (handle e s).1) (handle e s).2

theorem run_bind {σ : Type u} (handle : (e : E) → σ → R e × σ) (p : Program E R α)
    (f : α → Program E R β) (s : σ) :
    run handle (p.bind f) s = run handle (f (run handle p s).1) (run handle p s).2 := by
  induction p generalizing s with
  | pure a => rfl
  | await e k ih => exact ih (handle e s).1 (handle e s).2

/-! A program whose result may be an exception, which the rest of the computation lets out. -/

variable {ε : Type} {x : ExceptT ε (Program E R) α} {f : α → ExceptT ε (Program E R) β}

theorem exceptBind_run : (x >>= f).run = x.run.bind fun r =>
    match r with
    | .ok a => (f a).run
    | .error e => .pure (.error e) := by
  change x.run.bind _ = _
  congr 1
  funext r
  cases r <;> rfl

theorem run_exceptBind_ok {σ : Type u} {handle : (e : E) → σ → R e × σ} {s s' : σ} {a : α}
    (h : run handle x.run s = (.ok a, s')) :
    run handle (x >>= f).run s = run handle (f a).run s' := by
  rw [exceptBind_run, run_bind, h]

theorem run_exceptBind_error {σ : Type u} {handle : (e : E) → σ → R e × σ} {s s' : σ} {e : ε}
    (h : run handle x.run s = (.error e, s')) :
    run handle (x >>= f).run s = (.error e, s') := by
  rw [exceptBind_run, run_bind, h]
  rfl

end Program

/-- `f` sends every state of the machine to a program that does the same next step. -/
def Lockstep (node : X → Node E R α X) (f : X → Program E R α) : Prop :=
  ∀ x, (f x).node = (node x).map f

theorem Lockstep.run_eq {σ : Type u} {node : X → Node E R α X} {f : X → Program E R α}
    (h : Lockstep node f) (handle : (e : E) → σ → R e × σ) (x : X) (s : σ) :
    Program.run handle (f x) s =
      match node x with
      | .done a => (a, s)
      | .await e k => Program.run handle (f (k (handle e s).1)) (handle e s).2 := by
  have hx := h x
  cases hf : f x with
  | pure a =>
    cases hn : node x with
    | done b =>
      simp only [hf, hn, Program.node, Node.map, Node.done.injEq] at hx
      rw [hx]
      rfl
    | await e k => simp [hf, hn, Program.node, Node.map] at hx
  | await e k =>
    cases hn : node x with
    | done b => simp [hf, hn, Program.node, Node.map] at hx
    | await e' k' =>
      simp only [hf, hn, Program.node, Node.map, Node.await.injEq] at hx
      obtain ⟨rfl, hk⟩ := hx
      rw [eq_of_heq hk]
      rfl

end Programs
