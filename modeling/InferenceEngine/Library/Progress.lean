import InferenceEngine.Library.Runs

/-!
# What a system can still bring about

Some run whose steps satisfy `P` leads to a state with `Q`. Such runs are put together from
shorter ones; an invariant of the steps may be used at every joint, and rounds that lower a
measure come to an end.
-/

namespace Runs

set_option autoImplicit false

universe u v
variable {S : Type u} {A : Type v}

/-- A run of steps with `P` leads from here to a state with `Q`. -/
inductive CanReach (step : S → A → Option S) (P : S → A → Prop) (Q : S → Prop) : S → Prop where
  | here {s : S} (h : Q s) : CanReach step P Q s
  | next {s t : S} (a : A) (hP : P s a) (h : step s a = some t) (rest : CanReach step P Q t) :
      CanReach step P Q s

namespace CanReach

variable {step : S → A → Option S} {P : S → A → Prop} {Q R I : S → Prop} {s : S}

theorem bind (h : CanReach step P Q s) (hQ : ∀ t, Q t → CanReach step P R t) :
    CanReach step P R s := by
  induction h with
  | here h => exact hQ _ h
  | next a hP hstep _ ih => exact .next a hP hstep ih

theorem mono (h : CanReach step P Q s) (hQ : ∀ t, Q t → R t) : CanReach step P R s :=
  h.bind fun t ht => .here (hQ t ht)

theorem keep (keep : ∀ s a t, I s → P s a → step s a = some t → I t) (hs : I s)
    (h : CanReach step P Q s) : CanReach step P (fun t => I t ∧ Q t) s := by
  induction h with
  | here h => exact .here ⟨hs, h⟩
  | next a hP hstep _ ih => exact .next a hP hstep (ih (keep _ a _ hs hP hstep))

/-- Rounds that end in the goal or lower a measure lead to the goal. -/
theorem of_measure (measure : S → Nat)
    (round : ∀ s, I s → CanReach step P (fun t => Q t ∨ (I t ∧ measure t < measure s)) s)
    (hs : I s) : CanReach step P Q s := by
  induction hn : measure s using Nat.strongRecOn generalizing s with
  | _ n ih =>
    refine (round s hs).bind fun t ht => ?_
    rcases ht with ht | ⟨ht, hlt⟩
    · exact .here ht
    · exact ih (measure t) (hn ▸ hlt) ht rfl

/-- It is enough to reach the goal for each of finitely many things, one after the other. -/
theorem forall_mem {X : Type*} {T : X → S → Prop} {G : X → S → Prop}
    (keepI : ∀ s a t, I s → P s a → step s a = some t → I t)
    (keepT : ∀ x s a t, I s → T x s → P s a → step s a = some t → T x t)
    (keepG : ∀ x s a t, I s → G x s → P s a → step s a = some t → G x t)
    (reach : ∀ x s, I s → T x s → CanReach step P (G x) s) (xs : List X) (hs : I s)
    (hT : ∀ x ∈ xs, T x s) : CanReach step P (fun t => ∀ x ∈ xs, G x t) s := by
  induction xs generalizing s with
  | nil => exact .here fun x hx => nomatch hx
  | cons x xs ih =>
    have hx := (reach x s hs (hT x List.mem_cons_self)).keep
      (I := fun t => I t ∧ ∀ y ∈ xs, T y t) ?_ ⟨hs, fun y hy => hT y (List.mem_cons_of_mem _ hy)⟩
    · refine hx.bind fun t ht => ?_
      obtain ⟨⟨hI, hleft⟩, hG⟩ := ht
      refine ((ih hI hleft).keep (I := fun u => I u ∧ G x u) ?_ ⟨hI, hG⟩).mono ?_
      · exact fun u a u' hu hP hstep => ⟨keepI u a u' hu.1 hP hstep, keepG x u a u' hu.1 hu.2 hP hstep⟩
      · rintro u ⟨⟨_, hGx⟩, hrest⟩ y hy
        rcases List.mem_cons.mp hy with rfl | hy
        · exact hGx
        · exact hrest y hy
    · exact fun u a u' hu hP hstep =>
        ⟨keepI u a u' hu.1 hP hstep, fun y hy => keepT y u a u' hu.1 (hu.2 y hy) hP hstep⟩

theorem exists_run (h : CanReach step P Q s) :
    ∃ as t, exec step s as = some t ∧ Along step P s as ∧ Q t := by
  induction h with
  | here h => exact ⟨[], _, rfl, trivial, h⟩
  | next a hP hstep _ ih =>
    obtain ⟨as, t, hexec, halong, hQ⟩ := ih
    refine ⟨a :: as, t, exec_cons_iff.mpr ⟨_, hstep, hexec⟩, ⟨hP, fun u hu => ?_⟩, hQ⟩
    obtain rfl := Option.some.inj (hstep.symm.trans hu)
    exact halong

end CanReach

end Runs
