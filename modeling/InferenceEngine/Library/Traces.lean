import InferenceEngine.Library.Programs

/-!
# Traces of programs

A trace lists the effects of a program that has ended, with the replies it got. The traces of a
program in sequence are those of its parts, one after the other; a loop that awaits one effect
again and again has traces of that effect only.
-/

namespace Programs

set_option autoImplicit false

namespace Program

variable {E : Type} {R : E → Type} {α β : Type}

/-- The program ends with this value after these effects and replies. -/
inductive Traces : Program E R α → List (Σ e, R e) → α → Prop where
  | pure (a : α) : Traces (.pure a) [] a
  | await (e : E) (k : R e → Program E R α) (r : R e) {tr : List (Σ e, R e)} {a : α}
      (rest : Traces (k r) tr a) : Traces (.await e k) (⟨e, r⟩ :: tr) a

theorem traces_await {e : E} {k : R e → Program E R α} {tr : List (Σ e, R e)} {a : α} :
    (Program.await e k).Traces tr a ↔ ∃ r rest, tr = ⟨e, r⟩ :: rest ∧ (k r).Traces rest a := by
  constructor
  · intro h
    cases h with
    | await _ _ r rest => exact ⟨r, _, rfl, rest⟩
  · rintro ⟨r, rest, rfl, h⟩
    exact .await e k r h

theorem traces_bind {p : Program E R α} {f : α → Program E R β} {tr : List (Σ e, R e)} {b : β} :
    (p.bind f).Traces tr b ↔
      ∃ tr₁ a tr₂, tr = tr₁ ++ tr₂ ∧ p.Traces tr₁ a ∧ (f a).Traces tr₂ b := by
  induction p generalizing tr with
  | pure a =>
    constructor
    · exact fun h => ⟨[], a, tr, rfl, .pure a, h⟩
    · rintro ⟨_, _, _, rfl, h, hf⟩
      cases h
      exact hf
  | await e k ih =>
    constructor
    · intro h
      obtain ⟨r, rest, rfl, hrest⟩ := traces_await.mp h
      obtain ⟨tr₁, a, tr₂, rfl, hk, hf⟩ := (ih r).mp hrest
      exact ⟨⟨e, r⟩ :: tr₁, a, tr₂, rfl, .await e k r hk, hf⟩
    · rintro ⟨_, a, tr₂, rfl, h, hf⟩
      obtain ⟨r, rest, rfl, hrest⟩ := traces_await.mp h
      exact .await e _ r ((ih r).mpr ⟨rest, a, tr₂, rfl, hrest, hf⟩)

/-- Answer an effect from a stream, which goes on after what was used up before. -/
def nextReply (w : Nat → (e : E) → R e) (e : E) (used : List (Σ e, R e)) : R e × List (Σ e, R e) :=
  (w used.length e, used ++ [⟨e, w used.length e⟩])

theorem traces_run (w : Nat → (e : E) → R e) (p : Program E R α) (used : List (Σ e, R e)) :
    ∃ tr, (run (nextReply w) p used).2 = used ++ tr ∧ p.Traces tr (run (nextReply w) p used).1 ∧
      ∀ x ∈ tr, ∃ n, x.2 = w n x.1 := by
  induction p generalizing used with
  | pure a => exact ⟨[], (List.append_nil used).symm, .pure a, fun _ hx => nomatch hx⟩
  | await e k ih =>
    obtain ⟨tr, hused, htr, hfrom⟩ := ih (w used.length e) (used ++ [⟨e, w used.length e⟩])
    refine ⟨⟨e, w used.length e⟩ :: tr, ?_, .await e k _ htr, ?_⟩
    · rw [← List.singleton_append, ← List.append_assoc]
      exact hused
    · intro x hx
      rcases List.mem_cons.mp hx with rfl | hx
      · exact ⟨used.length, rfl⟩
      · exact hfrom x hx

/-! A loop that awaits one effect until its reply is not to be retried. -/

variable {ε : Type} {e : E} {read : R e → Except ε α} {again : ε → Bool}

/-- `left + 1` tries at most. -/
def retry (e : E) (read : R e → Except ε α) (again : ε → Bool) : Nat → Program E R (Except ε α)
  | 0 => .await e fun r => .pure (read r)
  | left + 1 => .await e fun r =>
    match read r with
    | .ok a => .pure (.ok a)
    | .error x => if again x then retry e read again left else .pure (.error x)

/-- The replies of a loop with `limit` tries: those that were retried, and the last one. -/
structure Retried {ρ : Type} (read : ρ → Except ε α) (again : ε → Bool) (limit : Nat)
    (retried : List ρ) (last : ρ) : Prop where
  failed : ∀ r ∈ retried, ∃ x, read r = .error x ∧ again x = true
  within : retried.length < limit
  stop : ∀ x, read last = .error x → again x = true → retried.length + 1 = limit

theorem Retried.first {ρ : Type} {read : ρ → Except ε α} {limit : Nat} {r : ρ} (hpos : 0 < limit)
    (h : ∀ x, read r = .error x → again x = true → limit = 1) : Retried read again limit [] r where
  failed := fun _ hr => nomatch hr
  within := hpos
  stop := fun x hx hagain => (h x hx hagain).symm

theorem traces_retry {left : Nat} {tr : List (Σ e, R e)} {o : Except ε α}
    (h : (retry e read again left).Traces tr o) :
    ∃ retried last, Retried read again (left + 1) retried last ∧
      tr = (retried ++ [last]).map (Sigma.mk e) ∧ o = read last := by
  induction left generalizing tr with
  | zero =>
    obtain ⟨r, rest, rfl, hrest⟩ := traces_await.mp h
    cases hrest
    exact ⟨[], r, .first Nat.one_pos fun _ _ _ => rfl, rfl, rfl⟩
  | succ left ih =>
    obtain ⟨r, rest, rfl, hrest⟩ := traces_await.mp h
    cases hread : read r with
    | ok a =>
      rw [hread] at hrest
      cases hrest
      refine ⟨[], r, .first (Nat.succ_pos _) fun x hx _ => ?_, rfl, hread.symm⟩
      cases hread.symm.trans hx
    | error x =>
      rw [hread] at hrest
      by_cases hagain : again x = true
      · simp only [if_pos hagain] at hrest
        obtain ⟨retried, last, hret, rfl, rfl⟩ := ih hrest
        refine ⟨r :: retried, last, ⟨?_, Nat.succ_lt_succ hret.within, ?_⟩, rfl, rfl⟩
        · intro r' hr'
          rcases List.mem_cons.mp hr' with rfl | hr'
          · exact ⟨x, hread, hagain⟩
          · exact hret.failed r' hr'
        · exact fun y hy hy' => congrArg (· + 1) (hret.stop y hy hy')
      · simp only [if_neg hagain] at hrest
        cases hrest
        refine ⟨[], r, .first (Nat.succ_pos _) fun y hy hy' => ?_, rfl, hread.symm⟩
        cases hread.symm.trans hy
        exact absurd hy' hagain

end Program

end Programs
