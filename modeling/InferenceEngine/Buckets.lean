import InferenceEngine.Pipelines
import InferenceEngine.Library.Runs

/-!
# Creating the bucket

`ensure_bucket` of `app/adapters/object_store/s3.py`: a probe, then `create_bucket` with retries.
Any number of calls run at the same time on one bucket; a create may fail transiently before or
after its effect. An answer to a create on a bucket that is there makes the call raise.
-/

namespace InferenceEngine

set_option autoImplicit false

open Programs Runs

/-! ### `s3.py` -/

inductive BucketCall where
  | headBucket | createBucket

abbrev BucketProgram (α : Type) :=
  Program BucketCall (fun _ => Except BotoError Unit) (Except Exn α)

abbrev BucketRun (α : Type) :=
  ExceptT Exn (Program BucketCall fun _ => Except BotoError Unit) α

/-- `bucket_exists`: `_call_no_retry` lets a `ClientError` through and classifies the rest. -/
def bucketExists : BucketRun Bool :=
  ExceptT.mk (.await .headBucket fun
    | .ok () => .pure (.ok true)
    | .error (.client status code message) =>
      if status = 404 then .pure (.ok false)
      else .pure (.error (classifyBotocoreError (.client status code message)))
    | .error e => .pure (.error (classifyBotocoreError e)))

def createOnce : BucketProgram Unit :=
  .await .createBucket fun
    | .ok () => .pure (.ok ())
    | .error e => .pure (.error (classifyBotocoreError e))

/-- `_call(create_bucket, ..)`: `retrying` with `left` tries after the current one. -/
def callCreate : Nat → BucketProgram Unit
  | 0 => createOnce
  | left + 1 => createOnce.bind fun
    | .error (.transient _) => callCreate left
    | r => .pure r

def ensureBucket (cfg : Settings) : BucketRun Unit := do
  if ← bucketExists then return
  ExceptT.mk (callCreate (cfg.retryMaxAttempts - 1))

/-! ### Calls on one bucket -/

/-- What S3 answers to a HEAD on a missing bucket. -/
def bucketNotFound : BotoError := .client 404 "404".toList "Not Found".toList

/-- What S3 answers to a create on a bucket that is there. -/
def bucketAlreadyOwned : BotoError :=
  .client 409 "BucketAlreadyOwnedByYou".toList
    "Your previous request to create the named bucket succeeded and you already own it.".toList

/-- The answer of S3, and whether the bucket is there after it. -/
def answerBucket : BucketCall → Bool → Except BotoError Unit × Bool
  | .headBucket, true => (.ok (), true)
  | .headBucket, false => (.error bucketNotFound, false)
  | .createBucket, false => (.ok (), true)
  | .createBucket, true => (.error bucketAlreadyOwned, true)

/-- The bucket, what is left of each call, and the creates that have failed. -/
structure BucketSys where
  bucket : Bool
  calls : Nat → Option (BucketProgram Unit) := fun _ => none
  failures : Nat → Nat := fun _ => 0

/-- A call starts, S3 answers its operation, or its create fails with a transient error, before
or after the bucket has been created. -/
inductive BucketAction where
  | start (call : Nat)
  | answer (call : Nat)
  | fail (call : Nat) (e : BotoError) (applied : Bool)

def BotoError.isTransient (e : BotoError) : Bool :=
  match classifyBotocoreError e with
  | .transient _ => true
  | _ => false

namespace BucketSys

variable (cfg : Settings)

def step (s : BucketSys) : BucketAction → Option BucketSys
  | .start call =>
    match s.calls call with
    | none => some { s with calls := Function.update s.calls call (some (ensureBucket cfg).run) }
    | some _ => none
  | .answer call =>
    match s.calls call with
    | some (.await op k) =>
      some { s with bucket := (answerBucket op s.bucket).2,
                    calls := Function.update s.calls call (some (k (answerBucket op s.bucket).1)) }
    | _ => none
  | .fail call e applied =>
    match s.calls call with
    | some (.await .createBucket k) =>
      if e.isTransient then
        some { bucket := s.bucket || applied,
               calls := Function.update s.calls call (some (k (.error e))),
               failures := Function.update s.failures call (s.failures call + 1) }
      else none
    | _ => none

def tries : Nat := max 1 cfg.retryMaxAttempts

/-- A failure leaves the call another try. -/
def WithinBudget (s : BucketSys) : BucketAction → Prop
  | .fail call _ _ => s.failures call + 1 < tries cfg
  | _ => True

/-- No create is answered on a bucket that is already there. -/
def NoConflict (s : BucketSys) : BucketAction → Prop
  | .answer call => ∀ k, s.calls call = some (.await .createBucket k) → s.bucket = false
  | _ => True

/-- Every call that has ended has returned normally, and then the bucket is there. -/
def Fine (s : BucketSys) : Prop :=
  ∀ call r, s.calls call = some (.pure r) → r = .ok () ∧ s.bucket = true

inductive Stands (bucket : Bool) (failures : Nat) : BucketProgram Unit → Prop
  | probing (h : failures = 0) : Stands bucket failures (ensureBucket cfg).run
  | creating (left : Nat) (h : left + 1 + failures = tries cfg) :
      Stands bucket failures (callCreate left)
  | returned (h : bucket = true) (hbudget : failures < tries cfg) :
      Stands bucket failures (.pure (.ok ()))
  | raised (e : Exn) : Stands bucket failures (.pure (.error e))

structure Placed (s : BucketSys) : Prop where
  stands : ∀ call p, s.calls call = some p → Stands cfg s.bucket (s.failures call) p
  fresh : ∀ call, s.calls call = none → s.failures call = 0

end BucketSys

/-! ### One operation -/

section
variable {cfg : Settings}

theorem ensureBucket_probe (cfg : Settings) : ∃ k,
    (ensureBucket cfg).run = .await .headBucket k ∧ k (.ok ()) = .pure (.ok ()) ∧
      k (.error bucketNotFound) = callCreate (cfg.retryMaxAttempts - 1) :=
  ⟨_, rfl, rfl, rfl⟩

theorem callCreate_try (left : Nat) : ∃ k, callCreate left = .await .createBucket k ∧
    k (.ok ()) = .pure (.ok ()) ∧
    (∀ e text, classifyBotocoreError e = .permanent text →
      k (.error e) = .pure (.error (.permanent text))) ∧
    ∀ e text, classifyBotocoreError e = .transient text →
      k (.error e) = match left with
        | 0 => .pure (.error (.transient text))
        | left + 1 => callCreate left := by
  cases left with
  | zero =>
    refine ⟨_, rfl, rfl, ?_, ?_⟩
    · intro e text he
      simp only [he]
    · intro e text he
      simp only [he]
  | succ left =>
    refine ⟨_, rfl, rfl, ?_, ?_⟩
    · intro e text he
      simp only [Program.pure_bind, he]
    · intro e text he
      simp only [Program.pure_bind, he]

theorem isTransient_iff {e : BotoError} :
    e.isTransient = true ↔ ∃ text, classifyBotocoreError e = .transient text := by
  unfold BotoError.isTransient
  cases classifyBotocoreError e <;> simp

theorem classify_alreadyOwned :
    ∃ text, classifyBotocoreError bucketAlreadyOwned = .permanent text :=
  ⟨_, rfl⟩

end

namespace BucketSys

section
variable {cfg : Settings} {s s' : BucketSys} {a : BucketAction} {call : Nat}

theorem Stands.mono {bucket bucket' : Bool} {failures : Nat} {p : BucketProgram Unit}
    (h : Stands cfg bucket failures p) (hb : bucket = true → bucket' = true) :
    Stands cfg bucket' failures p := by
  cases h with
  | probing h => exact .probing h
  | creating left h => exact .creating left h
  | returned h hbudget => exact .returned (hb h) hbudget
  | raised e => exact .raised e

theorem Stands.head {bucket : Bool} {failures : Nat} {k : Except BotoError Unit → BucketProgram Unit}
    (h : Stands cfg bucket failures (.await .headBucket k)) :
    failures = 0 ∧ k (.ok ()) = .pure (.ok ()) ∧
      k (.error bucketNotFound) = callCreate (cfg.retryMaxAttempts - 1) := by
  generalize hp : (.await .headBucket k : BucketProgram Unit) = p at h
  cases h with
  | probing hf =>
    obtain ⟨k', hk', hfound, hmissing⟩ := ensureBucket_probe cfg
    rw [hk'] at hp
    cases hp
    exact ⟨hf, hfound, hmissing⟩
  | creating left h =>
    obtain ⟨k', hk', _⟩ := callCreate_try left
    rw [hk'] at hp
    cases hp
  | returned h hbudget => cases hp
  | raised e => cases hp

theorem Stands.create {bucket : Bool} {failures : Nat}
    {k : Except BotoError Unit → BucketProgram Unit}
    (h : Stands cfg bucket failures (.await .createBucket k)) :
    ∃ left, left + 1 + failures = tries cfg ∧ callCreate left = .await .createBucket k := by
  generalize hp : (.await .createBucket k : BucketProgram Unit) = p at h
  cases h with
  | probing hf =>
    obtain ⟨k', hk', _⟩ := ensureBucket_probe cfg
    rw [hk'] at hp
    cases hp
  | creating left h => exact ⟨left, h, rfl⟩
  | returned h hbudget => cases hp
  | raised e => cases hp

/-- What a step makes of its call; the call raises when its create is answered on a bucket that
is there, or when its last try fails. -/
structure Advances (cfg : Settings) (s s' : BucketSys) (a : BucketAction) (call : Nat)
    (p : BucketProgram Unit) : Prop where
  calls : s'.calls = Function.update s.calls call (some p)
  failures : ∀ other, other ≠ call → s'.failures other = s.failures other
  bucket : s.bucket = true → s'.bucket = true
  stands : Stands cfg s'.bucket (s'.failures call) p
  raises : ∀ e, p = .pure (.error e) → ¬ (NoConflict s a ∧ WithinBudget cfg s a)

theorem advances_start (hs : Placed cfg s) (h : step cfg s (.start call) = some s') :
    Advances cfg s s' (.start call) call (ensureBucket cfg).run := by
  unfold step at h
  cases hcall : s.calls call with
  | some p => simp [hcall] at h
  | none =>
    simp only [hcall, Option.some.injEq] at h
    subst h
    refine ⟨rfl, fun _ _ => rfl, id, .probing (hs.fresh call hcall), ?_⟩
    intro e he
    obtain ⟨k, hk, _⟩ := ensureBucket_probe cfg
    rw [hk] at he
    cases he

theorem advances_probe {k : Except BotoError Unit → BucketProgram Unit}
    (hcall : s.calls call = some (.await .headBucket k)) (hs : Placed cfg s)
    (h : step cfg s (.answer call) = some s') :
    ∃ p, Advances cfg s s' (.answer call) call p ∧
      (p = .pure (.ok ()) ∨ p = callCreate (cfg.retryMaxAttempts - 1)) := by
  obtain ⟨hfailures, hfound, hmissing⟩ := (hs.stands call _ hcall).head
  cases hbucket : s.bucket with
  | true =>
    simp only [step, hcall, hbucket, answerBucket, hfound, Option.some.injEq] at h
    subst h
    refine ⟨.pure (.ok ()), ⟨rfl, fun _ _ => rfl, fun _ => rfl, ?_, ?_⟩, .inl rfl⟩
    · apply Stands.returned rfl
      show s.failures call < max 1 cfg.retryMaxAttempts
      omega
    · intro e he
      cases he
  | false =>
    simp only [step, hcall, hbucket, answerBucket, hmissing, Option.some.injEq] at h
    subst h
    refine ⟨callCreate (cfg.retryMaxAttempts - 1), ⟨rfl, fun _ _ => rfl, ?_, ?_, ?_⟩, .inr rfl⟩
    · intro h
      rwa [hbucket] at h
    · apply Stands.creating
      show cfg.retryMaxAttempts - 1 + 1 + s.failures call = max 1 cfg.retryMaxAttempts
      omega
    · intro e he
      obtain ⟨k', hk', _⟩ := callCreate_try (cfg.retryMaxAttempts - 1)
      rw [hk'] at he
      cases he

theorem advances_create {k : Except BotoError Unit → BucketProgram Unit}
    (hcall : s.calls call = some (.await .createBucket k)) (hs : Placed cfg s)
    (h : step cfg s (.answer call) = some s') :
    ∃ p, Advances cfg s s' (.answer call) call p ∧
      if s.bucket then ∃ e, p = .pure (.error e) else p = .pure (.ok ()) := by
  obtain ⟨left, hleft, hk⟩ := (hs.stands call _ hcall).create
  obtain ⟨k', hk', hcreated, hpermanent, _⟩ := callCreate_try left
  rw [hk] at hk'
  cases hk'
  cases hbucket : s.bucket with
  | true =>
    obtain ⟨text, htext⟩ := classify_alreadyOwned
    have hraised := hpermanent bucketAlreadyOwned text htext
    simp only [step, hcall, hbucket, answerBucket, hraised, Option.some.injEq] at h
    subst h
    refine ⟨.pure (.error (.permanent text)), ⟨rfl, fun _ _ => rfl, fun _ => rfl, .raised _, ?_⟩,
      _, rfl⟩
    intro e _ hcalm
    have hmissing := hcalm.1 k hcall
    rw [hbucket] at hmissing
    cases hmissing
  | false =>
    simp only [step, hcall, hbucket, answerBucket, hcreated, Option.some.injEq] at h
    subst h
    refine ⟨.pure (.ok ()), ⟨rfl, fun _ _ => rfl, fun _ => rfl, ?_, ?_⟩, rfl⟩
    · apply Stands.returned rfl
      show s.failures call < tries cfg
      omega
    · intro e he
      cases he

theorem advances_fail {e : BotoError} {applied : Bool} (hs : Placed cfg s)
    (h : step cfg s (.fail call e applied) = some s') :
    ∃ p, Advances cfg s s' (.fail call e applied) call p := by
  simp only [step] at h
  split at h
  · rename_i k hcall
    split at h
    · rename_i htransient
      obtain ⟨left, hleft, hk⟩ := (hs.stands call _ hcall).create
      obtain ⟨k', hk', _, _, hretry⟩ := callCreate_try left
      rw [hk] at hk'
      cases hk'
      obtain ⟨text, htext⟩ := isTransient_iff.mp htransient
      have hnext := hretry e text htext
      cases left with
      | zero =>
        simp only [hnext, Option.some.injEq] at h
        subst h
        refine ⟨.pure (.error (.transient text)), rfl, ?_, ?_, .raised _, ?_⟩
        · intro other hother
          exact Function.update_of_ne hother _ _
        · intro hbucket
          simp only [hbucket, Bool.true_or]
        · intro _ _ hcalm
          have hbudget : s.failures call + 1 < tries cfg := hcalm.2
          omega
      | succ left =>
        simp only [hnext, Option.some.injEq] at h
        subst h
        refine ⟨callCreate left, rfl, ?_, ?_, ?_, ?_⟩
        · intro other hother
          exact Function.update_of_ne hother _ _
        · intro hbucket
          simp only [hbucket, Bool.true_or]
        · apply Stands.creating
          simp only [Function.update_self]
          omega
        · intro e' he'
          obtain ⟨k', hk', _⟩ := callCreate_try left
          rw [hk'] at he'
          cases he'
    · cases h
  · cases h

theorem advances_of_step (hs : Placed cfg s) (h : step cfg s a = some s') :
    ∃ call p, Advances cfg s s' a call p := by
  cases a with
  | start call => exact ⟨call, _, advances_start hs h⟩
  | fail call e applied => exact ⟨call, advances_fail hs h⟩
  | answer call =>
    cases hcall : s.calls call with
    | none => simp [step, hcall] at h
    | some p =>
      cases p with
      | pure r => simp [step, hcall] at h
      | await op k =>
        cases op with
        | headBucket =>
          obtain ⟨p, hp, _⟩ := advances_probe hcall hs h
          exact ⟨call, p, hp⟩
        | createBucket =>
          obtain ⟨p, hp, _⟩ := advances_create hcall hs h
          exact ⟨call, p, hp⟩

/-! ### Runs -/

theorem placed_init (bucket : Bool) : Placed cfg { bucket } := by
  constructor
  · intro call p h
    cases h
  · intro call _
    rfl

theorem Placed.step (hs : Placed cfg s) (h : s.step cfg a = some s') : Placed cfg s' := by
  obtain ⟨call, p, hp⟩ := advances_of_step hs h
  constructor
  · intro other q hq
    by_cases hother : other = call
    · subst hother
      rw [hp.calls, Function.update_self] at hq
      exact Option.some.inj hq ▸ hp.stands
    · rw [hp.calls, Function.update_of_ne hother] at hq
      rw [hp.failures other hother]
      exact (hs.stands other q hq).mono hp.bucket
  · intro other hnone
    by_cases hother : other = call
    · subst hother
      rw [hp.calls, Function.update_self] at hnone
      cases hnone
    · rw [hp.calls, Function.update_of_ne hother] at hnone
      rw [hp.failures other hother]
      exact hs.fresh other hnone

theorem Fine.step (hs : Placed cfg s) (hfine : Fine s) (hcalm : NoConflict s a)
    (hbudget : WithinBudget cfg s a) (h : s.step cfg a = some s') : Fine s' := by
  obtain ⟨call, p, hp⟩ := advances_of_step hs h
  intro other r hr
  by_cases hother : other = call
  · subst hother
    rw [hp.calls, Function.update_self] at hr
    obtain rfl := Option.some.inj hr
    have hstands := hp.stands
    generalize hq : Program.pure r = q at hstands
    cases hstands with
    | probing hf =>
      obtain ⟨k, hk, _⟩ := ensureBucket_probe cfg
      rw [hk] at hq
      cases hq
    | creating left hleft =>
      obtain ⟨k, hk, _⟩ := callCreate_try left
      rw [hk] at hq
      cases hq
    | returned hbucket _ =>
      cases hq
      exact ⟨rfl, hbucket⟩
    | raised e =>
      cases hq
      exact absurd ⟨hcalm, hbudget⟩ (hp.raises e rfl)
  · rw [hp.calls, Function.update_of_ne hother] at hr
    obtain ⟨hok, hbucket⟩ := hfine other r hr
    exact ⟨hok, hp.bucket hbucket⟩

/-- After a conflict a call has raised. -/
theorem noConflict_of_fine (hs : Placed cfg s) (h : s.step cfg a = some s') (hfine : Fine s') :
    NoConflict s a := by
  cases a with
  | start call => trivial
  | fail call e applied => trivial
  | answer call =>
    intro k hcall
    obtain ⟨p, hp, hend⟩ := advances_create hcall hs h
    by_contra hbucket
    rw [if_pos (Bool.not_eq_false _ ▸ hbucket)] at hend
    obtain ⟨e, rfl⟩ := hend
    have hraised : s'.calls call = some (.pure (.error e)) := by
      rw [hp.calls, Function.update_self]
    cases (hfine call _ hraised).1

theorem ends_create {k : Except BotoError Unit → BucketProgram Unit} (hs : Placed cfg s)
    (hcall : s.calls call = some (.await .createBucket k)) :
    ∃ s', s.step cfg (.answer call) = some s' ∧ ∃ r, s'.calls call = some (.pure r) := by
  have hstep : ∃ s', s.step cfg (.answer call) = some s' := by
    simp only [step, hcall, Option.some.injEq, exists_eq']
  obtain ⟨s', hstep⟩ := hstep
  obtain ⟨p, hp, hend⟩ := advances_create hcall hs hstep
  refine ⟨s', hstep, ?_⟩
  rw [hp.calls, Function.update_self]
  split at hend
  · obtain ⟨e, rfl⟩ := hend
    exact ⟨_, rfl⟩
  · subst hend
    exact ⟨_, rfl⟩

/-- A call ends after at most two operations that are answered. -/
theorem ends_within {p : BucketProgram Unit} (hs : Placed cfg s) (hcall : s.calls call = some p) :
    ∃ n ≤ 2, ∃ s', exec (step cfg) s (List.replicate n (.answer call)) = some s' ∧
      ∃ r, s'.calls call = some (.pure r) := by
  cases p with
  | pure r => exact ⟨0, by omega, s, rfl, r, hcall⟩
  | await op k =>
    cases op with
    | createBucket =>
      obtain ⟨s', hstep, hended⟩ := ends_create hs hcall
      exact ⟨1, by omega, s', exec_cons_iff.mpr ⟨s', hstep, rfl⟩, hended⟩
    | headBucket =>
      have hstep : ∃ t, s.step cfg (.answer call) = some t := by
        simp only [step, hcall, Option.some.injEq, exists_eq']
      obtain ⟨t, hstep⟩ := hstep
      obtain ⟨p, hp, hnext⟩ := advances_probe hcall hs hstep
      have hcalls : t.calls call = some p := by
        rw [hp.calls, Function.update_self]
      rcases hnext with rfl | rfl
      · exact ⟨1, by omega, t, exec_cons_iff.mpr ⟨t, hstep, rfl⟩, _, hcalls⟩
      · obtain ⟨k', hk', _⟩ := callCreate_try (cfg.retryMaxAttempts - 1)
        rw [hk'] at hcalls
        obtain ⟨s', hlast, hended⟩ := ends_create (hs.step hstep) hcalls
        refine ⟨2, le_rfl, s', ?_, hended⟩
        exact exec_cons_iff.mpr ⟨t, hstep, exec_cons_iff.mpr ⟨s', hlast, rfl⟩⟩

/-- Every call of a run returns normally, with the bucket there, exactly when no create is
answered on a bucket that is already there; and every call ends. -/
theorem ensureBucket_iff_noConflict (cfg : Settings) (bucket : Bool) (acts : List BucketAction)
    (s : BucketSys) (hexec : exec (step cfg) { bucket } acts = some s)
    (hbudget : Along (step cfg) (WithinBudget cfg) { bucket } acts) :
    ((∀ before after t, acts = before ++ after → exec (step cfg) { bucket } before = some t →
        Fine t) ↔ Along (step cfg) NoConflict { bucket } acts) ∧
    ∀ call p, s.calls call = some p →
      ∃ n ≤ 2, ∃ s', exec (step cfg) s (List.replicate n (.answer call)) = some s' ∧
        ∃ r, s'.calls call = some (.pure r) := by
  have hplaced : ∀ as t, exec (step cfg) { bucket } as = some t → Placed cfg t := by
    intro as t ht
    exact invariant (fun _ _ _ hs _ h => hs.step h) (placed_init bucket) (Along.trivial _ as) ht
  refine ⟨⟨?_, ?_⟩, ?_⟩
  · intro hfine
    apply Along.of_prefixes
    intro before a after t hsplit ht
    rw [hsplit] at hexec
    obtain ⟨t₁, ht₁, hrest⟩ := exec_append_iff.mp hexec
    rw [ht] at ht₁
    cases ht₁
    obtain ⟨u, hu, _⟩ := exec_cons_iff.mp hrest
    have hprefix : exec (step cfg) { bucket } (before ++ [a]) = some u :=
      exec_append_iff.mpr ⟨t, ht, exec_cons_iff.mpr ⟨u, hu, rfl⟩⟩
    have hsplit' : acts = (before ++ [a]) ++ after := by
      rw [hsplit, List.append_assoc, List.singleton_append]
    exact noConflict_of_fine (hplaced before t ht) hu (hfine _ after u hsplit' hprefix)
  · intro hcalm before after t hsplit ht
    have hboth := hcalm.and hbudget
    rw [hsplit] at hboth
    have hfine : Placed cfg t ∧ Fine t := by
      refine invariant (I := fun t => Placed cfg t ∧ Fine t) ?_ ⟨placed_init bucket, ?_⟩
        hboth.append_left ht
      · rintro u a u' ⟨hu, hfine⟩ ⟨hnone, hfew⟩ hstep
        exact ⟨hu.step hstep, Fine.step hu hfine hnone hfew hstep⟩
      · intro call r hr
        cases hr
    exact hfine.2
  · intro call p hcall
    exact ends_within (hplaced acts s hexec) hcall

end

def withinBudget (cfg : Settings) (s : BucketSys) : BucketAction → Bool
  | .fail call _ _ => decide (s.failures call + 1 < tries cfg)
  | _ => true

theorem withinBudget_iff {cfg : Settings} {s : BucketSys} {a : BucketAction} :
    withinBudget cfg s a = true ↔ WithinBudget cfg s a := by
  cases a <;> simp [withinBudget, WithinBudget]

def noConflict (s : BucketSys) : BucketAction → Bool
  | .answer call =>
    match s.calls call with
    | some (.await .createBucket _) => !s.bucket
    | _ => true
  | _ => true

theorem noConflict_sound {s : BucketSys} {a : BucketAction} (h : noConflict s a = true) :
    NoConflict s a := by
  cases a with
  | start call => trivial
  | fail call e applied => trivial
  | answer call =>
    intro k hcall
    simpa only [noConflict, hcall, Bool.not_eq_true'] using h

/-- Of two calls at once, the first has a create fail before its effect and tries again; the second
then finds the bucket. -/
def retriedCreate : List BucketAction :=
  [.start 0, .answer 0, .start 1, .fail 0 (.connection "Connect timeout".toList) false, .answer 0,
   .answer 1]

theorem ensureBucket_retriedCreate :
    Along (step {}) NoConflict { bucket := false } retriedCreate ∧
    ∃ s, exec (step {}) { bucket := false } retriedCreate = some s ∧ Fine s ∧
      s.calls 0 = some (.pure (.ok ())) ∧ s.calls 1 = some (.pure (.ok ())) := by
  have hcalm : Along (step {}) NoConflict { bucket := false } retriedCreate :=
    Along.of_check (fun _ _ => noConflict_sound) rfl
  have hfine := (ensureBucket_iff_noConflict {} false retriedCreate _ rfl
    (Along.of_check (fun _ _ => withinBudget_iff.mp) rfl)).1.mpr hcalm
  exact ⟨hcalm, _, rfl, hfine retriedCreate [] _ (List.append_nil _).symm rfl, rfl, rfl⟩

/-! ### Two ways to a conflict -/

/-- Both calls have found the bucket missing when the first creates it. -/
def twoCalls : List BucketAction :=
  [.start 0, .start 1, .answer 0, .answer 1, .answer 0, .answer 1]

def lostReply : List BucketAction :=
  [.start 0, .answer 0, .fail 0 (.connection "Read timeout".toList) true, .answer 0]

theorem not_fine_of_error {s : BucketSys} {call : Nat} {e : Exn}
    (h : s.calls call = some (.pure (.error e))) : ¬ Fine s := by
  intro hfine
  cases (hfine call _ h).1

theorem ensureBucket_conflict :
    (∃ s, exec (step {}) { bucket := false } twoCalls = some s ∧
      Along (step {}) (WithinBudget {}) { bucket := false } twoCalls ∧ ¬ Fine s) ∧
    ∃ s, exec (step {}) { bucket := false } lostReply = some s ∧
      Along (step {}) (WithinBudget {}) { bucket := false } lostReply ∧ ¬ Fine s := by
  constructor
  · refine ⟨_, rfl, Along.of_check (fun _ _ => withinBudget_iff.mp) rfl, ?_⟩
    exact @not_fine_of_error _ 1 _ rfl
  · refine ⟨_, rfl, Along.of_check (fun _ _ => withinBudget_iff.mp) rfl, ?_⟩
    exact @not_fine_of_error _ 0 _ rfl

end BucketSys

end InferenceEngine
