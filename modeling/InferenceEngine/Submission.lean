import InferenceEngine.Points

/-!
# What a submission publishes

`IngestionService.submit` against an upstream that answers each `XADD` of the retry loop in
one of three ways. A call whose reply is lost has appended its entry all the same, and the
loop cannot tell it from one that has not.
-/

namespace InferenceEngine

set_option autoImplicit false

open Programs

/-- How the server answers an `XADD`; an error may come after the append. -/
inductive XaddOutcome where
  | appended
  | failed (e : RedisError)
  | lost (e : RedisError)

namespace XaddOutcome

def isLost : XaddOutcome → Bool
  | lost _ => true
  | _ => false

def appends : XaddOutcome → Bool
  | failed _ => false
  | _ => true

def reply : XaddOutcome → Except Exn Nat
  | appended => .ok 0
  | failed e => .error (.redis e)
  | lost e => .error (.redis e)

def retried : XaddOutcome → Bool
  | appended => false
  | failed e => e.retryable
  | lost e => e.retryable

theorem eq_appended_or (o : XaddOutcome) : o = appended ∨
    ∃ e, o.reply = .error (.redis e) ∧ o.retried = e.retryable ∧ o.appends = o.isLost := by
  cases o with
  | appended => exact .inl rfl
  | failed e => exact .inr ⟨e, rfl, rfl, rfl⟩
  | lost e => exact .inr ⟨e, rfl, rfl, rfl⟩

end XaddOutcome

/-- The jobs table, the entries the work stream received, and the number of `XADD` calls. -/
structure Upstream where
  rows : UUID → Option InferenceJob := fun _ => none
  received : List Fields := []
  calls : Nat := 0

/-- A reply to the effects that a submission does not await. -/
def noReply : (e : Effect) → e.Reply
  | .add _ | .get _ | .update _ | .run _ | .xadd _ _ | .xack _ | .xgroupCreate | .xautoclaim _
  | .xpending _ | .xreadgroup _ => .error (.other [] [])
  | .inFlight _ => false
  | .freeCapacity => (0 : Int)
  | .dispatch _ _ | .discard _ => ()

namespace Upstream

/-- The `i`-th `XADD` is answered by `outcomes i`. -/
def handle (outcomes : Nat → XaddOutcome) : (e : Effect) → Upstream → e.Reply × Upstream
  | .add job, w => (.ok (), { w with rows := Function.update w.rows job.id (some job) })
  | .xadd .work fields, w =>
    ((outcomes w.calls).reply,
      { w with received := if (outcomes w.calls).appends then w.received ++ [fields] else w.received,
               calls := w.calls + 1 })
  | e, w => (noReply e, w)

end Upstream

/-- The outcomes that the loop sees from call `i` on, with `left` further tries. -/
def consumed (outcomes : Nat → XaddOutcome) : Nat → Nat → List XaddOutcome
  | 0, i => [outcomes i]
  | left + 1, i =>
    outcomes i :: if (outcomes i).retried then consumed outcomes left (i + 1) else []

section
variable (outcomes : Nat → XaddOutcome) (job : InferenceJob)

def firstEntry : Fields := (JobMessage.firstDelivery job).toFields

theorem consumed_of_not_retried {left i : Nat} (h : (outcomes i).retried = false) :
    consumed outcomes left i = [outcomes i] := by
  cases left with
  | zero => rfl
  | succ left => simp [consumed, h]

theorem consumed_of_retried {left i : Nat} (h : (outcomes i).retried = true) :
    consumed outcomes (left + 1) i = outcomes i :: consumed outcomes left (i + 1) := by
  simp [consumed, h]

/-- A transient error goes round the loop, every other one leaves it. -/
theorem afterPublish_error (left : Nat) (e : RedisError) :
    SubmitPoint.afterPublish job left (.error (.redis e)) =
      if e.retryable = true ∧ 0 < left then .publishing (left - 1)
      else .finished (.error (classifyRedisError e)) := by
  obtain ⟨msg, hclass⟩ := classifyRedisError_eq e
  cases left with
  | zero => simp [SubmitPoint.afterPublish, SubmitPoint.retryOrRaise]
  | succ left =>
    cases hr : e.retryable <;>
      simp [SubmitPoint.afterPublish, SubmitPoint.retryOrRaise, hclass, hr]

def Upstream.called (w : Upstream) : Upstream :=
  { w with received :=
             if (outcomes w.calls).appends then w.received ++ [firstEntry job] else w.received,
           calls := w.calls + 1 }

theorem run_publishing_eq (n left : Nat) (w : Upstream) :
    Program.run (Upstream.handle outcomes) ((SubmitPoint.publishing left).program n job) w =
      Program.run (Upstream.handle outcomes)
        ((SubmitPoint.afterPublish job left (outcomes w.calls).reply).program n job)
        (w.called outcomes job) :=
  (SubmitPoint.lockstep n job).run_eq (Upstream.handle outcomes) (.publishing left) w

/-- What a submission has published when it ends: an entry for each lost reply, and one more
when it returns. -/
structure Published (left : Nat) (w : Upstream) (out : Except Exn UUID × Upstream) : Prop where
  rows : out.2.rows = w.rows
  received : out.2.received = w.received ++ List.replicate
    ((consumed outcomes left w.calls).countP XaddOutcome.isLost +
      if out.1 = .ok job.id then 1 else 0) (firstEntry job)
  returned : out.1 = .ok job.id ∨ ∃ e, out.1 = .error e

theorem published_of_raise {left : Nat} {w : Upstream} {e : Exn} {o : XaddOutcome}
    (ho : outcomes w.calls = o) (hlast : consumed outcomes left w.calls = [o])
    (happends : o.appends = o.isLost) :
    Published outcomes job left w (.error e, w.called outcomes job) where
  rows := rfl
  received := by
    have hne : (Except.error e : Except Exn UUID) ≠ .ok job.id := by simp
    simp only [Upstream.called, ho, hlast, happends, hne, if_false]
    cases hl : o.isLost <;> simp [hl]
  returned := .inr ⟨e, rfl⟩

theorem published_of_retry {left : Nat} {w : Upstream} {o : XaddOutcome}
    {out : Except Exn UUID × Upstream} (ho : outcomes w.calls = o) (hretried : o.retried = true)
    (happends : o.appends = o.isLost)
    (h : Published outcomes job left (w.called outcomes job) out) :
    Published outcomes job (left + 1) w out where
  rows := h.rows
  received := by
    have hcalls : (w.called outcomes job).calls = w.calls + 1 := rfl
    have hreceived : (w.called outcomes job).received =
        w.received ++ List.replicate (if o.isLost then 1 else 0) (firstEntry job) := by
      simp only [Upstream.called, ho, happends]
      cases o.isLost <;> simp
    rw [h.received, hcalls, hreceived, consumed_of_retried outcomes (by rw [ho]; exact hretried),
      List.append_assoc, ← List.replicate_add, List.countP_cons, ho]
    congr 2
    omega
  returned := h.returned

theorem published_of_return {left : Nat} {w : Upstream}
    (ho : outcomes w.calls = .appended) :
    Published outcomes job left w (.ok job.id, w.called outcomes job) where
  rows := rfl
  received := by
    have hlast : consumed outcomes left w.calls = [.appended] := by
      rw [← ho]
      exact consumed_of_not_retried outcomes (by rw [ho]; rfl)
    simp [Upstream.called, ho, hlast, XaddOutcome.appends, XaddOutcome.isLost]
  returned := .inl rfl

theorem run_publishing (n left : Nat) (w : Upstream) :
    Published outcomes job left w (Program.run (Upstream.handle outcomes)
      ((SubmitPoint.publishing left).program n job) w) := by
  induction left generalizing w with
  | zero =>
    rw [run_publishing_eq]
    rcases (outcomes w.calls).eq_appended_or with ho | ⟨e, hreply, hretried, happends⟩
    · rw [ho]
      exact published_of_return outcomes job ho
    · rw [hreply, afterPublish_error, if_neg (by omega)]
      exact published_of_raise outcomes job rfl rfl happends
  | succ left ih =>
    rw [run_publishing_eq]
    rcases (outcomes w.calls).eq_appended_or with ho | ⟨e, hreply, hretried, happends⟩
    · rw [ho]
      exact published_of_return outcomes job ho
    · rw [hreply, afterPublish_error]
      by_cases hr : e.retryable = true
      · rw [if_pos ⟨hr, Nat.succ_pos left⟩]
        exact published_of_retry outcomes job rfl (hretried.trans hr) happends
          (ih (w.called outcomes job))
      · rw [if_neg fun h => hr h.1]
        have hstop : (outcomes w.calls).retried = false := by
          rw [hretried]
          exact Bool.not_eq_true _ ▸ hr
        exact published_of_raise outcomes job rfl
          (consumed_of_not_retried outcomes hstop) happends

/-- A submission that returns has published one pointer with attempt 1, and one that raises
has published nothing and left a PENDING row behind. -/
def OnceOrNone (out : Except Exn UUID × Upstream) : Prop :=
  (out.1 = .ok job.id ∧ out.2.received.map JobMessage.fromFields =
      [.ok { jobId := job.id, jobType := job.jobType, attempt := 1 }]) ∨
    ((∃ e, out.1 = .error e) ∧ out.2.received = [] ∧ out.2.rows job.id = some job)

end

theorem run_submit (outcomes : Nat → XaddOutcome) (maxAttempts : Nat) (job : InferenceJob) :
    ∃ w : Upstream, w.rows job.id = some job ∧ w.received = [] ∧ w.calls = 0 ∧
      Published outcomes job (maxAttempts - 1) w
        (Program.run (Upstream.handle outcomes) (submit maxAttempts job).run {}) := by
  refine ⟨{ rows := Function.update (fun _ => none) job.id (some job) },
    by simp, rfl, rfl, ?_⟩
  have hadd := (SubmitPoint.lockstep maxAttempts job).run_eq (Upstream.handle outcomes) .adding {}
  have hloop := run_publishing outcomes job maxAttempts (maxAttempts - 1)
    { rows := Function.update (fun _ => none) job.id (some job) }
  exact hadd ▸ hloop

/-- One pointer or none is published exactly when no consumed call loses its reply. -/
theorem onceOrNone_submit_iff (outcomes : Nat → XaddOutcome) (maxAttempts : Nat) (ty : JobType)
    (payload : List (Text × Json)) (id : UUID) (created updated : Time) :
    OnceOrNone (InferenceJob.new ty payload id created updated)
        (Program.run (Upstream.handle outcomes)
          (submit maxAttempts (InferenceJob.new ty payload id created updated)).run {}) ↔
      ∀ o ∈ consumed outcomes (maxAttempts - 1) 0, o.isLost = false := by
  obtain ⟨w, hrow, hempty, hcalls, hpub⟩ := run_submit outcomes maxAttempts
    (InferenceJob.new ty payload id created updated)
  generalize hjob : InferenceJob.new ty payload id created updated = job at *
  generalize Program.run (Upstream.handle outcomes) (submit maxAttempts job).run {} = out at *
  have hlost : (∀ o ∈ consumed outcomes (maxAttempts - 1) 0, o.isLost = false) ↔
      (consumed outcomes (maxAttempts - 1) 0).countP XaddOutcome.isLost = 0 := by
    simp [List.countP_eq_zero]
  have hreceived := hpub.received
  rw [hempty, hcalls, List.nil_append] at hreceived
  rw [hlost]
  generalize (consumed outcomes (maxAttempts - 1) 0).countP XaddOutcome.isLost = lost at *
  rcases hpub.returned with hok | ⟨e, herr⟩
  · rw [if_pos hok] at hreceived
    constructor
    · rintro (⟨_, hone⟩ | ⟨⟨e, herr⟩, _⟩)
      · have hlen := congrArg List.length hone
        rw [hreceived] at hlen
        simp at hlen
        omega
      · cases hok.symm.trans herr
    · rintro rfl
      refine .inl ⟨hok, ?_⟩
      rw [hreceived]
      simp [firstEntry, JobMessage.firstDelivery]
  · have hne : out.1 ≠ .ok job.id := by simp [herr]
    rw [if_neg hne, Nat.add_zero] at hreceived
    constructor
    · rintro (⟨hok, _⟩ | ⟨_, hnone, _⟩)
      · exact absurd hok hne
      · have hlen := congrArg List.length (hreceived.symm.trans hnone)
        simpa using hlen
    · rintro rfl
      exact .inr ⟨⟨e, herr⟩, hreceived, by rw [hpub.rows, hrow]⟩

/-- The first call appends the entry and times out; the second one succeeds. -/
def lostThenAppended : Nat → XaddOutcome
  | 0 => .lost .timeout
  | _ => .appended

theorem lostThenAppended_publishes_twice :
    ¬ OnceOrNone (InferenceJob.new .ragQuery [] 7 0 0)
      (Program.run (Upstream.handle lostThenAppended)
        (submit 3 (InferenceJob.new .ragQuery [] 7 0 0)).run {}) := by
  rintro (⟨_, hone⟩ | ⟨_, hnone, _⟩)
  · have hlen := congrArg List.length hone
    revert hlen
    decide
  · have hlen := congrArg List.length hnone
    revert hlen
    decide

end InferenceEngine
