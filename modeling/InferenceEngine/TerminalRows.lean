import InferenceEngine.Coherence

/-!
# Terminal rows

The idempotency guard and the processor check a copy of the row; the write comes later. A
terminal row stays as it is as long as every write replaces the copy its writer last saw.
-/

namespace InferenceEngine

set_option autoImplicit false

/-- A write that takes effect replaces the row the writer last read or wrote. -/
def WritesUpToDate (s : Sys) : Act → Prop
  | .resume (.task t) c => c.fate ≠ .failed →
    ∀ name id m p seen job, s.tasks t = some ⟨name, id, .handling m p⟩ →
      p.write = some (seen, job) → s.rows job.id = some seen
  | _ => True

/-- Rows that are SUCCESS or FAILED in the first state are the same in the second. -/
def TerminalRowsKept (s s' : Sys) : Prop :=
  ∀ id row, s.rows id = some row → row.isTerminal = true → s'.rows id = some row

section
variable {cfg : Settings} {s s' : Sys} {a : Act}

theorem terminalRowsKept_of_step (hs : Coherent s) (hup : WritesUpToDate s a)
    (h : step cfg s a = some s') : TerminalRowsKept s s' := by
  intro id row hrow hterm
  rcases step_rows h with hr | ⟨_, _, job, _, _, hnone, hr⟩ |
    ⟨t, c, name, eid, m, p, seen, job, row', rfl, hfate, htask, hwrite, _, hr⟩
  · rwa [hr]
  · have hne : id ≠ job.id := by
      rintro rfl
      rw [hnone] at hrow
      cases hrow
    rwa [hr, Function.update_of_ne hne]
  · have hseen := hup hfate name eid m p seen job htask hwrite
    have htrans := ((hs.sound _ _ _ _ _ htask).transition hwrite).1
    have hne : id ≠ job.id := by
      rintro rfl
      obtain rfl : seen = row := Option.some.inj (hseen.symm.trans hrow)
      rw [htrans.not_terminal] at hterm
      cases hterm
    rwa [hr, Function.update_of_ne hne]

/-- In a run whose writes are up to date, terminal rows are immutable. -/
theorem terminalRowsKept_of_writesUpToDate {acts later : List Act} (hs : Reaches cfg acts s)
    (hup : Runs.Along (step cfg) WritesUpToDate s later)
    (h : Runs.exec (step cfg) s later = some s') : TerminalRowsKept s s' :=
  Runs.stable (I := Coherent) (P := WritesUpToDate) (R := TerminalRowsKept)
    (fun _ _ _ hrow _ => hrow)
    (fun hab hbc id row hrow hterm => hbc id row (hab id row hrow hterm) hterm)
    (fun _ _ _ hs _ h => hs.step h)
    (fun _ _ _ hs hup h => terminalRowsKept_of_step hs hup h) hs.coherent hup h

end

def oneDelivery : List Act :=
  boot 0 ++ submitted 7 ++ readPass 0 1 ++ steps (.task 0) 7

def duplicateDelivery : List Act :=
  .inject (JobMessage.toFields ⟨7, .ragQuery, 1⟩) 0 :: readPass 0 1 ++ steps (.task 1) 3

def noWrite (s : Sys) : Act → Bool
  | .resume (.task t) _ =>
    match s.tasks t with
    | some { body := .handling _ p, .. } => p.write.isNone
    | _ => true
  | _ => true

theorem writesUpToDate_of_noWrite (s : Sys) (a : Act) (h : noWrite s a = true) :
    WritesUpToDate s a := by
  cases a with
  | resume who c =>
    cases who with
    | task t =>
      intro _ name id m p seen job htask hwrite
      simp [noWrite, htask, hwrite] at h
    | _ => trivial
  | _ => trivial

theorem duplicateDelivery_keeps : ∃ s s', Reaches {} oneDelivery s ∧
    Runs.exec (step {}) s duplicateDelivery = some s' ∧
    (s.rows 7).map (·.status) = some .success ∧ TerminalRowsKept s s' := by
  obtain ⟨s, hs, hview⟩ := Runs.exec_of_map (step {}) Sys.init oneDelivery
    (fun s => ((s.rows 7).map (·.status), Runs.check (step {}) noWrite s duplicateDelivery,
      (Runs.exec (step {}) s duplicateDelivery).isSome))
    (some .success, true, true) (by decide +kernel)
  obtain ⟨hrow, hcheck, hsome⟩ : _ ∧ _ ∧ _ := by simpa only [Prod.mk.injEq] using hview
  obtain ⟨s', hs'⟩ := Option.isSome_iff_exists.mp hsome
  exact ⟨s, s', hs, hs', hrow, terminalRowsKept_of_writesUpToDate hs
    (.of_check writesUpToDate_of_noWrite hcheck) hs'⟩

/-- A worker takes over the entry of a job that is still running, and fails the job. -/
def takenOver : List Act :=
  boot 0 ++ submitted 7 ++ readPass 0 1 ++ steps (.task 0) 3 ++
    boot 1 ++ claimPass 1 1 ++ steps (.task 1) 6

def lateSuccess : List Act := steps (.task 0) 2

/-- A FAILED row becomes SUCCESS: the running task writes the copy it made before. -/
theorem lateSuccess_overwrites_failed : ∃ s s' row row', Reaches {} takenOver s ∧
    Runs.exec (step {}) s lateSuccess = some s' ∧ s.rows 7 = some row ∧ s'.rows 7 = some row' ∧
    row.status = .failed ∧ row'.status = .success := by
  obtain ⟨s, hs, hview⟩ := Runs.exec_of_map (step {}) Sys.init takenOver
    (fun s => ((s.rows 7).map (·.status),
      (Runs.exec (step {}) s lateSuccess).map fun s' => (s'.rows 7).map (·.status)))
    (some .failed, some (some .success)) (by decide +kernel)
  obtain ⟨hrow, hafter⟩ : _ ∧ _ := by simpa only [Prod.mk.injEq] using hview
  obtain ⟨s', hs', hrow'⟩ := Option.map_eq_some_iff.mp hafter
  obtain ⟨row, hrow, hfailed⟩ := Option.map_eq_some_iff.mp hrow
  obtain ⟨row', hrow', hsuccess⟩ := Option.map_eq_some_iff.mp hrow'
  exact ⟨s, s', row, row', hs, hs', hrow, hrow', hfailed, hsuccess⟩

end InferenceEngine
