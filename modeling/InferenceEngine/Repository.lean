import InferenceEngine.Codec
import InferenceEngine.Histories
import InferenceEngine.Schema

/-!
# Rows and statements

`add`, `get` and `update` as the statements that the repository sends. An `update` reads its row
and then sets the columns in which the job differs from what it has read; another `update` may
commit between the two. The system over this table does what the system over whole rows does
exactly as long as every column that an UPDATE leaves out already holds what it would write.
-/

namespace InferenceEngine

set_option autoImplicit false

open JobMessage

/-! ### Rows and jobs -/

def parseJobStatus (text : Text) : Option JobStatus :=
  if text = JobStatus.pending.value then some .pending
  else if text = JobStatus.running.value then some .running
  else if text = JobStatus.success.value then some .success
  else if text = JobStatus.failed.value then some .failed
  else none

/-- `_to_domain`; `none` where the source raises. -/
def toDomain (row : JobRow) : Option InferenceJob := do
  let id ← row.id
  let jobType ← row.type.bind parseJobType
  let status ← row.status.bind parseJobStatus
  let payload ← row.payload
  let attempts ← row.attempts
  let createdAt ← row.createdAt
  let updatedAt ← row.updatedAt
  return { id, jobType, status, payload, resultRef := row.resultRef, error := row.error, attempts,
           durationMs := row.durationMs, createdAt, updatedAt }

theorem parseJobStatus_value (st : JobStatus) : parseJobStatus st.value = some st := by
  cases st <;> decide

theorem parseJobStatus_eq_some {text : Text} {st : JobStatus}
    (h : parseJobStatus text = some st) : text = st.value := by
  unfold parseJobStatus at h
  split_ifs at h with h₁ h₂ h₃ h₄
  all_goals
    cases h
    assumption

theorem toDomain_toRow (job : InferenceJob) : toDomain (toRow job) = some job := by
  simp only [toDomain, toRow, Option.bind_some, parseJobType_value, parseJobStatus_value,
    Option.bind_eq_bind, Option.pure_def]

/-- No two rows are read as one job. -/
theorem toDomain_eq_some {row : JobRow} {job : InferenceJob} :
    toDomain row = some job ↔ row = toRow job := by
  constructor
  · intro h
    simp only [toDomain, Option.bind_eq_bind, Option.bind_eq_some_iff, Option.pure_def,
      Option.some.injEq] at h
    obtain ⟨id, hid, ty, ⟨tyText, htyText, hty⟩, st, ⟨stText, hstText, hst⟩, payload, hpayload,
      attempts, hattempts, createdAt, hcreated, updatedAt, hupdated, rfl⟩ := h
    obtain rfl := parseJobType_eq_some hty
    obtain rfl := parseJobStatus_eq_some hst
    cases row
    simp_all only [toRow]
  · rintro rfl
    exact toDomain_toRow job

theorem JobRow.Fits.readable {row : JobRow} (h : row.Fits) : ∃ job, toDomain row = some job := by
  obtain ⟨id, hid⟩ := Option.isSome_iff_exists.mp h.id
  obtain ⟨payload, hpayload⟩ := Option.isSome_iff_exists.mp h.payload
  obtain ⟨attempts, hattempts⟩ := Option.isSome_iff_exists.mp h.attempts
  obtain ⟨createdAt, hcreated⟩ := Option.isSome_iff_exists.mp h.createdAt
  obtain ⟨updatedAt, hupdated⟩ := Option.isSome_iff_exists.mp h.updatedAt
  obtain ⟨tyText, htyText, hty⟩ := h.type
  obtain ⟨stText, hstText, hst⟩ := h.status
  obtain ⟨ty, hparsed⟩ : ∃ ty, parseJobType tyText = some ty := by
    simp only [typeValues, List.mem_cons, List.not_mem_nil, or_false] at htyText
    rcases htyText with rfl | rfl
    · exact ⟨.ragQuery, parseJobType_value .ragQuery⟩
    · exact ⟨.embedDocument, parseJobType_value .embedDocument⟩
  obtain ⟨st, hstatus⟩ : ∃ st, parseJobStatus stText = some st := by
    simp only [statusValues, List.mem_cons, List.not_mem_nil, or_false] at hstText
    rcases hstText with rfl | rfl | rfl | rfl
    · exact ⟨.pending, parseJobStatus_value .pending⟩
    · exact ⟨.running, parseJobStatus_value .running⟩
    · exact ⟨.success, parseJobStatus_value .success⟩
    · exact ⟨.failed, parseJobStatus_value .failed⟩
  refine ⟨⟨ty, payload, id, st, attempts, row.resultRef, row.error, row.durationMs, createdAt,
    updatedAt⟩, ?_⟩
  simp only [toDomain, hid, hpayload, hattempts, hcreated, hupdated, hty, hst,
    hparsed, hstatus, Option.bind_eq_bind, Option.bind_some, Option.pure_def]

instance (n : Nat) (column : Option Text) : Decidable (FitsVarchar n column) :=
  inferInstanceAs (Decidable (∀ t ∈ column, t.length ≤ n))

theorem JobRow.fits_iff (row : JobRow) : row.Fits ↔
    (row.id.isSome = true ∧ (∃ t ∈ typeValues, row.type = some t) ∧
      (∃ t ∈ statusValues, row.status = some t) ∧ row.payload.isSome = true) ∧
    (row.attempts.isSome = true ∧ row.createdAt.isSome = true ∧ row.updatedAt.isSome = true) ∧
    FitsVarchar 32 row.type ∧ FitsVarchar 16 row.status ∧ FitsVarchar 512 row.resultRef ∧
    FitsVarchar 2048 row.error := by
  constructor
  · intro h
    exact ⟨⟨h.id, h.type, h.status, h.payload⟩, ⟨h.attempts, h.createdAt, h.updatedAt⟩,
      h.typeLength, h.statusLength, h.resultRef, h.error⟩
  · rintro ⟨⟨hid, htype, hstatus, hpayload⟩, ⟨hattempts, hcreated, hupdated⟩, htypeLength,
      hstatusLength, href, herror⟩
    exact ⟨hid, htype, hstatus, hpayload, hattempts, hcreated, hupdated, htypeLength,
      hstatusLength, href, herror⟩

instance (row : JobRow) : Decidable row.Fits := decidable_of_iff _ row.fits_iff.symm

/-! ### The UPDATE -/

inductive Column where
  | id | type | status | payload | resultRef | error | attempts | durationMs | createdAt | updatedAt
  deriving DecidableEq

/-- Which columns the UPDATE of a flush sets, from the row that was loaded and the row that was
merged into it: SQLAlchemy decides. -/
abbrev ChangedColumns := JobRow → JobRow → Column → Bool

namespace JobRow

def AgreeAt (row row' : JobRow) : Column → Prop
  | .id => row.id = row'.id
  | .type => row.type = row'.type
  | .status => row.status = row'.status
  | .payload => row.payload = row'.payload
  | .resultRef => row.resultRef = row'.resultRef
  | .error => row.error = row'.error
  | .attempts => row.attempts = row'.attempts
  | .durationMs => row.durationMs = row'.durationMs
  | .createdAt => row.createdAt = row'.createdAt
  | .updatedAt => row.updatedAt = row'.updatedAt

/-- The row after an UPDATE of the columns in `sets`. -/
def update (current new : JobRow) (sets : Column → Bool) : JobRow where
  id := if sets .id then new.id else current.id
  type := if sets .type then new.type else current.type
  status := if sets .status then new.status else current.status
  payload := if sets .payload then new.payload else current.payload
  resultRef := if sets .resultRef then new.resultRef else current.resultRef
  error := if sets .error then new.error else current.error
  attempts := if sets .attempts then new.attempts else current.attempts
  durationMs := if sets .durationMs then new.durationMs else current.durationMs
  createdAt := if sets .createdAt then new.createdAt else current.createdAt
  updatedAt := if sets .updatedAt then new.updatedAt else current.updatedAt

theorem eq_iff_agreeAt {row row' : JobRow} : row = row' ↔ ∀ col, row.AgreeAt row' col := by
  constructor
  · rintro rfl col
    cases col <;> rfl
  · intro h
    cases row
    cases row'
    obtain rfl := h .id
    obtain rfl := h .type
    obtain rfl := h .status
    obtain rfl := h .payload
    obtain rfl := h .resultRef
    obtain rfl := h .error
    obtain rfl := h .attempts
    obtain rfl := h .durationMs
    obtain rfl := h .createdAt
    obtain rfl := h .updatedAt
    rfl

theorem update_agreeAt_iff {current new : JobRow} {sets : Column → Bool} (col : Column) :
    (current.update new sets).AgreeAt new col ↔ (sets col = false → current.AgreeAt new col) := by
  cases col <;> simp only [AgreeAt, update, ite_eq_left_iff, Bool.not_eq_true]

/-- The UPDATE makes the row the new one if what it leaves out is up to date. -/
theorem update_eq_iff {current new : JobRow} {sets : Column → Bool} :
    current.update new sets = new ↔ ∀ col, sets col = false → current.AgreeAt new col := by
  simp only [eq_iff_agreeAt, update_agreeAt_iff]

end JobRow

/-! ### The system over the table -/

/-- The job that a task is about to hand to `update`. -/
def Sys.writing (s : Sys) (t : Nat) : Option InferenceJob :=
  match s.tasks t with
  | some { body := .handling _ p, .. } => p.write.map Prod.snd
  | _ => none

/-- The system with its jobs in a table; `loaded` is the row that the SELECT of a task's `update`
has returned. `sys.rows` is what `get` makes of the table. -/
structure Stored where
  sys : Sys := {}
  table : UUID → Option JobRow := fun _ => none
  loaded : Nat → Option JobRow := fun _ => none

inductive StoredAct where
  | base (a : Act)
  | select (t : Nat)

def StoredAct.base? : StoredAct → Option Act
  | .base a => some a
  | .select _ => none

def StoredAct.opens : StoredAct → Option Nat
  | .base _ => none
  | .select t => some t

namespace Stored

/-- `add`: INSERT and COMMIT. A row that does not fit is refused, and so is a key that is there. -/
def insert (u : Stored) (job : InferenceJob) : Option (UUID → Option JobRow) :=
  match u.table job.id with
  | some _ => some u.table
  | none =>
    if (toRow job).Fits then some (Function.update u.table job.id (some (toRow job))) else none

/-- `update` from its `merge` on: UPDATE and COMMIT. Where there is no row, its SELECT has found
none. -/
def merge (flush : ChangedColumns) (u : Stored) (t : Nat) (job : InferenceJob) :
    Option (UUID → Option JobRow) :=
  match u.table job.id with
  | none => some u.table
  | some current => do
    let old ← u.loaded t
    let row := current.update (toRow job) (flush old (toRow job))
    if row.Fits then some (Function.update u.table job.id (some row)) else none

/-- The table after an action. Without an effect on it the call has failed: so `none` leaves only
the actions that say so. -/
def tableAfter (flush : ChangedColumns) (u : Stored) : Act → Option (UUID → Option JobRow)
  | .resume (.submission id) c =>
    match u.sys.submissions id with
    | some (job, .adding) => if c.fate = .failed then some u.table else u.insert job
    | _ => some u.table
  | .resume (.task t) c =>
    match u.sys.writing t with
    | some job => if c.fate = .failed then some u.table else u.merge flush t job
    | none => some u.table
  | _ => some u.table

/-- A session ends with its call, and with its process. -/
def loadedAfter (u : Stored) : Act → Nat → Option JobRow
  | .resume (.task t) _ => Function.update u.loaded t none
  | .crash name => fun t =>
    if (u.sys.tasks t).map (·.consumer) = some name then none else u.loaded t
  | _ => u.loaded

/-- One statement, or a step of the system with what it commits. -/
def step (cfg : Settings) (flush : ChangedColumns) (u : Stored) : StoredAct → Option Stored
  | .base a => do
    let s ← InferenceEngine.step cfg u.sys a
    let table ← u.tableAfter flush a
    return { sys := { s with rows := fun j => (table j).bind toDomain }, table,
             loaded := u.loadedAfter a }
  | .select t => do
    let job ← u.sys.writing t
    let row ← u.table job.id
    if (u.loaded t).isNone ∧ (InferenceEngine.step cfg u.sys (.resume (.task t) {})).isSome then
      some { u with loaded := Function.update u.loaded t (some row) }
    else none

/-- An UPDATE leaves out only columns that already hold what it would write. -/
def Unclobbered (flush : ChangedColumns) (u : Stored) : StoredAct → Prop
  | .base (.resume (.task t) c) => c.fate ≠ .failed → ∀ job old current,
    u.sys.writing t = some job → u.loaded t = some old → u.table job.id = some current →
    ∀ col, flush old (toRow job) col = false → current.AgreeAt (toRow job) col
  | _ => True

/-- No `update` of a row begins while another one of that row is open. -/
def Serial (u : Stored) : StoredAct → Prop
  | .select t => ∀ job, u.sys.writing t = some job → ∀ t' job', t' ≠ t →
    (u.loaded t').isSome = true → u.sys.writing t' = some job' → job'.id ≠ job.id
  | _ => True

end Stored

/-! ### What a step does to the rows -/

def Sys.rowsAfter (s : Sys) : Act → UUID → Option InferenceJob
  | .resume (.submission id) c =>
    match s.submissions id with
    | some (job, .adding) =>
      if c.fate = .failed ∨ (s.rows job.id).isSome then s.rows
      else Function.update s.rows job.id (some job)
    | _ => s.rows
  | .resume (.task t) c =>
    match s.writing t with
    | some job =>
      if c.fate = .failed ∨ (s.rows job.id).isNone then s.rows
      else Function.update s.rows job.id (some job)
    | none => s.rows
  | _ => s.rows

section
variable {cfg : Settings} {s s' : Sys} {a : Act}

theorem Sys.writing_of_task {t id : Nat} {name : ConsumerName} {m : JobMessage} {p : TaskPoint}
    (htask : s.tasks t = some ⟨name, id, .handling m p⟩) :
    s.writing t = p.write.map Prod.snd := by
  simp only [Sys.writing, htask]

theorem Sys.task_of_writing {t : Nat} {job : InferenceJob} (h : s.writing t = some job) :
    ∃ name id m p seen, s.tasks t = some ⟨name, id, .handling m p⟩ ∧
      p.write = some (seen, job) := by
  unfold Sys.writing at h
  split at h
  · rename_i name id m p htask
    obtain ⟨⟨seen, job'⟩, hwrite, rfl⟩ := Option.map_eq_some_iff.mp h
    exact ⟨name, id, m, p, seen, htask, hwrite⟩
  · cases h

theorem Sys.perform_add {who : Actor} {c : Choice} {job : InferenceJob}
    {r : Effect.Reply (.add job)} (h : s.perform cfg who c (.add job) = some (r, s')) :
    s'.rows = if c.fate = .failed ∨ (s.rows job.id).isSome then s.rows
      else Function.update s.rows job.id (some job) := by
  have hreply : c.reply (.other c.dbError c.dbRepr) s (s.insertRow job) = (r, s') := Option.some.inj h
  cases hrow : s.rows job.id with
  | none =>
    rcases Choice.reply_eq hreply with ⟨hfate, _, rfl⟩ | ⟨hfate, _, rfl⟩ | ⟨hfate, _, rfl⟩
    · simp [hfate, Sys.insertRow, hrow]
    · simp [hfate]
    · simp [hfate, Sys.insertRow, hrow]
  | some row =>
    rcases Choice.reply_eq hreply with ⟨hfate, _, rfl⟩ | ⟨hfate, _, rfl⟩ | ⟨hfate, _, rfl⟩
    · simp [Sys.insertRow, hrow]
    · simp
    · simp [Sys.insertRow, hrow]

theorem Sys.rows_of_update {who : Actor} {c : Choice} {job : InferenceJob}
    {r : Effect.Reply (.update job)} (h : s.perform cfg who c (.update job) = some (r, s')) :
    s'.rows = if c.fate = .failed ∨ (s.rows job.id).isNone then s.rows
      else Function.update s.rows job.id (some job) := by
  have hreply : c.reply (.other c.dbError c.dbRepr) s (s.writeRow who job) = (r, s') := Option.some.inj h
  rcases s.writeRow_cases who job with ⟨row, hrow, hwrite⟩ | ⟨hrow, hwrite⟩
  · rw [hwrite] at hreply
    rcases Choice.reply_eq hreply with ⟨hfate, _, rfl⟩ | ⟨hfate, _, rfl⟩ | ⟨hfate, _, rfl⟩
    · simp [hfate, hrow]
    · simp [hfate]
    · simp [hfate, hrow]
  · rw [hwrite] at hreply
    have hsame : s' = s := by
      rcases Choice.reply_eq hreply with ⟨_, _, hs⟩ | ⟨_, _, hs⟩ | ⟨_, _, hs⟩ <;> exact hs
    simp [hsame, hrow]

theorem Sys.rows_of_quiet {who : Actor} {c : Choice} {e : Effect} {r : e.Reply}
    (h : s.perform cfg who c e = some (r, s')) (hadd : ∀ job, e ≠ .add job)
    (hupdate : ∀ job, e ≠ .update job) : s'.rows = s.rows := by
  rcases (Sys.perform_change h).rows with hr | ⟨job, he, _⟩ | ⟨job, row, he, _⟩
  · exact hr
  · exact absurd he (hadd job)
  · exact absurd he (hupdate job)

theorem rows_of_step (h : step cfg s a = some s') : s'.rows = s.rowsAfter a := by
  cases Sys.step_cases h with
  | submission id c job p e k r s₁ hsub hnode hperf =>
    cases p with
    | adding =>
      cases hnode
      simp only [Sys.rowsAfter, hsub, Sys.setSubmission_rows]
      exact Sys.perform_add hperf
    | _ =>
      simp only [Sys.rowsAfter, hsub, Sys.setSubmission_rows]
      refine Sys.rows_of_quiet hperf ?_ ?_
      · rintro job' rfl
        cases (SubmitPoint.adding_of_node hnode).1
      · rintro job' rfl
        exact SubmitPoint.node_ne_update hnode
  | task t c name id m p w q e k r s₁ htask hw hstage hnode hperf =>
    simp only [Sys.rowsAfter, Sys.writing_of_task htask, Sys.setTask_rows]
    cases hwrite : p.write with
    | some pair =>
      obtain ⟨k', hk⟩ := TaskPoint.node_of_write cfg.toBrokerSettings id m hwrite
      cases hk.symm.trans hnode
      exact Sys.rows_of_update hperf
    | none =>
      refine Sys.rows_of_quiet hperf ?_ ?_
      · rintro job rfl
        cases p <;> cases hnode
      · rintro job rfl
        obtain ⟨seen, hsome⟩ := TaskPoint.write_of_node hnode
        cases hwrite.symm.trans hsome
  | starting name c w p e k r s₁ hw hstage hnode hperf
  | looping name c w p e k r s₁ hw hstage hnode hperf =>
    change s₁.rows = s.rows
    refine Sys.rows_of_quiet hperf ?_ ?_
    all_goals
      rintro job rfl
      cases p <;> cases hnode
  | _ => rfl

end

/-! ### When the statements do what the rows do -/

namespace Stored

variable {cfg : Settings} {flush : ChangedColumns} {u u' : Stored} {a : Act} {x : StoredAct}

/-- The rows are what the table says, and the table says it legibly. -/
structure Synced (u : Stored) : Prop where
  rows : u.sys.rows = fun j => (u.table j).bind toDomain
  fits : ∀ j row, u.table j = some row → row.Fits

theorem Synced.init : Synced {} where
  rows := rfl
  fits := by
    intro j row h
    cases h

theorem Synced.row_of_table (hs : Synced u) {j : UUID} {row : JobRow}
    (h : u.table j = some row) : ∃ job, u.sys.rows j = some job ∧ row = toRow job := by
  obtain ⟨job, hjob⟩ := (hs.fits j row h).readable
  refine ⟨job, ?_, toDomain_eq_some.mp hjob⟩
  simp only [hs.rows, h, Option.bind_some, hjob]

theorem Synced.table_none_iff (hs : Synced u) (j : UUID) :
    u.table j = none ↔ u.sys.rows j = none := by
  cases h : u.table j with
  | none => simp only [hs.rows, h, Option.bind_none]
  | some row =>
    obtain ⟨job, hjob, _⟩ := hs.row_of_table h
    simp only [hjob, reduceCtorEq]

theorem step_cases (h : step cfg flush u x = some u') :
    (∃ a s table, x = .base a ∧ InferenceEngine.step cfg u.sys a = some s ∧
      u.tableAfter flush a = some table ∧
      u' = ⟨{ s with rows := fun j => (table j).bind toDomain }, table, u.loadedAfter a⟩) ∨
    (∃ t job row, x = .select t ∧ u.sys.writing t = some job ∧ u.table job.id = some row ∧
      u.loaded t = none ∧
      u' = { u with loaded := Function.update u.loaded t (some row) }) := by
  cases x with
  | base a =>
    simp only [step, Option.bind_eq_bind, Option.bind_eq_some_iff, Option.pure_def,
      Option.some.injEq] at h
    obtain ⟨s, hstep, table, htable, rfl⟩ := h
    exact .inl ⟨a, s, table, rfl, hstep, htable, rfl⟩
  | select t =>
    simp only [step, Option.bind_eq_bind, Option.bind_eq_some_iff] at h
    obtain ⟨job, hjob, row, hrow, h⟩ := h
    split_ifs at h with hfree
    cases h
    exact .inr ⟨t, job, row, rfl, hjob, hrow, Option.isNone_iff_eq_none.mp hfree.1, rfl⟩

theorem tableAfter_cases {table : UUID → Option JobRow} (h : u.tableAfter flush a = some table) :
    table = u.table ∨
    (∃ id c job, a = .resume (.submission id) c ∧ u.sys.submissions id = some (job, .adding) ∧
      u.table job.id = none ∧ (toRow job).Fits ∧
      table = Function.update u.table job.id (some (toRow job))) ∨
    (∃ t c job old current row, a = .resume (.task t) c ∧ u.sys.writing t = some job ∧
      u.loaded t = some old ∧ u.table job.id = some current ∧
      row = current.update (toRow job) (flush old (toRow job)) ∧ row.Fits ∧
      table = Function.update u.table job.id (some row)) := by
  unfold tableAfter at h
  split at h
  · rename_i id c
    split at h
    · rename_i job hsub
      split_ifs at h with hfate
      · exact .inl (Option.some.inj h).symm
      · unfold insert at h
        split at h
        · exact .inl (Option.some.inj h).symm
        · rename_i hnone
          split_ifs at h with hfits
          exact .inr (.inl ⟨id, c, job, rfl, hsub, hnone, hfits, (Option.some.inj h).symm⟩)
    · exact .inl (Option.some.inj h).symm
  · rename_i t c
    split at h
    · rename_i job hwriting
      split_ifs at h with hfate
      · exact .inl (Option.some.inj h).symm
      · unfold merge at h
        split at h
        · exact .inl (Option.some.inj h).symm
        · rename_i current hcurrent
          simp only [Option.bind_eq_bind, Option.bind_eq_some_iff] at h
          obtain ⟨old, hold, h⟩ := h
          split_ifs at h with hfits
          exact .inr (.inr ⟨t, c, job, old, current, _, rfl, hwriting, hold, hcurrent, rfl, hfits,
            (Option.some.inj h).symm⟩)
    · exact .inl (Option.some.inj h).symm
  · exact .inl (Option.some.inj h).symm

theorem Synced.step (hs : Synced u) (h : Stored.step cfg flush u x = some u') : Synced u' := by
  have updated : ∀ k (row : JobRow), row.Fits →
      ∀ j row', Function.update u.table k (some row) j = some row' → row'.Fits := by
    intro k row hrow j row' h
    rw [Function.update_apply] at h
    split at h
    · cases h
      exact hrow
    · exact hs.fits j row' h
  rcases step_cases h with ⟨a, s, table, rfl, _, htable, rfl⟩ | ⟨t, job, row, rfl, _, _, _, rfl⟩
  · refine ⟨rfl, ?_⟩
    rcases tableAfter_cases htable with rfl | ⟨_, _, job, _, _, _, hfits, rfl⟩ |
      ⟨_, _, job, _, _, row, _, _, _, _, _, hfits, rfl⟩
    · exact hs.fits
    · exact updated _ _ hfits
    · exact updated _ _ hfits
  · exact ⟨hs.rows, hs.fits⟩

theorem Synced.of_exec {acts : List StoredAct}
    (h : Runs.exec (Stored.step cfg flush) {} acts = some u) : Synced u :=
  Runs.invariant (P := fun _ _ => True) (fun _ _ _ hs _ h => hs.step h) .init
    (Runs.Along.trivial _ _) h

theorem bind_update (table : UUID → Option JobRow) (k : UUID) (row : JobRow) :
    (fun j => (Function.update table k (some row) j).bind toDomain) =
      Function.update (fun j => (table j).bind toDomain) k (toDomain row) := by
  funext j
  by_cases hj : j = k
  · subst hj
    simp only [Function.update_self, Option.bind_some]
  · simp only [Function.update_of_ne hj]

theorem rows_of_insert (hs : Synced u) {job : InferenceJob} {table : UUID → Option JobRow}
    (h : u.insert job = some table) :
    (if (u.sys.rows job.id).isSome then u.sys.rows
      else Function.update u.sys.rows job.id (some job)) = fun j => (table j).bind toDomain := by
  unfold insert at h
  split at h
  · rename_i row hrow
    obtain ⟨first, hfirst, _⟩ := hs.row_of_table hrow
    cases h
    simp only [hfirst, Option.isSome_some, if_true]
    exact hs.rows
  · rename_i hnone
    split_ifs at h
    cases h
    rw [bind_update, toDomain_toRow, ← hs.rows]
    simp only [(hs.table_none_iff _).mp hnone, Option.isSome_none, Bool.false_eq_true, if_false]

theorem rows_of_merge_iff (hs : Synced u) {t : Nat} {job : InferenceJob}
    {table : UUID → Option JobRow} (h : u.merge flush t job = some table) :
    ((if (u.sys.rows job.id).isNone then u.sys.rows
      else Function.update u.sys.rows job.id (some job)) = fun j => (table j).bind toDomain) ↔
    ∀ old current, u.loaded t = some old → u.table job.id = some current →
      ∀ col, flush old (toRow job) col = false → current.AgreeAt (toRow job) col := by
  unfold merge at h
  split at h
  · rename_i hnone
    cases h
    simp only [(hs.table_none_iff _).mp hnone, hnone, Option.isNone_none, if_true, reduceCtorEq,
      false_implies, implies_true, iff_true]
    exact hs.rows
  · rename_i current hcurrent
    obtain ⟨row, hrow, _⟩ := hs.row_of_table hcurrent
    simp only [Option.bind_eq_bind, Option.bind_eq_some_iff] at h
    obtain ⟨old, hold, h⟩ := h
    split_ifs at h
    cases h
    have hinj := Function.update_injective u.sys.rows job.id
    rw [bind_update, ← hs.rows, hrow]
    simp only [Option.isNone_some, Bool.false_eq_true, if_false, hinj.eq_iff]
    rw [eq_comm, toDomain_eq_some, JobRow.update_eq_iff]
    constructor
    · intro hcols old' current' hold' hcurrent'
      cases hold.symm.trans hold'
      cases hcurrent.symm.trans hcurrent'
      exact hcols
    · intro hcols
      exact hcols old current hold hcurrent

/-- What is committed is what the system over whole rows writes, exactly when the UPDATE leaves
out only columns that are up to date. -/
theorem rowsAfter_eq_iff (hs : Synced u) {table : UUID → Option JobRow}
    (h : u.tableAfter flush a = some table) :
    u.sys.rowsAfter a = (fun j => (table j).bind toDomain) ↔ Unclobbered flush u (.base a) := by
  unfold tableAfter at h
  split at h
  · rename_i id c
    simp only [Unclobbered, iff_true, Sys.rowsAfter]
    split at h
    · rename_i job hsub
      by_cases hfate : c.fate = .failed
      · simp only [hfate, if_true, Option.some.injEq] at h
        simp only [hfate, true_or, if_true, ← h]
        exact hs.rows
      · simp only [hfate, if_false] at h
        simp only [hfate, false_or]
        exact rows_of_insert hs h
    · cases h
      exact hs.rows
  · rename_i t c
    simp only [Unclobbered, Sys.rowsAfter]
    split at h
    · rename_i job hwriting
      by_cases hfate : c.fate = .failed
      · simp only [hfate, if_true, Option.some.injEq] at h
        simp only [hfate, true_or, if_true, ← h, not_true, ne_eq, false_implies, iff_true]
        exact hs.rows
      · simp only [hfate, if_false] at h
        simp only [hfate, false_or, rows_of_merge_iff hs h, hwriting, ne_eq, not_false_iff,
          forall_true_left, Option.some.injEq]
        constructor
        · rintro hcols _ old current rfl
          exact hcols old current
        · intro hcols old current
          exact hcols job old current rfl
    · rename_i hwriting
      cases h
      simp only [hwriting, reduceCtorEq, false_implies, implies_true, iff_true]
      exact hs.rows
  · rename_i hsubmission htask
    cases h
    cases a with
    | resume who c =>
      cases who with
      | submission id => exact absurd rfl (hsubmission id c)
      | task t => exact absurd rfl (htask t c)
      | worker name => exact iff_of_true hs.rows trivial
    | _ => exact iff_of_true hs.rows trivial

theorem sys_step_iff (hs : Synced u) (h : Stored.step cfg flush u (.base a) = some u') :
    InferenceEngine.step cfg u.sys a = some u'.sys ↔ Unclobbered flush u (.base a) := by
  rcases step_cases h with ⟨b, s, table, hb, hstep, htable, rfl⟩ | ⟨_, _, _, ht, _⟩
  · cases hb
    rw [← rowsAfter_eq_iff hs htable, hstep, ← rows_of_step hstep, Option.some.injEq]
    constructor
    · intro hsame
      exact congrArg Sys.rows hsame
    · intro hrows
      rw [← hrows]
  · cases ht

theorem sys_of_select {t : Nat} (h : Stored.step cfg flush u (.select t) = some u') :
    u'.sys = u.sys := by
  rcases step_cases h with ⟨_, _, _, ha, _⟩ | ⟨_, _, _, _, _, _, _, rfl⟩
  · cases ha
  · rfl

/-- The run of the system below. -/
def base (acts : List StoredAct) : List Act := acts.filterMap StoredAct.base?

theorem base_append (acts : List StoredAct) (x : StoredAct) :
    base (acts ++ [x]) = base acts ++ x.base?.toList := by
  unfold base
  rw [List.filterMap_append]
  cases hx : x.base? <;> simp [hx]

theorem exec_sys {acts : List StoredAct} (hs : Synced u)
    (hup : Runs.Along (Stored.step cfg flush) (Unclobbered flush) u acts)
    (h : Runs.exec (Stored.step cfg flush) u acts = some u') :
    Runs.exec (InferenceEngine.step cfg) u.sys (base acts) = some u'.sys := by
  induction acts generalizing u with
  | nil => exact congrArg _ (congrArg sys (Option.some.inj h))
  | cons x acts ih =>
    obtain ⟨v, hv, hrest⟩ := Runs.exec_cons_iff.mp h
    have hexec := ih (hs.step hv) (hup.2 v hv) hrest
    cases x with
    | base a =>
      exact Runs.exec_cons_iff.mpr ⟨v.sys, (sys_step_iff hs hv).mpr hup.1, hexec⟩
    | select t => rwa [sys_of_select hv] at hexec

/-- The system over the table runs as the system over whole rows does, after each of its
statements, if and only if none of its UPDATEs leaves out a column that is out of date. -/
theorem refines_iff {acts : List StoredAct}
    (h : Runs.exec (Stored.step cfg flush) {} acts = some u) :
    (∀ before after v, acts = before ++ after →
      Runs.exec (Stored.step cfg flush) {} before = some v → Reaches cfg (base before) v.sys) ↔
    Runs.Along (Stored.step cfg flush) (Unclobbered flush) {} acts := by
  constructor
  · intro hruns
    apply Runs.Along.of_prefixes
    rintro before x after v rfl hv
    cases x with
    | select t => trivial
    | base a =>
      obtain ⟨v', hv', hrest⟩ := Runs.exec_append_iff.mp h
      cases hv.symm.trans hv'
      obtain ⟨w, hw, _⟩ := Runs.exec_cons_iff.mp hrest
      have hbefore := hruns before _ v rfl hv
      have hafter := hruns (before ++ [.base a]) after w (by simp)
        (Runs.exec_append_iff.mpr ⟨v, hv, Runs.exec_cons_iff.mpr ⟨w, hw, rfl⟩⟩)
      rw [base_append] at hafter
      obtain ⟨s, hs, hlast⟩ := Runs.exec_append_iff.mp hafter
      cases (show some v.sys = some s from hbefore.symm.trans hs)
      obtain ⟨s', hstep, hend⟩ := Runs.exec_cons_iff.mp hlast
      cases Option.some.inj hend
      exact (sys_step_iff (Synced.of_exec hv) hw).mp hstep
  · rintro hup before after v rfl hv
    exact exec_sys .init hup.append_left hv

/-! ### Updates of a row one after the other -/

/-- A column is left out only if the row that was loaded holds the same there. Of two payloads
SQLAlchemy asks Python's `==`, which takes `1` for `True`. -/
def NetChanges (flush : ChangedColumns) : Prop :=
  ∀ loaded new col, col ≠ .payload → flush loaded new col = false → loaded.AgreeAt new col

/-- The open sessions: what they have loaded is in the table, and no two are on one row. -/
structure Sessions (u : Stored) : Prop where
  current : ∀ t job old, u.sys.writing t = some job → u.loaded t = some old →
    u.table job.id = some old
  alone : ∀ t t' job job', t' ≠ t → (u.loaded t).isSome = true → (u.loaded t').isSome = true →
    u.sys.writing t = some job → u.sys.writing t' = some job' → job'.id ≠ job.id

theorem Sessions.init : Sessions {} where
  current := by
    intro t job old _ h
    cases h
  alone := by
    intro t t' job job' _ h
    cases h

theorem writing_of_step {s s' : Sys} (h : InferenceEngine.step cfg s a = some s') {t : Nat}
    {job : InferenceJob} (hwriting : s'.writing t = some job) :
    s.writing t = some job ∨ ∃ c, a = .resume (.task t) c := by
  obtain ⟨name, id, m, p, seen, htask, hwrite⟩ := Sys.task_of_writing hwriting
  rcases handling_of_step h htask with hold | rfl | ⟨c, q, e, k, r, s₁, ha, _⟩
  · left
    rw [Sys.writing_of_task hold, hwrite, Option.map_some]
  · cases hwrite
  · exact .inr ⟨c, ha⟩

theorem loaded_of_after {t : Nat} {old : JobRow} (h : u.loadedAfter a t = some old) :
    u.loaded t = some old ∧ ∀ c, a ≠ .resume (.task t) c := by
  unfold loadedAfter at h
  split at h
  · rename_i t' c
    rw [Function.update_apply] at h
    split_ifs at h with ht
    refine ⟨h, ?_⟩
    rintro c' heq
    cases heq
    exact ht rfl
  · split_ifs at h
    exact ⟨h, by simp⟩
  · rename_i htask hcrash
    exact ⟨h, fun c heq => htask t c heq⟩

theorem Sessions.after (hu : Sessions u) {s : Sys} {table : UUID → Option JobRow}
    (hstep : InferenceEngine.step cfg u.sys a = some s)
    (htable : u.tableAfter flush a = some table) :
    Sessions ⟨{ s with rows := fun j => (table j).bind toDomain }, table, u.loadedAfter a⟩ := by
  have before : ∀ {t job old}, s.writing t = some job → u.loadedAfter a t = some old →
      u.sys.writing t = some job ∧ u.loaded t = some old ∧ ∀ c, a ≠ .resume (.task t) c := by
    intro t job old hwriting hloaded
    obtain ⟨hold, hother⟩ := loaded_of_after hloaded
    rcases writing_of_step hstep hwriting with hw | ⟨c, ha⟩
    · exact ⟨hw, hold, hother⟩
    · exact absurd ha (hother c)
  constructor
  · intro t job old hwriting hloaded
    obtain ⟨hw, hold, hother⟩ := before hwriting hloaded
    have hrow := hu.current t job old hw hold
    have kept : ∀ k (row : JobRow), k ≠ job.id →
        Function.update u.table k (some row) job.id = some old := by
      intro k row hk
      rw [Function.update_of_ne hk.symm]
      exact hrow
    rcases tableAfter_cases htable with rfl | ⟨_, _, job', _, _, hnone, _, rfl⟩ |
      ⟨t', c, job', old', _, _, ha, hw', hold', _, _, _, rfl⟩
    · exact hrow
    · apply kept
      intro hk
      rw [hk, hrow] at hnone
      cases hnone
    · apply kept
      refine hu.alone t t' job job' ?_ (by simp [hold]) (by simp [hold']) hw hw'
      rintro rfl
      exact hother c ha
  · intro t t' job job' hne hsome hsome' hwriting hwriting'
    obtain ⟨old, hold⟩ := Option.isSome_iff_exists.mp hsome
    obtain ⟨old', hold'⟩ := Option.isSome_iff_exists.mp hsome'
    obtain ⟨hw, hloaded, _⟩ := before hwriting hold
    obtain ⟨hw', hloaded', _⟩ := before hwriting' hold'
    exact hu.alone t t' job job' hne (by simp [hloaded]) (by simp [hloaded']) hw hw'

theorem Sessions.opened (hu : Sessions u) {t : Nat} {job : InferenceJob} {row : JobRow}
    (hserial : Serial u (.select t)) (hwriting : u.sys.writing t = some job)
    (hrow : u.table job.id = some row) :
    Sessions { u with loaded := Function.update u.loaded t (some row) } := by
  constructor
  · intro t' job' old hw hloaded
    by_cases ht : t' = t
    · subst ht
      cases hwriting.symm.trans hw
      simp only [Function.update_self, Option.some.injEq] at hloaded
      exact hloaded ▸ hrow
    · simp only [Function.update_of_ne ht] at hloaded
      exact hu.current t' job' old hw hloaded
  · intro t₁ t₂ job₁ job₂ hne hsome₁ hsome₂ hw₁ hw₂
    by_cases h₁ : t₁ = t
    · subst h₁
      cases hwriting.symm.trans hw₁
      simp only [Function.update_of_ne hne] at hsome₂
      exact hserial job hwriting t₂ job₂ hne hsome₂ hw₂
    · simp only [Function.update_of_ne h₁] at hsome₁
      by_cases h₂ : t₂ = t
      · subst h₂
        cases hwriting.symm.trans hw₂
        exact (hserial job hwriting t₁ job₁ h₁ hsome₁ hw₁).symm
      · simp only [Function.update_of_ne h₂] at hsome₂
        exact hu.alone t₁ t₂ job₁ job₂ hne hsome₁ hsome₂ hw₁ hw₂

theorem Sessions.step (hu : Sessions u) (hserial : Serial u x)
    (h : Stored.step cfg flush u x = some u') : Sessions u' := by
  rcases step_cases h with ⟨a, s, table, rfl, hstep, htable, rfl⟩ |
    ⟨t, job, row, rfl, hwriting, hrow, _, rfl⟩
  · exact hu.after hstep htable
  · exact hu.opened hserial hwriting hrow

/-- A row that nobody else updates is up to date when its UPDATE comes: no transition changes the
payload, and every other column that is left out has not changed. -/
theorem unclobbered_of_sessions (hflush : NetChanges flush) (hs : Synced u)
    (hcoh : Coherent u.sys) (hprov : Provenance u.sys) (hu : Sessions u) (x : StoredAct) :
    Unclobbered flush u x := by
  unfold Unclobbered
  split
  · rename_i t c
    intro _ job old current hwriting hold hcurrent col hcol
    cases (hu.current t job old hwriting hold).symm.trans hcurrent
    by_cases hpayload : col = .payload
    · subst hpayload
      obtain ⟨row, hrow, rfl⟩ := hs.row_of_table hcurrent
      obtain ⟨name, id, m, p, seen, htask, hwrite⟩ := Sys.task_of_writing hwriting
      obtain ⟨first, q, hfirst, _, hrowPayload⟩ := hprov.rows job.id row hrow
      obtain ⟨first', q', hfirst', _, hjobPayload⟩ :=
        hprov.copies t name id m p htask job (TaskPoint.mem_copies_of_write hwrite)
      rw [hcoh.keyed job.id row hrow] at hfirst
      cases hfirst.symm.trans hfirst'
      exact congrArg some (hrowPayload.trans hjobPayload.symm)
    · exact hflush old (toRow job) col hpayload hcol
  · trivial

/-- While no `update` of a row begins before the last one of that row has ended, the system over
the table runs as the system over whole rows, and the table holds its rows. -/
theorem refines_of_serial {acts : List StoredAct} (hflush : NetChanges flush)
    (h : Runs.exec (Stored.step cfg flush) {} acts = some u)
    (hserial : Runs.Along (Stored.step cfg flush) Serial {} acts) :
    Reaches cfg (base acts) u.sys ∧ u.table = fun j => (u.sys.rows j).map toRow := by
  have hup : Runs.Along (Stored.step cfg flush) (Unclobbered flush) {} acts := by
    apply Runs.Along.of_invariant
      (I := fun v : Stored => Synced v ∧ Coherent v.sys ∧ Provenance v.sys ∧ Sessions v) _ _ _ hserial
    · rintro v x w ⟨hs, hcoh, hprov, hu⟩ hserial hstep
      refine ⟨hs.step hstep, ?_, ?_, hu.step hserial hstep⟩
      · cases x with
        | base a =>
          have hup := unclobbered_of_sessions hflush hs hcoh hprov hu (.base a)
          exact hcoh.step ((sys_step_iff hs hstep).mpr hup)
        | select t => rwa [sys_of_select hstep]
      · cases x with
        | base a =>
          have hup := unclobbered_of_sessions hflush hs hcoh hprov hu (.base a)
          exact hprov.step hcoh ((sys_step_iff hs hstep).mpr hup)
        | select t => rwa [sys_of_select hstep]
    · rintro v x ⟨hs, hcoh, hprov, hu⟩ _
      exact unclobbered_of_sessions hflush hs hcoh hprov hu x
    · exact ⟨.init, .init, .init, .init⟩
  refine ⟨exec_sys .init hup h, ?_⟩
  have hs := Synced.of_exec h
  funext j
  cases hrow : u.table j with
  | none => rw [(hs.table_none_iff j).mp hrow, Option.map_none]
  | some row =>
    obtain ⟨job, hjob, rfl⟩ := hs.row_of_table hrow
    rw [hjob, Option.map_some]

theorem serial_of_one (t₀ : Nat) {acts : List StoredAct}
    (hone : ∀ x ∈ acts, ∀ t ∈ x.opens, t = t₀) :
    Runs.Along (Stored.step cfg flush) Serial {} acts := by
  apply Runs.Along.of_invariant (I := fun v : Stored => ∀ t, t ≠ t₀ → v.loaded t = none)
    (P := fun _ x => ∀ t ∈ x.opens, t = t₀)
  · intro v x w hnone hx hstep t ht
    rcases step_cases hstep with ⟨a, s, table, rfl, _, _, rfl⟩ | ⟨t', job, row, rfl, _, _, _, rfl⟩
    · apply Option.eq_none_iff_forall_ne_some.mpr
      intro old hold
      cases (hnone t ht).symm.trans (loaded_of_after hold).1
    · have hne : t ≠ t' := fun h => ht (h.trans (hx t' rfl))
      simp only [Function.update_of_ne hne, hnone t ht]
  · intro v x hnone hx
    unfold Serial
    split
    · rename_i t
      intro job _ t' job' hne hsome
      rw [hnone t' fun h => hne (h.trans (hx t rfl).symm)] at hsome
      cases hsome
    · trivial
  · exact fun _ _ => rfl
  · exact Runs.Along.of_forall (fun x hx _ => hone x hx) _

/-- The columns in which the rows differ; the payloads here are those of one submission. -/
def netChanges (loaded new : JobRow) : Column → Bool
  | .id => loaded.id ≠ new.id
  | .type => loaded.type ≠ new.type
  | .status => loaded.status ≠ new.status
  | .payload => false
  | .resultRef => loaded.resultRef ≠ new.resultRef
  | .error => loaded.error ≠ new.error
  | .attempts => loaded.attempts ≠ new.attempts
  | .durationMs => loaded.durationMs ≠ new.durationMs
  | .createdAt => loaded.createdAt ≠ new.createdAt
  | .updatedAt => loaded.updatedAt ≠ new.updatedAt

theorem netChanges_netChanges : NetChanges netChanges := by
  intro loaded new col hcol h
  cases col with
  | payload => exact absurd rfl hcol
  | _ => simpa [netChanges, JobRow.AgreeAt] using h

def handled : List StoredAct :=
  (boot 0 ++ submitted 7 ++ readPass 0 1 ++ steps (.task 0) 2).map .base ++ .select 0 ::
    (steps (.task 0) 2).map .base ++ .select 0 :: (steps (.task 0) 2).map .base

theorem handled_refines : ∃ u row, Runs.exec (Stored.step {} netChanges) {} handled = some u ∧
    u.table 7 = some row ∧ row.status = some JobStatus.success.value ∧
    Reaches {} (base handled) u.sys ∧ u.table = fun j => (u.sys.rows j).map toRow := by
  obtain ⟨u, hu, hview⟩ := Runs.exec_of_map (Stored.step {} netChanges) {} handled
    (fun u => (u.table 7).map (·.status)) (some (some JobStatus.success.value)) (by decide +kernel)
  obtain ⟨row, hrow, hstatus⟩ := Option.map_eq_some_iff.mp hview
  exact ⟨u, row, hu, hrow, hstatus, refines_of_serial netChanges_netChanges hu
    (serial_of_one 0 (by decide))⟩

/-- A second worker has taken the entry over and fails the running job; both handlers have read
the RUNNING row when the failure commits, and then the success. -/
def overlapped : List StoredAct :=
  (boot 0 ++ submitted 7 ++ readPass 0 1 ++ steps (.task 0) 2).map .base ++ .select 0 ::
    (steps (.task 0) 2 ++ boot 1 ++ claimPass 1 1 ++ steps (.task 1) 5).map .base ++
    [.select 0, .select 1] ++ (steps (.task 1) 1 ++ steps (.task 0) 1).map .base

/-- A SUCCESS row with an error text: the success left the column out that the failure had set. -/
theorem overlapped_mixes : ∃ u row,
    Runs.exec (Stored.step {} netChanges) {} overlapped = some u ∧ u.sys.rows 7 = some row ∧
    row.status = .success ∧ row.error.isSome = true ∧ ∀ acts, ¬ Reaches {} acts u.sys := by
  obtain ⟨u, hu, hview⟩ := Runs.exec_of_map (Stored.step {} netChanges) {} overlapped
    (fun u => (u.sys.rows 7).map fun row => (row.status, row.error.isSome))
    (some (.success, true)) (by decide +kernel)
  obtain ⟨row, hrow, hboth⟩ := Option.map_eq_some_iff.mp hview
  obtain ⟨hstatus, herror⟩ := Prod.mk.inj hboth
  refine ⟨u, row, hu, hrow, hstatus, herror, ?_⟩
  intro acts hreach
  have hfailed := (hreach.outcomeFields hrow).error.mp herror
  cases hstatus.symm.trans hfailed

theorem overlapped_clobbers : ∃ u,
    Runs.exec (Stored.step {} netChanges) {} overlapped = some u ∧
    ¬ Runs.Along (Stored.step {} netChanges) (Unclobbered netChanges) {} overlapped := by
  obtain ⟨u, _, hu, _, _, _, hnever⟩ := overlapped_mixes
  refine ⟨u, hu, ?_⟩
  intro hup
  exact hnever _ ((refines_iff hu).mpr hup overlapped [] u (List.append_nil _).symm hu)

end Stored

end InferenceEngine
