import InferenceEngine.Pipelines
import InferenceEngine.Library.Conditions

/-!
# A pipeline does not go on after a failure

A run on a payload that can be read ends with the first call that fails, with its error; only a put
that fails transiently is tried again, as long as there are tries left.
-/

namespace InferenceEngine

set_option autoImplicit false

open Programs

def raisedBy {ε α : Type} : Except ε α → Option ε
  | .ok _ => none
  | .error x => some x

theorem raisedBy_eq_some {ε α : Type} {r : Except ε α} {x : ε} : raisedBy r = some x ↔ r = .error x := by
  cases r <;> simp [raisedBy]

theorem raisedBy_eq_none {ε α : Type} {r : Except ε α} : raisedBy r = none ↔ ∃ a, r = .ok a := by
  cases r <;> simp [raisedBy]

section
variable {V : Type}

def Call.raised : (call : Call V) → call.Reply → Option Exn
  | .search _ _, r => raisedBy r
  | .embed _, r => raisedBy r
  | .upsert _ _, r => raisedBy r
  | .query _ _ _, r => raisedBy r
  | .complete _ _, r => raisedBy r
  | .putObject _ _ _, r => (raisedBy r).map classifyBotocoreError

/-- There is one vector for each embedded text, if any. -/
def Call.shaped : (call : Call V) → call.Reply → Bool
  | .embed texts, r =>
    match r with
    | .ok vectors => vectors.length = texts.length
    | .error _ => true
  | _, _ => true

def Call.isPut : Call V → Bool
  | .putObject _ _ _ => true
  | _ => false

/-- What the last call raised, and how many puts there were. -/
structure Told where
  shaped : Bool := true
  failed : Option Exn := none
  puts : Nat := 0

/-- No call follows one that failed, apart from the tries of a put. -/
def straight (V : Type) (limit : Nat) : Policy (Call V) Call.Reply Told where
  allowed b call := b.shaped = true → (b.failed = none ∧ b.puts = 0) ∨
    (call.isPut = true ∧ 0 < b.puts ∧ b.puts < limit ∧ ∃ msg, b.failed = some (.transient msg))
  next call r b :=
    { shaped := b.shaped && call.shaped r, failed := call.raised r,
      puts := if call.isPut then b.puts + 1 else b.puts }

/-- Before the put: the computation raises what its last call raised. -/
def Goes {α : Type} (P : α → Prop) (o : Except Exn α) (b : Told) : Prop :=
  b.shaped = true → b.puts = 0 ∧ b.failed = raisedBy o ∧ ∀ a, o = .ok a → P a

/-- The same after the put, which has used up its tries if it failed transiently. -/
def Ends {α : Type} (limit : Nat) (o : Except Exn α) (b : Told) : Prop :=
  b.shaped = true → b.failed = raisedBy o ∧
    ∀ msg, b.failed = some (.transient msg) → 0 < b.puts → b.puts = limit

theorem obeys_misshaped {α : Type} {limit : Nat} {b : Told} {Q : α → Told → Prop}
    (p : Program (Call V) Call.Reply α) (hb : b.shaped = false)
    (hQ : ∀ o b, b.shaped = false → Q o b) : p.Obeys (straight V limit) b Q := by
  induction p generalizing b with
  | pure o => exact hQ o b hb
  | await call k ih =>
    refine ⟨fun h => ?_, fun r => ih r ?_⟩
    · cases hb.symm.trans h
    · simp only [straight, hb, Bool.false_and]

namespace Pipe

variable {α β : Type} {limit : Nat}

theorem goes_bind {P : α → Prop} {x : Pipe V α} {f : α → Pipe V β}
    (hx : x.run.Obeys (straight V limit) {} (Goes P))
    (hf : ∀ a, P a → (f a).run.Obeys (straight V limit) {} (Ends limit)) :
    (x >>= f).run.Obeys (straight V limit) {} (Ends limit) := by
  apply Program.obeys_exceptBind.mpr
  apply hx.mono
  rintro o ⟨shaped, failed, puts⟩ ho
  cases shaped with
  | false =>
    cases o with
    | ok a => exact obeys_misshaped _ rfl fun o b hb h => nomatch hb.symm.trans h
    | error x => exact fun h => nomatch h
  | true =>
    obtain ⟨rfl, rfl, hP⟩ := ho rfl
    cases o with
    | ok a => exact hf a (hP a rfl)
    | error x => exact fun _ => ⟨rfl, fun _ _ hpos => absurd hpos (Nat.lt_irrefl 0)⟩

theorem goes_ofExcept {P : α → Prop} {x : Except Exn α} {a : α} (hx : x = .ok a) (ha : P a) :
    (ofExcept x : Pipe V α).run.Obeys (straight V limit) {} (Goes P) := by
  subst hx
  refine fun _ => ⟨rfl, rfl, fun b hb => ?_⟩
  cases hb
  exact ha

theorem goes_search (query : Text) (n : Int) :
    (search query n : Pipe V _).run.Obeys (straight V limit) {} (Goes fun _ => True) :=
  ⟨fun _ => .inl ⟨rfl, rfl⟩, fun _ _ => ⟨rfl, rfl, fun _ _ => trivial⟩⟩

theorem goes_embed (texts : List Text) :
    (embed texts : Pipe V _).run.Obeys (straight V limit) {}
      (Goes fun vectors => vectors.length = texts.length) := by
  refine ⟨fun _ => .inl ⟨rfl, rfl⟩, fun r hshaped => ⟨rfl, rfl, fun vectors hr => ?_⟩⟩
  subst hr
  exact of_decide_eq_true hshaped

theorem goes_upsert (records : List (VectorRecord V)) (ns : Text) :
    (upsert records ns).run.Obeys (straight V limit) {} (Goes fun _ => True) :=
  ⟨fun _ => .inl ⟨rfl, rfl⟩, fun _ _ => ⟨rfl, rfl, fun _ _ => trivial⟩⟩

theorem goes_query (vector : V) (topK : Int) (ns : Text) :
    (query vector topK ns).run.Obeys (straight V limit) {} (Goes fun _ => True) :=
  ⟨fun _ => .inl ⟨rfl, rfl⟩, fun _ _ => ⟨rfl, rfl, fun _ _ => trivial⟩⟩

theorem goes_complete (prompt : Text) (n : Int) :
    (complete prompt n : Pipe V _).run.Obeys (straight V limit) {} (Goes fun _ => True) :=
  ⟨fun _ => .inl ⟨rfl, rfl⟩, fun _ _ => ⟨rfl, rfl, fun _ _ => trivial⟩⟩

theorem goes_unlessEmpty {γ : Type} {P : β → Prop} {xs : List γ} {b : β} {call : Pipe V β}
    (hb : xs = [] → P b) (hcall : call.run.Obeys (straight V limit) {} (Goes P)) :
    (unlessEmpty xs b call).run.Obeys (straight V limit) {} (Goes P) := by
  unfold unlessEmpty
  split
  · exact goes_ofExcept rfl (hb (List.isEmpty_iff.mp ‹_›))
  · exact hcall

theorem goes_embedBatch {γ : Type} {xs : List γ} {texts : List Text}
    (h : texts.length = xs.length) :
    (unlessEmpty xs [] (embed texts) : Pipe V _).run.Obeys (straight V limit) {}
      (Goes fun vectors => vectors.length = xs.length) := by
  apply goes_unlessEmpty
  · rintro rfl
    rfl
  · rw [← h]
    exact goes_embed texts

theorem ends_callPut {key : Text} {data : List UInt8} {contentType : Text} (left : Nat) (b : Told)
    (hleft : b.puts + left + 1 = limit)
    (hb : b.shaped = true →
      (b.failed = none ∧ b.puts = 0) ∨ (0 < b.puts ∧ ∃ msg, b.failed = some (.transient msg))) :
    (callPut (V := V) key data contentType left).Obeys (straight V limit) b (Ends limit) := by
  induction left generalizing b with
  | zero =>
    refine ⟨fun hshaped => ?_, fun r => ?_⟩
    · rcases hb hshaped with hfirst | ⟨hpos, hmsg⟩
      · exact .inl hfirst
      · exact .inr ⟨rfl, hpos, by omega, hmsg⟩
    · rcases r with e | u
      · exact fun _ => ⟨rfl, fun _ _ _ => hleft⟩
      · exact fun _ => ⟨rfl, fun _ h => by cases h⟩
  | succ left ih =>
    refine ⟨fun hshaped => ?_, fun r => ?_⟩
    · rcases hb hshaped with hfirst | ⟨hpos, hmsg⟩
      · exact .inl hfirst
      · exact .inr ⟨rfl, hpos, by omega, hmsg⟩
    · rcases r with e | u
      · change Program.Obeys _ (Program.bind
          (Program.pure (Except.error (classifyBotocoreError e))) _) _ _
        rw [Program.pure_bind]
        cases hclass : classifyBotocoreError e with
        | transient msg =>
          refine ih _ ?_ fun _ => .inr ⟨Nat.succ_pos _, msg, congrArg some hclass⟩
          have hputs : b.puts + 1 + left + 1 = limit := by omega
          exact hputs
        | _ =>
          refine fun _ => ⟨congrArg some hclass, fun msg h => ?_⟩
          cases (congrArg some hclass).symm.trans h
      · exact fun _ => ⟨rfl, fun _ h => by cases h⟩

theorem ends_putBytes (cfg : EngineSettings) (key : Text) (data : List UInt8)
    (contentType : Text) :
    (putBytes cfg key data contentType : Pipe V Text).run.Obeys
      (straight V (max 1 cfg.retryMaxAttempts)) {} (Ends (max 1 cfg.retryMaxAttempts)) := by
  apply Program.obeys_exceptBind.mpr
  have hleft : 0 + (cfg.retryMaxAttempts - 1) + 1 = max 1 cfg.retryMaxAttempts := by omega
  apply (ends_callPut (cfg.retryMaxAttempts - 1) {} hleft fun _ => .inl ⟨rfl, rfl⟩).mono
  intro o b ho
  cases o with
  | ok u => exact ho
  | error x => exact ho

end Pipe

theorem unpackOne_of_length {α : Type} {xs : List α} (h : xs.length = 1) :
    ∃ x, unpackOne xs = .ok x := by
  obtain ⟨x, rfl⟩ := List.length_eq_one_iff.mp h
  exact ⟨x, rfl⟩

variable {cfg : EngineSettings} {job : InferenceJob}

theorem straight_ragQueryRun {query : Text} {topK : Int}
    (hquery : requireStr job.payload "query".toList = .ok query)
    (htopK : optionalInt job.payload "top_k".toList 3 = .ok topK) :
    (ragQueryRun (V := V) cfg job).run.Obeys (straight V (max 1 cfg.retryMaxAttempts)) {}
      (Ends (max 1 cfg.retryMaxAttempts)) := by
  unfold ragQueryRun
  apply Pipe.goes_bind (Pipe.goes_ofExcept (P := fun _ => True) hquery trivial)
  intro query _
  apply Pipe.goes_bind (Pipe.goes_ofExcept (P := fun _ => True) htopK trivial)
  intro topK _
  apply Pipe.goes_bind (Pipe.goes_search query (topK * 2))
  intro snippets _
  apply Pipe.goes_bind (Pipe.goes_embedBatch rfl)
  intro vectors hvectors
  apply Pipe.goes_bind
    (Pipe.goes_ofExcept (P := fun _ => True) (zipStrict_of_length hvectors) trivial)
  intro pairs _
  apply Pipe.goes_bind
    (Pipe.goes_unlessEmpty (P := fun _ => True) (fun _ => trivial) (Pipe.goes_upsert _ _))
  intro _ _
  apply Pipe.goes_bind (Pipe.goes_embed [query])
  intro embedded hembedded
  obtain ⟨queryVector, hunpack⟩ := unpackOne_of_length hembedded
  apply Pipe.goes_bind (Pipe.goes_ofExcept (P := fun _ => True) hunpack trivial)
  intro queryVector _
  apply Pipe.goes_bind
    (Pipe.goes_unlessEmpty (P := fun _ => True) (fun _ => trivial) (Pipe.goes_query _ _ _))
  intro hits _
  apply Pipe.goes_bind (Pipe.goes_complete _ _)
  intro answer _
  exact Pipe.ends_putBytes _ _ _ _

theorem straight_embedDocumentRun {document : Text} {size overlap : Int} {chunks : List Chunk}
    (htext : requireStr job.payload "text".toList = .ok document)
    (hsize : optionalInt job.payload "chunk_size".toList 512 = .ok size)
    (hoverlap : optionalInt job.payload "chunk_overlap".toList 64 = .ok overlap)
    (hchunks : chunkText document size overlap = .ok chunks) :
    (embedDocumentRun (V := V) cfg job).run.Obeys (straight V (max 1 cfg.retryMaxAttempts)) {}
      (Ends (max 1 cfg.retryMaxAttempts)) := by
  unfold embedDocumentRun
  apply Pipe.goes_bind (Pipe.goes_ofExcept (P := (· = document)) htext rfl)
  rintro _ rfl
  apply Pipe.goes_bind (Pipe.goes_ofExcept (P := (· = size)) hsize rfl)
  rintro _ rfl
  apply Pipe.goes_bind (Pipe.goes_ofExcept (P := (· = overlap)) hoverlap rfl)
  rintro _ rfl
  apply Pipe.goes_bind (Pipe.goes_ofExcept (P := fun _ => True) hchunks trivial)
  intro chunks _
  apply Pipe.goes_bind (Pipe.goes_embedBatch (List.length_map _))
  intro vectors hvectors
  apply Pipe.goes_bind
    (Pipe.goes_ofExcept (P := fun _ => True) (zipStrict_of_length hvectors.symm) trivial)
  intro pairs _
  apply Pipe.goes_bind
    (Pipe.goes_unlessEmpty (P := fun _ => True) (fun _ => trivial) (Pipe.goes_upsert _ _))
  intro _ _
  exact Pipe.ends_putBytes _ _ _ _

end

end InferenceEngine
