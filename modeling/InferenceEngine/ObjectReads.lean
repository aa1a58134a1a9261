import InferenceEngine.Pipelines
import InferenceEngine.Library.Runs
import Mathlib.Logic.Function.Basic

/-!
# Reading an object

`S3ObjectStore.get_bytes`: `get_object`, then the body's `read` and its `close`, in one offloaded
closure that `_call` retries. Any number of these run beside writes to the same keys. No call is
cancelled, and a body whose `close` raises counts as closed.
-/

namespace InferenceEngine

set_option autoImplicit false

open Programs

abbrev Bytes := List UInt8

/-- What the closure asks of boto3. -/
inductive ObjectCall where
  | getObject (key : Text)
  | readBody (body : Nat)
  | closeBody (body : Nat)

def ObjectCall.Reply : ObjectCall → Type
  | .getObject _ => Except BotoError Nat
  | .readBody _ => Except BotoError Bytes
  | .closeBody _ => Except BotoError Unit

abbrev ObjectProgram (α : Type) := Program ObjectCall ObjectCall.Reply α

/-- `_fetch_and_read`; what `close` raises replaces what `read` has raised or returned. -/
def fetchAndRead (key : Text) : ObjectProgram (Except BotoError Bytes) :=
  .await (.getObject key) fun
    | .error e => .pure (.error e)
    | .ok body => .await (.readBody body) fun r => .await (.closeBody body) fun
      | .ok () => .pure r
      | .error e => .pure (.error e)

def fetchOnce (key : Text) : ObjectProgram (Except Exn Bytes) :=
  (fetchAndRead key).bind fun
    | .ok data => .pure (.ok data)
    | .error e => .pure (.error (classifyBotocoreError e))

/-- `_call`: `retrying` with `left` tries after the current one. -/
def callFetch (key : Text) : Nat → ObjectProgram (Except Exn Bytes)
  | 0 => fetchOnce key
  | left + 1 => (fetchOnce key).bind fun
    | .error (.transient _) => callFetch key left
    | r => .pure r

def getBytes (cfg : Settings) (key : Text) : ObjectProgram (Except Exn Bytes) :=
  callFetch key (cfg.retryMaxAttempts - 1)

/-! ### Its points -/

inductive GetPoint where
  | fetching (left : Nat)
  | reading (left body : Nat)
  | closing (left body : Nat) (r : Except BotoError Bytes)
  | finished (outcome : Except Exn Bytes)

namespace GetPoint

def afterTry (left : Nat) : Except BotoError Bytes → GetPoint
  | .ok data => finished (.ok data)
  | .error e =>
    match classifyBotocoreError e, left with
    | .transient _, left + 1 => fetching left
    | x, _ => finished (.error x)

def afterGet (left : Nat) : Except BotoError Nat → GetPoint
  | .ok body => reading left body
  | .error e => afterTry left (.error e)

def afterClose (left : Nat) (r : Except BotoError Bytes) : Except BotoError Unit → GetPoint
  | .ok () => afterTry left r
  | .error e => afterTry left (.error e)

def node (key : Text) : GetPoint → Node ObjectCall ObjectCall.Reply (Except Exn Bytes) GetPoint
  | fetching left => .await (.getObject key) (afterGet left)
  | reading left body => .await (.readBody body) (closing left body)
  | closing left body r => .await (.closeBody body) (afterClose left r)
  | finished outcome => .done outcome

/-- The rest of `get_bytes` after a try. -/
def rest (key : Text) (left : Nat) (r : Except BotoError Bytes) : ObjectProgram (Except Exn Bytes) :=
  match r, left with
  | .ok data, _ => .pure (.ok data)
  | .error e, 0 => .pure (.error (classifyBotocoreError e))
  | .error e, left + 1 =>
    match classifyBotocoreError e with
    | .transient _ => callFetch key left
    | x => .pure (.error x)

def program (key : Text) : GetPoint → ObjectProgram (Except Exn Bytes)
  | fetching left => callFetch key left
  | reading left body => .await (.readBody body) fun r => .await (.closeBody body) fun
    | .ok () => rest key left r
    | .error e => rest key left (.error e)
  | closing left body r => .await (.closeBody body) fun
    | .ok () => rest key left r
    | .error e => rest key left (.error e)
  | finished outcome => .pure outcome

theorem program_afterTry (key : Text) (left : Nat) (r : Except BotoError Bytes) :
    (afterTry left r).program key = rest key left r := by
  cases r with
  | ok data => cases left <;> rfl
  | error e =>
    cases left with
    | zero =>
      simp only [afterTry, rest]
      cases classifyBotocoreError e <;> rfl
    | succ left =>
      simp only [afterTry, rest]
      cases classifyBotocoreError e <;> rfl

theorem rest_eq (key : Text) (left : Nat) (r : Except BotoError Bytes) :
    rest key left r = match left, (match r with
        | .ok data => .pure (.ok data)
        | .error e => .pure (.error (classifyBotocoreError e)) :
          ObjectProgram (Except Exn Bytes)) with
      | 0, p => p
      | left + 1, p => p.bind fun
        | .error (.transient _) => callFetch key left
        | r => .pure r := by
  cases left with
  | zero => cases r <;> rfl
  | succ left =>
    cases r with
    | ok data => rfl
    | error e =>
      simp only [rest, Program.pure_bind]
      cases classifyBotocoreError e <;> rfl

theorem callFetch_eq (key : Text) (left : Nat) :
    callFetch key left = .await (.getObject key) fun r => (afterGet left r).program key := by
  cases left with
  | zero =>
    refine congrArg (Program.await _) (funext fun r => ?_)
    cases r with
    | error e => exact ((program_afterTry key 0 (.error e)).trans (rest_eq key 0 _)).symm
    | ok body =>
      refine congrArg (Program.await _) (funext fun data => congrArg (Program.await _) ?_)
      funext reply
      cases reply with
      | ok u => exact (rest_eq key 0 data).symm
      | error e => exact (rest_eq key 0 (.error e)).symm
  | succ left =>
    refine congrArg (Program.await _) (funext fun r => ?_)
    cases r with
    | error e => exact ((program_afterTry key (left + 1) (.error e)).trans (rest_eq key _ _)).symm
    | ok body =>
      refine congrArg (Program.await _) (funext fun data => congrArg (Program.await _) ?_)
      funext reply
      cases reply with
      | ok u => exact (rest_eq key (left + 1) data).symm
      | error e => exact (rest_eq key (left + 1) (.error e)).symm

theorem lockstep (key : Text) : Lockstep (node key) (program key) := by
  intro p
  cases p with
  | fetching left =>
    change (callFetch key left).node = _
    rw [callFetch_eq]
    rfl
  | reading left body => rfl
  | closing left body r =>
    refine congrArg (Node.await _) (funext fun reply => ?_)
    cases reply with
    | ok u => exact (program_afterTry key left r).symm
    | error e => exact (program_afterTry key left (.error e)).symm
  | finished outcome => rfl

theorem program_fetching (cfg : Settings) (key : Text) :
    (fetching (cfg.retryMaxAttempts - 1)).program key = getBytes cfg key := rfl

def body : GetPoint → Option Nat
  | reading _ body | closing _ body _ => some body
  | _ => none

end GetPoint

/-! ### Reads beside writes -/

/-- What S3 answers for a key that is not there. -/
def noSuchKey (msg : Text) : BotoError := .client 404 "NoSuchKey".toList msg

/-- S3 through boto3, by what these document: `get_object` streams the object that is stored under
the key at that moment, and `read` returns all of it while the body is open. -/
structure S3 where
  getObject : Option Bytes → Except BotoError Bytes
  read : Option Bytes → Except BotoError Bytes
  gets : ∀ data, getObject (some data) = .ok data
  lacks : ∃ msg, getObject none = .error (noSuchKey msg)
  reads : ∀ data, read (some data) = .ok data

def S3.plain : S3 where
  getObject
    | some data => .ok data
    | none => .error (noSuchKey "The specified key does not exist.".toList)
  read
    | some data => .ok data
    | none => .error (.unexpected "ValueError('I/O operation on closed file.')".toList)
  gets _ := rfl
  lacks := ⟨_, rfl⟩
  reads _ := rfl

/-- The bucket, the bodies that are open and the calls of `get_bytes`. -/
structure ObjectSys where
  objects : Text → Option Bytes := fun _ => none
  bodies : Nat → Option Bytes := fun _ => none
  nextBody : Nat := 0
  calls : Nat → Option (Text × GetPoint) := fun _ => none

inductive ObjectAct where
  | put (key : Text) (data : Bytes)
  | get (call : Nat) (key : Text)
  | answer (call : Nat)
  | fail (call : Nat) (e : BotoError)

def ObjectAct.call? : ObjectAct → Option Nat
  | .answer call | .fail call _ => some call
  | _ => none

namespace ObjectSys

def serve (s3 : S3) (s : ObjectSys) : (e : ObjectCall) → e.Reply × ObjectSys
  | .getObject key =>
    match s3.getObject (s.objects key) with
    | .ok data =>
      (.ok s.nextBody, { s with bodies := Function.update s.bodies s.nextBody (some data),
                                nextBody := s.nextBody + 1 })
    | .error x => (.error x, s)
  | .readBody body => (s3.read (s.bodies body), s)
  | .closeBody body => (.ok (), { s with bodies := Function.update s.bodies body none })

/-- A call that raises; a connection whose `close` raises is gone as well. -/
def fault (s : ObjectSys) (x : BotoError) : (e : ObjectCall) → e.Reply × ObjectSys
  | .getObject _ => (.error x, s)
  | .readBody _ => (.error x, s)
  | .closeBody body => (.error x, { s with bodies := Function.update s.bodies body none })

def setCall (s : ObjectSys) (call : Nat) (key : Text) (p : GetPoint) : ObjectSys :=
  { s with calls := Function.update s.calls call (some (key, p)) }

def advance (s : ObjectSys) (call : Nat) (reply : (e : ObjectCall) → e.Reply × ObjectSys) :
    Option ObjectSys :=
  match s.calls call with
  | some (key, p) =>
    match p.node key with
    | .await e k =>
      some ((reply e).2.setCall call key (k (reply e).1))
    | .done _ => none
  | none => none

def step (cfg : Settings) (s3 : S3) (s : ObjectSys) : ObjectAct → Option ObjectSys
  | .put key data => some { s with objects := Function.update s.objects key (some data) }
  | .get call key =>
    if (s.calls call).isNone then
      some (s.setCall call key (.fetching (cfg.retryMaxAttempts - 1)))
    else none
  | .answer call => s.advance call (s.serve s3)
  | .fail call x => s.advance call (s.fault x)

/-- What a step does to the bodies and to the point of its call. -/
inductive Advance (s : ObjectSys) (key : Text) :
    Option BotoError → GetPoint → (Nat → Option Bytes) × Nat → GetPoint → Prop
  | opened (left : Nat) (data : Bytes) (h : s.objects key = some data) :
      Advance s key none (.fetching left)
        (Function.update s.bodies s.nextBody (some data), s.nextBody + 1) (.reading left s.nextBody)
  | missing (left : Nat) (msg : Text) (h : s.objects key = none) :
      Advance s key none (.fetching left) (s.bodies, s.nextBody)
        (.afterTry left (.error (noSuchKey msg)))
  | refused (left : Nat) (x : BotoError) :
      Advance s key (some x) (.fetching left) (s.bodies, s.nextBody) (.afterTry left (.error x))
  | read (left body : Nat) (r : Except BotoError Bytes)
      (h : ∀ data, s.bodies body = some data → r = .ok data) :
      Advance s key none (.reading left body) (s.bodies, s.nextBody) (.closing left body r)
  | cut (left body : Nat) (x : BotoError) :
      Advance s key (some x) (.reading left body) (s.bodies, s.nextBody)
        (.closing left body (.error x))
  | closed (left body : Nat) (r : Except BotoError Bytes) :
      Advance s key none (.closing left body r)
        (Function.update s.bodies body none, s.nextBody) (.afterTry left r)
  | torn (left body : Nat) (r : Except BotoError Bytes) (x : BotoError) :
      Advance s key (some x) (.closing left body r)
        (Function.update s.bodies body none, s.nextBody) (.afterTry left (.error x))

section
variable {cfg : Settings} {s3 : S3} {s s' : ObjectSys} {a : ObjectAct}

theorem advance_of_answer {call : Nat} (h : s.advance call (s.serve s3) = some s') :
    ∃ key p bodies next p', s.calls call = some (key, p) ∧
      Advance s key none p (bodies, next) p' ∧
      s' = ({ s with bodies, nextBody := next } : ObjectSys).setCall call key p' := by
  unfold advance at h
  split at h
  · rename_i key p hcall
    refine ⟨key, p, ?_⟩
    cases p with
    | fetching left =>
      cases hobject : s.objects key with
      | some data =>
        simp only [GetPoint.node, serve, hobject, s3.gets, Option.some.injEq] at h
        exact ⟨_, _, _, hcall, .opened left data hobject, h.symm⟩
      | none =>
        obtain ⟨msg, hlacks⟩ := s3.lacks
        simp only [GetPoint.node, serve, hobject, hlacks, Option.some.injEq] at h
        exact ⟨_, _, _, hcall, .missing left msg hobject, h.symm⟩
    | reading left body =>
      simp only [GetPoint.node, serve, Option.some.injEq] at h
      refine ⟨_, _, _, hcall, .read left body _ ?_, h.symm⟩
      intro data hdata
      rw [hdata, s3.reads]
    | closing left body r =>
      simp only [GetPoint.node, serve, Option.some.injEq] at h
      exact ⟨_, _, _, hcall, .closed left body r, h.symm⟩
    | finished outcome => cases h
  · cases h

theorem advance_of_fail {call : Nat} {x : BotoError} (h : s.advance call (s.fault x) = some s') :
    ∃ key p bodies next p', s.calls call = some (key, p) ∧
      Advance s key (some x) p (bodies, next) p' ∧
      s' = ({ s with bodies, nextBody := next } : ObjectSys).setCall call key p' := by
  unfold advance at h
  split at h
  · rename_i key p hcall
    refine ⟨key, p, ?_⟩
    cases p with
    | fetching left =>
      simp only [GetPoint.node, fault, Option.some.injEq] at h
      exact ⟨_, _, _, hcall, .refused left x, h.symm⟩
    | reading left body =>
      simp only [GetPoint.node, fault, Option.some.injEq] at h
      exact ⟨_, _, _, hcall, .cut left body x, h.symm⟩
    | closing left body r =>
      simp only [GetPoint.node, fault, Option.some.injEq] at h
      exact ⟨_, _, _, hcall, .torn left body r x, h.symm⟩
    | finished outcome => cases h
  · cases h

theorem step_cases (h : s.step cfg s3 a = some s') :
    (∃ key data, a = .put key data ∧
      s' = { s with objects := Function.update s.objects key (some data) }) ∨
    (∃ call key, a = .get call key ∧ s.calls call = none ∧
      s' = s.setCall call key (.fetching (cfg.retryMaxAttempts - 1))) ∨
    (∃ call x key p bodies next p', a = (match x with
        | none => .answer call
        | some e => .fail call e) ∧
      s.calls call = some (key, p) ∧ Advance s key x p (bodies, next) p' ∧
      s' = ({ s with bodies, nextBody := next } : ObjectSys).setCall call key p') := by
  cases a with
  | put key data => exact .inl ⟨key, data, rfl, (Option.some.inj h).symm⟩
  | get call key =>
    simp only [step] at h
    split_ifs at h with hnew
    exact .inr (.inl ⟨call, key, rfl, Option.isNone_iff_eq_none.mp hnew, (Option.some.inj h).symm⟩)
  | answer call =>
    obtain ⟨key, p, bodies, next, p', h⟩ := advance_of_answer h
    exact .inr (.inr ⟨call, none, key, p, bodies, next, p', rfl, h⟩)
  | fail call x =>
    obtain ⟨key, p, bodies, next, p', h⟩ := advance_of_fail h
    exact .inr (.inr ⟨call, some x, key, p, bodies, next, p', rfl, h⟩)

/-! ### Every body is closed -/

/-- Each open body is in the hands of one call, and no call holds a closed one. -/
structure Streams (s : ObjectSys) : Prop where
  held : ∀ body data, s.bodies body = some data →
    ∃ call key p, s.calls call = some (key, p) ∧ p.body = some body
  opened : ∀ call key p body, s.calls call = some (key, p) → p.body = some body →
    (s.bodies body).isSome = true
  alone : ∀ call call' key key' p p' body, s.calls call = some (key, p) →
    s.calls call' = some (key', p') → p.body = some body → p'.body = some body → call' = call
  fresh : ∀ body, s.nextBody ≤ body → s.bodies body = none

theorem Streams.init : Streams {} where
  held := by
    intro body data h
    cases h
  opened := by
    intro call key p body h
    cases h
  alone := by
    intro call call' key key' p p' body h
    cases h
  fresh := fun _ _ => rfl

theorem GetPoint.body_afterTry (left : Nat) (r : Except BotoError Bytes) :
    (GetPoint.afterTry left r).body = none := by
  cases r with
  | ok data => rfl
  | error e =>
    simp only [GetPoint.afterTry]
    split <;> rfl

theorem setCall_calls (s : ObjectSys) (call : Nat) (key : Text) (p : GetPoint) :
    (s.setCall call key p).calls = Function.update s.calls call (some (key, p)) := rfl

theorem Streams.kept (hs : Streams s) {call : Nat} {key : Text} {p : GetPoint}
    (hbody : p.body = (s.calls call).bind fun c => c.2.body) : Streams (s.setCall call key p) := by
  have before : ∀ {other key' q body}, (s.setCall call key p).calls other = some (key', q) →
      q.body = some body → ∃ key₀ q₀, s.calls other = some (key₀, q₀) ∧ q₀.body = some body := by
    intro other key' q body hother hq
    rw [setCall_calls, Function.update_apply] at hother
    split_ifs at hother with heq
    · cases hother
      rw [hbody] at hq
      obtain ⟨⟨key₀, q₀⟩, hcall, hq₀⟩ := Option.bind_eq_some_iff.mp hq
      exact ⟨key₀, q₀, heq ▸ hcall, hq₀⟩
    · exact ⟨key', q, hother, hq⟩
  constructor
  · intro body data hopen
    obtain ⟨other, key', q, hother, hq⟩ := hs.held body data hopen
    by_cases heq : other = call
    · subst heq
      rw [hother] at hbody
      exact ⟨other, key, p, Function.update_self _ _ _, hbody.trans hq⟩
    · exact ⟨other, key', q, (Function.update_of_ne heq _ _).trans hother, hq⟩
  · intro other key' q body hother hq
    obtain ⟨key₀, q₀, hold, hq₀⟩ := before hother hq
    exact hs.opened other key₀ q₀ body hold hq₀
  · intro c c' k k' q q' body hc hc' hq hq'
    obtain ⟨k₁, q₁, hold, hq₁⟩ := before hc hq
    obtain ⟨k₂, q₂, hold', hq₂⟩ := before hc' hq'
    exact hs.alone c c' k₁ k₂ q₁ q₂ body hold hold' hq₁ hq₂
  · exact hs.fresh

theorem Streams.open (hs : Streams s) {call left : Nat} {key : Text} {data : Bytes}
    (hcall : s.calls call = some (key, .fetching left)) :
    Streams (ObjectSys.setCall
      { s with bodies := Function.update s.bodies s.nextBody (some data),
               nextBody := s.nextBody + 1 } call key (.reading left s.nextBody)) := by
  have older : ∀ {other key' q body}, s.calls other = some (key', q) → q.body = some body →
      body ≠ s.nextBody := by
    rintro other key' q body hother hq rfl
    have hopen := hs.opened other key' q s.nextBody hother hq
    rw [hs.fresh s.nextBody (Nat.le_refl _)] at hopen
    cases hopen
  constructor
  · intro body data' hopen
    rw [setCall_calls]
    by_cases hbody : body = s.nextBody
    · subst hbody
      exact ⟨call, key, _, Function.update_self _ _ _, rfl⟩
    · obtain ⟨other, key', q, hother, hq⟩ :=
        hs.held body data' ((Function.update_of_ne hbody _ _).symm.trans hopen)
      have hne : other ≠ call := by
        rintro rfl
        cases hcall.symm.trans hother
        cases hq
      exact ⟨other, key', q, (Function.update_of_ne hne _ _).trans hother, hq⟩
  · intro other key' q body hother hq
    rw [setCall_calls, Function.update_apply] at hother
    split_ifs at hother with heq
    · cases hother
      cases hq
      change (Function.update s.bodies s.nextBody (some data) s.nextBody).isSome = true
      rw [Function.update_self, Option.isSome_some]
    · refine (congrArg Option.isSome (Function.update_of_ne (older hother hq) _ _)).trans ?_
      exact hs.opened other key' q body hother hq
  · intro c c' k k' q q' body hc hc' hq hq'
    rw [setCall_calls, Function.update_apply] at hc hc'
    split_ifs at hc with heq
    · split_ifs at hc' with heq'
      · exact heq'.trans heq.symm
      · cases hc
        cases hq
        exact absurd rfl (older hc' hq')
    · split_ifs at hc' with heq'
      · cases hc'
        cases hq'
        exact absurd rfl (older hc hq)
      · exact hs.alone c c' k k' q q' body hc hc' hq hq'
  · intro body hle
    have hne : body ≠ s.nextBody := by
      rintro rfl
      exact Nat.not_succ_le_self _ hle
    exact (Function.update_of_ne hne _ _).trans (hs.fresh body (Nat.le_of_succ_le hle))

theorem Streams.close (hs : Streams s) {call left body : Nat} {key : Text}
    {r : Except BotoError Bytes} {p' : GetPoint}
    (hcall : s.calls call = some (key, .closing left body r)) (hbody : p'.body = none) :
    Streams (ObjectSys.setCall
      { s with bodies := Function.update s.bodies body none } call key p') := by
  have others : ∀ {other key' q b}, other ≠ call → s.calls other = some (key', q) →
      q.body = some b → b ≠ body := by
    rintro other key' q b hne hother hq rfl
    exact hne (hs.alone call other key key' _ q b hcall hother rfl hq)
  constructor
  · intro b data hopen
    have hne : b ≠ body := by
      rintro rfl
      change Function.update s.bodies b none b = some data at hopen
      rw [Function.update_self] at hopen
      cases hopen
    obtain ⟨other, key', q, hother, hq⟩ :=
      hs.held b data ((Function.update_of_ne hne _ _).symm.trans hopen)
    have hcalls : other ≠ call := by
      rintro rfl
      cases hcall.symm.trans hother
      exact hne (Option.some.inj hq).symm
    exact ⟨other, key', q, (Function.update_of_ne hcalls _ _).trans hother, hq⟩
  · intro other key' q b hother hq
    rw [setCall_calls, Function.update_apply] at hother
    split_ifs at hother with heq
    · cases hother
      rw [hbody] at hq
      cases hq
    · refine (congrArg Option.isSome (Function.update_of_ne (others heq hother hq) _ _)).trans ?_
      exact hs.opened other key' q b hother hq
  · intro c c' k k' q q' b hc hc' hq hq'
    rw [setCall_calls, Function.update_apply] at hc hc'
    split_ifs at hc with heq
    · cases hc
      rw [hbody] at hq
      cases hq
    · split_ifs at hc' with heq'
      · cases hc'
        rw [hbody] at hq'
        cases hq'
      · exact hs.alone c c' k k' q q' b hc hc' hq hq'
  · intro b hle
    by_cases hb : b = body
    · subst hb
      exact Function.update_self _ _ _
    · exact (Function.update_of_ne hb _ _).trans (hs.fresh b hle)

theorem Streams.advance (hs : Streams s) {call next : Nat} {key : Text} {x : Option BotoError}
    {p p' : GetPoint} {bodies : Nat → Option Bytes} (hcall : s.calls call = some (key, p))
    (h : Advance s key x p (bodies, next) p') :
    Streams (({ s with bodies, nextBody := next } : ObjectSys).setCall call key p') := by
  cases h with
  | opened left data hobject => exact hs.open hcall
  | missing left msg hobject =>
    apply hs.kept
    rw [GetPoint.body_afterTry, hcall]
    rfl
  | refused left e =>
    apply hs.kept
    rw [GetPoint.body_afterTry, hcall]
    rfl
  | read left body r hr =>
    apply hs.kept
    rw [hcall]
    rfl
  | cut left body e =>
    apply hs.kept
    rw [hcall]
    rfl
  | closed left body r => exact hs.close hcall (GetPoint.body_afterTry left r)
  | torn left body r e => exact hs.close hcall (GetPoint.body_afterTry left _)

theorem Streams.step (hs : Streams s) (h : s.step cfg s3 a = some s') : Streams s' := by
  rcases step_cases h with ⟨key, data, _, rfl⟩ | ⟨call, key, _, hnew, rfl⟩ |
    ⟨call, x, key, p, bodies, next, p', _, hcall, hadvance, rfl⟩
  · exact ⟨hs.held, hs.opened, hs.alone, hs.fresh⟩
  · apply hs.kept
    rw [hnew]
    rfl
  · exact hs.advance hcall hadvance

/-! ### Every call ends -/

end

end ObjectSys

/-- How many effects are left at most. -/
def GetPoint.weight : GetPoint → Nat
  | .fetching left => 3 * left + 3
  | .reading left _ => 3 * left + 2
  | .closing left _ _ => 3 * left + 1
  | .finished _ => 0

theorem GetPoint.weight_afterTry (left : Nat) (r : Except BotoError Bytes) :
    (GetPoint.afterTry left r).weight ≤ 3 * left := by
  cases r with
  | ok data => exact Nat.zero_le _
  | error e =>
    simp only [GetPoint.afterTry]
    split
    · exact Nat.le_refl _
    · exact Nat.zero_le _

def ownSteps (call : Nat) (acts : List ObjectAct) : Nat :=
  acts.countP fun a => decide (a.call? = some call)

theorem ownSteps_append (call : Nat) (acts : List ObjectAct) (a : ObjectAct) :
    ownSteps call (acts ++ [a]) =
      ownSteps call acts + if a.call? = some call then 1 else 0 := by
  unfold ownSteps
  rw [List.countP_append, List.countP_singleton]
  simp only [decide_eq_true_eq]

namespace ObjectSys

section
variable {cfg : Settings} {s3 : S3} {s s' : ObjectSys} {a : ObjectAct} {acts : List ObjectAct}

theorem Advance.weight_lt {key : Text} {x : Option BotoError} {p p' : GetPoint}
    {out : (Nat → Option Bytes) × Nat} (h : Advance s key x p out p') : p'.weight < p.weight := by
  cases h with
  | opened left data hobject => exact Nat.lt_succ_self _
  | missing left msg hobject =>
    have hle := GetPoint.weight_afterTry left (.error (noSuchKey msg))
    simp only [GetPoint.weight] at hle ⊢
    omega
  | refused left e =>
    have hle := GetPoint.weight_afterTry left (.error e)
    simp only [GetPoint.weight] at hle ⊢
    omega
  | read left body r hr => exact Nat.lt_succ_self _
  | cut left body e => exact Nat.lt_succ_self _
  | closed left body r => exact Nat.lt_succ_of_le (GetPoint.weight_afterTry left r)
  | torn left body r e => exact Nat.lt_succ_of_le (GetPoint.weight_afterTry left _)

structure Spent (cfg : Settings) (acts : List ObjectAct) (s : ObjectSys) : Prop where
  running : ∀ call key p, s.calls call = some (key, p) →
    ownSteps call acts + p.weight ≤ 3 * max 1 cfg.retryMaxAttempts
  idle : ∀ call, s.calls call = none → ownSteps call acts = 0

theorem Spent.step (hs : Spent cfg acts s) (h : s.step cfg s3 a = some s') :
    Spent cfg (acts ++ [a]) s' := by
  have others : a.call? = none → ∀ call, ownSteps call (acts ++ [a]) = ownSteps call acts := by
    intro ha call
    rw [ownSteps_append, ha, if_neg (by simp), Nat.add_zero]
  rcases step_cases h with ⟨key, data, rfl, rfl⟩ | ⟨call, key, rfl, hnew, rfl⟩ |
    ⟨call, x, key, p, bodies, next, p', ha, hcall, hadvance, rfl⟩
  · constructor
    · intro call key' p hcall
      rw [others rfl]
      exact hs.running call key' p hcall
    · intro call hcall
      rw [others rfl]
      exact hs.idle call hcall
  · constructor
    · intro other key' p hother
      rw [others rfl]
      rw [setCall_calls, Function.update_apply] at hother
      split_ifs at hother with heq
      · cases hother
        rw [heq, hs.idle call hnew]
        simp only [GetPoint.weight]
        omega
      · exact hs.running other key' p hother
    · intro other hother
      rw [others rfl]
      rw [setCall_calls, Function.update_apply] at hother
      split_ifs at hother
      exact hs.idle other hother
  · have hown : a.call? = some call := by
      rw [ha]
      cases x <;> rfl
    constructor
    · intro other key' q hother
      rw [ownSteps_append, hown]
      rw [setCall_calls, Function.update_apply] at hother
      split_ifs at hother with heq
      · cases hother
        subst heq
        have hbefore := hs.running other key p hcall
        have hless := hadvance.weight_lt
        rw [if_pos rfl]
        omega
      · rw [if_neg (by simpa using Ne.symm heq), Nat.add_zero]
        exact hs.running other key' q hother
    · intro other hother
      rw [setCall_calls, Function.update_apply] at hother
      split_ifs at hother with heq
      rw [ownSteps_append, hown, if_neg (by simpa using Ne.symm heq), Nat.add_zero]
      exact hs.idle other hother

/-- In every reachable state a body is open only in the hands of one call that has yet to close
it, and a call has ended after three steps for each try. -/
theorem bodies_closed (h : Runs.exec (ObjectSys.step cfg s3) {} acts = some s) :
    (∀ body data, s.bodies body = some data → ∃ call key p, s.calls call = some (key, p) ∧
      p.body = some body ∧ ∀ call' key' p', s.calls call' = some (key', p') →
        p'.body = some body → call' = call) ∧
    (∀ call key p, s.calls call = some (key, p) →
      ownSteps call acts + p.weight ≤ 3 * max 1 cfg.retryMaxAttempts) ∧
    ((∀ call key p, s.calls call = some (key, p) → p.weight = 0) → s.bodies = fun _ => none) := by
  obtain ⟨hstreams, hspent⟩ : Streams s ∧ Spent cfg acts s := by
    apply Runs.history (I := fun as s => Streams s ∧ Spent cfg as s) _ _ h
    · refine ⟨.init, ⟨?_, fun _ _ => rfl⟩⟩
      intro call key p hcall
      cases hcall
    · rintro as u b u' _ ⟨hstreams, hspent⟩ hstep
      exact ⟨hstreams.step hstep, hspent.step hstep⟩
  have hheld : ∀ body data, s.bodies body = some data → ∃ call key p,
      s.calls call = some (key, p) ∧ p.body = some body ∧ ∀ call' key' p',
        s.calls call' = some (key', p') → p'.body = some body → call' = call := by
    intro body data hopen
    obtain ⟨call, key, p, hcall, hbody⟩ := hstreams.held body data hopen
    refine ⟨call, key, p, hcall, hbody, ?_⟩
    intro call' key' p' hcall' hbody'
    exact hstreams.alone call call' key key' p p' body hcall hcall' hbody hbody'
  refine ⟨hheld, hspent.running, ?_⟩
  intro hended
  funext body
  apply Option.eq_none_iff_forall_ne_some.mpr
  intro data hopen
  obtain ⟨call, key, p, hcall, hbody, _⟩ := hheld body data hopen
  have hzero := hended call key p hcall
  cases p with
  | fetching left => cases hbody
  | reading left b => cases hzero
  | closing left b r => cases hzero
  | finished outcome => cases hbody

/-! ### What is returned was there -/

/-- At some moment of the run, while the call had yet to be answered, the key held the value. -/
def Seen (cfg : Settings) (s3 : S3) (acts : List ObjectAct) (call : Nat) (key : Text)
    (v : Option Bytes) : Prop :=
  ∃ before after u left, acts = before ++ after ∧
    Runs.exec (ObjectSys.step cfg s3) {} before = some u ∧
    u.calls call = some (key, .fetching left) ∧ u.objects key = v

theorem Seen.append {call : Nat} {key : Text} {v : Option Bytes} (h : Seen cfg s3 acts call key v)
    (a : ObjectAct) : Seen cfg s3 (acts ++ [a]) call key v := by
  obtain ⟨before, after, u, left, rfl, hu, hcall, hv⟩ := h
  exact ⟨before, after ++ [a], u, left, List.append_assoc .., hu, hcall, hv⟩

/-- The error is that of a fault of the call, or the key was not there. -/
def Explained (cfg : Settings) (s3 : S3) (acts : List ObjectAct) (call : Nat) (key : Text)
    (e : BotoError) : Prop :=
  .fail call e ∈ acts ∨ (∃ msg, e = noSuchKey msg) ∧ Seen cfg s3 acts call key none

theorem Explained.append {call : Nat} {key : Text} {e : BotoError}
    (h : Explained cfg s3 acts call key e) (a : ObjectAct) :
    Explained cfg s3 (acts ++ [a]) call key e := by
  rcases h with hfail | ⟨he, hseen⟩
  · exact .inl (List.mem_append_left _ hfail)
  · exact .inr ⟨he, hseen.append a⟩

/-- What a point knows is true. -/
def Sound (cfg : Settings) (s3 : S3) (acts : List ObjectAct) (s : ObjectSys) (call : Nat)
    (key : Text) : GetPoint → Prop
  | .fetching _ => True
  | .reading _ body => ∀ data, s.bodies body = some data → Seen cfg s3 acts call key (some data)
  | .closing _ _ r =>
    (∀ data, r = .ok data → Seen cfg s3 acts call key (some data)) ∧
      ∀ e, r = .error e → Explained cfg s3 acts call key e
  | .finished outcome =>
    (∀ data, outcome = .ok data → Seen cfg s3 acts call key (some data)) ∧
      ∀ x, outcome = .error x →
        ∃ e, x = classifyBotocoreError e ∧ Explained cfg s3 acts call key e

theorem sound_afterTry {call left : Nat} {key : Text} {r : Except BotoError Bytes}
    (hok : ∀ data, r = .ok data → Seen cfg s3 acts call key (some data))
    (herror : ∀ e, r = .error e → Explained cfg s3 acts call key e) :
    Sound cfg s3 acts s call key (.afterTry left r) := by
  cases r with
  | ok data =>
    refine ⟨?_, ?_⟩
    · intro data' hdata
      cases hdata
      exact hok data rfl
    · intro x hx
      cases hx
  | error e =>
    simp only [GetPoint.afterTry]
    split
    · trivial
    · refine ⟨?_, ?_⟩
      · intro data hdata
        cases hdata
      · intro x hx
        cases hx
        exact ⟨e, rfl, herror e rfl⟩

theorem Sound.append {call : Nat} {key : Text} {p : GetPoint} (h : Sound cfg s3 acts s call key p)
    (a : ObjectAct)
    (hbodies : ∀ body data, p.body = some body → s'.bodies body = some data →
      s.bodies body = some data) :
    Sound cfg s3 (acts ++ [a]) s' call key p := by
  cases p with
  | fetching left => trivial
  | reading left body =>
    intro data hdata
    exact (h data (hbodies body data rfl hdata)).append a
  | closing left body r =>
    refine ⟨?_, ?_⟩
    · intro data hr
      exact (h.1 data hr).append a
    · intro e hr
      exact (h.2 e hr).append a
  | finished outcome =>
    refine ⟨?_, ?_⟩
    · intro data hr
      exact (h.1 data hr).append a
    · intro x hx
      obtain ⟨e, he, hexplained⟩ := h.2 x hx
      exact ⟨e, he, hexplained.append a⟩

theorem sound_of_advance {call next : Nat} {key : Text} {x : Option BotoError} {p p' : GetPoint}
    {bodies : Nat → Option Bytes} (hs : Streams s)
    (hexec : Runs.exec (ObjectSys.step cfg s3) {} acts = some s)
    (ha : a = (match x with
      | none => .answer call
      | some e => .fail call e))
    (hcall : s.calls call = some (key, p)) (hsound : Sound cfg s3 acts s call key p)
    (h : Advance s key x p (bodies, next) p') :
    Sound cfg s3 (acts ++ [a]) (({ s with bodies, nextBody := next } : ObjectSys).setCall call key p')
      call key p' := by
  have now : ∀ left, p = .fetching left → Seen cfg s3 (acts ++ [a]) call key (s.objects key) := by
    rintro left rfl
    exact ⟨acts, [a], s, left, rfl, hexec, hcall, rfl⟩
  have failed : ∀ e, x = some e → Explained cfg s3 (acts ++ [a]) call key e := by
    rintro e rfl
    exact .inl (List.mem_append_right _ (by simp [ha]))
  cases h with
  | opened left data hobject =>
    intro data' hdata
    change Function.update s.bodies s.nextBody (some data) s.nextBody = some data' at hdata
    rw [Function.update_self] at hdata
    rw [← hdata, ← hobject]
    exact now left rfl
  | missing left msg hobject =>
    apply sound_afterTry
    · intro data hdata
      cases hdata
    · intro e he
      cases he
      exact .inr ⟨⟨msg, rfl⟩, hobject ▸ now left rfl⟩
  | refused left e =>
    apply sound_afterTry
    · intro data hdata
      cases hdata
    · intro e' he
      cases he
      exact failed e rfl
  | read left body r hr =>
    obtain ⟨data, hopen⟩ := Option.isSome_iff_exists.mp (hs.opened call key _ body hcall rfl)
    obtain rfl := hr data hopen
    refine ⟨?_, ?_⟩
    · intro data' hdata
      cases hdata
      exact (hsound data hopen).append a
    · intro e he
      cases he
  | cut left body e =>
    refine ⟨?_, ?_⟩
    · intro data hdata
      cases hdata
    · intro e' he
      cases he
      exact failed e rfl
  | closed left body r =>
    apply sound_afterTry
    · intro data hr
      exact (hsound.1 data hr).append a
    · intro e hr
      exact (hsound.2 e hr).append a
  | torn left body r e =>
    apply sound_afterTry
    · intro data hdata
      cases hdata
    · intro e' he
      cases he
      exact failed e rfl

theorem bodies_of_advance {next : Nat} {key : Text} {x : Option BotoError} {p p' : GetPoint}
    {bodies : Nat → Option Bytes} (hs : Streams s) (h : Advance s key x p (bodies, next) p')
    {other body : Nat} {key' : Text} {q : GetPoint} {data : Bytes}
    (hother : s.calls other = some (key', q)) (hq : q.body = some body)
    (hopen : bodies body = some data) : s.bodies body = some data := by
  cases h with
  | opened left data' hobject =>
    have hne : body ≠ s.nextBody := by
      rintro rfl
      have hheld := hs.opened other key' q s.nextBody hother hq
      rw [hs.fresh s.nextBody (Nat.le_refl _)] at hheld
      cases hheld
    rwa [Function.update_of_ne hne] at hopen
  | closed left b r =>
    rw [Function.update_apply] at hopen
    split_ifs at hopen
    exact hopen
  | torn left b r e =>
    rw [Function.update_apply] at hopen
    split_ifs at hopen
    exact hopen
  | _ => exact hopen

/-- Whatever is written and read meanwhile, and whatever fails: the bytes that `get_bytes` returns
were stored under the key at some moment of the call, and an error that it raises is that of one
of its own faults, or the key was not there at such a moment. -/
theorem getBytes_regular (h : Runs.exec (ObjectSys.step cfg s3) {} acts = some s) {call : Nat}
    {key : Text} {outcome : Except Exn Bytes}
    (hcall : s.calls call = some (key, .finished outcome)) :
    (∀ data, outcome = .ok data → Seen cfg s3 acts call key (some data)) ∧
    ∀ x, outcome = .error x → ∃ e, x = classifyBotocoreError e ∧
      Explained cfg s3 acts call key e := by
  have hinv : Streams s ∧
      ∀ call key p, s.calls call = some (key, p) → Sound cfg s3 acts s call key p := by
    apply Runs.history (I := fun as s => Streams s ∧
      ∀ call key p, s.calls call = some (key, p) → Sound cfg s3 as s call key p) _ _ h
    · refine ⟨.init, ?_⟩
      intro call key p hcall
      cases hcall
    · rintro as u b u' hexec ⟨hs, hsound⟩ hstep
      refine ⟨hs.step hstep, ?_⟩
      rcases step_cases hstep with ⟨key, data, rfl, rfl⟩ | ⟨call, key, rfl, hnew, rfl⟩ |
        ⟨call, x, key, p, bodies, next, p', ha, hcall, hadvance, rfl⟩
      · intro call key' p hcall
        exact (hsound call key' p hcall).append _ fun _ _ _ hopen => hopen
      · intro other key' p hother
        rw [setCall_calls, Function.update_apply] at hother
        split_ifs at hother with heq
        · cases hother
          trivial
        · exact (hsound other key' p hother).append _ fun _ _ _ hopen => hopen
      · intro other key' q hother
        rw [setCall_calls, Function.update_apply] at hother
        split_ifs at hother with heq
        · cases hother
          subst heq
          exact sound_of_advance hs hexec ha hcall (hsound other key p hcall) hadvance
        · apply (hsound other key' q hother).append
          intro body data hq hopen
          exact bodies_of_advance hs hadvance hother hq hopen
  exact hinv.2 call key _ hcall

/-- The connection breaks during the first read, and the object is written in between. -/
def rereading : List ObjectAct :=
  [.put "k".toList [1], .get 0 "k".toList, .answer 0, .put "k".toList [2],
   .fail 0 (.connection "reset".toList), .answer 0, .answer 0, .answer 0, .answer 0]

def returned (s : ObjectSys) (call : Nat) : Option Bytes :=
  match s.calls call with
  | some (_, .finished (.ok data)) => some data
  | _ => none

theorem finished_of_returned {call : Nat} {data : Bytes} (h : s.returned call = some data) :
    ∃ key, s.calls call = some (key, .finished (.ok data)) := by
  unfold returned at h
  split at h
  · rename_i key data' hcall
    cases h
    exact ⟨key, hcall⟩
  · cases h

theorem rereading_regular : ∃ s key, Runs.exec (ObjectSys.step {} .plain) {} rereading = some s ∧
    s.calls 0 = some (key, .finished (.ok [2])) ∧ Seen {} .plain rereading 0 key (some [2]) := by
  obtain ⟨s, hs, hview⟩ := Runs.exec_of_map (ObjectSys.step {} .plain) {} rereading
    (fun s => s.returned 0) (some [2]) (by decide +kernel)
  obtain ⟨key, hcall⟩ := finished_of_returned hview
  exact ⟨s, key, hs, hcall, (getBytes_regular hs hcall).1 [2] rfl⟩

theorem get_mem_of_calls (h : Runs.exec (ObjectSys.step cfg s3) {} acts = some s) {call : Nat}
    {key : Text} {p : GetPoint} (hcall : s.calls call = some (key, p)) : .get call key ∈ acts := by
  have hinv : ∀ call key p, s.calls call = some (key, p) → .get call key ∈ acts := by
    apply Runs.history (I := fun as s => ∀ call key p, s.calls call = some (key, p) →
      .get call key ∈ as) _ _ h
    · intro call key p hcall
      cases hcall
    · rintro as u b u' _ hinv hstep other key' q hother
      rcases step_cases hstep with ⟨key, data, rfl, rfl⟩ | ⟨call, key, rfl, _, rfl⟩ |
        ⟨call, x, key, p, bodies, next, p', _, hcall, _, rfl⟩
      · exact List.mem_append_left _ (hinv other key' q hother)
      · rw [setCall_calls, Function.update_apply] at hother
        split_ifs at hother with heq
        · cases hother
          exact List.mem_append_right _ (heq ▸ List.mem_singleton_self _)
        · exact List.mem_append_left _ (hinv other key' q hother)
      · rw [setCall_calls, Function.update_apply] at hother
        split_ifs at hother with heq
        · cases hother
          exact List.mem_append_left _ (heq ▸ hinv call _ _ hcall)
        · exact List.mem_append_left _ (hinv other key' q hother)
  exact hinv call key p hcall

/-- The second body is open while it is read; at the end no body is. -/
theorem rereading_closed :
    (∃ s key p, Runs.exec (ObjectSys.step {} .plain) {} (rereading.take 7) = some s ∧
      s.bodies 1 = some [2] ∧ s.calls 0 = some (key, p) ∧ p.body = some 1 ∧
      ownSteps 0 (rereading.take 7) + p.weight ≤ 9) ∧
    ∃ s, Runs.exec (ObjectSys.step {} .plain) {} rereading = some s ∧
      s.bodies = fun _ => none := by
  constructor
  · obtain ⟨s, hs, hview⟩ := Runs.exec_of_map (ObjectSys.step {} .plain) {} (rereading.take 7)
      (fun s => (s.bodies 1, (s.calls 0).bind fun c => c.2.body)) (some [2], some 1)
      (by decide +kernel)
    obtain ⟨hopen, hreads⟩ := Prod.mk.inj hview
    obtain ⟨⟨key, p⟩, hcall, hbody⟩ := Option.bind_eq_some_iff.mp hreads
    obtain ⟨hheld, hspent, _⟩ := bodies_closed hs
    obtain ⟨call, key', p', hcall', hbody', honly⟩ := hheld 1 [2] hopen
    obtain rfl := honly 0 key p hcall hbody
    exact ⟨s, key', p', hs, hopen, hcall', hbody', hspent 0 key' p' hcall'⟩
  · obtain ⟨s, hs, hview⟩ := Runs.exec_of_map (ObjectSys.step {} .plain) {} rereading
      (fun s => (s.calls 0).map fun c => c.2.weight) (some 0) (by decide +kernel)
    refine ⟨s, hs, (bodies_closed hs).2.2 ?_⟩
    intro call key p hcall
    have hmem := get_mem_of_calls hs hcall
    obtain rfl : call = 0 := by
      simp only [rereading, List.mem_cons, List.not_mem_nil, or_false, reduceCtorEq, false_or,
        ObjectAct.get.injEq] at hmem
      exact hmem.1
    rw [hcall] at hview
    exact Option.some.inj hview

end

end ObjectSys

end InferenceEngine
