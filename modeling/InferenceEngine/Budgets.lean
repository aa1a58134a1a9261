import InferenceEngine.Adapters
import InferenceEngine.Admission
import InferenceEngine.Completion

/-!
# Two retry budgets, one inside the other

Each port call of a run is tried as often as the adapters may, and the run is repeated as often as
the broker may. What the operations of the SDKs were answered decides how many of them there are
and how the job ends.
-/

namespace InferenceEngine

set_option autoImplicit false

open Programs

variable {V : Type}

/-! ### What an operation was answered -/

def Issued.raised (x : Issued V) : Option Exn :=
  match x.1, x.2 with
  | o, r => raisedBy (Except.mapError o.op.classify r)

def Issued.isTransient (x : Issued V) : Bool := x.raised.any Exn.isTransient

def Issued.isPermanent (x : Issued V) : Bool := x.raised.any fun e => !e.isTransient

def Issued.isAt (site : Site) (x : Issued V) : Bool := x.1.site = site

/-- `limit` transient errors in a row at one site. -/
def Exhausted (limit : Nat) (site : Site) (ops : List (Issued V)) : Prop :=
  ∃ xs, xs <:+: ops ∧ xs.length = limit ∧ ∀ x ∈ xs, x.isAt site = true ∧ x.isTransient = true

/-- A success comes with as many vectors as there were texts. -/
def SdkOp.WellShaped : (op : SdkOp V) → Except op.Error op.Result → Prop
  | .featureExtraction texts, r => ∀ x, r = .ok x →
    ∃ rows, ndarrayToLists texts.length x = .ok rows ∧ rows.length = texts.length
  | _, _ => True

inductive RunEnds (limit : Nat) (ops : List (Issued V)) : Except Exn Text → Prop
  | success (ref : Text) (hperm : ∀ x ∈ ops, x.isPermanent = false)
      (hleft : ∀ site, ¬ Exhausted limit site ops) : RunEnds limit ops (.ok ref)
  | transient (msg : Text) (hperm : ∀ x ∈ ops, x.isPermanent = false) (site : Site)
      (h : Exhausted limit site ops) : RunEnds limit ops (.error (.transient msg))
  | permanent (msg : Text) (before : List (Issued V)) (last : Issued V)
      (hops : ops = before ++ [last]) (hlast : last.isPermanent = true)
      (hperm : ∀ x ∈ before, x.isPermanent = false) : RunEnds limit ops (.error (.permanent msg))

/-! ### The operations of one call -/

/-- The tries of one call: those that were retried, and the last one. -/
structure Tries (limit : Nat) (site : Site) (retried : List (Issued V)) (last : Issued V) :
    Prop where
  site : ∀ x ∈ retried ++ [last], x.isAt site = true
  failed : ∀ x ∈ retried, x.isTransient = true
  within : retried.length < limit
  stop : last.isTransient = true → retried.length + 1 = limit

section
variable {cfg : EngineSettings} {site : Site}

theorem transient_or_permanent {p : Prop} {_ : Decidable p} (a b : Text) :
    ∃ msg, (if p then Exn.transient a else .permanent b) = .transient msg ∨
      (if p then Exn.transient a else .permanent b) = .permanent msg := by
  split
  · exact ⟨a, .inl rfl⟩
  · exact ⟨b, .inr rfl⟩

theorem classifyHfError_cases (e : HfError) :
    ∃ msg, classifyHfError e = .transient msg ∨ classifyHfError e = .permanent msg := by
  cases e with
  | inferenceTimeout text => exact ⟨_, .inl rfl⟩
  | http status text =>
    cases status with
    | none => exact ⟨_, .inl rfl⟩
    | some status => exact transient_or_permanent _ _
  | other repr => exact ⟨_, .inr rfl⟩

theorem classifyPineconeError_cases (e : PineconeError) :
    ∃ msg, classifyPineconeError e = .transient msg ∨ classifyPineconeError e = .permanent msg := by
  unfold classifyPineconeError
  cases e.status with
  | some status => exact transient_or_permanent _ _
  | none => exact transient_or_permanent _ _

theorem classifyDdgsError_cases (e : DdgsError) :
    ∃ msg, classifyDdgsError e = .transient msg ∨ classifyDdgsError e = .permanent msg := by
  cases e with
  | ratelimit text | timeout text => exact ⟨_, .inl rfl⟩
  | ddgs text | other repr => exact ⟨_, .inr rfl⟩

theorem classifyBotocoreError_cases (e : BotoError) :
    ∃ msg, classifyBotocoreError e = .transient msg ∨ classifyBotocoreError e = .permanent msg := by
  cases e with
  | connection text => exact ⟨_, .inl rfl⟩
  | client status code message => exact transient_or_permanent _ _
  | botocore text | unexpected repr => exact ⟨_, .inr rfl⟩

/-- The adapters raise the two kinds of upstream errors only. -/
theorem SdkOp.classify_cases (op : SdkOp V) (e : op.Error) :
    ∃ msg, op.classify e = .transient msg ∨ op.classify e = .permanent msg := by
  cases op with
  | text query n => exact classifyDdgsError_cases e
  | featureExtraction texts => exact classifyHfError_cases e
  | upsert vectors ns => exact classifyPineconeError_cases e
  | query vector topK ns => exact classifyPineconeError_cases e
  | textGeneration prompt n => exact classifyHfError_cases e
  | putObject key data contentType => exact classifyBotocoreError_cases e

theorem Issued.raised_cases {x : Issued V} {e : Exn} (h : x.raised = some e) :
    ∃ msg, e = .transient msg ∨ e = .permanent msg := by
  obtain ⟨o, r⟩ := x
  rcases r with e' | a
  · obtain rfl : o.op.classify e' = e := Option.some.inj h
    exact o.op.classify_cases e'
  · cases h

theorem Issued.isTransient_iff {x : Issued V} :
    x.isTransient = true ↔ ∃ msg, x.raised = some (.transient msg) := by
  unfold isTransient
  rw [Option.any_eq_true]
  constructor
  · rintro ⟨e, he, htransient⟩
    cases e with
    | transient msg => exact ⟨msg, he⟩
    | _ => cases htransient
  · rintro ⟨msg, he⟩
    exact ⟨_, he, rfl⟩

theorem Issued.isPermanent_iff {x : Issued V} :
    x.isPermanent = true ↔ ∃ msg, x.raised = some (.permanent msg) := by
  unfold isPermanent
  rw [Option.any_eq_true]
  constructor
  · rintro ⟨e, he, hpermanent⟩
    obtain ⟨msg, rfl | rfl⟩ := raised_cases he
    · cases hpermanent
    · exact ⟨msg, he⟩
  · rintro ⟨msg, he⟩
    exact ⟨_, he, rfl⟩

theorem tries_of_call {o : Operation V} {tr : List (Issued V)} {r : Except Exn o.op.Result}
    (h : (o.call cfg).Traces tr r) :
    ∃ retried last, tr = retried ++ [last] ∧
      Tries (max 1 cfg.retryMaxAttempts) o.site retried last ∧
      ∃ reply, last = ⟨o, reply⟩ ∧ r = Except.mapError o.op.classify reply := by
  obtain ⟨retried, last, hretried, rfl, rfl⟩ := Program.traces_retry h
  have hlimit : cfg.retryMaxAttempts - 1 + 1 = max 1 cfg.retryMaxAttempts := by omega
  rw [hlimit] at hretried
  refine ⟨retried.map (Sigma.mk o), ⟨o, last⟩, List.map_append .., ⟨?_, ?_, ?_, ?_⟩, last, rfl, rfl⟩
  · intro x hx
    have hmem : x ∈ (retried ++ [last]).map (Sigma.mk o) := by
      rw [List.map_append]
      exact hx
    obtain ⟨y, _, rfl⟩ := List.mem_map.mp hmem
    exact decide_eq_true rfl
  · intro x hx
    obtain ⟨y, hy, rfl⟩ := List.mem_map.mp hx
    obtain ⟨e, he, hagain⟩ := hretried.failed y hy
    simp only [Issued.isTransient, Issued.raised, he, raisedBy, Option.any_some, hagain]
  · rw [List.length_map]
    exact hretried.within
  · intro hlast
    rw [List.length_map]
    obtain ⟨e, he, hagain⟩ := (Option.any_eq_true _ _).mp hlast
    exact hretried.stop e (raisedBy_eq_some.mp he) hagain

/-- The tries of a call, whose last reply is what the pipeline is told. -/
theorem tries_of_adapter {call : Call V} {tr : List (Issued V)} {r : call.Reply}
    (h : (adapter cfg site call).Traces tr r) (hshaped : ∀ x ∈ tr, x.1.op.WellShaped x.2) :
    ∃ retried last, tr = retried ++ [last] ∧ call.shaped r = true ∧ call.raised r = last.raised ∧
      Tries (if call.isPut then 1 else max 1 cfg.retryMaxAttempts) site retried last := by
  cases call with
  | search query n =>
    obtain ⟨tr₁, a, _, rfl, hcall, hpure⟩ := Program.traces_bind.mp h
    cases hpure
    obtain ⟨retried, last, rfl, htries, reply, rfl, rfl⟩ := tries_of_call hcall
    refine ⟨retried, _, List.append_nil _, rfl, ?_, htries⟩
    cases reply <;> rfl
  | embed texts =>
    obtain ⟨tr₁, a, _, rfl, hcall, hpure⟩ := Program.traces_bind.mp h
    cases hpure
    obtain ⟨retried, last, rfl, htries, reply, rfl, rfl⟩ := tries_of_call hcall
    have hlast := hshaped _ (List.mem_append_left _ (List.mem_append_right _ List.mem_cons_self))
    rcases reply with e | x
    · exact ⟨retried, _, List.append_nil _, rfl, rfl, htries⟩
    · obtain ⟨rows, hrows, hlength⟩ := hlast x rfl
      have hreply : Except.bind (.ok x) (ndarrayToLists texts.length) = .ok rows := hrows
      refine ⟨retried, _, List.append_nil _, ?_, ?_, htries⟩
      · show Call.shaped (.embed texts) (Except.bind (.ok x) (ndarrayToLists texts.length)) = true
        rw [hreply]
        exact decide_eq_true hlength
      · show raisedBy (Except.bind (.ok x) (ndarrayToLists texts.length)) = none
        rw [hreply]
        rfl
  | query vector topK ns =>
    obtain ⟨tr₁, a, _, rfl, hcall, hpure⟩ := Program.traces_bind.mp h
    cases hpure
    obtain ⟨retried, last, rfl, htries, reply, rfl, rfl⟩ := tries_of_call hcall
    refine ⟨retried, _, List.append_nil _, rfl, ?_, htries⟩
    cases reply <;> rfl
  | upsert records ns | complete prompt n =>
    obtain ⟨retried, last, rfl, htries, reply, rfl, rfl⟩ := tries_of_call h
    exact ⟨retried, _, rfl, rfl, rfl, htries⟩
  | putObject key data contentType =>
    obtain ⟨reply, rest, rfl, hpure⟩ := Program.traces_await.mp h
    cases hpure
    refine ⟨[], ⟨⟨site, .putObject key data contentType⟩, r⟩, rfl, rfl, ?_, ⟨?_, nofun, Nat.one_pos,
      fun _ => rfl⟩⟩
    · cases r <;> rfl
    · intro x hx
      obtain rfl := List.mem_singleton.mp hx
      exact decide_eq_true rfl

end

/-! ### The operations of one run -/

def Issued.failsAt (site : Site) (x : Issued V) : Bool := x.isAt site && x.isTransient

inductive Standing (limit : Nat) (b : Told) (ops : List (Issued V)) : Prop
  | going (hfailed : b.failed = none) (hperm : ∀ x ∈ ops, x.isPermanent = false)
      (hfew : ∀ site, ops.countP (Issued.failsAt site) < limit)
  | exhausted (msg : Text) (hfailed : b.failed = some (.transient msg)) (hputs : b.puts = 0)
      (hperm : ∀ x ∈ ops, x.isPermanent = false) (site : Site) (h : Exhausted limit site ops)
  | retrying (msg : Text) (hfailed : b.failed = some (.transient msg)) (hputs : 0 < b.puts)
      (hperm : ∀ x ∈ ops, x.isPermanent = false)
      (hfew : ∀ site, site ≠ .put → ops.countP (Issued.failsAt site) < limit)
      (xs : List (Issued V)) (hxs : xs <:+ ops) (hlength : xs.length = b.puts)
      (hall : ∀ x ∈ xs, x.isAt .put = true ∧ x.isTransient = true)
  | stopped (msg : Text) (hfailed : b.failed = some (.permanent msg)) (before : List (Issued V))
      (last : Issued V) (hops : ops = before ++ [last]) (hlast : last.isPermanent = true)
      (hperm : ∀ x ∈ before, x.isPermanent = false)

/-- What the operations of a run so far are. -/
structure Spent (limit : Nat) (g : Progress) (b : Told) (ops : List (Issued V)) : Prop where
  shaped : b.shaped = true
  count : ∀ site, ops.countP (Issued.isAt site) ≤ limit
  later : ∀ site : Site, g.rank < site.rank → ops.countP (Issued.isAt site) = 0
  puts : ops.countP (Issued.isAt .put) = b.puts
  standing : Standing limit b ops

section
variable {limit : Nat} {g : Progress} {b : Told} {ops : List (Issued V)} {site : Site}
  {retried : List (Issued V)} {last : Issued V}

theorem Spent.init (hpos : 0 < limit) : Spent limit {} {} ([] : List (Issued V)) where
  shaped := rfl
  count := fun _ => Nat.zero_le _
  later := fun _ _ => rfl
  puts := rfl
  standing := .going rfl (fun _ hx => nomatch hx) fun _ => hpos

theorem Issued.isAt_unique {site' : Site} {x : Issued V} (h : x.isAt site = true) :
    x.isAt site' = decide (site = site') := by
  have hsite : x.1.site = site := of_decide_eq_true h
  rw [isAt, hsite]

theorem Issued.failsAt_le (site : Site) (xs : List (Issued V)) :
    xs.countP (failsAt site) ≤ xs.countP (isAt site) :=
  List.countP_mono_left fun _ _ h => (Bool.and_eq_true_iff.mp h).1

theorem Issued.not_permanent {x : Issued V} (h : x.isTransient = true) : x.isPermanent = false := by
  obtain ⟨msg, hmsg⟩ := isTransient_iff.mp h
  simp only [isPermanent, hmsg, Option.any_some]
  rfl

theorem Tries.countP_isAt (h : Tries limit site retried last) (site' : Site) :
    (retried ++ [last]).countP (Issued.isAt site') =
      if site = site' then retried.length + 1 else 0 := by
  split
  · rename_i heq
    subst heq
    rw [List.countP_eq_length.mpr h.site, List.length_append, List.length_singleton]
  · rename_i hne
    refine List.countP_eq_zero.mpr fun x hx => ?_
    rw [Issued.isAt_unique (h.site x hx), decide_eq_false hne]
    exact Bool.false_ne_true

theorem Tries.countP_failsAt (h : Tries limit site retried last) (hlast : last.isTransient = false)
    (site' : Site) :
    (retried ++ [last]).countP (Issued.failsAt site') ≤
      if site = site' then retried.length else 0 := by
  rw [List.countP_append]
  have hnone : [last].countP (Issued.failsAt site') = 0 := by
    simp [Issued.failsAt, hlast]
  rw [hnone, Nat.add_zero]
  split
  · exact List.countP_le_length
  · rename_i hne
    refine Nat.le_of_eq (List.countP_eq_zero.mpr fun x hx => ?_)
    rw [Issued.failsAt, Issued.isAt_unique (h.site x (List.mem_append_left _ hx)), decide_eq_false hne]
    exact Bool.false_ne_true

theorem Call.siteOf_put {call : Call V} (h : call.isPut = true) (g : Progress) :
    g.siteOf call = .put := by
  cases call with
  | putObject key data contentType => rfl
  | _ => cases h

theorem Call.siteOf_ne_put {call : Call V} (h : call.isPut = false) (g : Progress) :
    g.siteOf call ≠ .put := by
  cases call with
  | putObject key data contentType => cases h
  | embed texts => rcases g.siteOf_embed_cases (V := V) texts with hs | hs <;> rw [hs] <;> simp
  | _ => simp [Progress.siteOf]

theorem Spent.call_count {call : Call V} (hs : Spent limit g b ops) (hput : call.isPut = false)
    (hfollows : g.Follows call) (htries : Tries limit (g.siteOf call) retried last)
    (r : call.Reply) :
    (∀ site, (ops ++ (retried ++ [last])).countP (Issued.isAt site) ≤ limit) ∧
    (∀ site : Site, (g.next call r).rank < site.rank →
      (ops ++ (retried ++ [last])).countP (Issued.isAt site) = 0) := by
  have hlt := hfollows.lt (Call.siteOf_ne_put hput g)
  constructor
  · intro site
    rw [List.countP_append, htries.countP_isAt]
    split
    · rename_i heq
      have hwithin := htries.within
      rw [hs.later site (heq ▸ hlt)]
      omega
    · exact hs.count site
  · intro site hsite
    rw [Progress.next_rank] at hsite
    rw [List.countP_append, htries.countP_isAt, hs.later site (hlt.trans hsite), if_neg]
    rintro heq
    rw [heq] at hsite
    exact Nat.lt_irrefl _ hsite

theorem Spent.call {call : Call V} {r : call.Reply} (hs : Spent limit g b ops)
    (hput : call.isPut = false) (hfollows : g.Follows call)
    (hallowed : (straight V limit).allowed b call) (hshaped : call.shaped r = true)
    (hraised : call.raised r = last.raised) (htries : Tries limit (g.siteOf call) retried last) :
    Spent limit (g.next call r) ((straight V limit).next call r b)
      (ops ++ (retried ++ [last])) := by
  obtain ⟨hfailed, hputs⟩ : b.failed = none ∧ b.puts = 0 := by
    rcases hallowed hs.shaped with hnone | ⟨hput', _⟩
    · exact hnone
    · cases hput.symm.trans hput'
  obtain ⟨hperm, hfew⟩ : (∀ x ∈ ops, x.isPermanent = false) ∧
      ∀ site, ops.countP (Issued.failsAt site) < limit := by
    cases hs.standing with
    | going _ hperm hfew => exact ⟨hperm, hfew⟩
    | exhausted msg h | retrying msg h | stopped msg h => cases hfailed.symm.trans h
  have hnext : (straight V limit).next call r b = { shaped := true, failed := last.raised, puts := 0 } := by
    simp [straight, hs.shaped, hshaped, hraised, hput, hputs]
  have hsite := Call.siteOf_ne_put hput g
  have hretried : ∀ x ∈ ops ++ retried, x.isPermanent = false := by
    intro x hx
    rcases List.mem_append.mp hx with hx | hx
    · exact hperm x hx
    · exact Issued.not_permanent (htries.failed x hx)
  have hall : last.isPermanent = false → ∀ x ∈ ops ++ (retried ++ [last]), x.isPermanent = false := by
    intro hlast x hx
    rw [← List.append_assoc] at hx
    rcases List.mem_append.mp hx with hx | hx
    · exact hretried x hx
    · rw [List.mem_singleton.mp hx]
      exact hlast
  obtain ⟨hcount, hlater⟩ := hs.call_count hput hfollows htries r
  rw [hnext]
  refine ⟨rfl, hcount, hlater, ?_, ?_⟩
  · rw [List.countP_append, htries.countP_isAt, if_neg hsite, hs.puts, hputs]
  · cases hlast : last.raised with
    | none =>
      have hnot : last.isTransient = false := by simp [Issued.isTransient, hlast]
      refine .going rfl (hall (by simp [Issued.isPermanent, hlast])) fun site => ?_
      rw [List.countP_append]
      have hle := htries.countP_failsAt hnot site
      have hwithin := htries.within
      split at hle
      · rename_i heq
        have hzero := hs.later site (heq ▸ hfollows.lt hsite)
        have hfails := Issued.failsAt_le site ops
        omega
      · have hbefore := hfew site
        omega
    | some e =>
      obtain ⟨msg, rfl | rfl⟩ := Issued.raised_cases hlast
      · have htransient : last.isTransient = true := Issued.isTransient_iff.mpr ⟨msg, hlast⟩
        refine .exhausted msg rfl rfl (hall (Issued.not_permanent htransient)) (g.siteOf call) ?_
        refine ⟨retried ++ [last], ⟨ops, [], List.append_nil _⟩, ?_, fun x hx => ⟨htries.site x hx, ?_⟩⟩
        · rw [List.length_append, List.length_singleton]
          exact htries.stop htransient
        · rcases List.mem_append.mp hx with hx | hx
          · exact htries.failed x hx
          · rw [List.mem_singleton.mp hx]
            exact htransient
      · refine .stopped msg rfl (ops ++ retried) last (List.append_assoc ..).symm ?_ hretried
        exact Issued.isPermanent_iff.mpr ⟨msg, hlast⟩

/-- The puts so far have failed transiently, one after the other. -/
theorem Spent.before_put {call : Call V} (hs : Spent limit g b ops)
    (hallowed : (straight V limit).allowed b call) (hpos : 0 < limit) :
    b.puts < limit ∧ (∀ x ∈ ops, x.isPermanent = false) ∧
    (∀ site, site ≠ .put → ops.countP (Issued.failsAt site) < limit) ∧
    ∃ xs, xs <:+ ops ∧ xs.length = b.puts ∧
      ∀ x ∈ xs, x.isAt .put = true ∧ x.isTransient = true := by
  rcases hallowed hs.shaped with ⟨hfailed, hputs⟩ | ⟨_, hputs, hlt, msg, hfailed⟩
  · cases hs.standing with
    | going _ hperm hfew =>
      exact ⟨hputs ▸ hpos, hperm, fun site _ => hfew site, [], List.nil_suffix, hputs.symm, nofun⟩
    | exhausted msg h | retrying msg h | stopped msg h => cases hfailed.symm.trans h
  · cases hs.standing with
    | retrying _ _ _ hperm hfew xs hxs hlength hall =>
      exact ⟨hlt, hperm, hfew, xs, hxs, hlength, hall⟩
    | exhausted _ _ hzero => exact absurd hzero (Nat.ne_of_gt hputs)
    | going h => cases hfailed.symm.trans h
    | stopped msg' h => cases hfailed.symm.trans h

theorem Spent.put {call : Call V} {r : call.Reply} (hs : Spent limit g b ops)
    (hput : call.isPut = true) (hallowed : (straight V limit).allowed b call) (hpos : 0 < limit)
    (hshaped : call.shaped r = true) (hraised : call.raised r = last.raised)
    (hat : last.isAt .put = true) :
    Spent limit (g.next call r) ((straight V limit).next call r b) (ops ++ [last]) := by
  obtain ⟨hlt, hperm, hfew, xs, hxs, hlength, hall⟩ := hs.before_put hallowed hpos
  have hnext : (straight V limit).next call r b =
      { shaped := true, failed := last.raised, puts := b.puts + 1 } := by
    simp [straight, hs.shaped, hshaped, hraised, hput]
  have hone : ∀ site, [last].countP (Issued.isAt site) = if site = .put then 1 else 0 := by
    intro site
    rw [List.countP_singleton, Issued.isAt_unique hat]
    simp [eq_comm]
  have hpermanent : last.isPermanent = false → ∀ x ∈ ops ++ [last], x.isPermanent = false := by
    intro hlast x hx
    rcases List.mem_append.mp hx with hx | hx
    · exact hperm x hx
    · rw [List.mem_singleton.mp hx]
      exact hlast
  have hputs : (ops ++ [last]).countP (Issued.isAt .put) = b.puts + 1 := by
    rw [List.countP_append, hone, if_pos rfl, hs.puts]
  have hothers : ∀ site, site ≠ .put →
      (ops ++ [last]).countP (Issued.failsAt site) = ops.countP (Issued.failsAt site) := by
    intro site hne
    have hzero := hone site
    rw [if_neg hne] at hzero
    have hle := Issued.failsAt_le site [last]
    rw [List.countP_append]
    omega
  rw [hnext]
  refine ⟨rfl, fun site => ?_, fun site hsite => ?_, hputs, ?_⟩
  · by_cases hsite : site = .put
    · rw [hsite, hputs]
      exact hlt
    · rw [List.countP_append, hone, if_neg hsite, Nat.add_zero]
      exact hs.count site
  · rw [Progress.next_rank, Call.siteOf_put hput] at hsite
    exact absurd hsite (Nat.not_lt.mpr site.rank_le)
  · cases hlast : last.raised with
    | none =>
      refine .going rfl (hpermanent (by simp [Issued.isPermanent, hlast])) fun site => ?_
      by_cases hsite : site = .put
      · have hnot : [last].countP (Issued.failsAt site) = 0 := by
          simp [Issued.failsAt, Issued.isTransient, hlast]
        have hfails := Issued.failsAt_le site ops
        rw [hsite, hs.puts] at hfails
        rw [List.countP_append, hnot, hsite]
        omega
      · rw [hothers site hsite]
        exact hfew site hsite
    | some e =>
      obtain ⟨msg, rfl | rfl⟩ := Issued.raised_cases hlast
      · have htransient : last.isTransient = true := Issued.isTransient_iff.mpr ⟨msg, hlast⟩
        refine .retrying msg rfl (Nat.succ_pos _) (hpermanent (Issued.not_permanent htransient))
          (fun site hsite => (hothers site hsite).symm ▸ hfew site hsite) (xs ++ [last]) ?_ ?_ ?_
        · obtain ⟨front, rfl⟩ := hxs
          exact ⟨front, (List.append_assoc ..).symm⟩
        · rw [List.length_append, List.length_singleton, hlength]
        · intro x hx
          rcases List.mem_append.mp hx with hx | hx
          · exact hall x hx
          · rw [List.mem_singleton.mp hx]
            exact ⟨hat, htransient⟩
      · exact .stopped msg rfl ops last rfl (Issued.isPermanent_iff.mpr ⟨msg, hlast⟩) hperm

theorem Spent.runEnds {o : Except Exn Text} (hs : Spent limit g b ops) (hends : Ends limit o b) :
    RunEnds limit ops o := by
  obtain ⟨hraised, htries⟩ := hends hs.shaped
  cases hs.standing with
  | going hfailed hperm hfew =>
    obtain ⟨ref, rfl⟩ := raisedBy_eq_none.mp (hraised.symm.trans hfailed)
    refine .success ref hperm ?_
    rintro site ⟨xs, hxs, rfl, hall⟩
    have hcount : xs.countP (Issued.failsAt site) = xs.length :=
      List.countP_eq_length.mpr fun x hx => Bool.and_eq_true_iff.mpr (hall x hx)
    have hle : xs.countP (Issued.failsAt site) ≤ ops.countP (Issued.failsAt site) :=
      hxs.sublist.countP_le
    have hlt := hfew site
    omega
  | exhausted msg hfailed _ hperm site h =>
    obtain rfl := raisedBy_eq_some.mp (hraised.symm.trans hfailed)
    exact .transient msg hperm site h
  | retrying msg hfailed hputs hperm _ xs hxs hlength hall =>
    obtain rfl := raisedBy_eq_some.mp (hraised.symm.trans hfailed)
    exact .transient msg hperm .put ⟨xs, hxs.isInfix, hlength.trans (htries msg hfailed hputs), hall⟩
  | stopped msg hfailed before last hops hlast hperm =>
    obtain rfl := raisedBy_eq_some.mp (hraised.symm.trans hfailed)
    exact .permanent msg before last hops hlast hperm

theorem runEnds_of_traces {cfg : EngineSettings} {job : InferenceJob} {p : PipelineRun V Text}
    {Q : Except Exn Text → Progress → Prop} {tr : List (Issued V)} {o : Except Exn Text}
    (horder : p.Obeys (callOrder V cfg job) g Q)
    (hstraight : p.Obeys (straight V (max 1 cfg.retryMaxAttempts)) b
      (Ends (max 1 cfg.retryMaxAttempts)))
    (hs : Spent (max 1 cfg.retryMaxAttempts) g b ops) (htr : (adapted cfg g p).Traces tr o)
    (hshaped : ∀ x ∈ tr, x.1.op.WellShaped x.2) :
    RunEnds (max 1 cfg.retryMaxAttempts) (ops ++ tr) o ∧
      ∀ site, (ops ++ tr).countP (Issued.isAt site) ≤ max 1 cfg.retryMaxAttempts := by
  induction p generalizing g b ops tr with
  | pure o' =>
    cases htr
    rw [List.append_nil]
    exact ⟨hs.runEnds hstraight, hs.count⟩
  | await call k ih =>
    obtain ⟨tr₁, r, tr₂, rfl, hadapter, hrest⟩ := Program.traces_bind.mp htr
    obtain ⟨retried, last, rfl, hcall, hraised, htries⟩ :=
      tries_of_adapter hadapter fun x hx => hshaped x (List.mem_append_left _ hx)
    have hpos : 0 < max 1 cfg.retryMaxAttempts := lt_max_of_lt_left Nat.one_pos
    have hnext : Spent (max 1 cfg.retryMaxAttempts) (g.next call r)
        ((straight V (max 1 cfg.retryMaxAttempts)).next call r b) (ops ++ (retried ++ [last])) := by
      cases hput : call.isPut with
      | false =>
        rw [hput, if_neg Bool.false_ne_true] at htries
        exact hs.call hput horder.1.1 hstraight.1 hcall hraised htries
      | true =>
        rw [hput, if_pos rfl, Call.siteOf_put hput] at htries
        obtain rfl : retried = [] := List.length_eq_zero_iff.mp (Nat.lt_one_iff.mp htries.within)
        exact hs.put hput hstraight.1 hpos hcall hraised (htries.site last (List.mem_singleton_self _))
    rw [← List.append_assoc]
    exact ih r (horder.2 r) (hstraight.2 r) hnext hrest fun x hx => hshaped x (List.mem_append_right _ hx)

end

end InferenceEngine
