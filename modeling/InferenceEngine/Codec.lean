import InferenceEngine.Artifacts
import InferenceEngine.Producer

/-!
# Pointers in every client mode

A client returns the keys and values of an entry as bytes or as text. Whichever it picks for
each of them, and whatever other fields the entry has, `from_fields` inverts `to_fields`.
-/

namespace InferenceEngine

set_option autoImplicit false

/-- A client returns a text as it is or as its UTF-8 bytes. -/
inductive Field.Encodes : Field → Text → Prop where
  | str (s : Text) : Encodes (.str s) s
  | bytes (s : Text) : Encodes (.bytes (encodeUtf8 s)) s

def Encodes (fields : Fields) (kvs : List (Text × Text)) : Prop :=
  List.Forall₂ (fun field kv => field.1.Encodes kv.1 ∧ field.2.Encodes kv.2) fields kvs

namespace JobMessage

def keys : List Text := ["job_id".toList, "job_type".toList, "attempt".toList]

/-- The three fields, as text. -/
def texts (m : JobMessage) : List (Text × Text) :=
  [("job_id".toList, uuidText m.jobId), ("job_type".toList, m.jobType.value),
   ("attempt".toList, intText m.attempt)]

/-- The fields encode the pointer, in any order and beside any other fields. -/
def Carries (fields : Fields) (m : JobMessage) : Prop :=
  ∃ kvs extra, Encodes fields kvs ∧ kvs.Perm (m.texts ++ extra) ∧ ∀ kv ∈ extra, kv.1 ∉ keys

/-- Encode, decode and count on, once for each client on the way. -/
def relay (clients : List (JobMessage → Fields)) (m : JobMessage) : Except Exn JobMessage :=
  clients.foldlM (fun m client => do return (← fromFields (client m)).nextAttempt) m

/-! ### What is appended -/

theorem carries_of_encodes {fields : Fields} {m : JobMessage} (h : Encodes fields m.texts) :
    Carries fields m := by
  refine ⟨m.texts, [], h, ?_, ?_⟩
  · rw [List.append_nil]
  · intro kv hkv
    cases hkv

theorem carries_deadLetter {fields : Fields} {m : JobMessage} {reason : Text}
    (h : Encodes fields (m.texts ++ [("reason".toList, reason)])) : Carries fields m := by
  refine ⟨_, [("reason".toList, reason)], h, .rfl, ?_⟩
  intro kv hkv
  obtain rfl := List.mem_singleton.mp hkv
  simp [keys]

theorem deadLetterFields_eq (m : JobMessage) (reason : Text) :
    deadLetterFields m reason =
      (m.texts ++ [("reason".toList, reason)]).map fun kv => (.str kv.1, .str kv.2) := rfl

/-! ### What is read -/

theorem asStr_encodes {f : Field} {s : Text} (h : f.Encodes s) : asStr f = .ok s := by
  cases h with
  | str => rfl
  | bytes =>
    unfold asStr
    simp only [decodeUtf8_encodeUtf8]

theorem decode_encodes {fields : Fields} {kvs : List (Text × Text)} (h : Encodes fields kvs) :
    decode fields = .ok kvs := by
  induction h with
  | nil => rfl
  | @cons field kv fields kvs hfield _ ih =>
    obtain ⟨k, v⟩ := field
    unfold decode
    rw [asStr_encodes hfield.1, asStr_encodes hfield.2, ih]
    rfl

theorem lookup_of_unique {kvs : List (Text × Text)} {key v : Text} (hmem : (key, v) ∈ kvs)
    (hunique : ∀ kv ∈ kvs, kv.1 = key → kv.2 = v) : lookup key kvs = .ok v := by
  unfold lookup
  cases hfind : kvs.reverse.find? fun kv => decide (kv.1 = key) with
  | none =>
    have hnot := List.find?_eq_none.mp hfind (key, v) (List.mem_reverse.mpr hmem)
    simp at hnot
  | some kv =>
    have hkey := List.find?_some hfind
    have hkv := List.mem_reverse.mp (List.mem_of_find?_eq_some hfind)
    exact congrArg Except.ok (hunique kv hkv (of_decide_eq_true hkey))

theorem lookup_of_perm {m : JobMessage} {kvs extra : List (Text × Text)} {kv : Text × Text}
    (hperm : kvs.Perm (m.texts ++ extra)) (hextra : ∀ kv ∈ extra, kv.1 ∉ keys)
    (hkv : kv ∈ m.texts) : lookup kv.1 kvs = .ok kv.2 := by
  have hkey : kv.1 ∈ keys := List.mem_map_of_mem hkv
  have hdistinct : (m.texts.map (·.1)).Nodup := by
    show keys.Nodup
    simp [keys]
  apply lookup_of_unique (hperm.mem_iff.mpr (List.mem_append_left _ hkv))
  intro other hother heq
  rcases List.mem_append.mp (hperm.mem_iff.mp hother) with h | h
  · rw [List.inj_on_of_nodup_map hdistinct h hkv heq]
  · exact absurd (heq ▸ hkey) (hextra other h)

theorem fromFields_eq {fields : Fields} {kvs : List (Text × Text)} (h : decode fields = .ok kvs) :
    fromFields fields = do
      let jobId ← lookup "job_id".toList kvs
      let jobId ← orRaise (parseUUID jobId)
      let jobType ← lookup "job_type".toList kvs
      let jobType ← orRaise (parseJobType jobType)
      let attempt ← lookup "attempt".toList kvs
      let attempt ← orRaise (parseInt attempt)
      return { jobId, jobType, attempt } := by
  unfold fromFields
  rw [h]
  rfl

theorem fromFields_carries {fields : Fields} {m : JobMessage} (h : Carries fields m) :
    fromFields fields = .ok m := by
  obtain ⟨kvs, extra, hencodes, hperm, hextra⟩ := h
  have hid : lookup "job_id".toList kvs = .ok (uuidText m.jobId) :=
    lookup_of_perm hperm hextra List.mem_cons_self
  have htype : lookup "job_type".toList kvs = .ok m.jobType.value :=
    @lookup_of_perm m kvs extra (_, m.jobType.value) hperm hextra
      (List.mem_cons_of_mem _ List.mem_cons_self)
  have hattempt : lookup "attempt".toList kvs = .ok (intText m.attempt) :=
    lookup_of_perm hperm hextra (List.mem_cons_of_mem _ (List.mem_cons_of_mem _ List.mem_cons_self))
  rw [fromFields_eq (decode_encodes hencodes), hid, htype, hattempt]
  simp only [bind, Except.bind, orRaise, parseUUID_uuidText, parseJobType_value, parseInt_intText]
  rfl

theorem relay_carries {clients : List (JobMessage → Fields)} (m : JobMessage)
    (h : ∀ client ∈ clients, ∀ m, Carries (client m) m) :
    relay clients m = .ok { m with attempt := m.attempt + clients.length } := by
  induction clients generalizing m with
  | nil =>
    unfold relay
    rw [List.length_nil, Int.natCast_zero, Int.add_zero]
    rfl
  | cons client clients ih =>
    have hfirst := fromFields_carries (h client List.mem_cons_self m)
    have hrest := ih m.nextAttempt fun c hc => h c (List.mem_cons_of_mem _ hc)
    unfold relay at hrest ⊢
    rw [List.foldlM_cons, hfirst]
    refine hrest.trans ?_
    rw [List.length_cons, Int.natCast_succ]
    have hcount : m.attempt + 1 + (clients.length : Int) = m.attempt + (clients.length + 1) := by
      omega
    exact congrArg (fun n => Except.ok { m with attempt := n }) hcount

/-! ### What is refused -/

theorem mem_decode {fields : Fields} {kvs : List (Text × Text)} {kv : Text × Text}
    (h : decode fields = .ok kvs) (hkv : kv ∈ kvs) :
    ∃ field ∈ fields, asStr field.1 = .ok kv.1 ∧ asStr field.2 = .ok kv.2 := by
  induction fields generalizing kvs with
  | nil =>
    cases h
    cases hkv
  | cons field fields ih =>
    obtain ⟨k, hk, h⟩ := except_bind_ok.mp h
    obtain ⟨v, hv, h⟩ := except_bind_ok.mp h
    obtain ⟨rest, hrest, h⟩ := except_bind_ok.mp h
    cases h
    rcases List.mem_cons.mp hkv with rfl | hkv
    · exact ⟨field, List.mem_cons_self, hk, hv⟩
    · obtain ⟨other, hother, htexts⟩ := ih hrest hkv
      exact ⟨other, List.mem_cons_of_mem _ hother, htexts⟩

theorem lookup_ok {kvs : List (Text × Text)} {key v : Text} (h : lookup key kvs = .ok v) :
    (key, v) ∈ kvs := by
  unfold lookup at h
  split at h
  · rename_i kv hfind
    cases h
    have hfound := List.find?_some hfind
    rw [← of_decide_eq_true hfound]
    exact List.mem_reverse.mp (List.mem_of_find?_eq_some hfind)
  · cases h

theorem orRaise_ok {α : Type} {o : Option α} {a : α} (h : orRaise o = .ok a) :
    o = some a := by
  cases o with
  | none => cases h
  | some b =>
    cases h
    rfl

theorem parseJobType_eq_some {text : Text} {t : JobType} (h : parseJobType text = some t) :
    text = t.value := by
  unfold parseJobType at h
  split at h
  · cases h
    assumption
  · split at h
    · cases h
      assumption
    · cases h

theorem fromFields_ok {fields : Fields} {kvs : List (Text × Text)} {m : JobMessage}
    (h : fromFields fields = .ok m) (hdecode : decode fields = .ok kvs) :
    (∀ key ∈ keys, ∃ v, lookup key kvs = .ok v) ∧
      lookup "job_type".toList kvs = .ok m.jobType.value := by
  rw [fromFields_eq hdecode] at h
  obtain ⟨idText, hid, h⟩ := except_bind_ok.mp h
  obtain ⟨jobId, _, h⟩ := except_bind_ok.mp h
  obtain ⟨typeText, htype, h⟩ := except_bind_ok.mp h
  obtain ⟨jobType, hknown, h⟩ := except_bind_ok.mp h
  obtain ⟨attemptText, hattempt, h⟩ := except_bind_ok.mp h
  obtain ⟨attempt, _, h⟩ := except_bind_ok.mp h
  cases h
  obtain rfl := parseJobType_eq_some (orRaise_ok hknown)
  refine ⟨?_, htype⟩
  intro key hkey
  rcases List.mem_cons.mp hkey with rfl | hkey
  · exact ⟨_, hid⟩
  · rcases List.mem_cons.mp hkey with rfl | hkey
    · exact ⟨_, htype⟩
    · obtain rfl := List.mem_singleton.mp hkey
      exact ⟨_, hattempt⟩

theorem error_of_not_ok {α : Type} {x : Except Exn α} (h : ∀ a, x ≠ .ok a) : ∃ e, x = .error e := by
  cases x with
  | error e => exact ⟨e, rfl⟩
  | ok a => exact absurd rfl (h a)

theorem fromFields_missing {fields : Fields} {key : Text} (hkey : key ∈ keys)
    (h : ∀ field ∈ fields, asStr field.1 ≠ .ok key) : ∃ e, fromFields fields = .error e := by
  apply error_of_not_ok
  intro m hm
  obtain ⟨kvs, hdecode, _⟩ := except_bind_ok.mp hm
  obtain ⟨v, hv⟩ := (fromFields_ok hm hdecode).1 key hkey
  obtain ⟨field, hfield, hname, _⟩ := mem_decode hdecode (lookup_ok hv)
  exact h field hfield hname

theorem fromFields_unknown {fields : Fields} {kvs : List (Text × Text)} {text : Text}
    (hdecode : decode fields = .ok kvs) (htext : lookup "job_type".toList kvs = .ok text)
    (hunknown : ∀ t : JobType, text ≠ t.value) : ∃ e, fromFields fields = .error e := by
  apply error_of_not_ok
  intro m hm
  have hvalue := (fromFields_ok hm hdecode).2
  rw [htext] at hvalue
  exact hunknown m.jobType (Except.ok.inj hvalue)

/-- Decoding inverts encoding in every client mode, through any number of hops, and what is not
a pointer is refused. -/
theorem codec_roundTrip :
    (∀ m fields, Carries fields m → fromFields fields = .ok m) ∧
    (∀ m reason fields, Encodes fields m.texts ∨
        Encodes fields (m.texts ++ [("reason".toList, reason)]) → fromFields fields = .ok m) ∧
    (∀ m clients, (∀ client ∈ clients, ∀ m, Carries (client m) m) →
      relay clients m = .ok { m with attempt := m.attempt + clients.length }) ∧
    (∀ key ∈ keys, ∀ fields : Fields, (∀ field ∈ fields, asStr field.1 ≠ .ok key) →
      ∃ e, fromFields fields = .error e) ∧
    ∀ fields kvs text, decode fields = .ok kvs → lookup "job_type".toList kvs = .ok text →
      (∀ t : JobType, text ≠ t.value) → ∃ e, fromFields fields = .error e := by
  refine ⟨?_, ?_, ?_, ?_, ?_⟩
  · intro m fields h
    exact fromFields_carries h
  · intro m reason fields h
    rcases h with h | h
    · exact fromFields_carries (carries_of_encodes h)
    · exact fromFields_carries (carries_deadLetter h)
  · intro m clients h
    exact relay_carries m h
  · intro key hkey fields h
    exact fromFields_missing hkey h
  · intro fields kvs text hdecode htext hunknown
    exact fromFields_unknown hdecode htext hunknown

/-- A client that returns keys as bytes and values as text. -/
def bytesKeys (m : JobMessage) : Fields :=
  m.texts.map fun kv => (.bytes (encodeUtf8 kv.1), .str kv.2)

theorem carries_bytesKeys (m : JobMessage) : Carries (bytesKeys m) m := by
  apply carries_of_encodes
  unfold bytesKeys Encodes
  rw [List.forall₂_map_left_iff, List.forall₂_same]
  intro kv _
  exact ⟨.bytes _, .str _⟩

theorem encodes_str (kvs : List (Text × Text)) :
    Encodes (kvs.map fun kv => (.str kv.1, .str kv.2)) kvs := by
  unfold Encodes
  rw [List.forall₂_map_left_iff, List.forall₂_same]
  intro kv _
  exact ⟨.str _, .str _⟩

def thirdAttempt : JobMessage := { jobId := 7, jobType := .ragQuery, attempt := 3 }

theorem codec_roundTrip_thirdAttempt :
    fromFields (bytesKeys thirdAttempt) = .ok thirdAttempt ∧
    fromFields (deadLetterFields thirdAttempt "boom".toList) = .ok thirdAttempt ∧
    relay [bytesKeys, toFields] thirdAttempt =
      .ok { thirdAttempt with attempt := thirdAttempt.attempt + 2 } ∧
    (∃ e, fromFields (thirdAttempt.toFields.take 2) = .error e) ∧
    ∃ e, fromFields [(.str "job_type".toList, .str "summary".toList)] = .error e := by
  obtain ⟨hcarries, hwriters, hrelay, hmissing, hunknown⟩ := codec_roundTrip
  refine ⟨hcarries _ _ (carries_bytesKeys _), ?_, ?_, ?_, ?_⟩
  · apply hwriters thirdAttempt "boom".toList
    rw [deadLetterFields_eq]
    exact .inr (encodes_str _)
  · apply hrelay
    intro client hclient m
    rcases List.mem_cons.mp hclient with rfl | hclient
    · exact carries_bytesKeys m
    · obtain rfl := List.mem_singleton.mp hclient
      exact carries_of_encodes (encodes_str m.texts)
  · apply hmissing "attempt".toList (by simp [keys])
    intro field hfield
    rcases List.mem_cons.mp hfield with rfl | hfield
    · simp [asStr]
    · obtain rfl := List.mem_singleton.mp hfield
      simp [asStr]
  · have hdecode := decode_encodes (encodes_str [("job_type".toList, "summary".toList)])
    refine hunknown _ _ "summary".toList hdecode ?_ ?_
    · apply lookup_of_unique (List.mem_singleton_self _)
      intro kv hkv _
      rw [List.mem_singleton.mp hkv]
    · intro t heq
      have hvalue := parseJobType_value t
      rw [← heq] at hvalue
      revert hvalue
      cases t <;> decide

end JobMessage

end InferenceEngine
