import InferenceEngine.Artifacts
import InferenceEngine.Chunking
import Mathlib.Data.List.Dedup

/-!
# API keys

`Settings._split_api_keys` of `app/core/config.py` and `app/api/auth.py`: the keys are cut out of
one string, kept as a set and compared as bytes with what a request presents.
-/

namespace InferenceEngine

set_option autoImplicit false

/-! ### `config.py` -/

/-- What `api_keys` is set to: the string of the environment, or a collection. -/
inductive RawApiKeys where
  | str (s : Text)
  | keys (ks : List Text)

def splitApiKeys : RawApiKeys → List Text
  | .str s => ((s.splitOn ',').filter fun item => strip blanks item ≠ []).map (strip blanks)
  | .keys ks => ks

/-- `frozenset(keys)`, in some order of iteration. -/
structure FrozenSet (keys : List Text) where
  items : List Text
  nodup : items.Nodup
  mem_iff : ∀ k, k ∈ items ↔ k ∈ keys

/-- The set in the order of last occurrence. -/
def FrozenSet.of (keys : List Text) : FrozenSet keys where
  items := keys.dedup
  nodup := List.nodup_dedup keys
  mem_iff _ := List.mem_dedup

/-! ### `auth.py` -/

structure HTTPException where
  statusCode : Nat
  detail : Text
  headers : List (Text × Text)
  deriving DecidableEq

def unauthorized : HTTPException where
  statusCode := 401
  detail := "Invalid or missing API key.".toList
  headers := [("WWW-Authenticate".toList, "X-API-Key".toList)]

/-- `secrets.compare_digest`, on bytes. -/
def compareDigest (a b : List UInt8) : Bool := a = b

/-- `_is_known_key`: every candidate is compared. -/
def isKnownKey (presented : Text) (configured : List Text) : Bool :=
  configured.foldl
    (fun ok candidate => ok || compareDigest (encodeUtf8 presented) (encodeUtf8 candidate)) false

def requireApiKey (configured : List Text) (presented : Option Text) : Except HTTPException Text :=
  if configured = [] then .error unauthorized
  else
    match presented with
    | none => .error unauthorized
    | some p => if isKnownKey p configured then .ok p else .error unauthorized

/-! ### The keys of a string -/

/-- The text is one of the pieces between the commas of the string, trimmed and not empty. -/
def IsApiKey (s key : Text) : Prop :=
  ∃ items, items ≠ [] ∧ (∀ item ∈ items, ',' ∉ item) ∧ [','].intercalate items = s ∧
    ∃ item ∈ items, key = strip blanks item ∧ key ≠ []

theorem not_mem_of_mem_splitOn {c : Char} {s item : Text} (h : item ∈ s.splitOn c) : c ∉ item := by
  induction s generalizing item with
  | nil =>
    rw [List.splitOn_nil] at h
    obtain rfl := List.mem_singleton.mp h
    exact List.not_mem_nil
  | cons b s ih =>
    rw [List.splitOn_cons_eq_if_modifyHead] at h
    split at h
    · rcases List.mem_cons.mp h with rfl | h
      · exact List.not_mem_nil
      · exact ih h
    · rename_i hne
      cases hsplit : s.splitOn c with
      | nil => exact absurd hsplit (List.splitOn_ne_nil c s)
      | cons first rest =>
        rw [hsplit, List.modifyHead_cons] at h
        rw [hsplit] at ih
        rcases List.mem_cons.mp h with rfl | h
        · intro hmem
          rcases List.mem_cons.mp hmem with rfl | hmem
          · simp at hne
          · exact ih List.mem_cons_self hmem
        · exact ih (List.mem_cons_of_mem _ h)

theorem mem_splitApiKeys_iff {s key : Text} : key ∈ splitApiKeys (.str s) ↔ IsApiKey s key := by
  unfold splitApiKeys
  rw [List.mem_map]
  constructor
  · rintro ⟨item, hitem, rfl⟩
    obtain ⟨hsplit, hkept⟩ := List.mem_filter.mp hitem
    refine ⟨s.splitOn ',', List.splitOn_ne_nil _ _, ?_, List.intercalate_splitOn ',', item, hsplit,
      rfl, of_decide_eq_true hkept⟩
    intro other hother
    exact not_mem_of_mem_splitOn hother
  · rintro ⟨items, hne, hcommas, rfl, item, hitem, rfl, hkept⟩
    refine ⟨item, List.mem_filter.mpr ⟨?_, decide_eq_true hkept⟩, rfl⟩
    rwa [List.splitOn_intercalate ',' hcommas hne]

theorem mem_intercalate {c : Char} {sep item : Text} {items : List Text} (hc : c ∈ item)
    (hitem : item ∈ items) : c ∈ sep.intercalate items := by
  induction items with
  | nil => cases hitem
  | cons first rest ih =>
    cases rest with
    | nil =>
      obtain rfl := List.mem_singleton.mp hitem
      rwa [List.intercalate_singleton]
    | cons second rest =>
      rw [List.intercalate_cons_cons]
      rcases List.mem_cons.mp hitem with rfl | hitem
      · exact List.mem_append_left _ (List.mem_append_left _ hc)
      · exact List.mem_append_right _ (ih hitem)

theorem not_isApiKey_of_blank {s key : Text} (h : ∀ c ∈ s, c = ',' ∨ c ∈ blanks) :
    ¬ IsApiKey s key := by
  rintro ⟨items, _, hcommas, rfl, item, hitem, rfl, hkept⟩
  apply hkept
  apply strip_eq_nil_iff.mpr
  intro c hc
  rcases h c (mem_intercalate hc hitem) with rfl | hblank
  · exact absurd hc (hcommas item hitem)
  · exact hblank

/-! ### The comparison -/

theorem compareDigest_encode {a b : Text} :
    compareDigest (encodeUtf8 a) (encodeUtf8 b) = true ↔ a = b := by
  unfold compareDigest
  rw [decide_eq_true_iff]
  exact encodeUtf8_injective.eq_iff

/-- Accumulating over all candidates decides membership. -/
theorem isKnownKey_iff {presented : Text} {configured : List Text} :
    isKnownKey presented configured = true ↔ presented ∈ configured := by
  have hfold : ∀ ok, configured.foldl
      (fun ok candidate => ok || compareDigest (encodeUtf8 presented) (encodeUtf8 candidate)) ok =
        true ↔ ok = true ∨ presented ∈ configured := by
    induction configured with
    | nil => simp
    | cons candidate configured ih =>
      intro ok
      rw [List.foldl_cons, ih, Bool.or_eq_true, compareDigest_encode, List.mem_cons, or_assoc]
  rw [isKnownKey, hfold]
  simp

theorem requireApiKey_known {configured : List Text} {p : Text} (h : p ∈ configured) :
    requireApiKey configured (some p) = .ok p := by
  unfold requireApiKey
  rw [if_neg (List.ne_nil_of_mem h)]
  exact if_pos (isKnownKey_iff.mpr h)

theorem requireApiKey_unknown {configured : List Text} {presented : Option Text}
    (h : ∀ p, presented = some p → p ∉ configured) :
    requireApiKey configured presented = .error unauthorized := by
  unfold requireApiKey
  split
  · rfl
  · cases presented with
    | none => rfl
    | some p => exact if_neg fun hknown => h p rfl (isKnownKey_iff.mp hknown)

/-- Exactly the keys of the string are accepted; everything else is answered with the 401. -/
theorem requireApiKey_exact (s : Text) (configured : FrozenSet (splitApiKeys (.str s)))
    (presented : Option Text) :
    (∀ p, requireApiKey configured.items presented = .ok p ↔ presented = some p ∧ IsApiKey s p) ∧
    (requireApiKey configured.items presented = .error unauthorized ↔
      ¬ ∃ p, presented = some p ∧ IsApiKey s p) ∧
    ((∀ c ∈ s, c = ',' ∨ c ∈ blanks) →
      requireApiKey configured.items presented = .error unauthorized) := by
  have hmem : ∀ p, p ∈ configured.items ↔ IsApiKey s p := by
    intro p
    rw [configured.mem_iff, mem_splitApiKeys_iff]
  have haccepted : ∀ p, presented = some p ∧ IsApiKey s p →
      requireApiKey configured.items presented = .ok p := by
    rintro p ⟨rfl, hkey⟩
    exact requireApiKey_known ((hmem p).mpr hkey)
  have hrefused : (¬ ∃ p, presented = some p ∧ IsApiKey s p) →
      requireApiKey configured.items presented = .error unauthorized := by
    intro hnone
    apply requireApiKey_unknown
    intro p hp hknown
    exact hnone ⟨p, hp, (hmem p).mp hknown⟩
  refine ⟨?_, ⟨?_, hrefused⟩, ?_⟩
  · intro p
    constructor
    · intro hok
      by_cases hkey : ∃ q, presented = some q ∧ IsApiKey s q
      · obtain ⟨q, hq⟩ := hkey
        rw [haccepted q hq] at hok
        cases hok
        exact hq
      · rw [hrefused hkey] at hok
        cases hok
    · exact haccepted p
  · rintro herror ⟨p, hp⟩
    rw [haccepted p hp] at herror
    cases herror
  · intro hblank
    apply hrefused
    rintro ⟨p, _, hkey⟩
    exact not_isApiKey_of_blank hblank hkey

theorem space_mem_blanks : ' ' ∈ blanks := by
  refine List.mem_map.mpr ⟨32, ?_, rfl⟩
  simp

theorem requireApiKey_blank :
    requireApiKey (FrozenSet.of (splitApiKeys (.str " ,".toList))).items (some "k".toList) =
      .error unauthorized := by
  apply (requireApiKey_exact " ,".toList _ _).2.2
  intro c hc
  have hcases : c = ' ' ∨ c = ',' := by simpa using hc
  rcases hcases with rfl | rfl
  · exact .inr space_mem_blanks
  · exact .inl rfl

end InferenceEngine
