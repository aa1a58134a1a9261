import InferenceEngine.Domain
import Mathlib.Data.List.Infix
import Mathlib.Tactic.Ring
import Mathlib.Tactic.IntervalCases

/-!
# The on-wire job pointer

`app/adapters/broker/messages.py`, with the pieces of the Python library it calls: the text
of a UUID, decimal integers, and the parsers `UUID(..)` and `int(..)`. Text is a list of
code points; a field of a stream entry is `bytes` or `str`.
-/

namespace InferenceEngine

set_option autoImplicit false

/-! ### Hexadecimal and decimal text -/

def hexDigit (n : Nat) : Char :=
  if n < 10 then Char.ofNat (48 + n) else Char.ofNat (87 + n)

/-- Value of a digit in base at most 16; upper and lower case letters count alike. -/
def digitValue (c : Char) : Option Nat :=
  if 48 ≤ c.toNat ∧ c.toNat ≤ 57 then some (c.toNat - 48)
  else if 97 ≤ c.toNat ∧ c.toNat ≤ 102 then some (c.toNat - 87)
  else if 65 ≤ c.toNat ∧ c.toNat ≤ 70 then some (c.toNat - 55)
  else none

/-- The last `k` digits of `n` in base `b`, most significant first. -/
def digits (b : Nat) : Nat → Nat → Text
  | 0, _ => []
  | k + 1, n => digits b k (n / b) ++ [hexDigit (n % b)]

/-- Value of a digit string in base `b`, continuing from `acc`. -/
def parseDigits (b : Nat) : Nat → Text → Option Nat
  | acc, [] => some acc
  | acc, c :: cs =>
    match digitValue c with
    | some d => if d < b then parseDigits b (acc * b + d) cs else none
    | none => none

theorem digitValue_hexDigit {d : Nat} (hd : d < 16) : digitValue (hexDigit d) = some d := by
  interval_cases d <;> decide

theorem parseDigits_append (b acc : Nat) (cs ds : Text) :
    parseDigits b acc (cs ++ ds) = (parseDigits b acc cs).bind fun n => parseDigits b n ds := by
  induction cs generalizing acc with
  | nil => rfl
  | cons c cs ih =>
    simp only [List.cons_append, parseDigits]
    cases digitValue c with
    | none => rfl
    | some d =>
      by_cases hd : d < b
      · simp only [hd, ite_true, ih]
      · simp [hd]

theorem parseDigits_digits {b : Nat} (hb : 2 ≤ b) (hb' : b ≤ 16) (k n acc : Nat) :
    parseDigits b acc (digits b k n) = some (acc * b ^ k + n % b ^ k) := by
  induction k generalizing n with
  | zero => simp [digits, parseDigits, Nat.mod_one]
  | succ k ih =>
    have hlt : n % b < b := Nat.mod_lt _ (by omega)
    have hmod : n % b ^ (k + 1) = n / b % b ^ k * b + n % b := by
      rw [pow_succ, mul_comm (b ^ k) b, Nat.mod_mul]
      ring
    simp only [digits, parseDigits_append, ih, Option.bind_some, parseDigits,
      digitValue_hexDigit (show n % b < 16 by omega), hlt, ite_true, hmod]
    congr 1
    ring

theorem digits_append (b j k n : Nat) :
    digits b (j + k) n = digits b j (n / b ^ k) ++ digits b k n := by
  induction k generalizing n with
  | zero => simp [digits]
  | succ k ih =>
    have hdiv : n / b / b ^ k = n / b ^ (k + 1) := by
      rw [Nat.div_div_eq_div_mul, pow_succ, mul_comm]
    rw [← Nat.add_assoc, digits, digits, ih, hdiv, List.append_assoc]

theorem digits_length (b k n : Nat) : (digits b k n).length = k := by
  induction k generalizing n with
  | zero => rfl
  | succ k ih => simp [digits, ih]

theorem mem_digits {b : Nat} (hb : 2 ≤ b) {k n : Nat} {c : Char} (h : c ∈ digits b k n) :
    ∃ d, d < b ∧ c = hexDigit d := by
  induction k generalizing n with
  | zero => simp [digits] at h
  | succ k ih =>
    rcases List.mem_append.mp h with h | h
    · exact ih h
    · exact ⟨n % b, Nat.mod_lt _ (by omega), List.mem_singleton.mp h⟩

/-! ### Integers -/

/-- `str(n)`. -/
def intText (n : Int) : Text :=
  if n < 0 then '-' :: Nat.toDigits 10 n.natAbs else Nat.toDigits 10 n.natAbs

/-- What `str.isspace` counts as a blank. -/
def blanks : Text :=
  ([9, 10, 11, 12, 13, 28, 29, 30, 31, 32, 133, 160, 5760] ++ List.range' 8192 11 ++
    [8232, 8233, 8239, 8287, 12288]).map Char.ofNat

/-- The zeros of Unicode's decimal digits; each begins a run of ten. -/
def decimalZeros : List Nat :=
  [0x30, 0x660, 0x6f0, 0x7c0, 0x966, 0x9e6, 0xa66, 0xae6, 0xb66, 0xbe6, 0xc66, 0xce6, 0xd66, 0xde6,
   0xe50, 0xed0, 0xf20, 0x1040, 0x1090, 0x17e0, 0x1810, 0x1946, 0x19d0, 0x1a80, 0x1a90, 0x1b50,
   0x1bb0, 0x1c40, 0x1c50, 0xa620, 0xa8d0, 0xa900, 0xa9d0, 0xa9f0, 0xaa50, 0xabf0, 0xff10, 0x104a0,
   0x10d30, 0x11066, 0x110f0, 0x11136, 0x111d0, 0x112f0, 0x11450, 0x114d0, 0x11650, 0x116c0,
   0x11730, 0x118e0, 0x11950, 0x11c50, 0x11d50, 0x11da0, 0x11f50, 0x16a60, 0x16ac0, 0x16b50,
   0x1d7ce, 0x1d7d8, 0x1d7e2, 0x1d7ec, 0x1d7f6, 0x1e140, 0x1e2f0, 0x1e4f0, 0x1e950, 0x1fbf0]

def decimalValue (c : Char) : Option Nat :=
  (decimalZeros.find? fun z => decide (z ≤ c.toNat ∧ c.toNat < z + 10)).map fun z => c.toNat - z

/-- `int(..)` takes blanks and decimal digits of any script for the ASCII ones. -/
def toAscii (c : Char) : Char :=
  if c.toNat < 127 then c
  else if c ∈ blanks then ' '
  else ((decimalValue c).map hexDigit).getD '?'

def strip (chars : Text) (s : Text) : Text :=
  ((s.dropWhile fun c => decide (c ∈ chars)).reverse.dropWhile fun c => decide (c ∈ chars)).reverse

/-- Base 16 allows `0x`, and one underscore after it. -/
def dropHexPrefix (ds : Text) : Text :=
  match ds with
  | '0' :: x :: rest =>
    if x = 'x' ∨ x = 'X' then if rest.head? = some '_' then rest.tail else rest else ds
  | _ => ds

/-- The digits of a literal in base `b`, with single underscores allowed between them. -/
def parseNat (b : Nat) (ds : Text) : Option Nat :=
  let ds := if b = 16 then dropHexPrefix ds else ds
  if ds = [] ∨ ds.head? = some '_' ∨ ds.getLast? = some '_' ∨ ['_', '_'] <:+: ds then none
  else parseDigits b 0 (ds.filter (· ≠ '_'))

/-- `int(text, b)` for base 10 or 16. The interpreter's limit on the number of decimal digits is
left out, here and in `intText`. -/
def parseIntBase (b : Nat) (text : Text) : Option Int :=
  match strip " \t\n\r\x0b\x0c".toList (text.map toAscii) with
  | '-' :: ds => (parseNat b ds).map fun n : Nat => -(n : Int)
  | '+' :: ds => (parseNat b ds).map fun n : Nat => (n : Int)
  | ds => (parseNat b ds).map fun n : Nat => (n : Int)

def parseInt (text : Text) : Option Int := parseIntBase 10 text

theorem dropWhile_eq_self {p : Char → Bool} {s : Text} (h : ∀ c ∈ s, p c = false) :
    s.dropWhile p = s := by
  cases s with
  | nil => rfl
  | cons c cs => simp [List.dropWhile, h c List.mem_cons_self]

theorem strip_eq_self {chars s : Text} (h : ∀ c ∈ s, c ∉ chars) : strip chars s = s := by
  have hp : ∀ c ∈ s, decide (c ∈ chars) = false := fun c hc => by simpa using h c hc
  rw [strip, dropWhile_eq_self hp, dropWhile_eq_self (fun c hc => hp c (List.mem_reverse.mp hc)),
    List.reverse_reverse]

/-- A sign or a digit of base 16 at most: what `str` writes for an integer. -/
def IsLiteral (c : Char) : Prop := c = '-' ∨ ∃ d, d < 16 ∧ c = hexDigit d

theorem hexDigit_ne {d : Nat} (hd : d < 16) :
    hexDigit d ≠ '-' ∧ hexDigit d ≠ '+' ∧ hexDigit d ≠ '_' ∧ hexDigit d ≠ 'x' ∧ hexDigit d ≠ 'X' := by
  interval_cases d <;> decide

theorem IsLiteral.plain {c : Char} (h : IsLiteral c) :
    toAscii c = c ∧ c ∉ " \t\n\r\x0b\x0c".toList := by
  rcases h with rfl | ⟨d, hd, rfl⟩
  · decide
  · interval_cases d <;> decide

theorem strip_literal {s : Text} (h : ∀ c ∈ s, IsLiteral c) :
    strip " \t\n\r\x0b\x0c".toList (s.map toAscii) = s := by
  have hmap : s.map toAscii = s := by
    conv_rhs => rw [← List.map_id s]
    apply List.map_congr_left
    intro c hc
    exact (h c hc).plain.1
  rw [hmap]
  exact strip_eq_self fun c hc => (h c hc).plain.2

section
variable {b n : Nat} {ds : Text}

theorem dropHexPrefix_eq_self (hds : ∀ c ∈ ds, ∃ d, d < 16 ∧ c = hexDigit d) :
    dropHexPrefix ds = ds := by
  unfold dropHexPrefix
  split
  · rename_i x rest
    obtain ⟨d, hd, rfl⟩ := hds x (by simp)
    obtain ⟨_, _, _, hx, hX⟩ := hexDigit_ne hd
    rw [if_neg (by simp [hx, hX])]
  · rfl

theorem parseNat_of_digits (hds : ∀ c ∈ ds, ∃ d, d < 16 ∧ c = hexDigit d) (hne : ds ≠ [])
    (hval : parseDigits b 0 ds = some n) : parseNat b ds = some n := by
  have hmem : '_' ∉ ds := by
    intro h
    obtain ⟨d, hd, hc⟩ := hds _ h
    exact (hexDigit_ne hd).2.2.1 hc.symm
  have hfilter : ds.filter (· ≠ '_') = ds := by
    apply List.filter_eq_self.mpr
    intro c hc
    exact decide_eq_true fun h => hmem (h ▸ hc)
  have hguard : ¬ (ds = [] ∨ ds.head? = some '_' ∨ ds.getLast? = some '_' ∨
      ['_', '_'] <:+: ds) := by
    rintro (h | h | h | h)
    · exact hne h
    · exact hmem (List.mem_of_mem_head? h)
    · exact hmem (List.mem_of_mem_getLast? h)
    · exact hmem (h.subset (by simp))
  simp only [parseNat, dropHexPrefix_eq_self hds, ite_self]
  rw [if_neg hguard, hfilter, hval]

theorem parseIntBase_of_digits (hds : ∀ c ∈ ds, ∃ d, d < 16 ∧ c = hexDigit d) (hne : ds ≠ [])
    (hval : parseDigits b 0 ds = some n) : parseIntBase b ds = some (n : Int) := by
  have hparse := parseNat_of_digits hds hne hval
  rw [parseIntBase, strip_literal fun c hc => .inr (hds c hc)]
  split
  · obtain ⟨d, hd, hc⟩ := hds _ List.mem_cons_self
    exact absurd hc.symm (hexDigit_ne hd).1
  · obtain ⟨d, hd, hc⟩ := hds _ List.mem_cons_self
    exact absurd hc.symm (hexDigit_ne hd).2.1
  · rw [hparse, Option.map_some]

theorem parseIntBase_neg (hds : ∀ c ∈ ds, ∃ d, d < 16 ∧ c = hexDigit d) (hne : ds ≠ [])
    (hval : parseDigits b 0 ds = some n) : parseIntBase b ('-' :: ds) = some (-(n : Int)) := by
  have hliteral : ∀ c ∈ '-' :: ds, IsLiteral c := by
    intro c hc
    rcases List.mem_cons.mp hc with hc | hc
    · exact .inl hc
    · exact .inr (hds c hc)
  rw [parseIntBase, strip_literal hliteral]
  simp only [parseNat_of_digits hds hne hval, Option.map_some]

end

theorem digitChar_eq_hexDigit {d : Nat} (hd : d < 10) : Nat.digitChar d = hexDigit d := by
  interval_cases d <;> decide

theorem parseDigits_toDigits (n : Nat) : parseDigits 10 0 (Nat.toDigits 10 n) = some n := by
  induction n using Nat.strong_induction_on with
  | _ n ih =>
    rw [Nat.toDigits_eq_if (by omega)]
    split
    · rename_i h
      simp [parseDigits, digitChar_eq_hexDigit h, digitValue_hexDigit (show n < 16 by omega), h]
    · rename_i h
      have hlt : n % 10 < 10 := Nat.mod_lt _ (by omega)
      simp only [parseDigits_append, ih (n / 10) (by omega), Option.bind_some, parseDigits,
        digitChar_eq_hexDigit hlt, digitValue_hexDigit (show n % 10 < 16 by omega), hlt, if_true]
      congr 1
      omega

theorem mem_toDigits {n : Nat} {c : Char} (h : c ∈ Nat.toDigits 10 n) :
    ∃ d, d < 16 ∧ c = hexDigit d := by
  induction n using Nat.strong_induction_on with
  | _ n ih =>
    rw [Nat.toDigits_eq_if (by omega)] at h
    split at h
    · rename_i hn
      exact ⟨n, by omega, (List.mem_singleton.mp h).trans (digitChar_eq_hexDigit hn)⟩
    · rcases List.mem_append.mp h with h | h
      · exact ih (n / 10) (by omega) h
      · exact ⟨n % 10, by omega, (List.mem_singleton.mp h).trans (digitChar_eq_hexDigit (by omega))⟩

theorem parseInt_intText (n : Int) : parseInt (intText n) = some n := by
  unfold intText parseInt
  split
  · rw [parseIntBase_neg (fun _ => mem_toDigits) Nat.toDigits_ne_nil (parseDigits_toDigits _)]
    congr 1
    omega
  · rw [parseIntBase_of_digits (fun _ => mem_toDigits) Nat.toDigits_ne_nil (parseDigits_toDigits _)]
    congr 1
    omega

theorem intText_injective : Function.Injective intText := by
  intro m n h
  have hparse := congrArg parseInt h
  simpa only [parseInt_intText, Option.some.injEq] using hparse

/-! ### UUIDs -/

/-- `str(uuid)`: 32 hexadecimal digits in groups of 8, 4, 4, 4 and 12. -/
def uuidText (u : UUID) : Text :=
  digits 16 8 (u.toNat / 16 ^ 24) ++ '-' :: digits 16 4 (u.toNat / 16 ^ 20) ++
    '-' :: digits 16 4 (u.toNat / 16 ^ 16) ++ '-' :: digits 16 4 (u.toNat / 16 ^ 12) ++
    '-' :: digits 16 12 u.toNat

/-- `s.replace(pattern, '')`. -/
def removeAll (pattern : Text) : Nat → Text → Text
  | 0, s => s
  | _ + 1, [] => []
  | k + 1, c :: cs =>
    if pattern.isPrefixOf (c :: cs) then removeAll pattern k ((c :: cs).drop pattern.length)
    else c :: removeAll pattern k cs

/-- `UUID(text)`: prefixes, braces and dashes are dropped, and `int(.., 16)` reads the 32 characters
that must remain. -/
def parseUUID (text : Text) : Option UUID :=
  let text := removeAll "urn:".toList text.length text
  let text := removeAll "uuid:".toList text.length text
  let hex := (strip "{}".toList text).filter (· ≠ '-')
  if hex.length = 32 then
    (parseIntBase 16 hex).bind fun n =>
      if 0 ≤ n ∧ n < 2 ^ 128 then some (BitVec.ofNat 128 n.toNat) else none
  else none

theorem mem_uuidText {u : UUID} {c : Char} (h : c ∈ uuidText u) : IsLiteral c := by
  simp only [uuidText, List.mem_append, List.mem_cons] at h
  rcases h with (((h | h | h) | h | h) | h | h) | h | h
  all_goals first | exact .inl h | exact .inr (mem_digits (by omega) h)

theorem removeAll_eq_self {p : Char} (ps : Text) {s : Text} (hs : p ∉ s) (k : Nat) :
    removeAll (p :: ps) k s = s := by
  induction k generalizing s with
  | zero => rfl
  | succ k ih =>
    cases s with
    | nil => rfl
    | cons c cs =>
      obtain ⟨hc, hcs⟩ := not_or.mp fun h => hs (List.mem_cons.mpr h)
      have hpre : (p :: ps).isPrefixOf (c :: cs) = false := by
        simp [List.isPrefixOf, hc]
      simp only [removeAll, hpre, ih hcs, Bool.false_eq_true, if_false]

theorem filter_digits_dash (k n : Nat) :
    (digits 16 k n).filter (· ≠ '-') = digits 16 k n := by
  apply List.filter_eq_self.mpr
  intro c hc
  obtain ⟨d, hd, rfl⟩ := mem_digits (by omega) hc
  exact decide_eq_true (hexDigit_ne hd).1

theorem filter_uuidText (u : UUID) :
    (uuidText u).filter (· ≠ '-') = digits 16 32 u.toNat := by
  have hdash : ∀ s : Text, ('-' :: s).filter (· ≠ '-') = s.filter (· ≠ '-') := by
    intro s
    simp
  have h12 := digits_append 16 20 12 u.toNat
  have h16 := digits_append 16 16 4 (u.toNat / 16 ^ 12)
  have h20 := digits_append 16 12 4 (u.toNat / 16 ^ 16)
  have h24 := digits_append 16 8 4 (u.toNat / 16 ^ 20)
  rw [Nat.div_div_eq_div_mul, ← pow_add] at h16 h20 h24
  rw [h12, h16, h20, h24]
  simp only [uuidText, List.filter_append, hdash, filter_digits_dash]

theorem parseIntBase_digits (u : UUID) :
    parseIntBase 16 (digits 16 32 u.toNat) = some (u.toNat : Int) := by
  have hlt : u.toNat < 16 ^ 32 := u.isLt
  have hval : parseDigits 16 0 (digits 16 32 u.toNat) = some u.toNat := by
    rw [parseDigits_digits (by omega) (by omega), Nat.mod_eq_of_lt hlt, Nat.zero_mul, Nat.zero_add]
  apply parseIntBase_of_digits _ _ hval
  · intro c hc
    exact mem_digits (by omega) hc
  · intro hnil
    have hlength := digits_length 16 32 u.toNat
    rw [hnil] at hlength
    cases hlength

theorem parseUUID_uuidText (u : UUID) : parseUUID (uuidText u) = some u := by
  have hne : ∀ c ∈ uuidText u, c ≠ 'u' ∧ c ≠ '{' ∧ c ≠ '}' := by
    intro c hc
    rcases mem_uuidText hc with rfl | ⟨d, hd, rfl⟩
    · decide
    · interval_cases d <;> decide
  have hu : 'u' ∉ uuidText u := fun h => (hne _ h).1 rfl
  have hurn : removeAll "urn:".toList (uuidText u).length (uuidText u) = uuidText u :=
    removeAll_eq_self "rn:".toList hu _
  have huuid : removeAll "uuid:".toList (uuidText u).length (uuidText u) = uuidText u :=
    removeAll_eq_self "uid:".toList hu _
  have hstrip : strip "{}".toList (uuidText u) = uuidText u := by
    apply strip_eq_self
    intro c hc
    obtain ⟨_, h1, h2⟩ := hne c hc
    simp [h1, h2]
  have hlt : (u.toNat : Int) < 2 ^ 128 := by exact_mod_cast u.isLt
  unfold parseUUID
  dsimp only
  rw [hurn, huuid, hstrip, filter_uuidText, if_pos (digits_length 16 32 _), parseIntBase_digits,
    Option.bind_some, if_pos ⟨Int.natCast_nonneg _, hlt⟩, Int.toNat_natCast, BitVec.ofNat_toNat,
    BitVec.setWidth_eq]

/-! ### Pointers -/

theorem except_bind_ok {α β : Type} {x : Except Exn α} {f : α → Except Exn β} {b : β} :
    x >>= f = .ok b ↔ ∃ a, x = .ok a ∧ f a = .ok b := by
  cases x <;> simp [bind, Except.bind]

/-- A key or value of a stream entry as a client may hand it over. -/
inductive Field where
  | str (s : Text)
  | bytes (bs : List UInt8)
  deriving DecidableEq

/-- The field map of a stream entry, in insertion order. -/
abbrev Fields := List (Field × Field)

/-- `bytes.decode('utf-8')`. -/
def decodeUtf8 (bs : List UInt8) : Option Text :=
  (String.fromUTF8? ⟨bs.toArray⟩).map String.toList

/-- `_as_str`. Nothing reads what a `UnicodeDecodeError` says; its texts are left out. -/
def asStr : Field → Except Exn Text
  | .str s => .ok s
  | .bytes bs =>
    match decodeUtf8 bs with
    | some s => .ok s
    | none => .error (.other [] [])

structure JobMessage where
  jobId : UUID
  jobType : JobType
  attempt : Int
  deriving DecidableEq

namespace JobMessage

def toFields (m : JobMessage) : Fields :=
  [(.str "job_id".toList, .str (uuidText m.jobId)),
   (.str "job_type".toList, .str m.jobType.value),
   (.str "attempt".toList, .str (intText m.attempt))]

/-- The dict comprehension of `from_fields`. -/
def decode : Fields → Except Exn (List (Text × Text))
  | [] => .ok []
  | (k, v) :: rest => do return ((← asStr k), (← asStr v)) :: (← decode rest)

/-- `decoded[key]`: the last pair with that key, or a `KeyError`. -/
def lookup (key : Text) (decoded : List (Text × Text)) : Except Exn Text :=
  match decoded.reverse.find? fun kv => kv.1 = key with
  | some kv => .ok kv.2
  | none =>
    .error (.other ("'".toList ++ key ++ "'".toList) ("KeyError('".toList ++ key ++ "')".toList))

def parseJobType (text : Text) : Option JobType :=
  if text = JobType.ragQuery.value then some .ragQuery
  else if text = JobType.embedDocument.value then some .embedDocument
  else none

/-- A parser raises `ValueError` where it fails. Nothing reads what it says; its texts are left
out. -/
def orRaise {α : Type} : Option α → Except Exn α
  | some a => .ok a
  | none => .error (.other [] [])

def fromFields (fields : Fields) : Except Exn JobMessage := do
  let decoded ← decode fields
  let jobId ← lookup "job_id".toList decoded
  let jobId ← orRaise (parseUUID jobId)
  let jobType ← lookup "job_type".toList decoded
  let jobType ← orRaise (parseJobType jobType)
  let attempt ← lookup "attempt".toList decoded
  let attempt ← orRaise (parseInt attempt)
  return { jobId, jobType, attempt }

def firstDelivery (job : InferenceJob) : JobMessage :=
  { jobId := job.id, jobType := job.jobType, attempt := 1 }

def nextAttempt (m : JobMessage) : JobMessage := { m with attempt := m.attempt + 1 }

theorem parseJobType_value (t : JobType) : parseJobType t.value = some t := by
  cases t <;> decide

theorem decode_texts (kvs : List (Text × Text)) :
    decode (kvs.map fun kv => (.str kv.1, .str kv.2)) = .ok kvs := by
  induction kvs with
  | nil => rfl
  | cons kv kvs ih => simp [decode, asStr, ih, bind, Except.bind, pure, Except.pure]

theorem decode_toFields_append (m : JobMessage) (extra : List (Text × Text)) :
    decode (m.toFields ++ extra.map fun kv => (.str kv.1, .str kv.2)) =
      .ok ([("job_id".toList, uuidText m.jobId), ("job_type".toList, m.jobType.value),
        ("attempt".toList, intText m.attempt)] ++ extra) :=
  decode_texts ([("job_id".toList, uuidText m.jobId), ("job_type".toList, m.jobType.value),
    ("attempt".toList, intText m.attempt)] ++ extra)

theorem lookup_append {key : Text} (kvs : List (Text × Text)) {extra : List (Text × Text)}
    (hextra : ∀ kv ∈ extra, kv.1 ≠ key) : lookup key (kvs ++ extra) = lookup key kvs := by
  have hnone : extra.reverse.find? (fun kv => decide (kv.1 = key)) = none := by
    rw [List.find?_eq_none]
    intro kv hkv heq
    exact hextra kv (List.mem_reverse.mp hkv) (of_decide_eq_true heq)
  unfold lookup
  rw [List.reverse_append, List.find?_append, hnone, Option.none_or]

/-- What a reader sees of a pointer that carries additional text fields after its own three. -/
theorem fromFields_toFields_append (m : JobMessage) (extra : List (Text × Text))
    (hextra : ∀ kv ∈ extra, kv.1 ∉ ["job_id".toList, "job_type".toList, "attempt".toList]) :
    fromFields (m.toFields ++ extra.map fun kv => (.str kv.1, .str kv.2)) = .ok m := by
  have hlookup : ∀ key ∈ ["job_id".toList, "job_type".toList, "attempt".toList],
      lookup key ([("job_id".toList, uuidText m.jobId), ("job_type".toList, m.jobType.value),
          ("attempt".toList, intText m.attempt)] ++ extra) =
        lookup key [("job_id".toList, uuidText m.jobId), ("job_type".toList, m.jobType.value),
          ("attempt".toList, intText m.attempt)] := by
    intro key hkey
    refine lookup_append _ fun kv hkv heq => hextra kv hkv (heq ▸ hkey)
  have hid := (hlookup "job_id".toList List.mem_cons_self).trans
    (show _ = .ok (uuidText m.jobId) from rfl)
  have htype := (hlookup "job_type".toList (by simp)).trans
    (show _ = .ok m.jobType.value from rfl)
  have hattempt := (hlookup "attempt".toList (by simp)).trans
    (show _ = .ok (intText m.attempt) from rfl)
  unfold fromFields
  rw [decode_toFields_append]
  simp only [bind, Except.bind, hid, htype, hattempt, parseUUID_uuidText, parseJobType_value,
    parseInt_intText, orRaise]
  rfl

@[simp] theorem fromFields_toFields (m : JobMessage) : fromFields m.toFields = .ok m := by
  simpa using fromFields_toFields_append m [] (by simp)

end JobMessage

end InferenceEngine
