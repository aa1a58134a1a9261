import InferenceEngine.Messages
import Mathlib.Data.Char
import Mathlib.Data.List.Lex
import Mathlib.Data.List.Sort

/-!
# Artifacts and their keys

What the pipelines of `app/services/pipelines.py` use of the Python library: `str` of a JSON
value, `json.dumps(.., indent=2, sort_keys=True)` and UTF-8; and the key of a job's artifact.
How a float and a quoted string are printed is a parameter.
-/

namespace InferenceEngine

set_option autoImplicit false

/-- `repr` of a float and of a string. -/
structure Reprs where
  float : Rat → Text
  str : Text → Text

/-- `sep.join(texts)`. -/
def joinText (sep : Text) : List Text → Text
  | [] => []
  | [t] => t
  | t :: ts => t ++ sep ++ joinText sep ts

namespace Json

/-- `type(value).__name__`. -/
def typeName : Json → Text
  | .null => "NoneType".toList
  | .bool _ => "bool".toList
  | .int _ => "int".toList
  | .float _ => "float".toList
  | .str _ => "str".toList
  | .list _ => "list".toList
  | .dict _ => "dict".toList

mutual
def repr (r : Reprs) : Json → Text
  | .null => "None".toList
  | .bool b => if b then "True".toList else "False".toList
  | .int n => intText n
  | .float q => r.float q
  | .str s => r.str s
  | .list xs => "[".toList ++ joinText ", ".toList (reprItems r xs) ++ "]".toList
  | .dict kvs => "\x7b".toList ++ joinText ", ".toList (reprPairs r kvs) ++ "\x7d".toList

def reprItems (r : Reprs) : List Json → List Text
  | [] => []
  | x :: xs => repr r x :: reprItems r xs

def reprPairs (r : Reprs) : List (Text × Json) → List Text
  | [] => []
  | (k, x) :: kvs => (r.str k ++ ": ".toList ++ repr r x) :: reprPairs r kvs
end

/-- `str(value)`. -/
def text (r : Reprs) : Json → Text
  | .str s => s
  | x => repr r x

end Json

/-! ### `json.dumps` -/

def unicodeEscape (n : Nat) : Text := "\\u".toList ++ digits 16 4 n

/-- One character of a JSON string, in ASCII. -/
def escapeChar (c : Char) : Text :=
  if c = '"' then "\\\"".toList
  else if c = '\\' then "\\\\".toList
  else if c = '\n' then "\\n".toList
  else if c = '\r' then "\\r".toList
  else if c = '\t' then "\\t".toList
  else if c = '\x08' then "\\b".toList
  else if c = '\x0c' then "\\f".toList
  else if 32 ≤ c.toNat ∧ c.toNat ≤ 126 then [c]
  else if c.toNat < 65536 then unicodeEscape c.toNat
  else unicodeEscape (55296 + (c.toNat - 65536) / 1024) ++
    unicodeEscape (56320 + (c.toNat - 65536) % 1024)

def dumpsStr (s : Text) : Text := "\"".toList ++ s.flatMap escapeChar ++ "\"".toList

def lineBreak (level : Nat) : Text := '\n' :: List.replicate (2 * level) ' '

/-- A bracketed list of items, each on its own line. -/
def dumpsBlock (level : Nat) (left right : Text) (items : List Text) : Text :=
  match items with
  | [] => left ++ right
  | items => left ++ lineBreak (level + 1) ++
    joinText (",".toList ++ lineBreak (level + 1)) items ++ lineBreak level ++ right

def sortKeys (kvs : List (Text × Text)) : List (Text × Text) :=
  kvs.insertionSort fun a b => a.1 ≤ b.1

mutual
/-- `json.dumps(value, indent=2, sort_keys=True)`, at a level of indentation. -/
def dumpsAt (r : Reprs) (level : Nat) : Json → Text
  | .null => "null".toList
  | .bool b => if b then "true".toList else "false".toList
  | .int n => intText n
  | .float q => r.float q
  | .str s => dumpsStr s
  | .list xs => dumpsBlock level "[".toList "]".toList (dumpsItems r (level + 1) xs)
  | .dict kvs => dumpsBlock level "\x7b".toList "\x7d".toList
    ((sortKeys (dumpsPairs r (level + 1) kvs)).map fun kv => dumpsStr kv.1 ++ ": ".toList ++ kv.2)

def dumpsItems (r : Reprs) (level : Nat) : List Json → List Text
  | [] => []
  | x :: xs => dumpsAt r level x :: dumpsItems r level xs

def dumpsPairs (r : Reprs) (level : Nat) : List (Text × Json) → List (Text × Text)
  | [] => []
  | (k, x) :: kvs => (k, dumpsAt r level x) :: dumpsPairs r level kvs
end

def dumps (r : Reprs) (x : Json) : Text := dumpsAt r 0 x

/-- `text.encode("utf-8")`. -/
def encodeUtf8 (t : Text) : List UInt8 := t.flatMap String.utf8EncodeChar

theorem decodeUtf8_encodeUtf8 (t : Text) : decodeUtf8 (encodeUtf8 t) = some t := by
  have hbytes : (⟨(encodeUtf8 t).toArray⟩ : ByteArray) = (String.ofList t).toByteArray := by
    rw [String.toByteArray_ofList]
    apply ByteArray.ext
    exact List.data_toByteArray.symm
  unfold decodeUtf8 String.fromUTF8?
  rw [hbytes, dif_pos (String.ofList t).isValidUTF8]
  exact congrArg some String.toList_ofList

theorem encodeUtf8_injective : Function.Injective encodeUtf8 := by
  intro s t h
  have hdecode := congrArg decodeUtf8 h
  simpa only [decodeUtf8_encodeUtf8, Option.some.injEq] using hdecode

example : dumps ⟨fun _ => [], id⟩ (.dict [("b".toList, .list [.int 1, .null]),
      ("a".toList, .str "é\n".toList)]) =
    "\x7b\n  \"a\": \"\\u00e9\\n\",\n  \"b\": [\n    1,\n    null\n  ]\n\x7d".toList := by
  decide +kernel

/-! ### Keys -/

def resultKey (job : InferenceJob) (suffix : Text) : Text :=
  "results/".toList ++ job.jobType.value ++ "/".toList ++ uuidText job.id ++ suffix

/-- The suffix each pipeline gives its artifact. -/
def artifactSuffix : JobType → Text
  | .ragQuery => ".json".toList
  | .embedDocument => "-manifest.json".toList

def artifactKey (job : InferenceJob) : Text := resultKey job (artifactSuffix job.jobType)

/-- The reference `put_bytes` returns. -/
def s3Ref (bucket key : Text) : Text := "s3://".toList ++ bucket ++ "/".toList ++ key

/-- The bytes are a JSON object that names the job. -/
def IsArtifact (r : Reprs) (id : UUID) (data : List UInt8) : Prop :=
  ∃ kvs, data = encodeUtf8 (dumps r (.dict kvs)) ∧
    kvs.lookup "job_id".toList = some (.str (uuidText id))

theorem uuidText_injective {u v : UUID} (h : uuidText u = uuidText v) : u = v := by
  have hparse := congrArg parseUUID h
  simpa only [parseUUID_uuidText, Option.some.injEq] using hparse

theorem uuidText_length (u : UUID) : (uuidText u).length = 36 := by
  simp [uuidText, digits_length]

theorem JobType.value_append_inj {ty ty' : JobType} {t t' : Text}
    (h : ty.value ++ t = ty'.value ++ t') : ty = ty' := by
  have hrag : JobType.ragQuery.value.head? = some 'r' := by decide
  have hembed : JobType.embedDocument.value.head? = some 'e' := by decide
  have hhead := congrArg List.head? h
  simp only [List.head?_append] at hhead
  cases ty <;> cases ty' <;> first | rfl | simp [hrag, hembed] at hhead

theorem resultKey_eq (job : InferenceJob) (suffix : Text) : resultKey job suffix =
    "results/".toList ++ (job.jobType.value ++ ("/".toList ++ (uuidText job.id ++ suffix))) := by
  simp only [← List.append_assoc]
  exact Eq.refl (resultKey job suffix)

/-- Jobs with different ids have different keys, whatever their types. -/
theorem artifactKey_injective {job job' : InferenceJob} (h : artifactKey job = artifactKey job') :
    job.id = job'.id := by
  simp only [artifactKey, resultKey_eq, List.append_right_inj] at h
  have hty := JobType.value_append_inj h
  rw [hty, List.append_right_inj, List.append_right_inj, List.append_left_inj] at h
  exact uuidText_injective h

theorem artifactKey_length_le (job : InferenceJob) : (artifactKey job).length ≤ 73 := by
  have hprefix : "results/".toList.length = 8 := by decide
  have hslash : "/".toList.length = 1 := by decide
  have htype : ∀ ty : JobType, ty.value.length + (artifactSuffix ty).length ≤ 28 := by
    intro ty
    cases ty <;> decide
  have hty := htype job.jobType
  simp only [artifactKey, resultKey_eq, List.length_append, uuidText_length, hprefix, hslash]
  omega

end InferenceEngine
