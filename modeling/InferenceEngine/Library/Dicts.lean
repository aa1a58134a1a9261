import InferenceEngine.Library.LastWrites
import Mathlib.Data.List.Sort
import Mathlib.Data.List.Nodup
import Mathlib.Order.Defs.LinearOrder

/-!
# Dictionaries that remember the order of insertion

A dictionary holds each key once, in the order in which the keys came. Writing under a key that
is there replaces the value in place. As a map it keeps the last write of each key; ranking its
entries by a score, ties broken by the key, depends on the map only.
-/

namespace Dicts

set_option autoImplicit false

universe u v w

structure Dict (K : Type u) (V : Type v) where
  items : List (K × V) := []
  nodup : (items.map (·.1)).Nodup := by simp

namespace Dict

variable {K : Type u} {V : Type v} [DecidableEq K]

omit [DecidableEq K] in
theorem ext_items {d d' : Dict K V} (h : d.items = d'.items) : d = d' := by
  obtain ⟨items, _⟩ := d
  obtain ⟨items', _⟩ := d'
  obtain rfl : items = items' := h
  rfl

def keys (d : Dict K V) : List K := d.items.map (·.1)

def get? (d : Dict K V) (k : K) : Option V := d.items.lookup k

/-- Replace the value under a key that is there. -/
def replace (items : List (K × V)) (k : K) (v : V) : List (K × V) :=
  items.map fun item => if item.1 = k then (k, v) else item

theorem replace_keys (items : List (K × V)) (k : K) (v : V) :
    (replace items k v).map (·.1) = items.map (·.1) := by
  unfold replace
  rw [List.map_map]
  apply List.map_congr_left
  intro item _
  by_cases hk : item.1 = k
  · simp [hk]
  · simp [hk]

omit [DecidableEq K] in
theorem nodup_append_fresh {items : List (K × V)} {k : K} {v : V}
    (h : (items.map (·.1)).Nodup) (hk : k ∉ items.map (·.1)) :
    ((items ++ [(k, v)]).map (·.1)).Nodup := by
  rw [List.map_append, List.map_singleton, List.nodup_append]
  refine ⟨h, List.nodup_singleton k, ?_⟩
  rintro a ha b hb rfl
  obtain rfl : a = k := List.mem_singleton.mp hb
  exact hk ha

/-- `d[k] = v`. -/
def set (d : Dict K V) (k : K) (v : V) : Dict K V :=
  if hk : k ∈ d.keys then
    { items := replace d.items k v, nodup := by rw [replace_keys]; exact d.nodup }
  else
    { items := d.items ++ [(k, v)],
      nodup := nodup_append_fresh d.nodup hk }

def setAll (d : Dict K V) (records : List (K × V)) : Dict K V :=
  records.foldl (fun d record => d.set record.1 record.2) d

@[simp] theorem setAll_nil (d : Dict K V) : d.setAll [] = d := rfl

@[simp] theorem setAll_cons (d : Dict K V) (record : K × V) (records : List (K × V)) :
    d.setAll (record :: records) = (d.set record.1 record.2).setAll records := rfl

theorem mem_items_iff {d : Dict K V} {k : K} {v : V} : (k, v) ∈ d.items ↔ d.get? k = some v := by
  obtain ⟨items, hnodup⟩ := d
  unfold get?
  induction items with
  | nil => simp
  | cons item items ih =>
    obtain ⟨k', v'⟩ := item
    obtain ⟨hnotin, hrest⟩ := List.nodup_cons.mp hnodup
    by_cases hk : k = k'
    · subst hk
      have hnot : (k, v) ∉ items := fun h => hnotin (List.mem_map.mpr ⟨(k, v), h, rfl⟩)
      simp [hnot, eq_comm]
    · have hbeq : (k == k') = false := by simpa using hk
      have hih := ih hrest
      simp only [List.mem_cons, Prod.mk.injEq, hk, false_and, false_or, List.lookup_cons, hbeq]
      exact hih

theorem mem_keys_iff {d : Dict K V} {k : K} : k ∈ d.keys ↔ (d.get? k).isSome = true := by
  unfold keys
  rw [List.mem_map, Option.isSome_iff_exists]
  constructor
  · rintro ⟨⟨k', v⟩, hmem, rfl⟩
    exact ⟨v, mem_items_iff.mp hmem⟩
  · rintro ⟨v, hv⟩
    exact ⟨_, mem_items_iff.mpr hv, rfl⟩

theorem keys_set (d : Dict K V) (k : K) (v : V) :
    (d.set k v).keys = if k ∈ d.keys then d.keys else d.keys ++ [k] := by
  unfold set
  split
  · exact replace_keys d.items k v
  · simp [keys]

theorem lookup_replace_self {items : List (K × V)} {k : K} (v : V)
    (hk : k ∈ items.map (·.1)) : (replace items k v).lookup k = some v := by
  induction items with
  | nil => cases hk
  | cons item items ih =>
    obtain ⟨k', v'⟩ := item
    unfold replace
    by_cases hitem : k' = k
    · simp [hitem]
    · have hrest : k ∈ items.map (·.1) :=
        (List.mem_cons.mp hk).resolve_left fun h => hitem h.symm
      have hbeq : (k == k') = false := by simpa using fun h : k = k' => hitem h.symm
      rw [List.map_cons, if_neg hitem, List.lookup_cons, hbeq]
      exact ih hrest

theorem lookup_replace_of_ne {items : List (K × V)} {k k' : K} (v : V) (hne : k' ≠ k) :
    (replace items k v).lookup k' = items.lookup k' := by
  induction items with
  | nil => rfl
  | cons item items ih =>
    obtain ⟨key, value⟩ := item
    unfold replace at ih ⊢
    rw [List.map_cons]
    by_cases hitem : key = k
    · have hbeq : (k' == k) = false := by simpa using hne
      rw [if_pos hitem, List.lookup_cons, List.lookup_cons, hitem, hbeq, ih]
    · rw [if_neg hitem, List.lookup_cons, List.lookup_cons, ih]

theorem get?_set (d : Dict K V) (k : K) (v : V) :
    (d.set k v).get? = Function.update d.get? k (some v) := by
  funext k'
  unfold set
  by_cases hne : k' = k
  · subst hne
    rw [Function.update_self]
    split
    · exact lookup_replace_self v ‹_›
    · rename_i hk
      have hnone : d.items.lookup k' = none :=
        Option.not_isSome_iff_eq_none.mp fun h => hk (mem_keys_iff.mpr h)
      simp [get?, List.lookup_append, hnone]
  · rw [Function.update_of_ne hne]
    split
    · exact lookup_replace_of_ne v hne
    · have hbeq : (k' == k) = false := by simpa using hne
      simp [get?, List.lookup_append, List.lookup_cons, hbeq]

/-- As a map, a dictionary keeps the last write of each key. -/
theorem get?_setAll (d : Dict K V) (records : List (K × V)) :
    (d.setAll records).get? = LastWrites.writeAll d.get? records := by
  induction records generalizing d with
  | nil => rfl
  | cons record records ih =>
    rw [setAll_cons, ih, get?_set, LastWrites.writeAll_cons]

omit [DecidableEq K] in
theorem perm_of_mem_iff {d d' : Dict K V} (h : ∀ item, item ∈ d.items ↔ item ∈ d'.items) :
    d.items.Perm d'.items :=
  (List.perm_ext_iff_of_nodup (.of_map _ d.nodup) (.of_map _ d'.nodup)).mpr h

theorem perm_of_get? {d d' : Dict K V} (h : d.get? = d'.get?) : d.items.Perm d'.items := by
  apply perm_of_mem_iff
  rintro ⟨k, v⟩
  rw [mem_items_iff, mem_items_iff, h]

theorem ext_get? {d d' : Dict K V} (hkeys : d.keys = d'.keys) (h : d.get? = d'.get?) : d = d' := by
  apply ext_items
  have hvalue : ∀ {d : Dict K V}, d.items.map (fun item => (item.1, d.get? item.1)) =
      d.items.map fun item => (item.1, some item.2) := by
    intro d
    apply List.map_congr_left
    rintro ⟨k, v⟩ hmem
    rw [mem_items_iff.mp hmem]
  have hmap : ∀ {d : Dict K V}, d.keys.map (fun k => (k, d.get? k)) =
      d.items.map fun item => (item.1, some item.2) := by
    intro d
    rw [← hvalue, keys, List.map_map]
    rfl
  have hall : d.items.map (fun item => (item.1, some item.2)) =
      d'.items.map fun item => (item.1, some item.2) := by
    rw [← hmap, ← hmap, hkeys, h]
  refine List.map_injective_iff.mpr ?_ hall
  rintro ⟨k, v⟩ ⟨k', v'⟩ heq
  simpa using heq

theorem keys_setAll_of_mem {d : Dict K V} {records : List (K × V)}
    (h : ∀ record ∈ records, record.1 ∈ d.keys) : (d.setAll records).keys = d.keys := by
  induction records generalizing d with
  | nil => rfl
  | cons record records ih =>
    have hset : (d.set record.1 record.2).keys = d.keys := by
      rw [keys_set, if_pos (h record List.mem_cons_self)]
    rw [setAll_cons, ih fun r hr => hset ▸ h r (List.mem_cons_of_mem _ hr), hset]

theorem mem_keys_setAll {d : Dict K V} {records : List (K × V)} {record : K × V}
    (hmem : record ∈ records) : record.1 ∈ (d.setAll records).keys := by
  rw [mem_keys_iff, get?_setAll]
  exact LastWrites.writeAll_isSome_of_mem hmem

theorem setAll_setAll (d : Dict K V) (records : List (K × V)) :
    (d.setAll records).setAll records = d.setAll records := by
  apply ext_get?
  · exact keys_setAll_of_mem fun record hmem => mem_keys_setAll hmem
  · rw [get?_setAll, get?_setAll, LastWrites.writeAll_writeAll]

theorem items_setAll {d : Dict K V} {records : List (K × V)}
    (hfresh : ∀ record ∈ records, record.1 ∉ d.keys) (hnodup : (records.map (·.1)).Nodup) :
    (d.setAll records).items = d.items ++ records := by
  induction records generalizing d with
  | nil => exact (List.append_nil d.items).symm
  | cons record records ih =>
    have hnew := hfresh record List.mem_cons_self
    have hitems : (d.set record.1 record.2).items = d.items ++ [record] := by
      unfold set
      rw [dif_neg hnew]
    rw [List.map_cons, List.nodup_cons] at hnodup
    rw [setAll_cons, ih _ hnodup.2, hitems, List.append_assoc, List.singleton_append]
    intro other hother hmem
    unfold keys at hmem
    rw [hitems, List.map_append, List.mem_append] at hmem
    rcases hmem with hold | hself
    · exact hfresh other (List.mem_cons_of_mem record hother) hold
    · rw [List.map_singleton, List.mem_singleton] at hself
      exact hnodup.1 (hself ▸ List.mem_map_of_mem hother)

theorem set_get? {d : Dict K V} {k : K} {v : V} (h : d.get? k = some v) : d.set k v = d := by
  have hk : k ∈ d.keys := mem_keys_iff.mpr (by rw [h]; rfl)
  apply ext_get?
  · rw [keys_set, if_pos hk]
  · rw [get?_set, ← h, Function.update_eq_self]

end Dict

/-! ### Ranking -/

variable {K : Type u} {V : Type v} {S : Type w} [LinearOrder K] [LinearOrder S]

/-- The entry comes before the other: a higher score, or the same score and a smaller key. -/
def Before (score : V → S) (a b : K × V) : Prop :=
  score b.2 < score a.2 ∨ score b.2 = score a.2 ∧ a.1 ≤ b.1

instance (score : V → S) : DecidableRel (Before (K := K) score) :=
  fun a b => inferInstanceAs (Decidable (score b.2 < score a.2 ∨ _ ∧ _))

/-- The entries by descending score, ties by ascending key. -/
def ranked (score : V → S) (d : Dict K V) : List (K × V) := d.items.insertionSort (Before score)

theorem before_total (score : V → S) (a b : K × V) : Before score a b ∨ Before score b a := by
  rcases lt_trichotomy (score a.2) (score b.2) with h | h | h
  · exact .inr (.inl h)
  · rcases le_total a.1 b.1 with hk | hk
    · exact .inl (.inr ⟨h.symm, hk⟩)
    · exact .inr (.inr ⟨h, hk⟩)
  · exact .inl (.inl h)

theorem before_trans (score : V → S) {a b c : K × V} (hab : Before score a b)
    (hbc : Before score b c) : Before score a c := by
  rcases hab with hab | ⟨hab, hk⟩
  · rcases hbc with hbc | ⟨hbc, _⟩
    · exact .inl (hbc.trans hab)
    · exact .inl (hbc ▸ hab)
  · rcases hbc with hbc | ⟨hbc, hk'⟩
    · exact .inl (hab ▸ hbc)
    · exact .inr ⟨hbc.trans hab, hk.trans hk'⟩

theorem before_antisymm (score : V → S) {a b : K × V} (hab : Before score a b)
    (hba : Before score b a) : a.1 = b.1 := by
  rcases hab with hab | ⟨hab, hk⟩
  · rcases hba with hba | ⟨hba, _⟩
    · exact absurd (hab.trans hba) (lt_irrefl _)
    · exact absurd (hba ▸ hab) (lt_irrefl _)
  · rcases hba with hba | ⟨_, hk'⟩
    · exact absurd (hab ▸ hba) (lt_irrefl _)
    · exact le_antisymm hk hk'

instance (score : V → S) : Std.Total (Before (K := K) score) := ⟨before_total score⟩

instance (score : V → S) : IsTrans (K × V) (Before score) := ⟨fun _ _ _ => before_trans score⟩

theorem pairwise_ranked (score : V → S) (d : Dict K V) :
    (ranked score d).Pairwise (Before score) :=
  List.pairwise_insertionSort _ d.items

theorem perm_ranked (score : V → S) (d : Dict K V) : (ranked score d).Perm d.items :=
  List.perm_insertionSort _ d.items

theorem nodup_ranked (score : V → S) (d : Dict K V) : ((ranked score d).map (·.1)).Nodup :=
  ((perm_ranked score d).map (·.1)).nodup_iff.mpr d.nodup

theorem strict_ranked (score : V → S) (d : Dict K V) :
    (ranked score d).Pairwise fun a b =>
      score b.2 < score a.2 ∨ score b.2 = score a.2 ∧ a.1 < b.1 := by
  have hdistinct : (ranked score d).Pairwise fun a b => a.1 ≠ b.1 :=
    List.pairwise_map.mp (nodup_ranked score d)
  refine ((pairwise_ranked score d).and hdistinct).imp ?_
  rintro a b ⟨hlt | ⟨heq, hle⟩, hne⟩
  · exact .inl hlt
  · exact .inr ⟨heq, lt_of_le_of_ne hle hne⟩

/-- What satisfies a condition stands first, if nothing that does comes after what does not. -/
theorem filter_eq_take {α : Type*} {p : α → Bool} {xs : List α}
    (h : xs.Pairwise fun a b => p b = true → p a = true) : xs.filter p = xs.take (xs.countP p) := by
  induction xs with
  | nil => rfl
  | cons a xs ih =>
    obtain ⟨hhead, htail⟩ := List.pairwise_cons.mp h
    by_cases ha : p a = true
    · rw [List.filter_cons_of_pos ha, List.countP_cons_of_pos ha, List.take_succ_cons, ih htail]
    · have hnone : ∀ b ∈ xs, ¬ p b = true := fun b hb hpb => ha (hhead b hb hpb)
      rw [List.filter_cons_of_neg ha, List.countP_cons_of_neg ha, List.countP_eq_zero.mpr hnone,
        List.take_zero, List.filter_eq_nil_iff.mpr hnone]

theorem filter_ranked [Zero S] (score : V → S) (d : Dict K V) :
    (ranked score d).filter (fun item => decide (0 < score item.2)) =
      (ranked score d).take (d.items.countP fun item => decide (0 < score item.2)) := by
  rw [← (perm_ranked score d).countP_eq]
  apply filter_eq_take
  apply (pairwise_ranked score d).imp
  rintro a b (hlt | ⟨heq, _⟩) hb
  · exact decide_eq_true ((of_decide_eq_true hb).trans hlt)
  · exact heq ▸ hb

theorem score_le_of_left_out {score : V → S} {d : Dict K V} {k : Nat} {a b : K × V}
    (ha : a ∈ (ranked score d).take k) (hb : b ∈ ranked score d)
    (hout : b ∉ (ranked score d).take k) : score b.2 ≤ score a.2 := by
  rw [← List.take_append_drop k (ranked score d)] at hb
  have hdrop := (List.mem_append.mp hb).resolve_left hout
  have hsplit := pairwise_ranked score d
  rw [← List.take_append_drop k (ranked score d)] at hsplit
  rcases (List.pairwise_append.mp hsplit).2.2 a ha b hdrop with hlt | ⟨heq, _⟩
  · exact le_of_lt hlt
  · exact le_of_eq heq

variable [DecidableEq K]

theorem mem_ranked_iff {score : V → S} {d : Dict K V} {k : K} {v : V} :
    (k, v) ∈ ranked score d ↔ d.get? k = some v := by
  rw [(perm_ranked score d).mem_iff, Dict.mem_items_iff]

/-- The ranking depends on the map only, not on the order of insertion. -/
theorem ranked_congr (score : V → S) {d d' : Dict K V} (h : d.get? = d'.get?) :
    ranked score d = ranked score d' := by
  have hperm : (ranked score d).Perm (ranked score d') :=
    (perm_ranked score d).trans ((Dict.perm_of_get? h).trans (perm_ranked score d').symm)
  apply hperm.eq_of_pairwise _ (pairwise_ranked score d) (pairwise_ranked score d')
  rintro ⟨k, v⟩ ⟨k', v'⟩ ha hb hab hba
  obtain rfl : k = k' := before_antisymm score hab hba
  rw [mem_ranked_iff] at ha hb
  rw [h] at ha
  obtain rfl := Option.some.inj (ha.symm.trans hb)
  rfl

end Dicts
