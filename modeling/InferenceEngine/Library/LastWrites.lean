import Mathlib.Data.List.Induction
import Mathlib.Data.List.Nodup
import Mathlib.Logic.Function.Basic

/-!
# Last write wins

A map that records are written into holds the last record of each key. Over a history of
writers, what is stored at a key is what the latest writer of the key has left there.
-/

namespace LastWrites

set_option autoImplicit false

universe u v w x
variable {K : Type u} {V : Type v} [DecidableEq K]

def writeAll (m : K → Option V) (records : List (K × V)) : K → Option V :=
  records.foldl (fun m record => Function.update m record.1 (some record.2)) m

@[simp] theorem writeAll_nil (m : K → Option V) : writeAll m [] = m := rfl

@[simp] theorem writeAll_cons (m : K → Option V) (record : K × V) (records : List (K × V)) :
    writeAll m (record :: records) =
      writeAll (Function.update m record.1 (some record.2)) records := rfl

theorem writeAll_apply [BEq K] [LawfulBEq K] {records : List (K × V)} (hnodup : (records.map (·.1)).Nodup)
    (m : K → Option V) (k : K) : writeAll m records k = (records.lookup k).or (m k) := by
  induction records generalizing m with
  | nil => rfl
  | cons record records ih =>
    obtain ⟨k', v⟩ := record
    obtain ⟨hnotin, hnodup⟩ := List.nodup_cons.mp hnodup
    rw [writeAll_cons, ih hnodup]
    by_cases hk : k = k'
    · subst hk
      have hnone : records.lookup k = none := by
        rw [List.lookup_eq_none_iff]
        intro p hp
        have hne : k ≠ p.1 := by
          rintro rfl
          exact hnotin (List.mem_map.mpr ⟨p, hp, rfl⟩)
        simpa using hne
      rw [hnone, Function.update_self, List.lookup_cons_self]
      rfl
    · have hbeq : (k == k') = false := by simpa using hk
      rw [Function.update_of_ne hk, List.lookup_cons, hbeq]

theorem writeAll_isSome_of_mem {m : K → Option V} {records : List (K × V)} {record : K × V}
    (h : record ∈ records) : (writeAll m records record.1).isSome = true := by
  have kept : ∀ (records : List (K × V)) (m : K → Option V), (m record.1).isSome = true →
      (writeAll m records record.1).isSome = true := by
    intro records
    induction records with
    | nil => exact fun _ h => h
    | cons first records ih =>
      intro m hm
      rw [writeAll_cons]
      apply ih
      by_cases hk : record.1 = first.1
      · rw [hk, Function.update_self]
        rfl
      · rwa [Function.update_of_ne hk]
  induction records generalizing m with
  | nil => cases h
  | cons first records ih =>
    rw [writeAll_cons]
    rcases List.mem_cons.mp h with rfl | hrest
    · apply kept
      rw [Function.update_self]
      rfl
    · exact ih hrest

theorem writeAll_congr {m m' : K → Option V} {records : List (K × V)}
    (h : ∀ k, (∀ record ∈ records, record.1 ≠ k) → m k = m' k) :
    writeAll m records = writeAll m' records := by
  induction records generalizing m m' with
  | nil => exact funext fun k => h k fun _ hmem => by cases hmem
  | cons first records ih =>
    rw [writeAll_cons, writeAll_cons]
    apply ih
    intro k hk
    by_cases hfirst : k = first.1
    · rw [hfirst, Function.update_self, Function.update_self]
    · rw [Function.update_of_ne hfirst, Function.update_of_ne hfirst]
      apply h
      intro record hmem
      rcases List.mem_cons.mp hmem with rfl | hrest
      · exact fun heq => hfirst heq.symm
      · exact hk record hrest

theorem writeAll_of_not_mem {m : K → Option V} {records : List (K × V)} {k : K}
    (h : ∀ record ∈ records, record.1 ≠ k) : writeAll m records k = m k := by
  induction records generalizing m with
  | nil => rfl
  | cons first records ih =>
    rw [writeAll_cons, ih fun record hmem => h record (List.mem_cons_of_mem _ hmem),
      Function.update_of_ne fun heq => h first List.mem_cons_self heq.symm]

theorem writeAll_eq_some {m : K → Option V} {records : List (K × V)} {k : K} {v : V}
    (h : writeAll m records k = some v) : (k, v) ∈ records ∨ m k = some v := by
  induction records generalizing m with
  | nil => exact .inr h
  | cons first records ih =>
    rw [writeAll_cons] at h
    rcases ih h with hrest | hfirst
    · exact .inl (List.mem_cons_of_mem _ hrest)
    · by_cases hk : k = first.1
      · subst hk
        rw [Function.update_self, Option.some_inj] at hfirst
        subst hfirst
        exact .inl List.mem_cons_self
      · rw [Function.update_of_ne hk] at hfirst
        exact .inr hfirst

/-- Of the records with a key, the last one is kept. -/
theorem writeAll_eq_lookup [BEq K] [LawfulBEq K] (m : K → Option V) (records : List (K × V)) (k : K) :
    writeAll m records k = (records.reverse.lookup k).or (m k) := by
  induction records generalizing m with
  | nil => rfl
  | cons record records ih =>
    obtain ⟨k', v⟩ := record
    rw [writeAll_cons, ih, List.reverse_cons, List.lookup_append, Option.or_assoc]
    congr 1
    by_cases hk : k = k'
    · rw [hk, Function.update_self, List.lookup_cons_self]
      rfl
    · have hbeq : (k == k') = false := by simpa using hk
      rw [Function.update_of_ne hk, List.lookup_cons, hbeq]
      rfl

theorem writeAll_writeAll (m : K → Option V) (records : List (K × V)) :
    writeAll (writeAll m records) records = writeAll m records :=
  writeAll_congr fun _ hk => writeAll_of_not_mem hk

omit [DecidableEq K] in
theorem lookup_mapIdx [BEq K] [LawfulBEq K] {α : Type w} {key : Nat → K} (hkey : Function.Injective key)
    (value : α → V) (xs : List α) (i : Nat) :
    (xs.mapIdx fun i a => (key i, value a)).lookup (key i) = xs[i]?.map value := by
  induction xs generalizing key i with
  | nil => rfl
  | cons a xs ih =>
    rw [List.mapIdx_cons]
    cases i with
    | zero => simp
    | succ i =>
      have hne : (key (i + 1) == key 0) = false := by simpa using fun h => absurd (hkey h) (by omega)
      rw [List.lookup_cons, hne]
      have hshift : Function.Injective fun i => key (i + 1) := fun i j h => by
        have := hkey h
        omega
      exact ih hshift i

omit [DecidableEq K] in
theorem nodup_mapIdx {α : Type w} {key : Nat → K} (hkey : Function.Injective key) (value : α → V)
    (xs : List α) : ((xs.mapIdx fun i a => (key i, value a)).map (·.1)).Nodup := by
  have hkeys : (xs.mapIdx fun i a => (key i, value a)).map (·.1) =
      (List.range xs.length).map key := by
    apply List.ext_getElem
    · simp
    · intro i _ _
      simp
  rw [hkeys]
  exact List.nodup_range.map hkey

/-! ### Histories -/

variable {H : Type w} {S : Type x}

/-- What the latest writer of the key in the history has left there. -/
def latest (wrote : H → K → Option V) (history : List H) (k : K) : Option V :=
  history.reverse.findSome? fun h => wrote h k

omit [DecidableEq K] in
theorem latest_append_singleton (wrote : H → K → Option V) (history : List H) (h : H) (k : K) :
    latest wrote (history ++ [h]) k = (wrote h k).or (latest wrote history k) := by
  simp only [latest, List.reverse_append, List.reverse_singleton, List.singleton_append,
    List.findSome?_cons]
  cases wrote h k <;> rfl

omit [DecidableEq K] in
theorem latest_isSome_iff {wrote : H → K → Option V} {history : List H} {k : K} :
    (latest wrote history k).isSome = true ↔ ∃ h ∈ history, (wrote h k).isSome = true := by
  simp [latest, List.findSome?_isSome_iff]

omit [DecidableEq K] in
/-- A store that every step overwrites where it writes is the latest writes of its history. -/
theorem view_foldl (wrote : H → K → Option V) (step : S → H → S) (view : S → K → Option V)
    (hstep : ∀ s h k, view (step s h) k = (wrote h k).or (view s k)) (s : S) (history : List H)
    (k : K) : view (history.foldl step s) k = (latest wrote history k).or (view s k) := by
  induction history using List.reverseRecOn with
  | nil => rfl
  | append_singleton history h ih =>
    rw [List.foldl_append, List.foldl_cons, List.foldl_nil, hstep, ih, latest_append_singleton,
      Option.or_assoc]

end LastWrites
