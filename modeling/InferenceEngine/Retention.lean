import InferenceEngine.Library.Windows
import InferenceEngine.Steps

/-!
# What trimming leaves on the work stream

`MAXLEN ~ n` counts entries; it knows neither what was read nor what is pending. The stream is
a window of the log of all appends that holds its last `maxlen` entries at least.
-/

namespace InferenceEngine

set_option autoImplicit false

open Windows

/-- The work stream is a window of the appends, and what is within it is on the stream. -/
structure Retained (cfg : Settings) (s : Sys) : Prop where
  window : Window StreamEntry.id s.redis.work.lastId s.redis.work.entries
  bound : ∀ g, s.redis.group = some g → g.lastDelivered ≤ s.redis.work.lastId
  capacity : min cfg.maxlen s.redis.work.lastId ≤ s.redis.work.entries.length
  appended : ∀ who e, .appended who e ∈ s.log → 0 < e.id ∧ e.id ≤ s.redis.work.lastId ∧
    (s.redis.work.lastId < e.id + s.redis.work.entries.length → e ∈ s.redis.work.entries)

section
variable {cfg : Settings} {s s' : Sys} {a : Act}

theorem Retained.init : Retained cfg Sys.init where
  window := window_nil _
  bound := by
    intro g hg
    cases hg
  capacity := Nat.min_le_right _ _
  appended := by
    intro who e he
    cases he

theorem Retained.step_bound (hs : Retained cfg s) (h : step cfg s a = some s') :
    ∀ g, s'.redis.group = some g → g.lastDelivered ≤ s'.redis.work.lastId := by
  intro g' hg'
  have hlast : s.redis.work.lastId ≤ s'.redis.work.lastId := by
    rcases step_work h with ⟨hwork, _⟩ | ⟨who, fields, _, hredis, _⟩
    · rw [hwork]
    · rw [hredis]
      exact Nat.le_succ _
  rcases step_group h with hg | ⟨name, c, w, _, _, _, _, _, hredis, _⟩ | ⟨n, name, g, hg, hredis, _⟩
  · rw [hg'] at hg
    obtain ⟨g, hgs, hgl⟩ := Option.map_eq_some_iff.mp hg.symm
    have hgl : g.lastDelivered = g'.lastDelivered := hgl
    have hbound := hs.bound g hgs
    omega
  · rw [hredis] at hg'
    cases hg'
    rw [hredis]
  · rw [hredis] at hg'
    cases hg'
    rw [hredis]
    exact Group.deliver_lastDelivered_le (fun e he => hs.window.num_le he) (hs.bound g hg)

theorem Retained.step (hs : Retained cfg s) (h : step cfg s a = some s') : Retained cfg s' := by
  rcases step_work h with ⟨hwork, es, hlog, hes⟩ | ⟨who, fields, hallowed, hredis, hlog⟩
  · have happended : ∀ who e, .appended who e ∈ s'.log → 0 < e.id ∧ e.id ≤ s.redis.work.lastId ∧
        (s.redis.work.lastId < e.id + s.redis.work.entries.length → e ∈ s.redis.work.entries) := by
      intro who e he
      rw [hlog] at he
      rcases List.mem_append.mp he with he | he
      · exact hs.appended who e he
      · exact absurd he (hes who e)
    exact ⟨hwork ▸ hs.window, hs.step_bound h, hwork ▸ hs.capacity, hwork ▸ happended⟩
  · let e := Sys.nextEntry s.redis.work fields
    have hentries : s'.redis.work.entries = (s.redis.work.entries ++ [e]).drop a.trim := by
      rw [hredis]
      rfl
    have hlast : s'.redis.work.lastId = s.redis.work.lastId + 1 := by
      rw [hredis]
      rfl
    have hpush : Window StreamEntry.id (s.redis.work.lastId + 1) (s.redis.work.entries ++ [e]) :=
      hs.window.push rfl
    have hlen : s'.redis.work.entries.length = s.redis.work.entries.length + 1 - a.trim := by
      rw [hentries, List.length_drop, List.length_append, List.length_singleton]
    have hcap := hs.capacity
    refine ⟨by rw [hentries, hlast]; exact hpush.drop a.trim, hs.step_bound h, ?_, ?_⟩
    · have htrim : a.trim = 0 ∨ cfg.maxlen + a.trim ≤ s.redis.work.entries.length + 1 := by
        simpa [Stream.trimAllowed] using hallowed
      rw [hlen, hlast]
      omega
    · intro who' e' he'
      rw [hlog] at he'
      -- an entry of before keeps its place, the new one is the last
      have hmem : 0 < e'.id ∧ e'.id ≤ s.redis.work.lastId + 1 ∧
          (s.redis.work.lastId + 1 < e'.id + (s.redis.work.entries.length + 1) →
            e' ∈ s.redis.work.entries ++ [e]) := by
        rcases List.mem_append.mp he' with he' | he'
        · obtain ⟨hpos, hle, hin⟩ := hs.appended who' e' he'
          refine ⟨hpos, by omega, fun hlt => ?_⟩
          exact List.mem_append_left _ (hin (by omega))
        · cases List.mem_singleton.mp he'
          exact ⟨Nat.succ_pos _, le_rfl, fun _ => List.mem_append_right _ (List.mem_singleton.mpr rfl)⟩
      rw [hlast]
      refine ⟨hmem.1, hmem.2.1, fun hlt => ?_⟩
      rw [hentries] at hlt ⊢
      have hdrop := List.length_drop (i := a.trim) (l := s.redis.work.entries ++ [e])
      rw [List.length_append, List.length_singleton] at hdrop
      exact hpush.mem_drop (hmem.2.2 (by omega)) hlt

theorem Reaches.retained {acts : List Act} (h : Reaches cfg acts s) : Retained cfg s :=
  Runs.invariant (P := fun _ _ => True) (fun _ _ _ hs _ h => hs.step h) Retained.init
    (.trivial _ _) h

/-- The entry is on the stream: it can be read as new, or claimed. -/
structure Readable (s : Sys) (e : StreamEntry) : Prop where
  onStream : e ∈ s.redis.work.entries
  unread : ∀ g, s.redis.group = some g → g.lastDelivered < e.id → e ∈ g.unread s.redis.work
  claimed : ∀ g name, s.redis.group = some g → (s.claimEntries name g [e.id]).1 = [e]

theorem Retained.find_eq {e : StreamEntry} (hs : Retained cfg s)
    (he : e ∈ s.redis.work.entries) :
    (s.redis.work.entries.find? fun e' => decide (e'.id = e.id)) = some e := by
  cases hf : s.redis.work.entries.find? fun e' => decide (e'.id = e.id) with
  | none =>
    have hne := List.find?_eq_none.mp hf e he
    simp at hne
  | some e' =>
    have hid : e'.id = e.id := by simpa using List.find?_some hf
    rw [hs.window.unique (List.mem_of_find?_eq_some hf) he hid]

theorem Retained.readable {e : StreamEntry} (hs : Retained cfg s)
    (he : e ∈ s.redis.work.entries) : Readable s e where
  onStream := he
  unread := by
    intro g _ hlt
    exact List.mem_filter.mpr ⟨he, by simpa using hlt⟩
  claimed := by
    intro g name _
    simp only [Sys.claimEntries, List.filterMap_cons, hs.find_eq he, List.filterMap_nil]

end

theorem exists_appended {s : Sys} {who : Option Actor} {n : Nat}
    (h : (who, n) ∈ s.log.filterMap Event.append) : ∃ e, .appended who e ∈ s.log ∧ e.id = n := by
  obtain ⟨ev, hev, hn⟩ := List.mem_filterMap.mp h
  cases ev with
  | appended who' e =>
    obtain ⟨rfl, rfl⟩ := Prod.mk.inj (Option.some.inj hn)
    exact ⟨e, hev, rfl⟩
  | _ => cases hn

def published : List Act := boot 0 ++ submitted 7

def submittedTrimming (id : UUID) : List Act :=
  [.submit .ragQuery [] id 0 0, .resume (.submission id) {}, .resume (.submission id) { trim := 1 }]

/-- A second job is published before the first pointer is read, with room for one entry. -/
def trimmed : List Act := boot 0 ++ submitted 7 ++ submittedTrimming 8

end InferenceEngine
