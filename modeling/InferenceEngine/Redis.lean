import InferenceEngine.Messages

/-!
# Redis streams

The commands the broker issues, on one work stream with one consumer group and on the
dead-letter stream. Ids are the positions of the appends. `XADD` with `MAXLEN ~ n` may cut
off any number of the oldest entries while `n` remain; `XAUTOCLAIM` takes any of the pending
entries, since idle times are not modelled, and drops those that are no longer on the stream.
-/

namespace InferenceEngine

set_option autoImplicit false

abbrev ConsumerName := Nat

structure StreamEntry where
  id : Nat
  fields : Fields

structure Stream where
  entries : List StreamEntry := []
  lastId : Nat := 0

/-- An entry of the pending list: its owner and `times_delivered`. -/
structure PendingEntry where
  id : Nat
  consumer : ConsumerName
  timesDelivered : Nat
  deriving DecidableEq

structure Group where
  lastDelivered : Nat
  pending : List PendingEntry := []

structure Redis where
  work : Stream := {}
  dlq : Stream := {}
  group : Option Group := none

namespace Stream

/-- `XADD`, cutting off the `trim` oldest entries. -/
def add (s : Stream) (fields : Fields) (trim : Nat) : Stream where
  entries := (s.entries ++ [{ id := s.lastId + 1, fields : StreamEntry }]).drop trim
  lastId := s.lastId + 1

/-- What `MAXLEN ~ maxlen` lets an append cut off. -/
def trimAllowed (s : Stream) (maxlen trim : Nat) : Bool :=
  trim = 0 || maxlen + trim ≤ s.entries.length + 1

end Stream

namespace Group

def isPending (g : Group) (id : Nat) : Bool := g.pending.any fun p => p.id = id

/-- `times_delivered` of a pending entry, as `XPENDING` reports it. -/
def timesDelivered (g : Group) (id : Nat) : Option Nat :=
  (g.pending.find? fun p => p.id = id).map (·.timesDelivered)

def ack (g : Group) (id : Nat) : Group :=
  { g with pending := g.pending.filter fun p => p.id ≠ id }

/-- Entries of the stream that `XREADGROUP` with id `>` has not returned yet. -/
def unread (g : Group) (s : Stream) : List StreamEntry :=
  s.entries.filter fun e => g.lastDelivered < e.id

/-- `XREADGROUP`: the group after `read` was returned to `consumer`. -/
def deliver (g : Group) (consumer : ConsumerName) (read : List StreamEntry) : Group where
  lastDelivered := (read.getLast?.map (·.id)).getD g.lastDelivered
  pending := g.pending ++ read.map fun e => ⟨e.id, consumer, 1⟩

/-- `XAUTOCLAIM` of `ids` by `consumer`. -/
def claim (g : Group) (s : Stream) (consumer : ConsumerName) (ids : List Nat) : Group :=
  { g with
    pending := g.pending.filterMap fun p =>
      if p.id ∈ ids then
        if s.entries.any fun e => e.id = p.id then
          some { p with consumer := consumer, timesDelivered := p.timesDelivered + 1 }
        else none
      else some p }

/-- The ids one `XAUTOCLAIM` may take: pending, from the cursor on, each once, at most `count`. -/
def claimAllowed (g : Group) (start : Nat) (count : Int) (ids : List Nat) : Bool :=
  ids.Nodup && ids.all (fun id => decide (start ≤ id) && g.isPending id) &&
    decide ((ids.length : Int) ≤ count)

theorem isPending_iff (g : Group) (id : Nat) :
    g.isPending id = true ↔ ∃ p ∈ g.pending, p.id = id := by
  simp [isPending]

@[simp] theorem ack_lastDelivered (g : Group) (id : Nat) :
    (g.ack id).lastDelivered = g.lastDelivered := rfl

@[simp] theorem claim_lastDelivered (g : Group) (s : Stream) (c : ConsumerName)
    (ids : List Nat) : (g.claim s c ids).lastDelivered = g.lastDelivered := rfl

theorem isPending_ack (g : Group) (id id' : Nat) :
    (g.ack id').isPending id = (decide (id ≠ id') && g.isPending id) := by
  rw [Bool.eq_iff_iff]
  simp only [isPending_iff, ack, List.mem_filter, Bool.and_eq_true, decide_eq_true_eq]
  constructor
  · rintro ⟨p, ⟨hp, hne⟩, rfl⟩
    exact ⟨hne, p, hp, rfl⟩
  · rintro ⟨hne, p, hp, rfl⟩
    exact ⟨p, ⟨hp, hne⟩, rfl⟩

theorem isPending_deliver (g : Group) (c : ConsumerName) (read : List StreamEntry)
    (id : Nat) :
    (g.deliver c read).isPending id = (g.isPending id || read.any fun e => e.id = id) := by
  simp [isPending, deliver, List.any_append, List.any_map, Function.comp_def]

theorem isPending_claim (g : Group) (s : Stream) (c : ConsumerName) (ids : List Nat)
    (id : Nat) :
    (g.claim s c ids).isPending id =
      (g.isPending id && (decide (id ∉ ids) || s.entries.any fun e => e.id = id)) := by
  rw [Bool.eq_iff_iff]
  simp only [isPending_iff, claim, List.mem_filterMap, Bool.and_eq_true, Bool.or_eq_true,
    decide_eq_true_eq]
  constructor
  · rintro ⟨p', ⟨p, hp, hif⟩, rfl⟩
    split at hif
    · split at hif
      · rename_i hs
        obtain rfl := Option.some.inj hif
        exact ⟨⟨p, hp, rfl⟩, .inr hs⟩
      · cases hif
    · rename_i hn
      obtain rfl := Option.some.inj hif
      exact ⟨⟨p, hp, rfl⟩, .inl hn⟩
  · rintro ⟨⟨p, hp, rfl⟩, hid⟩
    by_cases hmem : p.id ∈ ids
    · have hs : (s.entries.any fun e => decide (e.id = p.id)) = true := by
        rcases hid with h | h
        · exact absurd hmem h
        · exact h
      refine ⟨{ p with consumer := c, timesDelivered := p.timesDelivered + 1 }, ⟨p, hp, ?_⟩, rfl⟩
      rw [if_pos hmem, if_pos hs]
    · exact ⟨p, ⟨p, hp, by rw [if_neg hmem]⟩, rfl⟩

theorem lastDelivered_lt_of_mem_drop {g : Group} {st : Stream} {c : ConsumerName} {n : Nat}
    {e : StreamEntry} (hsorted : st.entries.Pairwise fun a b => a.id < b.id)
    (he : e ∈ (g.unread st).drop n) :
    (g.deliver c ((g.unread st).take n)).lastDelivered < e.id := by
  have hunread : (g.unread st).Pairwise fun a b => a.id < b.id :=
    hsorted.sublist List.filter_sublist
  have hlt : g.lastDelivered < e.id := by
    have hmem := (List.mem_filter.mp (List.mem_of_mem_drop he)).2
    simpa using hmem
  unfold deliver
  cases hlast : ((g.unread st).take n).getLast? with
  | none => simpa using hlt
  | some last =>
    rw [← List.take_append_drop n (g.unread st)] at hunread
    have hcross := (List.pairwise_append.mp hunread).2.2
    simpa using hcross last (List.mem_of_getLast? hlast) e he

theorem deliver_lastDelivered_le {g : Group} {st : Stream} {c : ConsumerName} {n k : Nat}
    (hids : ∀ e ∈ st.entries, e.id ≤ k) (hle : g.lastDelivered ≤ k) :
    (g.deliver c ((g.unread st).take n)).lastDelivered ≤ k := by
  unfold deliver
  cases hlast : ((g.unread st).take n).getLast? with
  | none => simpa using hle
  | some last =>
    have hmem : last ∈ g.unread st := List.mem_of_mem_take (List.mem_of_getLast? hlast)
    simpa using hids last (List.mem_filter.mp hmem).1

end Group

def Redis.isPending (r : Redis) (id : Nat) : Bool := r.group.any (·.isPending id)

def Stream.has (s : Stream) (id : Nat) : Bool := s.entries.any fun e => e.id = id

theorem Stream.has_add (s : Stream) (fields : Fields) (id : Nat) (h : s.has id = true) :
    (s.add fields 0).has id = true := by
  simp only [has, add, List.drop_zero, List.any_append, Bool.or_eq_true] at h ⊢
  exact .inl h

end InferenceEngine
