import Commute.Foundation.FiniteMap
import Mathlib.Tactic

/-!
# `DVVSet`: dotted version vector sets

Entry `(i, n, l)` stands for the dots `(i, 1), …, (i, n)`, of which the last
`|l|` are live and carry the values of `l`, newest first. The causal content of
an entry is therefore the pair of `low = n - |l|` and `top = n`: `Sync` takes
the maximum of both, and `Update` raises both to what the context knows.
Counters are natural numbers here.
-/
namespace Commute.Crdt

structure DVVEntry (T : Type) where
  counter : ℕ
  values : List T
deriving DecidableEq

structure DVVSet (N T : Type) where
  state : FMap N (DVVEntry T)

/-- A version vector: the highest known counter per node. -/
abbrev VV (N : Type) := FMap N ℕ

variable {N T : Type} [DecidableEq N]

def VV.get (vv : VV N) (nodeID : N) : ℕ := (vv.lookup nodeID).getD 0

@[simp] theorem VV.get_empty (i : N) : VV.get (∅ : VV N) i = 0 := by simp [VV.get]

namespace DVVSet

def new : DVVSet N T := ⟨∅⟩

def values (ds : DVVSet N T) : List T := ds.state.entries.flatMap fun e => e.2.values

def join (ds : DVVSet N T) : VV N := FMap.mapVals (fun _ e => e.counter) ds.state

/-- What `discard` leaves of the siblings of one entry. -/
def discardEntry (vv : VV N) (k : N) (e : DVVEntry T) : DVVEntry T :=
  match vv.lookup k with
  | none => e
  | some counter =>
    if counter < e.counter then
      { e with values := e.values.take (min (e.counter - counter) e.values.length) }
    else { e with values := [] }

/-- Drop the siblings whose dots are covered by `vv`; ids only in `vv` are ignored. -/
def discard (vv : VV N) (ds : DVVSet N T) : DVVSet N T := ⟨FMap.mapVals (discardEntry vv) ds.state⟩

def ownEntry (value : T) : Option (DVVEntry T) → DVVEntry T
  | some e => ⟨e.counter + 1, value :: e.values⟩
  | none => ⟨1, [value]⟩

/-- Record a write of `value` by `nodeID`: a fresh dot for the writer, the other
entries absorb the counters of `vv`; ids only in `vv` get no entry. -/
def event (nodeID : N) (vv : VV N) (value : T) (ds : DVVSet N T) : DVVSet N T :=
  ⟨FMap.mapVals (fun k e => if k = nodeID then e else ⟨max e.counter (vv.get k), e.values⟩)
    (ds.state.insert nodeID (ownEntry value (ds.state.lookup nodeID)))⟩

def update (nodeID : N) (vv : VV N) (value : T) (ds : DVVSet N T) : DVVSet N T :=
  (ds.discard vv).event nodeID vv value

/-- Both sides have an entry: the higher counter, with its siblings truncated. -/
def syncEntry (entry otherEntry : DVVEntry T) : DVVEntry T :=
  if otherEntry.counter ≤ entry.counter then
    ⟨entry.counter, entry.values.take
      (min (entry.counter - otherEntry.counter + otherEntry.values.length) entry.values.length)⟩
  else
    ⟨otherEntry.counter, otherEntry.values.take
      (min (otherEntry.counter - entry.counter + entry.values.length) otherEntry.values.length)⟩

/-- Merge the causal history of `other`. The loop over the ids of both sides does
nothing for an id that only `ds` has. -/
def sync (ds other : DVVSet N T) : DVVSet N T :=
  ⟨FMap.upsertAll (fun own otherEntry =>
    match own with
    | some entry => syncEntry entry otherEntry
    | none => otherEntry) other.state ds.state⟩

/-- The highest known counter of a node, zero without an entry. -/
def top (ds : DVVSet N T) (i : N) : ℕ := ((ds.state.lookup i).map DVVEntry.counter).getD 0

/-- The order on causal histories; siblings are not compared. -/
def isLessOrEqual (ds other : DVVSet N T) : Bool :=
  ds.state.entries.all fun e => decide (e.2.counter ≤ other.top e.1)

/-- The dots of a node up to `low` are known but not live. -/
def low (ds : DVVSet N T) (i : N) : ℕ :=
  ((ds.state.lookup i).map fun e => e.counter - e.values.length).getD 0

def sibling (ds : DVVSet N T) (i : N) (n : ℕ) : Option T :=
  (ds.state.lookup i).bind fun e => if n ≤ e.counter then e.values[e.counter - n]? else none

/-- No entry is without dots or has more siblings than dots. -/
def WellFormed (ds : DVVSet N T) : Prop :=
  ∀ i e, ds.state.lookup i = some e → 1 ≤ e.counter ∧ e.values.length ≤ e.counter

def Bounded (ds : DVVSet N T) : Prop :=
  ∀ i e, ds.state.lookup i = some e → e.values.length ≤ e.counter

theorem WellFormed.bounded {ds : DVVSet N T} (h : ds.WellFormed) : ds.Bounded :=
  fun i e he => (h i e he).2

theorem top_of_some {ds : DVVSet N T} {i : N} {e : DVVEntry T} (h : ds.state.lookup i = some e) :
    ds.top i = e.counter := by simp [top, h]

theorem top_of_none {ds : DVVSet N T} {i : N} (h : ds.state.lookup i = none) : ds.top i = 0 := by
  simp [top, h]

theorem low_of_some {ds : DVVSet N T} {i : N} {e : DVVEntry T} (h : ds.state.lookup i = some e) :
    ds.low i = e.counter - e.values.length := by simp [low, h]

theorem low_of_none {ds : DVVSet N T} {i : N} (h : ds.state.lookup i = none) : ds.low i = 0 := by
  simp [low, h]

@[simp] theorem top_new (i : N) : (new : DVVSet N T).top i = 0 := by simp [top, new]

@[simp] theorem low_new (i : N) : (new : DVVSet N T).low i = 0 := by simp [low, new]

theorem low_le_top (ds : DVVSet N T) (i : N) : ds.low i ≤ ds.top i := by
  unfold low top
  cases ds.state.lookup i <;> simp

theorem join_get (ds : DVVSet N T) (i : N) : ds.join.get i = ds.top i := by
  simp [join, VV.get, top]

theorem isLessOrEqual_iff (ds other : DVVSet N T) :
    ds.isLessOrEqual other = true ↔ ∀ i, ds.top i ≤ other.top i := by
  unfold isLessOrEqual
  rw [FMap.all_entries_iff]
  simp only [decide_eq_true_eq]
  constructor
  · intro h i
    cases he : ds.state.lookup i with
    | none => simp [top_of_none he]
    | some e => simpa [top_of_some he] using h i e he
  · intro h i e he
    simpa [top_of_some he] using h i

theorem join_lookup_congr {ds other : DVVSet N T} (h : ds.WellFormed) (h' : other.WellFormed)
    {i : N} (htop : ds.top i = other.top i) : ds.join.lookup i = other.join.lookup i := by
  have hjoin : ∀ d : DVVSet N T, d.WellFormed →
      d.join.lookup i = if 1 ≤ d.top i then some (d.top i) else none := by
    intro d hd
    rw [join, FMap.lookup_mapVals]
    cases he : d.state.lookup i with
    | none => simp [top_of_none he]
    | some e => simp [top_of_some he, (hd i e he).1]
  rw [hjoin ds h, hjoin other h', htop]

/-- A dot is live exactly if it lies between `low` and `top`. -/
theorem WellFormed.sibling_isSome {ds : DVVSet N T} (h : ds.WellFormed) (i : N) (n : ℕ) :
    (ds.sibling i n).isSome ↔ ds.low i < n ∧ n ≤ ds.top i := by
  unfold sibling
  cases he : ds.state.lookup i with
  | none =>
    simp only [Option.bind_none, Option.isSome_none, Bool.false_eq_true, top_of_none he, false_iff]
    omega
  | some e =>
    have := (h i e he).2
    simp only [Option.bind_some, top_of_some he, low_of_some he]
    split_ifs with hn
    · rw [isSome_getElem?]
      omega
    · simp [hn]

theorem WellFormed.mem_values {ds : DVVSet N T} (h : ds.WellFormed) (v : T) :
    v ∈ ds.values ↔ ∃ i n, ds.sibling i n = some v := by
  unfold values
  simp only [List.mem_flatMap, Sigma.exists, FMap.mem_entries_iff]
  constructor
  · rintro ⟨i, e, he, hv⟩
    obtain ⟨k, hk, rfl⟩ := List.getElem_of_mem hv
    have := (h i e he).2
    refine ⟨i, e.counter - k, ?_⟩
    have hidx : e.counter - (e.counter - k) = k := by omega
    simp [sibling, he, hidx, hk]
  · rintro ⟨i, n, hs⟩
    obtain ⟨e, he, hs⟩ := Option.bind_eq_some_iff.mp hs
    split_ifs at hs
    exact ⟨i, e, he, List.mem_of_getElem? hs⟩

theorem getElem?_of_take {l : List T} {m k : ℕ} {v : T} (h : (l.take m)[k]? = some v) :
    l[k]? = some v := by
  rw [List.getElem?_take] at h
  split_ifs at h
  exact h

section Sync

theorem sync_lookup (ds other : DVVSet N T) (i : N) :
    (ds.sync other).state.lookup i =
      match other.state.lookup i with
      | none => ds.state.lookup i
      | some otherEntry => some (match ds.state.lookup i with
        | some entry => syncEntry entry otherEntry
        | none => otherEntry) := by
  unfold sync
  rw [FMap.lookup_upsertAll]
  cases other.state.lookup i <;> rfl

theorem syncEntry_counter (a b : DVVEntry T) :
    (syncEntry a b).counter = max a.counter b.counter := by
  unfold syncEntry
  split_ifs with h
  · exact (max_eq_left h).symm
  · exact (max_eq_right (Nat.le_of_not_le h)).symm

theorem syncEntry_length_le_max (a b : DVVEntry T) :
    (syncEntry a b).values.length ≤ max a.values.length b.values.length := by
  unfold syncEntry
  split_ifs <;> simp only [List.length_take] <;> omega

theorem syncEntry_low {a b : DVVEntry T} (ha : a.values.length ≤ a.counter)
    (hb : b.values.length ≤ b.counter) :
    (syncEntry a b).counter - (syncEntry a b).values.length =
      max (a.counter - a.values.length) (b.counter - b.values.length) := by
  unfold syncEntry
  split_ifs with h <;> simp only [List.length_take] <;> omega

theorem syncEntry_length_le {a b : DVVEntry T} (ha : a.values.length ≤ a.counter)
    (hb : b.values.length ≤ b.counter) :
    (syncEntry a b).values.length ≤ (syncEntry a b).counter := by
  unfold syncEntry
  split_ifs with h <;> simp only [List.length_take] <;> omega

@[simp] theorem top_sync (ds other : DVVSet N T) (i : N) :
    (ds.sync other).top i = max (ds.top i) (other.top i) := by
  unfold top
  rw [sync_lookup]
  cases other.state.lookup i <;> cases ds.state.lookup i <;> simp [syncEntry_counter]

theorem Bounded.low_sync {ds other : DVVSet N T} (h : ds.Bounded) (h' : other.Bounded) (i : N) :
    (ds.sync other).low i = max (ds.low i) (other.low i) := by
  unfold low
  rw [sync_lookup]
  cases ho : other.state.lookup i with
  | none => simp
  | some b =>
    cases hd : ds.state.lookup i with
    | none => simp
    | some a => simpa using syncEntry_low (h i a hd) (h' i b ho)

theorem low_sync {ds other : DVVSet N T} (h : ds.WellFormed) (h' : other.WellFormed) (i : N) :
    (ds.sync other).low i = max (ds.low i) (other.low i) :=
  h.bounded.low_sync h'.bounded i

theorem Bounded.sync {ds other : DVVSet N T} (h : ds.Bounded) (h' : other.Bounded) :
    (ds.sync other).Bounded := by
  intro i e he
  rw [sync_lookup] at he
  cases ho : other.state.lookup i with
  | none =>
    simp only [ho] at he
    exact h i e he
  | some b =>
    cases hd : ds.state.lookup i with
    | none =>
      simp only [ho, hd, Option.some.injEq] at he
      exact he ▸ h' i b ho
    | some a =>
      simp only [ho, hd, Option.some.injEq] at he
      exact he ▸ syncEntry_length_le (h i a hd) (h' i b ho)

theorem WellFormed.sync {ds other : DVVSet N T} (h : ds.WellFormed) (h' : other.WellFormed) :
    (ds.sync other).WellFormed := by
  intro i e he
  refine ⟨?_, h.bounded.sync h'.bounded i e he⟩
  rw [← top_of_some he, top_sync]
  rw [sync_lookup] at he
  cases ho : other.state.lookup i with
  | none =>
    simp only [ho] at he
    rw [top_of_some he]
    exact (h i e he).1.trans (le_max_left _ _)
  | some b =>
    rw [top_of_some ho]
    exact (h' i b ho).1.trans (le_max_right _ _)

theorem sibling_sync {ds other : DVVSet N T} {i : N} {n : ℕ} {v : T}
    (h : (ds.sync other).sibling i n = some v) :
    ds.sibling i n = some v ∨ other.sibling i n = some v := by
  unfold sibling at h ⊢
  rw [sync_lookup] at h
  cases ho : other.state.lookup i with
  | none => exact Or.inl (by simpa [ho] using h)
  | some b =>
    cases hd : ds.state.lookup i with
    | none => exact Or.inr (by simpa [ho, hd] using h)
    | some a =>
      simp only [ho, hd, Option.bind_some, syncEntry] at h
      split_ifs at h with hab hn hn
      · refine Or.inl ?_
        simp only [Option.bind_some, if_pos hn]
        exact getElem?_of_take h
      · refine Or.inr ?_
        simp only [Option.bind_some, if_pos hn]
        exact getElem?_of_take h

/-- A history with smaller counters and smaller lower bounds has nothing to add. -/
theorem sync_lookup_of_le {ds other : DVVSet N T} (h : ds.WellFormed) (h' : other.WellFormed)
    (htop : ∀ i, other.top i ≤ ds.top i) (hlow : ∀ i, other.low i ≤ ds.low i) (i : N) :
    (ds.sync other).state.lookup i = ds.state.lookup i := by
  rw [sync_lookup]
  cases ho : other.state.lookup i with
  | none => rfl
  | some b =>
    have ht := htop i
    have hl := hlow i
    rw [top_of_some ho] at ht
    rw [low_of_some ho] at hl
    obtain ⟨hb, hbl⟩ := h' i b ho
    cases hd : ds.state.lookup i with
    | none =>
      rw [top_of_none hd] at ht
      omega
    | some a =>
      rw [top_of_some hd] at ht
      rw [low_of_some hd] at hl
      have hal := (h i a hd).2
      simp only [syncEntry, if_pos ht]
      rw [List.take_of_length_le]
      omega

end Sync

section Update

variable {r : N} {vv : VV N} {value : T} {ds : DVVSet N T}

theorem discardEntry_counter (vv : VV N) (k : N) (e : DVVEntry T) :
    (discardEntry vv k e).counter = e.counter := by
  unfold discardEntry
  split
  · rfl
  · split_ifs <;> rfl

theorem discardEntry_length (vv : VV N) (k : N) {e : DVVEntry T}
    (h : e.values.length ≤ e.counter) :
    (discardEntry vv k e).values.length = min e.values.length (e.counter - vv.get k) := by
  unfold discardEntry VV.get
  cases vv.lookup k with
  | none => simp [h]
  | some c =>
    simp only [Option.getD_some]
    split_ifs with hc <;> simp only [List.length_take, List.length_nil] <;> omega

theorem discardEntry_getElem? {vv : VV N} {k : N} {e : DVVEntry T} {m : ℕ} {v : T}
    (h : (discardEntry vv k e).values[m]? = some v) : e.values[m]? = some v := by
  unfold discardEntry at h
  split at h
  · exact h
  · split_ifs at h
    · exact getElem?_of_take h
    · simp at h

theorem update_lookup_self (r : N) (vv : VV N) (value : T) (ds : DVVSet N T) :
    (ds.update r vv value).state.lookup r =
      some (ownEntry value ((ds.state.lookup r).map (discardEntry vv r))) := by
  simp [update, event, discard]

theorem update_lookup_of_ne (vv : VV N) (value : T) (ds : DVVSet N T) {i : N} (hi : i ≠ r) :
    (ds.update r vv value).state.lookup i = (ds.state.lookup i).map fun e =>
      ⟨max e.counter (vv.get i), (discardEntry vv i e).values⟩ := by
  simp only [update, event, discard, FMap.lookup_mapVals, AList.lookup_insert_ne hi,
    Option.map_map]
  refine congrArg (fun f => (ds.state.lookup i).map f) (funext fun e => ?_)
  simp [hi, discardEntry_counter]

theorem top_update_self (r : N) (vv : VV N) (value : T) (ds : DVVSet N T) :
    (ds.update r vv value).top r = ds.top r + 1 := by
  rw [top_of_some (update_lookup_self r vv value ds)]
  cases h : ds.state.lookup r with
  | none => simp [top_of_none h, ownEntry]
  | some e => simp [top_of_some h, ownEntry, discardEntry_counter]

theorem top_update_of_ne (vv : VV N) (value : T) (ds : DVVSet N T) {i : N} (hi : i ≠ r) :
    (ds.update r vv value).top i =
      if (ds.state.lookup i).isSome then max (ds.top i) (vv.get i) else 0 := by
  unfold top
  rw [update_lookup_of_ne vv value ds hi]
  cases ds.state.lookup i <;> simp

theorem low_update_self (r : N) (vv : VV N) (value : T) {ds : DVVSet N T} (h : ds.WellFormed) :
    (ds.update r vv value).low r = max (ds.low r) (min (vv.get r) (ds.top r)) := by
  rw [low_of_some (update_lookup_self r vv value ds)]
  cases he : ds.state.lookup r with
  | none => simp [low_of_none he, top_of_none he, ownEntry]
  | some e =>
    have hl := (h r e he).2
    simp only [Option.map_some, ownEntry, discardEntry_counter, List.length_cons,
      discardEntry_length vv r hl, low_of_some he, top_of_some he]
    omega

theorem low_update_of_ne (vv : VV N) (value : T) {ds : DVVSet N T} (h : ds.WellFormed) {i : N}
    (hi : i ≠ r) : (ds.update r vv value).low i =
      if (ds.state.lookup i).isSome then max (ds.low i) (vv.get i) else 0 := by
  unfold low
  rw [update_lookup_of_ne vv value ds hi]
  cases he : ds.state.lookup i with
  | none => simp
  | some e =>
    have hl := (h i e he).2
    simp only [Option.map_some, Option.getD_some, Option.isSome_some, if_true,
      discardEntry_length vv i hl]
    omega

theorem WellFormed.update (h : ds.WellFormed) : (ds.update r vv value).WellFormed := by
  intro i e he
  by_cases hi : i = r
  · subst hi
    rw [update_lookup_self] at he
    obtain rfl := Option.some.inj he
    cases ho : ds.state.lookup i with
    | none => simp [ownEntry]
    | some o =>
      have hl := (h i o ho).2
      simp only [Option.map_some, ownEntry, discardEntry_counter, List.length_cons,
        discardEntry_length vv i hl]
      omega
  · rw [update_lookup_of_ne vv value ds hi] at he
    obtain ⟨o, ho, rfl⟩ := Option.map_eq_some_iff.mp he
    obtain ⟨hpos, hl⟩ := h i o ho
    simp only [discardEntry_length vv i hl]
    omega

theorem sibling_update (h : ds.WellFormed) {i : N} {n : ℕ} {v : T}
    (hs : (ds.update r vv value).sibling i n = some v) :
    (i = r ∧ n = ds.top r + 1 ∧ v = value) ∨ ds.sibling i n = some v := by
  unfold sibling at hs ⊢
  by_cases hi : i = r
  · subst hi
    rw [update_lookup_self] at hs
    cases ho : ds.state.lookup i with
    | none =>
      simp only [ho, Option.map_none, Option.bind_some, ownEntry] at hs
      split_ifs at hs with hn
      rw [List.getElem?_singleton] at hs
      split_ifs at hs with h0
      exact Or.inl ⟨rfl, by rw [top_of_none ho]; omega, (Option.some.inj hs).symm⟩
    | some o =>
      simp only [ho, Option.map_some, Option.bind_some, ownEntry, discardEntry_counter] at hs
      split_ifs at hs with hn
      by_cases hlast : n = o.counter + 1
      · refine Or.inl ⟨rfl, by rw [top_of_some ho, hlast], ?_⟩
        simpa [hlast] using hs.symm
      · have hidx : o.counter + 1 - n = (o.counter - n) + 1 := by omega
        rw [hidx, List.getElem?_cons_succ] at hs
        refine Or.inr ?_
        rw [Option.bind_some, if_pos (by omega)]
        exact discardEntry_getElem? hs
  · rw [update_lookup_of_ne vv value ds hi] at hs
    cases ho : ds.state.lookup i with
    | none => simp [ho] at hs
    | some o =>
      simp only [ho, Option.map_some, Option.bind_some] at hs
      split_ifs at hs with hn
      have hlen := discardEntry_length vv i (h i o ho).2
      have hlt : max o.counter (vv.get i) - n < (discardEntry vv i o).values.length :=
        (List.getElem?_eq_some_iff.mp hs).1
      -- a raised counter comes with an empty list of siblings
      have hmax : max o.counter (vv.get i) = o.counter := by omega
      rw [hmax] at hs hn
      refine Or.inr ?_
      rw [Option.bind_some, if_pos hn]
      exact discardEntry_getElem? hs

end Update

end DVVSet
end Commute.Crdt
