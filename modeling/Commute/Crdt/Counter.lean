import Commute.Foundation.Words
import Commute.Gossip.Convergence

/-!
# `GCounter` and `PNCounter`

Counts are machine integers: an increment wraps at `2^64`, the total of a
`GCounter` is a wrapping sum and the value of a `PNCounter` a wrapping
difference of signed integers. A `GCounter` whose map is `nil` is kept apart
from one with an empty map, since only a map that exists can be shared between
a logged delta and the accumulator of a delta interval.

`PNCounter` is a lawful delta value, so all of `Commute.Gossip` applies to it.
-/
namespace Commute.Crdt

open Gossip

variable {N : Type}

structure GCounter (N : Type) where
  nodeID : N
  counters : Option (FMap N UInt64)

namespace GCounter

def new (nodeID : N) : GCounter N := ⟨nodeID, some ∅⟩

def entries (g : GCounter N) : FMap N UInt64 := g.counters.getD ∅

/-- The total across all nodes, a wrapping sum. -/
def value (g : GCounter N) : UInt64 := g.entries.entries.foldl (fun sum e => sum + e.2) 0

def isZero (g : GCounter N) : Bool := g.entries.entries.isEmpty

variable [DecidableEq N]

def get (g : GCounter N) (id : N) : UInt64 := (g.entries.lookup id).getD 0

/-- The delta that adds `n` to this node's counter. -/
def increment [Inhabited N] (n : UInt64) (g : GCounter N) : GCounter N :=
  ⟨default, some (AList.singleton g.nodeID (g.get g.nodeID + n))⟩

def merge (g other : GCounter N) : GCounter N :=
  ⟨g.nodeID, some (FMap.upsertAll (fun own v => max (own.getD 0) v) other.entries g.entries)⟩

def isLessOrEqual (g other : GCounter N) : Bool :=
  g.entries.entries.all fun e => decide (e.2 ≤ other.get e.1)

/-- Reading back the encoding: a counter without entries is omitted from it and
comes back as the zero value. The owner is not part of the encoding. -/
def decoded [Inhabited N] (g : GCounter N) : GCounter N :=
  ⟨default, if g.isZero then none else g.counters⟩

/-- What a merge into a copy of `g` that ended as `merged` leaves in `g`: the copy
shares the map of `g`, unless that is `nil` and the merge allocated a new one. -/
def shared (g merged : GCounter N) : GCounter N :=
  ⟨g.nodeID, g.counters.bind fun _ => merged.counters⟩

def count (g : GCounter N) (id : N) : ℕ := (g.get id).toNat

theorem count_eq_of_entries {g g' : GCounter N} (h : g.entries = g'.entries) (id : N) :
    g.count id = g'.count id := by
  simp only [count, get, h]

theorem count_eq_zero_of_notMem {g : GCounter N} {id : N} (h : g.entries.lookup id = none) :
    g.count id = 0 := by
  simp [count, get, h]

@[simp] theorem count_new (nodeID id : N) : (new nodeID).count id = 0 := by
  simp [count, get, new, entries]

@[simp] theorem count_nil (nodeID id : N) : (⟨nodeID, none⟩ : GCounter N).count id = 0 := by
  simp [count, get, entries]

theorem count_merge (g other : GCounter N) (id : N) :
    (g.merge other).count id = max (g.count id) (other.count id) := by
  have hentries : (g.merge other).entries =
      FMap.upsertAll (fun own v => max (own.getD 0) v) other.entries g.entries := rfl
  unfold count get
  rw [hentries, FMap.lookup_upsertAll]
  cases other.entries.lookup id with
  | none => simp
  | some v => exact toNat_max _ _

theorem count_increment [Inhabited N] (n : UInt64) (g : GCounter N) (id : N) :
    (g.increment n).count id =
      if id = g.nodeID then (g.count g.nodeID + n.toNat) % 2 ^ 64 else 0 := by
  simp only [count, get, increment, entries, Option.getD_some, FMap.lookup_singleton]
  split_ifs
  · exact UInt64.toNat_add _ _
  · rfl

theorem isLessOrEqual_iff (g other : GCounter N) :
    g.isLessOrEqual other = true ↔ ∀ id, g.count id ≤ other.count id := by
  unfold isLessOrEqual
  rw [FMap.all_entries_iff]
  simp only [decide_eq_true_eq, UInt64.le_iff_toNat_le]
  constructor
  · intro h id
    cases hv : g.entries.lookup id with
    | none => simp [count_eq_zero_of_notMem hv]
    | some v => simpa [count, get, hv] using h id v hv
  · intro h id v hv
    simpa [count, get, hv] using h id

theorem count_decoded [Inhabited N] (g : GCounter N) (id : N) :
    g.decoded.count id = g.count id := by
  unfold decoded
  split_ifs with h
  · have hnil : g.entries.entries = [] := List.isEmpty_iff.mp h
    have : g.entries.lookup id = none := by simp [AList.lookup, hnil]
    simp [count_eq_zero_of_notMem this]
  · exact count_eq_of_entries rfl id

theorem count_shared (g merged : GCounter N) (id : N) :
    (g.shared merged).count id = g.count id ∨ (g.shared merged).count id = merged.count id := by
  unfold shared
  cases h : g.counters with
  | none => exact Or.inl (count_eq_of_entries (by simp [entries, h]) id)
  | some m => exact Or.inr (count_eq_of_entries rfl id)

theorem value_toNat (g : GCounter N) :
    g.value.toNat = (g.entries.keys.map g.count).sum % 2 ^ 64 := by
  have hfold : ∀ (es : List (Σ _ : N, UInt64)) (acc : UInt64),
      (es.foldl (fun sum e => sum + e.2) acc).toNat =
        (acc.toNat + (es.map fun e => e.2.toNat).sum) % 2 ^ 64 := by
    intro es
    induction es with
    | nil => exact fun acc => by simp [Nat.mod_eq_of_lt acc.toNat_lt]
    | cons e es ih =>
      intro acc
      rw [List.foldl_cons, ih, UInt64.toNat_add, List.map_cons, List.sum_cons, Nat.mod_add_mod,
        Nat.add_assoc]
  have hcount : g.entries.keys.map g.count = g.entries.entries.map fun e => e.2.toNat := by
    rw [AList.keys, List.keys, List.map_map]
    refine List.map_congr_left fun e he => ?_
    have : g.entries.lookup e.1 = some e.2 := FMap.mem_entries_iff.mp he
    simp [count, get, this]
  rw [value, hfold, hcount]
  simp

theorem sum_count_keys (g : GCounter N) {ids : Finset N} (h : g.entries.keys.toFinset ⊆ ids) :
    (g.entries.keys.map g.count).sum = ∑ id ∈ ids, g.count id := by
  rw [← List.sum_toFinset _ (AList.keys_nodup g.entries)]
  refine Finset.sum_subset h fun id _ hid => count_eq_zero_of_notMem ?_
  rw [List.mem_toFinset] at hid
  exact AList.lookup_eq_none.mpr hid

/-- The value only depends on the counts; an entry may be zero or missing. -/
theorem value_congr {g g' : GCounter N} (h : ∀ id, g.count id = g'.count id) :
    g.value = g'.value := by
  set ids := g.entries.keys.toFinset ∪ g'.entries.keys.toFinset
  have hg : g.entries.keys.toFinset ⊆ ids := Finset.subset_union_left
  have hg' : g'.entries.keys.toFinset ⊆ ids := Finset.subset_union_right
  apply UInt64.toNat_inj.mp
  rw [value_toNat, value_toNat, sum_count_keys g hg, sum_count_keys g' hg']
  simp only [h]

end GCounter

structure PNCounter (N : Type) where
  inc : GCounter N
  dec : GCounter N

namespace PNCounter

def new (nodeID : N) : PNCounter N := ⟨.new nodeID, .new nodeID⟩

/-- Increments minus decrements across all nodes. -/
def value (pn : PNCounter N) : Int64 := pn.inc.value.toInt64 - pn.dec.value.toInt64

theorem value_new (nodeID : N) : (new nodeID).value = 0 := by
  change UInt64.toInt64 0 - UInt64.toInt64 0 = 0
  decide

variable [DecidableEq N]

def increment [Inhabited N] (n : UInt64) (pn : PNCounter N) : PNCounter N :=
  ⟨pn.inc.increment n, ⟨default, none⟩⟩

def decrement [Inhabited N] (n : UInt64) (pn : PNCounter N) : PNCounter N :=
  ⟨⟨default, none⟩, pn.dec.increment n⟩

def merge (pn other : PNCounter N) : PNCounter N :=
  ⟨pn.inc.merge other.inc, pn.dec.merge other.dec⟩

def isLessOrEqual (pn other : PNCounter N) : Bool :=
  pn.inc.isLessOrEqual other.inc && pn.dec.isLessOrEqual other.dec

def decoded [Inhabited N] (pn : PNCounter N) : PNCounter N := ⟨pn.inc.decoded, pn.dec.decoded⟩

def shared (pn merged : PNCounter N) : PNCounter N :=
  ⟨pn.inc.shared merged.inc, pn.dec.shared merged.dec⟩

instance [Inhabited N] : DeltaValue (PNCounter N) where
  merge := merge
  isLessOrEqual := isLessOrEqual
  decoded := decoded
  shared := shared

theorem le_iff [Inhabited N] (a b : PNCounter N) : DeltaValue.Le a b ↔
    ∀ id, a.inc.count id ≤ b.inc.count id ∧ a.dec.count id ≤ b.dec.count id := by
  rw [forall_and]
  change (a.inc.isLessOrEqual b.inc && a.dec.isLessOrEqual b.dec) = true ↔ _
  rw [Bool.and_eq_true, GCounter.isLessOrEqual_iff, GCounter.isLessOrEqual_iff]

theorem value_eq_of_le [Inhabited N] {a b : PNCounter N} (hab : DeltaValue.Le a b)
    (hba : DeltaValue.Le b a) : a.value = b.value := by
  rw [le_iff] at hab hba
  have hinc : a.inc.value = b.inc.value :=
    GCounter.value_congr fun id => le_antisymm (hab id).1 (hba id).1
  have hdec : a.dec.value = b.dec.value :=
    GCounter.value_congr fun id => le_antisymm (hab id).2 (hba id).2
  rw [value, hinc, hdec, value]

instance [Inhabited N] : LawfulDeltaValue (PNCounter N) where
  le_refl a := (le_iff a a).mpr fun _ => ⟨le_rfl, le_rfl⟩
  le_trans {a b c} hab hbc := by
    rw [le_iff] at hab hbc ⊢
    exact fun id => ⟨(hab id).1.trans (hbc id).1, (hab id).2.trans (hbc id).2⟩
  le_merge_left a b := by
    refine (le_iff _ _).mpr fun id => ⟨?_, ?_⟩
    · exact (le_max_left _ _).trans_eq (GCounter.count_merge _ _ _).symm
    · exact (le_max_left _ _).trans_eq (GCounter.count_merge _ _ _).symm
  le_merge_right a b := by
    refine (le_iff _ _).mpr fun id => ⟨?_, ?_⟩
    · exact (le_max_right _ _).trans_eq (GCounter.count_merge _ _ _).symm
    · exact (le_max_right _ _).trans_eq (GCounter.count_merge _ _ _).symm
  merge_le {a b c} ha hb := by
    rw [le_iff] at ha hb ⊢
    intro id
    refine ⟨(GCounter.count_merge _ _ _).trans_le ?_, (GCounter.count_merge _ _ _).trans_le ?_⟩
    · exact max_le (ha id).1 (hb id).1
    · exact max_le (ha id).2 (hb id).2
  le_decoded a := (le_iff _ _).mpr fun id =>
    ⟨(a.inc.count_decoded id).ge, (a.dec.count_decoded id).ge⟩
  decoded_le a := (le_iff _ _).mpr fun id =>
    ⟨(a.inc.count_decoded id).le, (a.dec.count_decoded id).le⟩
  le_shared {a b} hab := by
    rw [le_iff] at hab ⊢
    intro id
    refine ⟨?_, ?_⟩
    · rcases a.inc.count_shared b.inc id with h | h
      · exact h.ge
      · exact (hab id).1.trans_eq h.symm
    · rcases a.dec.count_shared b.dec id with h | h
      · exact h.ge
      · exact (hab id).2.trans_eq h.symm
  shared_le {a b} hab := by
    rw [le_iff] at hab ⊢
    intro id
    refine ⟨?_, ?_⟩
    · rcases a.inc.count_shared b.inc id with h | h
      · exact h.trans_le (hab id).1
      · exact h.le
    · rcases a.dec.count_shared b.dec id with h | h
      · exact h.trans_le (hab id).2
      · exact h.le

/-- The value is the signed 64-bit representative of the difference of the sums. -/
theorem value_toInt (pn : PNCounter N) :
    pn.value.toInt = (((pn.inc.entries.keys.map pn.inc.count).sum : ℤ) -
      ((pn.dec.entries.keys.map pn.dec.count).sum : ℤ)).bmod (2 ^ 64) := by
  have hsigned : ∀ u : UInt64, u.toInt64.toInt = (u.toNat : ℤ).bmod (2 ^ 64) := fun u => by
    rw [← Int64.toInt_toBitVec, UInt64.toBitVec_toInt64, BitVec.toInt_eq_toNat_bmod]
    rfl
  unfold value
  rw [Int64.toInt_sub, hsigned, hsigned, GCounter.value_toNat, GCounter.value_toNat,
    Int.bmod_sub_bmod, Int.sub_bmod_bmod]
  rw [Int.natCast_mod, Int.natCast_mod, Int.emod_sub_bmod, Int.sub_emod_bmod]

end PNCounter
end Commute.Crdt
