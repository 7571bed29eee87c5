import Commute.Gossip.Exact
import Mathlib.Data.Prod.Lex

/-!
# `LWWRegister`

A register keeps the entry with the highest timestamp and, among equal
timestamps, the highest writer. The code only calls `After` and `Equal` on
timestamps; `LinearInstant` says that these compare points of one total order,
under which an entry is ordered by its stamp.
-/
namespace Commute.Crdt

open Gossip

/-- What the code uses of a time: `Time.After`, `Time.Equal`, the zero time and
what a peer reads back from the encoding of a time. -/
class Instant (T : Type) extends Inhabited T where
  after : T → T → Bool
  equal : T → T → Bool
  decoded : T → T

/-- The times compared are points of one total order. -/
class LinearInstant (T : Type) [LinearOrder T] [Instant T] : Prop where
  after_iff : ∀ t u : T, Instant.after t u = true ↔ u < t
  equal_iff : ∀ t u : T, Instant.equal t u = true ↔ t = u
  decoded_eq : ∀ t : T, Instant.decoded t = t

instance : Instant ℕ where
  after t u := decide (u < t)
  equal t u := decide (t = u)
  decoded t := t

instance : LinearInstant ℕ where
  after_iff _ _ := decide_eq_true_iff
  equal_iff _ _ := decide_eq_true_iff
  decoded_eq _ := rfl

structure LWWEntry (N T R : Type) where
  writerID : N
  timestamp : T
  value : R
deriving DecidableEq

/-- The zero value of Go's struct. -/
instance {N T R : Type} [Inhabited N] [Inhabited T] [Inhabited R] : Inhabited (LWWEntry N T R) :=
  ⟨⟨default, default, default⟩⟩

structure LWWRegister (N T R : Type) where
  nodeID : N
  entry : LWWEntry N T R

variable {N T R : Type} [LinearOrder N] [Instant T]

def LWWEntry.after (e other : LWWEntry N T R) : Bool :=
  Instant.after e.timestamp other.timestamp ||
    (Instant.equal e.timestamp other.timestamp && decide (other.writerID < e.writerID))

namespace LWWRegister

def new [Inhabited N] [Inhabited R] (nodeID : N) : LWWRegister N T R := ⟨nodeID, default⟩

def value (lww : LWWRegister N T R) : R := lww.entry.value

/-- The delta of a write that reads `now` from the register's clock. -/
def set [Inhabited N] (value : R) (now : T) (lww : LWWRegister N T R) : LWWRegister N T R :=
  ⟨default, ⟨lww.nodeID, now, value⟩⟩

def merge (lww other : LWWRegister N T R) : LWWRegister N T R :=
  if other.entry.after lww.entry then { lww with entry := other.entry } else lww

def isLessOrEqual (lww other : LWWRegister N T R) : Bool := !lww.entry.after other.entry

/-- Reading back the encoding of the entry, the only part that is encoded. -/
def decoded {N : Type} [Inhabited N] (lww : LWWRegister N T R) : LWWRegister N T R :=
  ⟨default, { lww.entry with timestamp := Instant.decoded lww.entry.timestamp }⟩

/-- A delta interval copies registers, so it shares no storage with the log. -/
instance [Inhabited N] : DeltaValue (LWWRegister N T R) where
  merge := merge
  isLessOrEqual := isLessOrEqual
  decoded := decoded
  shared lww _ := lww

theorem merge_nodeID (lww other : LWWRegister N T R) : (lww.merge other).nodeID = lww.nodeID := by
  unfold merge
  split_ifs <;> rfl

end LWWRegister

variable [LinearOrder T] [LinearInstant T]

/-- Entries are compared by timestamp first and writer second. -/
def LWWEntry.stamp (e : LWWEntry N T R) : T ×ₗ N := toLex (e.timestamp, e.writerID)

theorem LWWEntry.after_iff (e other : LWWEntry N T R) :
    e.after other = true ↔ other.stamp < e.stamp := by
  unfold after stamp
  rw [Bool.or_eq_true, Bool.and_eq_true, LinearInstant.after_iff, LinearInstant.equal_iff,
    decide_eq_true_iff, Prod.Lex.toLex_lt_toLex]
  simp only [eq_comm]

namespace LWWRegister

theorem merge_entry (lww other : LWWRegister N T R) :
    (lww.merge other).entry =
      if lww.entry.stamp < other.entry.stamp then other.entry else lww.entry := by
  unfold merge
  simp only [LWWEntry.after_iff]
  split_ifs <;> rfl

theorem merge_stamp (lww other : LWWRegister N T R) :
    (lww.merge other).entry.stamp = max lww.entry.stamp other.entry.stamp := by
  rw [merge_entry]
  split_ifs with h
  · exact (max_eq_right h.le).symm
  · exact (max_eq_left (not_lt.mp h)).symm

/-- Merging keeps the entry it prefers, so it is associative, ties included. -/
theorem merge_assoc (a b c : LWWRegister N T R) :
    (a.merge b).merge c = a.merge (b.merge c) := by
  have hext : ∀ x y : LWWRegister N T R, x.nodeID = y.nodeID → x.entry = y.entry → x = y := by
    rintro ⟨_, _⟩ ⟨_, _⟩ rfl rfl
    rfl
  apply hext
  · simp only [merge_nodeID]
  · simp only [merge_entry]
    split_ifs <;> first | rfl | (exfalso; order)

variable [Inhabited N]

theorem le_iff (a b : LWWRegister N T R) :
    DeltaValue.Le a b ↔ a.entry.stamp ≤ b.entry.stamp := by
  change (!a.entry.after b.entry) = true ↔ _
  rw [Bool.not_eq_true', ← Bool.not_eq_true, LWWEntry.after_iff, not_lt]

theorem decoded_entry {N : Type} [Inhabited N] (a : LWWRegister N T R) :
    a.decoded.entry = a.entry := by
  unfold decoded
  rw [LinearInstant.decoded_eq]

theorem merge_eq_left {a b : LWWRegister N T R} (h : DeltaValue.Le b a) : a.merge b = a := by
  rw [le_iff] at h
  unfold merge
  rw [if_neg]
  rw [LWWEntry.after_iff]
  exact not_lt.mpr h

theorem merge_decoded (a b : LWWRegister N T R) : a.merge b.decoded = a.merge b := by
  unfold merge
  rw [decoded_entry]

instance : LawfulDeltaValue (LWWRegister N T R) where
  le_refl a := (le_iff a a).mpr le_rfl
  le_trans {a b c} hab hbc := by
    rw [le_iff] at hab hbc ⊢
    exact hab.trans hbc
  le_merge_left a b := (le_iff _ _).mpr ((le_max_left _ _).trans_eq (merge_stamp a b).symm)
  le_merge_right a b := (le_iff _ _).mpr ((le_max_right _ _).trans_eq (merge_stamp a b).symm)
  merge_le {a b c} ha hb := by
    rw [le_iff] at ha hb ⊢
    exact (merge_stamp a b).trans_le (max_le ha hb)
  le_decoded a := (le_iff _ _).mpr (congrArg LWWEntry.stamp (decoded_entry a)).ge
  decoded_le a := (le_iff _ _).mpr (congrArg LWWEntry.stamp (decoded_entry a)).le
  le_shared _ := (le_iff _ _).mpr le_rfl
  shared_le hab := hab

instance : ExactDeltaValue (LWWRegister N T R) where
  merge_assoc := merge_assoc
  merge_eq_left := merge_eq_left
  merge_decoded := merge_decoded
  shared_eq _ _ := rfl

end LWWRegister
end Commute.Crdt
