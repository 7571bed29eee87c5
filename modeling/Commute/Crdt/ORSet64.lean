import Commute.Crdt.DVVSet64
import Commute.Gossip.CheckedLedger

/-!
# `ORSet` with the arithmetic of the machine

The set of `ORSet`, with markers whose counters are machine words, so that a
write or a merge may panic. A write is merged into the set as a delta; `Marked`
says what that leaves in the set.
-/
namespace Commute.Crdt

open Gossip

structure ORSet64 (N E : Type) where
  nodeID : N
  state : FMap E (DVVSet64 N Bool)

namespace ORSet64

variable {N E : Type} [DecidableEq E]

def new (nodeID : N) : ORSet64 N E := ⟨nodeID, ∅⟩

def isZero (s : ORSet64 N E) : Bool := s.state.entries.isEmpty

def causalContexts (s : ORSet64 N E) : FMap E (VV64 N) :=
  FMap.mapVals (fun _ ds => ds.join) s.state

def contains (value : E) (s : ORSet64 N E) : Bool :=
  match s.state.lookup value with
  | none => false
  | some ds => ds.values.any fun v => v

def values (s : ORSet64 N E) : List E := s.state.keys.filter fun value => s.contains value

/-- The markers of an element, none for an element that is not tracked. -/
def element (value : E) (s : ORSet64 N E) : DVVSet64 N Bool := (s.state.lookup value).getD .new

theorem mem_values (value : E) (s : ORSet64 N E) : value ∈ s.values ↔ s.contains value = true := by
  unfold values
  rw [List.mem_filter, and_iff_right_iff_imp]
  intro h
  rw [← AList.mem_keys, ← AList.lookup_isSome]
  unfold contains at h
  cases hl : s.state.lookup value with
  | none => simp [hl] at h
  | some ds => rfl

def All (P : DVVSet64 N Bool → Prop) (s : ORSet64 N E) : Prop :=
  ∀ value ds, s.state.lookup value = some ds → P ds

theorem All.element {P : DVVSet64 N Bool → Prop} {s : ORSet64 N E} (h : s.All P) (hnew : P .new)
    (value : E) : P (s.element value) := by
  unfold ORSet64.element
  cases hl : s.state.lookup value with
  | none => exact hnew
  | some ds => exact h value ds hl

variable [DecidableEq N]

def mark [Inhabited N] (marker : Bool) (value : E) (vv : VV64 N) (s : ORSet64 N E) :
    Except Fault (ORSet64 N E) :=
  ((s.element value).update s.nodeID vv marker).map fun ds =>
    ⟨default, AList.singleton value ds⟩

def add [Inhabited N] (value : E) (vv : VV64 N) (s : ORSet64 N E) : Except Fault (ORSet64 N E) :=
  s.mark true value vv

/-- Removing an element that was never added yields the empty delta. -/
def remove [Inhabited N] (value : E) (vv : VV64 N) (s : ORSet64 N E) :
    Except Fault (ORSet64 N E) :=
  match s.state.lookup value with
  | none => .ok ⟨default, ∅⟩
  | some _ => s.mark false value vv

/-- What the loop of `Merge` does for an element of the other side. -/
def mergeVisit (own : Option (DVVSet64 N Bool)) (ds : DVVSet64 N Bool) :
    Except Fault (DVVSet64 N Bool) :=
  match own with
  | none => .ok ds
  | some mine => mine.sync ds

def merge (s other : ORSet64 N E) : Except Fault (ORSet64 N E) :=
  (FMap.upsertAllM (fun _ => mergeVisit) other.state s.state).map fun state => ⟨s.nodeID, state⟩

def isLessOrEqual (s other : ORSet64 N E) : Bool :=
  s.state.entries.all fun e =>
    match other.state.lookup e.1 with
    | none => false
    | some ds => e.2.isLessOrEqual ds

/-- Reading back the encoding, which does not contain the owner. -/
def decoded [Inhabited N] (s : ORSet64 N E) : ORSet64 N E := ⟨default, s.state⟩

/-- A delta interval clones sets, so it shares no storage with the log. -/
instance : CheckedValue Fault (ORSet64 N E) where
  nilPointer := .panic
  merge := merge
  isLessOrEqual s other := .ok (s.isLessOrEqual other)
  clone := .ok
  shared s _ := s

theorem contains_eq_true_iff {value : E} {s : ORSet64 N E} {ds : DVVSet64 N Bool}
    (h : s.state.lookup value = some ds) :
    s.contains value = true ↔ ∃ i e, ds.state.lookup i = some e ∧ true ∈ e.values := by
  unfold contains DVVSet64.values
  rw [h]
  simp [FMap.mem_entries_iff]

/-- The markers of `value` are those of `s` after `Update`, and nothing else changed. -/
structure Marked (marker : Bool) (value : E) (vv : VV64 N) (s s' : ORSet64 N E) : Prop where
  nodeID : s'.nodeID = s.nodeID
  exact : ∃ u w, (s.element value).update s.nodeID vv marker = .ok u ∧
    s'.state.lookup value = some w ∧ ∀ i, w.state.lookup i = u.state.lookup i
  others : ∀ other, other ≠ value → s'.state.lookup other = s.state.lookup other

theorem merge_mark [Inhabited N] (marker : Bool) (value : E) (vv : VV64 N) {s : ORSet64 N E}
    {m : ℕ} (h : (s.element value).Below (2 ^ 63) m) (hm : m < 2 ^ 62)
    (hvv : VV64.Below (2 ^ 62) vv) :
    ∃ d s', s.mark marker value vv = .ok d ∧ s.merge d = .ok s' ∧ Marked marker value vv s s' := by
  obtain ⟨u, w, hu, hw, hlookup⟩ := DVVSet64.sync_update s.nodeID vv marker h hm hvv
  have hmark : s.mark marker value vv = .ok ⟨default, AList.singleton value u⟩ := by
    rw [mark, hu]
    rfl
  have hvisit : ∃ w', mergeVisit (s.state.lookup value) u = .ok w' ∧
      ∀ i, w'.state.lookup i = u.state.lookup i := by
    cases hs : s.state.lookup value with
    | none => exact ⟨u, rfl, fun _ => rfl⟩
    | some mine =>
      have hmine : s.element value = mine := by simp [element, hs]
      exact ⟨w, hmine ▸ hw, hlookup⟩
  obtain ⟨w', hw', hlookup'⟩ := hvisit
  obtain ⟨state, hstate, hmerged⟩ :=
    FMap.upsertAllM_eq_ok (f := fun _ => mergeVisit) (AList.singleton value u) s.state
      (fun _ _ => w') (by
        intro k b hb
        rw [FMap.lookup_singleton] at hb
        split_ifs at hb with hk
        subst hk
        rwa [← Option.some.inj hb])
  refine ⟨_, ⟨s.nodeID, state⟩, hmark, ?_, rfl, ⟨u, w', hu, ?_, hlookup'⟩, ?_⟩
  · rw [merge, hstate]
    rfl
  · rw [hmerged, FMap.lookup_singleton, if_pos rfl]
  · intro other hother
    rw [hmerged, FMap.lookup_singleton, if_neg hother]

section Bounds

variable {b : ℕ}

theorem safe_upTo {K : Type} (hb : b < 2 ^ 63) :
    Safe (fun _ => False) fun (_ : K) (s : ORSet64 N E) => s.All (DVVSet64.UpTo b) where
  merge := by
    intro _ s other hs hother
    refine Outcome.map (FMap.upsertAllM_outcome ?_ hs) fun _ hm => hm
    intro value own ds hds hown
    cases own with
    | none => exact hother value ds hds
    | some mine => exact (hown mine rfl).sync (hother value ds hds) hb
  isLessOrEqual := fun _ _ => trivial
  clone := fun h => h
  shared := fun h _ => h

theorem all_mark [Inhabited N] {s : ORSet64 N E} (h : s.All (DVVSet64.UpTo b)) (hb : b < 2 ^ 63)
    {vv : VV64 N} {c : ℕ} (hvv : VV64.Below c vv) (hc : c ≤ b) (marker : Bool) (value : E) :
    Outcome (fun _ => False) (All (DVVSet64.UpTo (b + 1))) (s.mark marker value vv) := by
  refine ((h.element .new value).update hb hvv hc s.nodeID marker).map fun u hu => ?_
  intro value' ds hds
  rw [FMap.lookup_singleton] at hds
  split_ifs at hds
  exact Option.some.inj hds ▸ hu

end Bounds

end ORSet64
end Commute.Crdt
