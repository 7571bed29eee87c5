import Commute.Crdt.ORSet64

/-!
# The sets of a `Store`, with the arithmetic of the machine

The part of a store that `muSets` guards. Its operations are those of `Store`
on sets; they run on machine words and may panic.
-/
namespace Commute.Server

open Crdt Gossip

structure SetStore (A S : Type) where
  nodeID : S
  sets : Ledger A S (ORSet64 S S)

namespace SetStore

variable {A S : Type}

def new (nodeID : S) : SetStore A S := ⟨nodeID, .new⟩

variable [DecidableEq S]

/-- The values of the set, the causal context of every element it tracks, and
whether the set exists. -/
def getSet (key : S) (st : SetStore A S) : List S × FMap S (VV64 S) × Bool :=
  match st.sets.state.lookup key with
  | none => ([], ∅, false)
  | some set => (set.values, set.causalContexts, true)

/-- The markers of an element of the set under a key, if the store tracks it. -/
def markers (key value : S) (st : SetStore A S) : Option (DVVSet64 S Bool) :=
  (st.sets.state.lookup key).bind fun set => set.state.lookup value

variable [Inhabited S]

def addSet (key value : S) (vv : VV64 S) (st : SetStore A S) : Except Fault (SetStore A S) :=
  (st.sets.writeM (.new st.nodeID) key (ORSet64.add value vv)).map fun sets =>
    { st with sets := sets }

/-- A no-op if the set does not exist here or does not track the value. -/
def removeSet (key value : S) (vv : VV64 S) (st : SetStore A S) : Except Fault (SetStore A S) :=
  match st.sets.state.lookup key with
  | none => .ok st
  | some set => do
    let d ← set.remove value vv
    if d.isZero then .ok st
    else (st.sets.joinM (.new st.nodeID) key d).map fun sets => { st with sets := sets }

/-- The sets of a gossip message, key by key in the order of its map. -/
def mergeSets (payload : FMap S (Option (ORSet64 S S))) (st : SetStore A S) :
    Except Fault (SetStore A S) :=
  (st.sets.mergeAllM (.new st.nodeID) payload).map fun sets => { st with sets := sets }

def ackSets [DecidableEq A] (sender : A) (seq : ℕ) (st : SetStore A S) : SetStore A S :=
  { st with sets := st.sets.ack sender seq }

/-- The sequence number and the sets that a peer reads from the message for it, if there
is news for it. -/
def deltaSets [DecidableEq A] (peer : A) (st : SetStore A S) :
    Except Fault (Option (ℕ × FMap S (Option (ORSet64 S S))) × SetStore A S) :=
  (st.sets.deltaM peer).map fun r =>
    (r.1.map fun p => (p.1, FMap.mapVals (fun _ set => some set.decoded) p.2),
      { st with sets := r.2 })

/-- The write that `addSet` and the removal of a tracked element are. -/
def markSet (marker : Bool) (key value : S) (vv : VV64 S) (st : SetStore A S) :
    Except Fault (SetStore A S) :=
  (st.sets.writeM (.new st.nodeID) key (ORSet64.mark marker value vv)).map fun sets =>
    { st with sets := sets }

theorem addSet_eq_markSet (key value : S) (vv : VV64 S) (st : SetStore A S) :
    st.addSet key value vv = st.markSet true key value vv := rfl

theorem removeSet_of_markers {key value : S} {st : SetStore A S} {ds : DVVSet64 S Bool}
    (h : st.markers key value = some ds) (vv : VV64 S) :
    st.removeSet key value vv = st.markSet false key value vv := by
  obtain ⟨set, hset, hds⟩ := Option.bind_eq_some_iff.mp h
  unfold removeSet markSet Ledger.writeM
  rw [hset, Ledger.valueOr_of_some _ hset]
  unfold ORSet64.remove
  dsimp only
  rw [hds]
  unfold ORSet64.mark
  cases (set.element value).update set.nodeID vv false with
  | error e => rfl
  | ok u => rfl

theorem removeSet_of_none {key value : S} {st : SetStore A S} (h : st.markers key value = none)
    (vv : VV64 S) : st.removeSet key value vv = .ok st := by
  unfold removeSet
  cases hset : st.sets.state.lookup key with
  | none => rfl
  | some set =>
    have hvalue : set.state.lookup value = none := by simpa [markers, hset] using h
    simp only [ORSet64.remove, hvalue]
    rfl

end SetStore
end Commute.Server
