import Commute.Crdt.Counter
import Commute.Crdt.Register
import Commute.Crdt.ORSet

/-!
# `Store`: the CRDT state of one node

Counters, registers and sets each have a ledger of their own; the store's
operations are the ledger's operations with the deltas of the CRDT types. Keys,
elements and node ids are strings of type `S`, peers are named by `A`,
timestamps are of type `T` and register values of type `R`.

A message is what a peer reads from the JSON that `Delta` builds. A part that
`Delta` leaves out is encoded as `null` under the sequence number zero and read
as an empty map.
-/
namespace Commute.Server

open Crdt Gossip

structure Message (S T R : Type) where
  countersSeq : ℕ
  counters : FMap S (PNCounter S)
  registersSeq : ℕ
  registers : FMap S (LWWRegister S T R)
  setsSeq : ℕ
  sets : FMap S (ORSet S S)

structure AckMessage where
  countersSeq : ℕ
  registersSeq : ℕ
  setsSeq : ℕ
deriving DecidableEq

structure Store (A S T R : Type) where
  nodeID : S
  counters : Ledger A S (PNCounter S)
  registers : Ledger A S (LWWRegister S T R)
  sets : Ledger A S (ORSet S S)

namespace Store

variable {A S T R : Type}

def new (nodeID : S) : Store A S T R := ⟨nodeID, .new, .new, .new⟩

variable [LinearOrder S] [Inhabited S]

def incrementCounter (key : S) (value : UInt64) (st : Store A S T R) : Store A S T R :=
  { st with counters := st.counters.write (.new st.nodeID) key (PNCounter.increment value) }

def decrementCounter (key : S) (value : UInt64) (st : Store A S T R) : Store A S T R :=
  { st with counters := st.counters.write (.new st.nodeID) key (PNCounter.decrement value) }

def getCounter (key : S) (st : Store A S T R) : Int64 × Bool :=
  match st.counters.state.lookup key with
  | none => (0, false)
  | some counter => (counter.value, true)

/-- The values of the set, the causal context of every element it tracks, and
whether the set exists. -/
def getSet (key : S) (st : Store A S T R) : List S × FMap S (VV S) × Bool :=
  match st.sets.state.lookup key with
  | none => ([], ∅, false)
  | some set => (set.values, set.causalContexts, true)

def addSet (key value : S) (vv : VV S) (st : Store A S T R) : Store A S T R :=
  { st with sets := st.sets.write (.new st.nodeID) key (ORSet.add value vv) }

/-- A no-op if the set does not exist here or does not track the value. -/
def removeSet (key value : S) (vv : VV S) (st : Store A S T R) : Store A S T R :=
  match st.sets.state.lookup key with
  | none => st
  | some set =>
    if (set.remove value vv).isZero then st
    else { st with sets := st.sets.join (.new st.nodeID) key (set.remove value vv) }

theorem removeSet_counters (key value : S) (vv : VV S) (st : Store A S T R) :
    (st.removeSet key value vv).counters = st.counters := by
  unfold Store.removeSet
  split
  · rfl
  · split_ifs <;> rfl

theorem removeSet_registers (key value : S) (vv : VV S) (st : Store A S T R) :
    (st.removeSet key value vv).registers = st.registers := by
  unfold Store.removeSet
  split
  · rfl
  · split_ifs <;> rfl

variable [Instant T]

/-- A write that reads `now` from the store's clock. -/
def setRegister [Inhabited R] (key : S) (value : R) (now : T) (st : Store A S T R) :
    Store A S T R :=
  { st with registers := st.registers.write (.new st.nodeID) key (LWWRegister.set value now) }

def getRegister [Inhabited R] (key : S) (st : Store A S T R) : R × Bool :=
  match st.registers.state.lookup key with
  | none => (default, false)
  | some register => (register.value, true)

/-- Incorporate a gossip message, key by key in the order of its maps. -/
def merge [Inhabited R] (msg : Message S T R) (st : Store A S T R) : AckMessage × Store A S T R :=
  (⟨msg.countersSeq, msg.registersSeq, msg.setsSeq⟩,
    { st with
      counters := st.counters.mergeAll (.new st.nodeID) msg.counters
      registers := st.registers.mergeAll (.new st.nodeID) msg.registers
      sets := st.sets.mergeAll (.new st.nodeID) msg.sets })

variable [DecidableEq A]

def ack (sender : A) (body : AckMessage) (st : Store A S T R) : Store A S T R :=
  { st with
    counters := st.counters.ack sender body.countersSeq
    registers := st.registers.ack sender body.registersSeq
    sets := st.sets.ack sender body.setsSeq }

/-- The gossip message for a peer, `none` if there is no news of any type, and
the store with the counter log that building the message may have modified. -/
def delta (peer : A) (st : Store A S T R) : Option (Message S T R) × Store A S T R :=
  let counters := st.counters.delta peer
  let registers := st.registers.delta peer
  let sets := st.sets.delta peer
  if counters.1.isNone ∧ registers.1.isNone ∧ sets.1.isNone then (none, st)
  else
    (some
      { countersSeq := (counters.1.getD (0, ∅)).1
        counters := (counters.1.getD (0, ∅)).2
        registersSeq := (registers.1.getD (0, ∅)).1
        registers := (registers.1.getD (0, ∅)).2
        setsSeq := (sets.1.getD (0, ∅)).1
        sets := (sets.1.getD (0, ∅)).2 },
      { st with counters := counters.2, registers := registers.2, sets := sets.2 })

theorem delta_eq_none {peer : A} {st : Store A S T R} (h : (st.delta peer).1 = none) :
    (st.delta peer).2 = st := by
  unfold delta at h ⊢
  dsimp only at h ⊢
  split_ifs at h ⊢
  rfl

theorem delta_eq_some {peer : A} {st : Store A S T R} {msg : Message S T R}
    (h : (st.delta peer).1 = some msg) :
    (st.delta peer).2 = { st with
      counters := (st.counters.delta peer).2
      registers := (st.registers.delta peer).2
      sets := (st.sets.delta peer).2 } ∧
    msg = ⟨((st.counters.delta peer).1.getD (0, ∅)).1, ((st.counters.delta peer).1.getD (0, ∅)).2,
      ((st.registers.delta peer).1.getD (0, ∅)).1, ((st.registers.delta peer).1.getD (0, ∅)).2,
      ((st.sets.delta peer).1.getD (0, ∅)).1, ((st.sets.delta peer).1.getD (0, ∅)).2⟩ := by
  unfold delta at h ⊢
  dsimp only at h ⊢
  split_ifs at h ⊢
  exact ⟨rfl, (Option.some.inj h).symm⟩

end Store
end Commute.Server
