import Commute.Server.Cluster

/-!
# The locked sections of a store

`Delta`, `Merge` and `Ack` take the locks of the counters, the registers and the sets one
after the other and hold one of them at a time. Another goroutine may run between two
sections, so each section is a step of its own. Run without interruption, the sections do
what the calls are modelled to do as a whole.
-/
namespace Commute.Server

open Crdt Gossip

/-- The locks of a store, in the order in which calls take them. -/
inductive Lock where
  | counters
  | registers
  | sets
deriving DecidableEq

def Lock.next : Lock → Option Lock
  | .counters => some .registers
  | .registers => some .sets
  | .sets => none

/-- The local variables of `Delta`: for every type the sequence number and the encoded
entries, or nothing. -/
structure Draft (S T R : Type) where
  counters : Option (ℕ × FMap S (PNCounter S))
  registers : Option (ℕ × FMap S (LWWRegister S T R))
  sets : Option (ℕ × FMap S (ORSet S S))

namespace Draft

variable {S T R : Type}

def empty : Draft S T R := ⟨none, none, none⟩

def message (d : Draft S T R) : Option (Message S T R) :=
  if d.counters.isNone ∧ d.registers.isNone ∧ d.sets.isNone then none
  else some
    { countersSeq := (d.counters.getD (0, ∅)).1
      counters := (d.counters.getD (0, ∅)).2
      registersSeq := (d.registers.getD (0, ∅)).1
      registers := (d.registers.getD (0, ∅)).2
      setsSeq := (d.sets.getD (0, ∅)).1
      sets := (d.sets.getD (0, ∅)).2 }

end Draft

namespace Store

variable {A S T R : Type} [LinearOrder S] [Inhabited S] [Instant T]

def mergeSection [Inhabited R] (lock : Lock) (msg : Message S T R) (st : Store A S T R) :
    Store A S T R :=
  match lock with
  | .counters => { st with counters := st.counters.mergeAll (.new st.nodeID) msg.counters }
  | .registers => { st with registers := st.registers.mergeAll (.new st.nodeID) msg.registers }
  | .sets => { st with sets := st.sets.mergeAll (.new st.nodeID) msg.sets }

theorem merge_eq_sections [Inhabited R] (msg : Message S T R) (st : Store A S T R) :
    (st.merge msg).2 =
      ((st.mergeSection .counters msg).mergeSection .registers msg).mergeSection .sets msg :=
  rfl

variable [DecidableEq A]

def ackSection (lock : Lock) (sender : A) (body : AckMessage) (st : Store A S T R) :
    Store A S T R :=
  match lock with
  | .counters => { st with counters := st.counters.ack sender body.countersSeq }
  | .registers => { st with registers := st.registers.ack sender body.registersSeq }
  | .sets => { st with sets := st.sets.ack sender body.setsSeq }

omit [Inhabited S] [Instant T] [LinearOrder S] in
theorem ack_eq_sections (sender : A) (body : AckMessage) (st : Store A S T R) :
    st.ack sender body = ((st.ackSection .counters sender body).ackSection .registers sender
      body).ackSection .sets sender body :=
  rfl

def deltaSection (lock : Lock) (peer : A) (d : Draft S T R) (st : Store A S T R) :
    Draft S T R × Store A S T R :=
  match lock with
  | .counters =>
    ({ d with counters := (st.counters.delta peer).1 },
      { st with counters := (st.counters.delta peer).2 })
  | .registers =>
    ({ d with registers := (st.registers.delta peer).1 },
      { st with registers := (st.registers.delta peer).2 })
  | .sets =>
    ({ d with sets := (st.sets.delta peer).1 }, { st with sets := (st.sets.delta peer).2 })

theorem delta_snd_of_none {K V : Type} [DecidableEq K] [DeltaValue V] {peer : A}
    {l : Ledger A K V} (h : (l.delta peer).1 = none) : (l.delta peer).2 = l := by
  rcases Ledger.delta_cases peer l with ⟨-, he⟩ | ⟨-, -, he⟩ | ⟨-, -, he⟩
  · rw [he]
  · rw [he] at h
    cases h
  · rw [he]

theorem delta_eq_sections (peer : A) (st : Store A S T R) :
    let counters := st.deltaSection .counters peer .empty
    let registers := counters.2.deltaSection .registers peer counters.1
    let sets := registers.2.deltaSection .sets peer registers.1
    st.delta peer = (sets.1.message, sets.2) := by
  dsimp only [deltaSection, Draft.empty, Draft.message]
  unfold delta
  dsimp only
  split_ifs with h
  · simp only [Option.isNone_iff_eq_none] at h
    rw [delta_snd_of_none h.1, delta_snd_of_none h.2.1, delta_snd_of_none h.2.2]
  · rfl

end Store
end Commute.Server
