import Commute.Foundation.Machine
import Commute.Server.RawStore

/-!
# Stores that exchange documents

The cluster once more, now of stores that are built from pointers and 64-bit words
and that read each other's messages and acknowledgements from JSON documents. A
call of a store may panic, and then the run is over.

A document may get lost, arrive late, more than once and in any order, but only at
the store it was sent to. A peer visits the maps it has read in any order. What
`GetSet` returned is remembered as a history variable that no store reads.
-/
namespace Commute.Server

open Crdt Gossip Json

def AckMessage.marshalJSON (ack : AckMessage) : Json :=
  .obj [("countersSeq".toList, .nat (UInt64.ofNat ack.countersSeq).toNat),
    ("registersSeq".toList, .nat (UInt64.ofNat ack.registersSeq).toNat),
    ("setsSeq".toList, .nat (UInt64.ofNat ack.setsSeq).toNat)]

def AckMessage.unmarshalJSON : Decoder AckMessage :=
  struct (fun key j ack =>
    if named "countersSeq" key then
      (uint64 (UInt64.ofNat ack.countersSeq) j).map fun seq =>
        { ack with countersSeq := seq.toNat }
    else if named "registersSeq" key then
      (uint64 (UInt64.ofNat ack.registersSeq) j).map fun seq =>
        { ack with registersSeq := seq.toNat }
    else if named "setsSeq" key then
      (uint64 (UInt64.ofNat ack.setsSeq) j).map fun seq => { ack with setsSeq := seq.toNat }
    else .ok ack) ⟨0, 0, 0⟩

/-- The body of a request that `src` sends to `dst`. -/
structure Posted (A : Type) where
  src : A
  dst : A
  body : Json

structure RawCluster (A T : Type) where
  store : A → RawStore A T
  sent : List (Posted A)
  acks : List (Posted A)
  contexts : ByteString × ByteString → List (A × VV64 ByteString)

inductive RawCall (A T : Type) where
  | incrementCounter (a : A) (key : ByteString) (value : UInt64)
  | decrementCounter (a : A) (key : ByteString) (value : UInt64)
  | setRegister (a : A) (key : ByteString) (value : Json) (now : T)
  | addSet (a : A) (key : ByteString) (value : List Char) (vv : VV64 ByteString)
  | removeSet (a : A) (key : ByteString) (value : List Char) (vv : VV64 ByteString)
  | getSet (a : A) (key : ByteString)
  | delta (a b : A)
  | gossip (p : Posted A) (msg : WireMessage T)
  | ack (p : Posted A)

def RawCall.isSetWrite {A T : Type} : RawCall A T → Bool
  | addSet .. => true
  | removeSet .. => true
  | _ => false

/-- The same message with the entries of its maps visited in another order. -/
structure WireMessage.Perm {T : Type} (msg msg' : WireMessage T) : Prop where
  countersSeq : msg.countersSeq = msg'.countersSeq
  counters : (msg.counters.getD ∅).entries.Perm (msg'.counters.getD ∅).entries
  registersSeq : msg.registersSeq = msg'.registersSeq
  registers : (msg.registers.getD ∅).entries.Perm (msg'.registers.getD ∅).entries
  setsSeq : msg.setsSeq = msg'.setsSeq
  sets : (msg.sets.getD ∅).entries.Perm (msg'.sets.getD ∅).entries

namespace RawCluster

variable {A T : Type}

def init (id : A → ByteString) : RawCluster A T := ⟨fun a => .new (id a), [], [], fun _ => []⟩

/-- `GetSet` of the key returned the contexts `vvs` at the store `a`. -/
def read (a : A) (key : ByteString) (vvs : FMap ByteString (VV64 ByteString))
    (w : RawCluster A T) : RawCluster A T :=
  { w with
    contexts := fun e =>
      if e.1 = key then ((vvs.lookup e.2).map fun vv => (a, vv)).toList ++ w.contexts e
      else w.contexts e }

/-- A client of the store `a` passes on a context that the same store returned to it for the
same element, or none. -/
def OwnReturned (a : A) (e : ByteString × ByteString) (vv : VV64 ByteString)
    (w : RawCluster A T) : Prop :=
  (∀ i, vv.lookup i = none) ∨
    ∃ vv', (a, vv') ∈ w.contexts e ∧ ∀ i, vv.lookup i = vv'.lookup i

/-- The sequence numbers of a store are 64-bit words. -/
def SeqsFit (a : A) (w : RawCluster A T) : Prop :=
  (w.store a).counters.seq < 2 ^ 64 ∧ (w.store a).registers.seq < 2 ^ 64 ∧
    (w.store a).sets.seq < 2 ^ 64

/-- Keys are valid UTF-8, contexts go back to the store they come from, and no sequence
number that is sent has left its range. -/
def Ordinary : RawCall A T → RawCluster A T → Prop
  | .incrementCounter _ key _, _ => Valid key
  | .decrementCounter _ key _, _ => Valid key
  | .setRegister _ key _ _, _ => Valid key
  | .addSet a key value vv, w => Valid key ∧ w.OwnReturned a (key, decodeString value) vv
  | .removeSet a key value vv, w => Valid key ∧ w.OwnReturned a (key, decodeString value) vv
  | .delta a _, w => w.SeqsFit a
  | _, _ => True

variable [DecidableEq A]

def put (a : A) (st : RawStore A T) (w : RawCluster A T) : RawCluster A T :=
  { w with store := Function.update w.store a st }

variable [TimeText T]

/-- A document is read by the store it was sent to. -/
def Enabled : RawCall A T → RawCluster A T → Prop
  | .gossip p msg, w => p ∈ w.sent ∧ ∃ m, WireMessage.unmarshalJSON p.body = .ok m ∧ msg.Perm m
  | .ack p, w => p ∈ w.acks
  | _, _ => True

def call : RawCall A T → RawCluster A T → Except Trap (RawCluster A T)
  | .incrementCounter a key value, w =>
    ((w.store a).incrementCounter key value).map fun st => w.put a st
  | .decrementCounter a key value, w =>
    ((w.store a).decrementCounter key value).map fun st => w.put a st
  | .setRegister a key value now, w =>
    ((w.store a).setRegister key value now).map fun st => w.put a st
  | .addSet a key value vv, w =>
    ((w.store a).addSet key (decodeString value) vv).map fun st => w.put a st
  | .removeSet a key value vv, w =>
    ((w.store a).removeSet key (decodeString value) vv).map fun st => w.put a st
  | .getSet a key, w => ((w.store a).getSet key).map fun r => w.read a key r.2.1
  | .delta a b, w => ((w.store a).delta b).map fun r =>
    { w.put a r.2 with sent := (r.1.map fun out => ⟨a, b, out.marshalJSON⟩).toList ++ w.sent }
  | .gossip p msg, w => ((w.store p.dst).merge msg).map fun r =>
    { w.put p.dst r.2 with acks := ⟨p.dst, p.src, r.1.marshalJSON⟩ :: w.acks }
  | .ack p, w =>
    match AckMessage.unmarshalJSON p.body with
    | .error _ => .ok w
    | .ok body => .ok (w.put p.dst ((w.store p.dst).ack p.src body))

/-- Calls one after the other, until one of them panics. -/
def machine : Machine (Except Trap (RawCluster A T)) (RawCall A T) where
  enabled k s := ∀ w, s = .ok w → Enabled k w
  exec k s := s >>= call k

/-- The runs of clients that do as the interface asks. -/
def ordinaryRuns : Machine (Except Trap (RawCluster A T)) (RawCall A T) :=
  machine.restrict fun k s => ∀ w, s = .ok w → Ordinary k w

end RawCluster
end Commute.Server
