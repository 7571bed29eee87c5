import Commute.Server.Store
import Commute.Crdt.Sites

/-!
# Stores that gossip

The state of a cluster is the state of its stores together with every message
and every acknowledgement ever built. A step is one call of a store operation.
A message built by `Delta(j)` is merged only by `j`, in any iteration order of
its maps, and the acknowledgement that merge returns is recorded only at the
sender of the message as one from `j`. Messages and acknowledgements may be
lost, delayed, duplicated and reordered, since any of them may be delivered at
any time or never. No store restarts.

The last three fields of a cluster are history variables: which counter updates
and register writes were accepted, which contexts `GetSet` returned and which
set writes took effect. No store reads them.

The counters, the registers and the sets of a cluster are each a network of
ledgers.
-/
namespace Commute.Server

open Crdt Gossip

structure Packet (A S T R : Type) where
  src : A
  dst : A
  msg : Message S T R

structure AckPacket (A : Type) where
  src : A
  dst : A
  ack : AckMessage

/-- One accepted `IncrementCounter` or `DecrementCounter`. -/
structure CounterUpdate (A S : Type) where
  store : A
  key : S
  isIncrement : Bool
  amount : UInt64

/-- Per key and element: the contexts `GetSet` returned, and where, and the
writes that took effect. -/
structure SetHistory (A S : Type) where
  contexts : S × S → List (A × VV S)
  journal : S × S → Journal S Bool

def SetHistory.empty {A S : Type} : SetHistory A S := ⟨fun _ => [], fun _ => []⟩

structure Cluster (A S T R : Type) where
  store : A → Store A S T R
  sent : List (Packet A S T R)
  acks : List (AckPacket A)
  updates : List (CounterUpdate A S)
  writes : List (S × LWWEntry S T R)
  history : SetHistory A S

abbrev CounterNet (A S : Type) := Network A S (PNCounter S) (List (CounterUpdate A S))
abbrev RegisterNet (A S T R : Type) :=
  Network A S (LWWRegister S T R) (List (S × LWWEntry S T R))
abbrev SetNet (A S : Type) := Network A S (ORSet S S) (SetHistory A S)

/-- Which context may be given to a write of an element at a store. -/
abbrev SetCondition (A S : Type) := SetNet A S → A → S × S → VV S → Prop

variable {A S T R : Type}

/-- The same message with the entries of its maps visited in another order. -/
structure Message.Perm (msg msg' : Message S T R) : Prop where
  countersSeq : msg.countersSeq = msg'.countersSeq
  counters : msg.counters.entries.Perm msg'.counters.entries
  registersSeq : msg.registersSeq = msg'.registersSeq
  registers : msg.registers.entries.Perm msg'.registers.entries
  setsSeq : msg.setsSeq = msg'.setsSeq
  sets : msg.sets.entries.Perm msg'.sets.entries

theorem Message.Perm.refl (msg : Message S T R) : msg.Perm msg := ⟨rfl, .rfl, rfl, .rfl, rfl, .rfl⟩

namespace Cluster

def init (id : A → S) : Cluster A S T R :=
  ⟨fun a => Store.new (id a), [], [], [], [], .empty⟩

def put [DecidableEq A] (a : A) (st : Store A S T R) (w : Cluster A S T R) : Cluster A S T R :=
  { w with store := Function.update w.store a st }

def counters (w : Cluster A S T R) : CounterNet A S where
  ledger a := (w.store a).counters
  sent := w.sent.map fun p => ⟨p.src, p.dst, p.msg.countersSeq, p.msg.counters⟩
  receipts := w.acks.map fun p => ⟨p.src, p.dst, p.ack.countersSeq⟩
  ghost := w.updates

def registers (w : Cluster A S T R) : RegisterNet A S T R where
  ledger a := (w.store a).registers
  sent := w.sent.map fun p => ⟨p.src, p.dst, p.msg.registersSeq, p.msg.registers⟩
  receipts := w.acks.map fun p => ⟨p.src, p.dst, p.ack.registersSeq⟩
  ghost := w.writes

def sets (w : Cluster A S T R) : SetNet A S where
  ledger a := (w.store a).sets
  sent := w.sent.map fun p => ⟨p.src, p.dst, p.msg.setsSeq, p.msg.sets⟩
  receipts := w.acks.map fun p => ⟨p.src, p.dst, p.ack.setsSeq⟩
  ghost := w.history

end Cluster

variable [LinearOrder S] [Inhabited S]

/-- The markers a store has for an element of the set under a key. -/
def SetNet.markers (net : SetNet A S) (a : A) (e : S × S) : DVVSet S Bool :=
  match (net.ledger a).state.lookup e.1 with
  | none => .new
  | some set => set.element e.2

/-- What the stores know of the elements of all sets. -/
def SetNet.sites (net : SetNet A S) : Sites A S (S × S) :=
  ⟨net.markers, net.ghost.contexts, net.ghost.journal⟩

def SetHistory.log (e : S × S) (ev : Event S Bool) (h : SetHistory A S) : SetHistory A S :=
  { h with journal := Function.update h.journal e (ev :: h.journal e) }

/-- `GetSet` of the key returned the contexts `vvs` at the store `a`. -/
def SetHistory.read (a : A) (key : S) (vvs : FMap S (VV S)) (h : SetHistory A S) :
    SetHistory A S :=
  { h with
    contexts := fun e =>
      if e.1 = key then ((vvs.lookup e.2).map fun vv => (a, vv)).toList ++ h.contexts e
      else h.contexts e }

def counterRules (id : A → S) : Rules A S (PNCounter S) (List (CounterUpdate A S)) where
  fresh a := .new (id a)
  write net a key f g :=
    ∃ value, (f = PNCounter.increment value ∧ g = ⟨a, key, true, value⟩ :: net.ghost) ∨
      (f = PNCounter.decrement value ∧ g = ⟨a, key, false, value⟩ :: net.ghost)
  note _ _ := False

def registerRules [Instant T] [Inhabited R] (id : A → S) :
    Rules A S (LWWRegister S T R) (List (S × LWWEntry S T R)) where
  fresh a := .new (id a)
  write net a key f g :=
    ∃ value now, f = LWWRegister.set value now ∧ g = (key, ⟨id a, now, value⟩) :: net.ghost
  note _ _ := False

def setRules (id : A → S) (allowed : SetCondition A S) :
    Rules A S (ORSet S S) (SetHistory A S) where
  fresh a := .new (id a)
  write (net : SetNet A S) a key f g :=
    ∃ value vv marker, allowed net a (key, value) vv ∧ f = ORSet.mark marker value vv ∧
      g = net.ghost.log (key, value) (net.sites.event id a (key, value) vv marker)
  note net g :=
    ∃ a key set, (net.ledger a).state.lookup key = some set ∧
      g = net.ghost.read a key set.causalContexts

namespace Cluster

variable [DecidableEq A]

def incrementCounter (a : A) (key : S) (value : UInt64) (w : Cluster A S T R) :
    Cluster A S T R :=
  { w.put a ((w.store a).incrementCounter key value) with
    updates := ⟨a, key, true, value⟩ :: w.updates }

def decrementCounter (a : A) (key : S) (value : UInt64) (w : Cluster A S T R) :
    Cluster A S T R :=
  { w.put a ((w.store a).decrementCounter key value) with
    updates := ⟨a, key, false, value⟩ :: w.updates }

/-- The write of an element that is about to happen at a store. -/
def event (a : A) (key value : S) (vv : VV S) (marker : Bool) (w : Cluster A S T R) :
    Event S Bool :=
  ⟨(w.store a).nodeID, vv, marker, w.sets.markers a (key, value)⟩

def addSet (a : A) (key value : S) (vv : VV S) (w : Cluster A S T R) : Cluster A S T R :=
  { w.put a ((w.store a).addSet key value vv) with
    history := w.history.log (key, value) (w.event a key value vv true) }

/-- Only the removal of a tracked element is a write. -/
def removeSet (a : A) (key value : S) (vv : VV S) (w : Cluster A S T R) : Cluster A S T R :=
  { w.put a ((w.store a).removeSet key value vv) with
    history :=
      if ((w.store a).sets.state.lookup key).any fun set => (set.state.lookup value).isSome then
        w.history.log (key, value) (w.event a key value vv false)
      else w.history }

theorem removeSet_cases (a : A) (key value : S) (vv : VV S) (w : Cluster A S T R) :
    (w.removeSet a key value vv = w.put a (w.store a)) ∨
      w.removeSet a key value vv = { w.put a { w.store a with
          sets := (w.store a).sets.write (.new (w.store a).nodeID) key
            (ORSet.mark false value vv) } with
        history := w.history.log (key, value) (w.event a key value vv false) } := by
  unfold removeSet Store.removeSet
  cases hs : (w.store a).sets.state.lookup key with
  | none => exact Or.inl rfl
  | some set =>
    cases hv : set.state.lookup value with
    | none => exact Or.inl (by simp [ORSet.remove, hv, ORSet.isZero, put])
    | some ds =>
      right
      have hremove : set.remove value vv = set.mark false value vv := by
        simp [ORSet.remove, hv]
      have hzero : (set.mark false value vv).isZero = false := rfl
      simp [hv, hremove, hzero, Ledger.write, Ledger.valueOr, hs]

def getSet (a : A) (key : S) (w : Cluster A S T R) : Cluster A S T R :=
  { w with history := w.history.read a key ((w.store a).getSet key).2.1 }

variable [Instant T]

def delta (a b : A) (w : Cluster A S T R) : Cluster A S T R :=
  match (w.store a).delta b with
  | (none, st) => w.put a st
  | (some msg, st) => { w.put a st with sent := ⟨a, b, msg⟩ :: w.sent }

theorem delta_history (a b : A) (w : Cluster A S T R) : (w.delta a b).updates = w.updates ∧
    (w.delta a b).writes = w.writes ∧ (w.delta a b).history = w.history := by
  unfold delta
  split <;> exact ⟨rfl, rfl, rfl⟩

def ack (p : AckPacket A) (w : Cluster A S T R) : Cluster A S T R :=
  w.put p.dst ((w.store p.dst).ack p.src p.ack)

variable [Inhabited R]

def setRegister (a : A) (key : S) (value : R) (now : T) (w : Cluster A S T R) :
    Cluster A S T R :=
  { w.put a ((w.store a).setRegister key value now) with
    writes := (key, ⟨(w.store a).nodeID, now, value⟩) :: w.writes }

/-- The receiver of a packet merges its message, visited in the order of `msg`. -/
def merge (p : Packet A S T R) (msg : Message S T R) (w : Cluster A S T R) : Cluster A S T R :=
  { w.put p.dst ((w.store p.dst).merge msg).2 with
    acks := ⟨p.dst, p.src, ((w.store p.dst).merge msg).1⟩ :: w.acks }

def pairID (a : Bool) : String := if a then "a" else "b"

theorem pairID_injective : Function.Injective pairID := by decide

/-- One undisturbed round: `a` builds a message for `b`, which merges it at once and
whose acknowledgement arrives. -/
def exchange (a b : A) (w : Cluster A S T R) : Cluster A S T R :=
  let built := w.delta a b
  match built.sent with
  | [] => built
  | p :: _ =>
    let merged := built.merge p p.msg
    match merged.acks with
    | [] => merged
    | q :: _ => merged.ack q

def exchanges (ps : List (A × A)) (w : Cluster A S T R) : Cluster A S T R :=
  ps.foldl (fun w p => w.exchange p.1 p.2) w

inductive Step (allowed : SetCondition A S) (w : Cluster A S T R) : Cluster A S T R → Prop
  | incrementCounter (a : A) (key : S) (value : UInt64) :
      Step allowed w (w.incrementCounter a key value)
  | decrementCounter (a : A) (key : S) (value : UInt64) :
      Step allowed w (w.decrementCounter a key value)
  | setRegister (a : A) (key : S) (value : R) (now : T) :
      Step allowed w (w.setRegister a key value now)
  | addSet (a : A) (key value : S) (vv : VV S) : allowed w.sets a (key, value) vv →
      Step allowed w (w.addSet a key value vv)
  | removeSet (a : A) (key value : S) (vv : VV S) : allowed w.sets a (key, value) vv →
      Step allowed w (w.removeSet a key value vv)
  | getSet (a : A) (key : S) : Step allowed w (w.getSet a key)
  | delta (a b : A) : Step allowed w (w.delta a b)
  | merge (p : Packet A S T R) (msg : Message S T R) : p ∈ w.sent → msg.Perm p.msg →
      Step allowed w (w.merge p msg)
  | ack (p : AckPacket A) : p ∈ w.acks → Step allowed w (w.ack p)

/-- A step under one condition on contexts is a step under every weaker one. -/
theorem Step.imp {allowed allowed' : SetCondition A S} {w w' : Cluster A S T R}
    (himp : ∀ a e vv, allowed w.sets a e vv → allowed' w.sets a e vv) (h : Step allowed w w') :
    Step allowed' w w' := by
  cases h with
  | incrementCounter a key value => exact .incrementCounter a key value
  | decrementCounter a key value => exact .decrementCounter a key value
  | setRegister a key value now => exact .setRegister a key value now
  | addSet a key value vv hvv => exact .addSet a key value vv (himp a _ vv hvv)
  | removeSet a key value vv hvv => exact .removeSet a key value vv (himp a _ vv hvv)
  | getSet a key => exact .getSet a key
  | delta a b => exact .delta a b
  | merge p msg hp hperm => exact .merge p msg hp hperm
  | ack p hp => exact .ack p hp

/-- The states of the runs of a cluster with the node ids `id`. -/
def Reachable (id : A → S) (allowed : SetCondition A S) : Cluster A S T R → Prop :=
  Relation.ReflTransGen (Step allowed) (init id)

theorem Reachable.step {id : A → S} {allowed : SetCondition A S} {w w' : Cluster A S T R}
    (h : Reachable id allowed w) (hs : Step allowed w w') : Reachable id allowed w' :=
  h.tail hs

theorem Reachable.exchange {id : A → S} {allowed : SetCondition A S} {w : Cluster A S T R}
    (h : Reachable id allowed w) (a b : A) : Reachable id allowed (w.exchange a b) := by
  have hbuilt : Reachable id allowed (w.delta a b) := h.tail (.delta a b)
  unfold Cluster.exchange
  dsimp only
  split
  · exact hbuilt
  · next p _ hsent =>
    have hmerged := hbuilt.tail (.merge p p.msg (hsent ▸ List.mem_cons_self) (.refl _))
    split
    · exact hmerged
    · next q _ hacks => exact hmerged.tail (.ack q (hacks ▸ List.mem_cons_self))

theorem Reachable.exchanges {id : A → S} {allowed : SetCondition A S} {w : Cluster A S T R}
    (h : Reachable id allowed w) (ps : List (A × A)) :
    Reachable id allowed (w.exchanges ps) := by
  induction ps generalizing w with
  | nil => exact h
  | cons p ps ih => exact ih (h.exchange p.1 p.2)

end Cluster
end Commute.Server
