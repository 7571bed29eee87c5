import Commute.Foundation.Machine
import Commute.Server.Notify
import Commute.Server.Sections

/-!
# Servers that gossip, one locked section at a time

Every server has a store, the addresses it gossips with, a gossip loop that is inside
`Delta` or waits for its ticker, and any number of handlers inside `Merge` or `Ack`. A
server is named by the address it advertises. A request that was sent may arrive at any
time, more than once or never, and a handler drops it unless the sender is a peer at that
moment. Between two sections of a call every other goroutine of every server may run.

The last four fields of the state are history variables: what was written, and of which
writes every server has heard. A request carries what its sender had heard of in the
section that built each part of the message. No server reads them.
-/
namespace Commute.Server

open Crdt Gossip Swim

/-- The events of the three types that were heard of: numbers of counter updates, of
register writes, and of writes in the journal of each set element. -/
structure Past (S : Type) where
  counters : Finset ℕ
  registers : Finset ℕ
  sets : Finset ((S × S) × ℕ)

namespace Past

variable {S : Type}

def none : Past S := ⟨∅, ∅, ∅⟩

def record (p : Past S) (lock : Lock) (now : Past S) : Past S :=
  match lock with
  | .counters => { p with counters := now.counters }
  | .registers => { p with registers := now.registers }
  | .sets => { p with sets := now.sets }

/-- A section under a lock hears of what a message part carries. -/
def hear [DecidableEq S] (p : Past S) (lock : Lock) (carried : Past S) : Past S :=
  match lock with
  | .counters => { p with counters := p.counters ∪ carried.counters }
  | .registers => { p with registers := p.registers ∪ carried.registers }
  | .sets => { p with sets := p.sets ∪ carried.sets }

end Past

/-- A call of `Delta` before the section under `lock`. -/
structure DeltaCall (S T R : Type) where
  peer : Bytes
  lock : Lock
  draft : Draft S T R
  past : Past S

/-- A request to `/internal/gossip` with the `X-Node-Addr` header `src`. -/
structure GossipRequest (S T R : Type) where
  src : Bytes
  dst : Bytes
  msg : Message S T R
  past : Past S

/-- A call of `Merge` in a handler of `node` before the section under `lock`. -/
structure MergeCall (S T R : Type) where
  node : Bytes
  sender : Bytes
  msg : Message S T R
  lock : Lock
  past : Past S

/-- A call of `Ack` in a handler of `node` before the section under `lock`. -/
structure AckCall where
  node : Bytes
  sender : Bytes
  body : AckMessage
  lock : Lock

structure ServerState (S T R : Type) where
  store : Store Bytes S T R
  peers : List Bytes
  loop : Option (DeltaCall S T R)

structure Servers (S T R : Type) where
  server : Bytes → ServerState S T R
  requests : List (GossipRequest S T R)
  merging : List (MergeCall S T R)
  acks : List (AckPacket Bytes)
  acking : List AckCall
  updates : List (CounterUpdate Bytes S)
  writes : List (S × LWWEntry S T R)
  history : SetHistory Bytes S
  past : Bytes → Past S

namespace Servers

variable {S T R : Type}

/-- Servers that have just started; the one at `a` has the node id `id a`. -/
def init (id : Bytes → S) : Servers S T R :=
  { server := fun a => ⟨.new (id a), [], none⟩
    requests := [], merging := [], acks := [], acking := []
    updates := [], writes := [], history := .empty, past := fun _ => .none }

def put (a : Bytes) (srv : ServerState S T R) (w : Servers S T R) : Servers S T R :=
  { w with server := Function.update w.server a srv }

def putStore (a : Bytes) (st : Store Bytes S T R) (w : Servers S T R) : Servers S T R :=
  w.put a { w.server a with store := st }

def putPast (a : Bytes) (p : Past S) (w : Servers S T R) : Servers S T R :=
  { w with past := Function.update w.past a p }

def store (w : Servers S T R) (a : Bytes) : Store Bytes S T R := (w.server a).store

inductive Action (S T R : Type) where
  | incrementCounter (a : Bytes) (key : S) (value : UInt64)
  | decrementCounter (a : Bytes) (key : S) (value : UInt64)
  | setRegister (a : Bytes) (key : S) (value : R) (now : T)
  | addSet (a : Bytes) (key value : S) (vv : VV S)
  | removeSet (a : Bytes) (key value : S) (vv : VV S)
  | getSet (a : Bytes) (key : S)
  | notify (a : Bytes) (peer : Peer) (kind : EventKind)
  | tick (a : Bytes) (draw : ℕ)
  | delta (a : Bytes)
  | postGossip (i : ℕ) (msg : Message S T R)
  | merge (i : ℕ)
  | postAck (i : ℕ)
  | ack (i : ℕ)

def notify (a : Bytes) (peer : Peer) (kind : EventKind) (w : Servers S T R) : Servers S T R :=
  w.put a { w.server a with peers := Server.notify peer kind (w.server a).peers }

/-- The ticker fires, and the loop enters `Delta` for the peer that was drawn. -/
def tick (a : Bytes) (draw : ℕ) (w : Servers S T R) : Servers S T R :=
  match (w.server a).peers[draw]? with
  | none => w
  | some peer =>
    w.put a { w.server a with loop := some ⟨peer, .counters, .empty, .none⟩ }

/-- `postGossip` rejects a sender that is not a peer; the maps of the body are visited in
the order of `msg`. -/
def postGossip (i : ℕ) (msg : Message S T R) (w : Servers S T R) : Servers S T R :=
  match w.requests[i]? with
  | none => w
  | some r =>
    if (w.server r.dst).peers.contains r.src then
      { w with merging := ⟨r.dst, r.src, msg, .counters, r.past⟩ :: w.merging }
    else w

def postAck (i : ℕ) (w : Servers S T R) : Servers S T R :=
  match w.acks[i]? with
  | none => w
  | some p =>
    if (w.server p.dst).peers.contains p.src then
      { w with acking := ⟨p.dst, p.src, p.ack, .counters⟩ :: w.acking }
    else w

def ack (i : ℕ) (w : Servers S T R) : Servers S T R :=
  match w.acking[i]? with
  | none => w
  | some call =>
    let done := w.putStore call.node
      ((w.store call.node).ackSection call.lock call.sender call.body)
    match call.lock.next with
    | some lock => { done with acking := w.acking.set i { call with lock := lock } }
    | none => { done with acking := w.acking.eraseIdx i }

/-- A section of the gossip loop's call of `Delta`. The last one sends the request. -/
def delta [LinearOrder S] [Inhabited S] [Instant T] (a : Bytes) (w : Servers S T R) :
    Servers S T R :=
  match (w.server a).loop with
  | none => w
  | some call =>
    let r := (w.store a).deltaSection call.lock call.peer call.draft
    let past := call.past.record call.lock (w.past a)
    match call.lock.next with
    | some lock =>
      w.put a { w.server a with store := r.2, loop := some ⟨call.peer, lock, r.1, past⟩ }
    | none =>
      { w.put a { w.server a with store := r.2, loop := none } with
        requests := (r.1.message.map fun msg => ⟨a, call.peer, msg, past⟩).toList ++ w.requests }

variable [LinearOrder S] [Inhabited S]

/-- The markers a store has for an element of the set under a key. -/
def markers (w : Servers S T R) (a : Bytes) (e : S × S) : DVVSet S Bool :=
  match (w.store a).sets.state.lookup e.1 with
  | none => .new
  | some set => set.element e.2

/-- What the stores know of the elements of all sets. -/
def sites (w : Servers S T R) : Sites Bytes S (S × S) :=
  ⟨w.markers, w.history.contexts, w.history.journal⟩

/-- The write of an element that is about to happen at a store. -/
def event (a : Bytes) (key value : S) (vv : VV S) (marker : Bool) (w : Servers S T R) :
    Event S Bool :=
  ⟨(w.store a).nodeID, vv, marker, w.markers a (key, value)⟩

/-- The write of an element is the latest one in its journal, and its store has heard
of it. -/
def logSet (a : Bytes) (key value : S) (vv : VV S) (marker : Bool) (w : Servers S T R) :
    Servers S T R :=
  { w.putPast a { w.past a with
      sets := insert ((key, value), (w.history.journal (key, value)).length) (w.past a).sets } with
    history := w.history.log (key, value) (w.event a key value vv marker) }

def incrementCounter (a : Bytes) (key : S) (value : UInt64) (w : Servers S T R) :
    Servers S T R :=
  { (w.putStore a ((w.store a).incrementCounter key value)).putPast a
      { w.past a with counters := insert w.updates.length (w.past a).counters } with
    updates := ⟨a, key, true, value⟩ :: w.updates }

def decrementCounter (a : Bytes) (key : S) (value : UInt64) (w : Servers S T R) :
    Servers S T R :=
  { (w.putStore a ((w.store a).decrementCounter key value)).putPast a
      { w.past a with counters := insert w.updates.length (w.past a).counters } with
    updates := ⟨a, key, false, value⟩ :: w.updates }

def addSet (a : Bytes) (key value : S) (vv : VV S) (w : Servers S T R) : Servers S T R :=
  (w.logSet a key value vv true).putStore a ((w.store a).addSet key value vv)

/-- Only the removal of a tracked element is a write. -/
def removeSet (a : Bytes) (key value : S) (vv : VV S) (w : Servers S T R) : Servers S T R :=
  if ((w.store a).sets.state.lookup key).any fun set => (set.state.lookup value).isSome then
    (w.logSet a key value vv false).putStore a ((w.store a).removeSet key value vv)
  else w.putStore a ((w.store a).removeSet key value vv)

def getSet (a : Bytes) (key : S) (w : Servers S T R) : Servers S T R :=
  { w with history := w.history.read a key ((w.store a).getSet key).2.1 }

variable [Instant T] [Inhabited R]

def setRegister (a : Bytes) (key : S) (value : R) (now : T) (w : Servers S T R) :
    Servers S T R :=
  { (w.putStore a ((w.store a).setRegister key value now)).putPast a
      { w.past a with registers := insert w.writes.length (w.past a).registers } with
    writes := (key, ⟨(w.store a).nodeID, now, value⟩) :: w.writes }

/-- A section of a running call of `Merge`. The last one sends the acknowledgement. -/
def merge (i : ℕ) (w : Servers S T R) : Servers S T R :=
  match w.merging[i]? with
  | none => w
  | some call =>
    let done := (w.putStore call.node
      ((w.store call.node).mergeSection call.lock call.msg)).putPast call.node
        ((w.past call.node).hear call.lock call.past)
    match call.lock.next with
    | some lock => { done with merging := w.merging.set i { call with lock := lock } }
    | none =>
      { done with
        merging := w.merging.eraseIdx i
        acks := ⟨call.node, call.sender, ⟨call.msg.countersSeq, call.msg.registersSeq,
          call.msg.setsSeq⟩⟩ :: w.acks }

def exec : Action S T R → Servers S T R → Servers S T R
  | .incrementCounter a key value => incrementCounter a key value
  | .decrementCounter a key value => decrementCounter a key value
  | .setRegister a key value now => setRegister a key value now
  | .addSet a key value vv => addSet a key value vv
  | .removeSet a key value vv => removeSet a key value vv
  | .getSet a key => getSet a key
  | .notify a peer kind => notify a peer kind
  | .tick a draw => tick a draw
  | .delta a => delta a
  | .postGossip i msg => postGossip i msg
  | .merge i => merge i
  | .postAck i => postAck i
  | .ack i => ack i

/-- Which context may be given to a write of an element at a store. -/
abbrev Contexts (S : Type) := Sites Bytes S (S × S) → Bytes → S × S → VV S → Prop

/-- The ticker is read only by a loop that is not inside `Delta`, and a body is read back
as the message that was sent, up to the order of its maps. -/
def enabled (allowed : Contexts S) : Action S T R → Servers S T R → Prop
  | .addSet a key value vv, w => allowed w.sites a (key, value) vv
  | .removeSet a key value vv, w => allowed w.sites a (key, value) vv
  | .tick a _, w => (w.server a).loop = none
  | .postGossip i msg, w => ∀ r, w.requests[i]? = some r → msg.Perm r.msg
  | _, _ => True

def machine (allowed : Contexts S) : Machine (Servers S T R) (Action S T R) :=
  ⟨enabled allowed, exec⟩

end Servers
end Commute.Server
