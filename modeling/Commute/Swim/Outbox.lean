import Commute.Foundation.Machine
import Commute.Swim.Marshal
import Mathlib.Data.Int.Notation

/-!
# Sending with piggybacked events

Every message carries events from a queue that is ordered by how often an event
was sent. `sendToAddr` pops events, writes the message, and pushes the events back:
all of them if the write failed, otherwise those that were not sent often enough.
Several goroutines are inside `sendToAddr` at the same time, each between two of
these sections.

The queue is a list in any order, and what a pop takes from it is described by the
contract of the heap: no event that stays was sent less often.
-/
namespace Commute.Swim

def maxEventSize : ℕ := eventHeaderSize + maxTargetSize

/-- What is left of the smallest reassembly buffer after the IP and UDP headers. -/
def udpPayload : ℕ := 576 - 20 - 8

def maxBaseMessageSize : ℕ := minMessageSize + maxTargetSize + maxTargetSize

def maxPiggybackEvents : ℕ := (udpPayload - maxBaseMessageSize) / maxEventSize

def maxMessageSize : ℕ := maxBaseMessageSize + maxPiggybackEvents * maxEventSize

/-- An event and how often it was sent. The number is a history variable that no step
reads. -/
structure EventItem where
  number : ℕ
  event : Event
  sendCount : ℕ
deriving DecidableEq

/-- What `Pop(n)` may take from the queue, and what it leaves. -/
structure Pops (n : ℕ) (queue items rest : List EventItem) : Prop where
  perm : (items ++ rest).Perm queue
  length : items.length = min n queue.length
  sorted : items.Pairwise fun a b => a.sendCount ≤ b.sendCount
  least : ∀ a ∈ items, ∀ b ∈ rest, a.sendCount ≤ b.sendCount

instance (n : ℕ) (queue items rest : List EventItem) : Decidable (Pops n queue items rest) :=
  decidable_of_iff ((items ++ rest).Perm queue ∧ items.length = min n queue.length ∧
      items.Pairwise (fun a b => a.sendCount ≤ b.sendCount) ∧
      ∀ a ∈ items, ∀ b ∈ rest, a.sendCount ≤ b.sendCount)
    ⟨fun ⟨hperm, hlen, hsorted, hleast⟩ => ⟨hperm, hlen, hsorted, hleast⟩,
      fun ⟨hperm, hlen, hsorted, hleast⟩ => ⟨hperm, hlen, hsorted, hleast⟩⟩

/-- The next section of a call of `sendToAddr`, or how its write ended. -/
inductive SendStage where
  | pop
  | write
  | written
  | failed
deriving DecidableEq

/-- A goroutine inside `sendToAddr`, and what made it send. -/
structure Send (O : Type) where
  origin : O
  stage : SendStage
  msg : Message
  items : List EventItem
deriving DecidableEq

/-- The items that were sent once more and are not at the limit. -/
def retained (maxDisseminations : ℤ) (items : List EventItem) : List EventItem :=
  (items.map fun i => { i with sendCount := i.sendCount + 1 }).filter
    fun i => (i.sendCount : ℤ) < maxDisseminations

def Send.pushed {O : Type} (maxDisseminations : ℤ) (s : Send O) : List EventItem :=
  if s.stage = .written then retained maxDisseminations s.items else s.items

/-- A call of `WriteTo`. -/
structure Packet where
  msg : Message
  data : Bytes
deriving DecidableEq

structure Outbox (O : Type) where
  queue : List EventItem
  pushes : ℕ
  sends : List (Send O)
  packets : List Packet
  panicked : Bool

namespace Outbox

variable {O : Type} [DecidableEq O]

def init : Outbox O := ⟨[], 0, [], [], false⟩

inductive Action (O : Type) where
  | push (e : Event)
  | start (origin : O) (msg : Message)
  | pop (s : Send O) (items rest : List EventItem)
  | write (s : Send O) (ok : Bool)
  | pushBack (s : Send O) (maxDisseminations : ℤ)

def enabled : Action O → Outbox O → Prop
  | .push _, o => ¬ o.panicked
  | .start _ _, o => ¬ o.panicked
  | .pop s items rest, o =>
    ¬ o.panicked ∧ (s ∈ o.sends ∧ s.stage = .pop) ∧ Pops maxPiggybackEvents o.queue items rest
  | .write s _, o => ¬ o.panicked ∧ s ∈ o.sends ∧ s.stage = .write
  | .pushBack s _, o => ¬ o.panicked ∧ s ∈ o.sends ∧ (s.stage = .written ∨ s.stage = .failed)

def push (e : Event) (o : Outbox O) : Outbox O :=
  { o with queue := ⟨o.pushes, e, 0⟩ :: o.queue, pushes := o.pushes + 1 }

def start (origin : O) (msg : Message) (o : Outbox O) : Outbox O :=
  { o with sends := ⟨origin, .pop, msg, []⟩ :: o.sends }

def pop (s : Send O) (items rest : List EventItem) (o : Outbox O) : Outbox O :=
  let msg := { s.msg with events := s.msg.events ++ items.map EventItem.event }
  { o with
    queue := rest
    sends := { s with stage := .write, msg := msg, items := items } :: o.sends.erase s }

variable (crc : Bytes → UInt32)

/-- The body of `writeMessage`, which panics if the message cannot be encoded. -/
def write (s : Send O) (ok : Bool) (o : Outbox O) : Outbox O :=
  match s.msg.marshalBinary crc with
  | .error _ => { o with panicked := true }
  | .ok b =>
    { o with
      sends := { s with stage := if ok then .written else .failed } :: o.sends.erase s
      packets := o.packets ++ [⟨s.msg, b⟩] }

def pushBack (s : Send O) (maxDisseminations : ℤ) (o : Outbox O) : Outbox O :=
  { o with queue := s.pushed maxDisseminations ++ o.queue, sends := o.sends.erase s }

def exec : Action O → Outbox O → Outbox O
  | .push e, o => o.push e
  | .start origin msg, o => o.start origin msg
  | .pop s items rest, o => o.pop s items rest
  | .write s ok, o => o.write crc s ok
  | .pushBack s maxDisseminations, o => o.pushBack s maxDisseminations

def machine (O : Type) [DecidableEq O] : Machine (Outbox O) (Action O) := ⟨enabled, exec crc⟩

instance : (a : Action O) → (o : Outbox O) → Decidable ((machine crc O).enabled a o)
  | .push _, o | .start _ _, o => inferInstanceAs (Decidable (¬ o.panicked))
  | .pop _ _ _, _ | .write _ _, _ | .pushBack _ _, _ => inferInstanceAs (Decidable (_ ∧ _))

end Outbox
end Commute.Swim
