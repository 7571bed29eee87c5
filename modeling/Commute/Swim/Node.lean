import Commute.Swim.AckRouting
import Commute.Swim.MemberRuns
import Commute.Swim.Outbox
import Commute.Swim.Subgroup

/-!
# A whole member

`New` checks a configuration. The member it returns runs the loops `Listen`,
`Probe` and `Bootstrap`, the join handler, the fan-out, and the relay goroutines,
all of which send through `sendToAddr`. A `Node` puts together the membership, the
routing of acks and the sends; an action is one section of one goroutine.

A call of `process` that `Listen` or `Probe` makes goes on by itself here, so a
caller may be ahead of the calls it has made. The fan-out takes an event and queues
it in one step. `NewMessage` is called before the address of a peer is looked up.
-/
namespace Commute.Swim

open Fault

/-- The fields that `New` checks or that decide how a member runs. `conn` is the port of
the connection, and `notifier` says if there is one. -/
structure Config where
  nodeID : Bytes
  advertiseHost : Bytes
  conn : Option UInt16
  seeds : Bytes
  protocolPeriod : ℤ
  ackTimeout : ℤ
  subgroupSize : ℤ
  disseminationFactor : ℤ
  notifier : Bool

/-- What `New` keeps of a configuration. -/
structure Settings where
  advertiseHost : Bytes
  port : UInt16
  seeds : FMap Bytes Unit
  protocolPeriod : ℤ
  ackTimeout : ℤ
  subgroupSize : ℤ
  disseminationFactor : ℤ

def hostPort (host : Bytes) (port : UInt16) : Bytes := host ++ [58] ++ formatUint port.toNat

def Settings.udpAddr (m : Settings) : Bytes := hostPort m.advertiseHost m.port

section New

variable (trimSpace : Bytes → Bytes) (splitHostPort : Bytes → Except String (Bytes × Bytes))
  (quote : Bytes → String)

def parseSeeds : List Bytes → FMap Bytes Unit → Except Fault (FMap Bytes Unit)
  | [], seeds => .ok seeds
  | s :: rest, seeds =>
    let s := trimSpace s
    if s = [] then parseSeeds rest seeds
    else
      match splitHostPort s with
      | .error err => .error (.error s!"invalid seed {quote s}: {err}")
      | .ok (host, port) => do
        failIf (host = [] ∨ port = []) s!"invalid seed {quote s}: host and port are required"
        parseSeeds rest (seeds.insert s ())

/-- `New`, with the functions of the standard library it uses. -/
def new (cfg : Config) : Except Fault Settings := do
  failIf (cfg.nodeID = []) "node ID is required"
  failIf (cfg.advertiseHost = []) "advertise host is required"
  match cfg.conn with
  | none => .error (.error "conn is required")
  | some port => do
    let seeds ← parseSeeds trimSpace splitHostPort quote (cfg.seeds.splitOn 44) ∅
    failIf (cfg.protocolPeriod ≤ 0) "protocol period must be greater than zero"
    failIf (cfg.ackTimeout ≤ 0) "ack timeout must be greater than zero"
    failIf (cfg.protocolPeriod ≤ cfg.ackTimeout) "ack timeout must be less than protocol period"
    failIf (cfg.subgroupSize ≤ 0) "subgroup size must be greater than zero"
    let disseminationFactor := if cfg.disseminationFactor ≤ 0 then 3 else cfg.disseminationFactor
    failIf (¬ cfg.notifier) "notifier is required"
    .ok ⟨cfg.advertiseHost, port, seeds, cfg.protocolPeriod, cfg.ackTimeout, cfg.subgroupSize,
      disseminationFactor⟩

variable {trimSpace splitHostPort quote} {cfg : Config} {m : Settings}

theorem new_eq_ok (h : new trimSpace splitHostPort quote cfg = .ok m) :
    cfg.conn = some m.port ∧ cfg.advertiseHost = m.advertiseHost := by
  unfold new at h
  simp only [↓failIf_bind_eq_ok] at h
  obtain ⟨-, -, h⟩ := h
  split at h
  · cases h
  · next port hconn =>
    simp only [↓failIf_bind_eq_ok, bind_eq_ok] at h
    obtain ⟨seeds, -, -, -, -, -, -, ⟨⟩⟩ := h
    exact ⟨hconn, rfl⟩

end New

/-- Who sends: `Listen`, a relay goroutine, or `Probe`. -/
inductive Origin where
  | reply
  | relayPing (c : ℕ)
  | relayAck (c : ℕ)
  | probe (peer : Bytes)
  | indirect
deriving DecidableEq

def Origin.ofProbe : Origin → Bool
  | .probe _ | .indirect => true
  | _ => false

inductive Panic where
  | newMessage
  | unmarshalBinary
  | index
deriving DecidableEq

/-- `indirects` are the peers `Probe` still has to send a ping-req to. -/
structure Node (σ : Type) where
  member : Member σ
  probeCursor : ℕ
  routing : Routing Bytes
  indirects : List Peer
  outbox : Outbox Origin
  panic : Option Panic

/-- The actions that are not caused by another part of a node. -/
def Member.Action.direct : Member.Action → Bool
  | .declareDead _ | .fanOut => false
  | _ => true

def Routing.Action.direct : Routing.Action Bytes → Bool
  | .timeout _ | .cleanup _ | .deliver | .probeConsume => true
  | _ => false

def Outbox.Action.direct : Outbox.Action Origin → Bool
  | .pop _ _ _ | .write _ _ => true
  | _ => false

namespace Node

variable {σ : Type}

def init (notifier : σ) : Node σ := ⟨.init notifier, 0, .init, [], .init, none⟩

def list (n : Node σ) : PeerList := ⟨n.member.peers, n.probeCursor⟩

inductive Action where
  | member (a : Member.Action)
  | fanOut
  | receive (addr data : Bytes)
  | routing (a : Routing.Action Bytes)
  | relayPing (c : ℕ) (resolved : Bool)
  | relayConsume (c : ℕ)
  | probe (draw : ℕ → ℕ) (resolved : Bool)
  | ackTimeout (draw : ℕ → ℕ)
  | indirect (resolved : Bool)
  | periodEnd
  | outbox (a : Outbox.Action Origin)
  | pushBack (s : Send Origin) (maxDisseminations : ℤ)

def Running (n : Node σ) : Prop :=
  n.panic = none ∧ n.routing.panicked = false ∧ n.outbox.panicked = false

def Idle (kind : Origin → Bool) (n : Node σ) : Prop :=
  ∀ s ∈ n.outbox.sends, kind s.origin = false

instance (kind : Origin → Bool) (n : Node σ) : Decidable (Idle kind n) :=
  inferInstanceAs (Decidable (∀ s ∈ n.outbox.sends, kind s.origin = false))

/-- A relay cleans up after its last send. -/
def Finished : Routing.Action Bytes → Node σ → Prop
  | .cleanup c, n => n.Idle fun o => o = .relayAck c
  | .probeConsume, n => n.indirects = [] ∧ n.Idle Origin.ofProbe
  | _, _ => True

instance : (a : Routing.Action Bytes) → (n : Node σ) → Decidable (Finished a n)
  | .cleanup c, n => inferInstanceAs (Decidable (n.Idle fun o => o = .relayAck c))
  | .probeConsume, _ => inferInstanceAs (Decidable (_ ∧ _))
  | .pingReq _ _, _ | .pinged _ _, _ | .timeout _, _ | .consume _, _ | .ack _ _ _, _
  | .deliver, _ | .probeStart _ _, _ | .probeEnd, _ => .isTrue trivial

def guard : Action → Node σ → Prop
  | .member a, n => a.direct ∧ Member.enabled a n.member
  | .fanOut, _ => True
  | .receive _ _, n => n.routing.listen = none ∧ n.Idle fun o => o = .reply
  | .routing a, n => a.direct ∧ Routing.enabled a n.routing ∧ Finished a n
  | .relayPing c _, n => n.routing.phase c = some .pinging ∧ n.Idle fun o => o = .relayPing c
  | .relayConsume c, n => Routing.enabled (.consume c) n.routing
  | .probe _ _, n => n.routing.probe = none ∧ n.indirects = [] ∧ n.Idle Origin.ofProbe
  | .ackTimeout _, n => n.routing.probe.isSome ∧ n.indirects = [] ∧ n.Idle Origin.ofProbe
  | .indirect _, n => n.routing.probe.isSome ∧ n.indirects ≠ [] ∧ n.Idle Origin.ofProbe
  | .periodEnd, n => n.routing.probe.isSome ∧ n.indirects = [] ∧ n.Idle Origin.ofProbe
  | .outbox a, n => a.direct ∧ Outbox.enabled a n.outbox
  | .pushBack s k, n => Outbox.enabled (.pushBack s k) n.outbox

/-- `Listen` or `Probe` has heard or found that nodes are dead. -/
def declareDead (nodes : List Bytes) (n : Node σ) : Node σ :=
  { n with member := n.member.declareDead nodes }

def route (a : Routing.Action Bytes) (n : Node σ) : Node σ :=
  { n with routing := n.routing.exec a }

def returned (origin : Origin) (ok : Bool) (n : Node σ) : Node σ :=
  match origin with
  | .relayPing c => n.route (.pinged c ok)
  | .probe peer => n.route (.probeStart peer ok)
  | _ => n

variable (crc : Bytes → UInt32) (m : Settings) (notify : Peer → EventKind → σ → σ)

/-- A call of `NewMessage`, and of `sendToAddr` if there is an address to send to. -/
def send (origin : Origin) (resolved : Bool) (kind : MessageKind) (period : UInt64)
    (target : Bytes) (n : Node σ) : Node σ :=
  match newMessage kind m.udpAddr period target with
  | .error _ => { n with panic := some .newMessage }
  | .ok msg =>
    if resolved then { n with outbox := n.outbox.start origin msg } else n.returned origin false

/-- `Listen` reads into a buffer of `maxMessageSize` bytes. -/
def receive (addr data : Bytes) (n : Node σ) : Node σ :=
  match Message.decode crc (data.take maxMessageSize) with
  | .error .panic => { n with panic := some .unmarshalBinary }
  | .error (.error _) => n
  | .ok msg =>
    let n := n.declareDead ((msg.events.filter fun e => e.kind = .dead).map Event.node)
    match msg.kind with
    | .ack => n.route (.ack msg.src msg.period msg.target)
    | .ping => n.send m .reply true .ack msg.period []
    | .pingReq => n.route (.pingReq ⟨msg.target, msg.period⟩ addr)

/-- A relay takes an ack, and sends the relay ack if it is the one it waits for. -/
def relayConsume (c : ℕ) (n : Node σ) : Node σ :=
  match n.routing.relays[c]? with
  | none => n
  | some r =>
    if r.buffer.any fun a => a.key = r.key then
      (n.route (.consume c)).send m (.relayAck c) true .ack r.key.period r.key.target
    else n.route (.consume c)

def probe (draw : ℕ → ℕ) (resolved : Bool) (n : Node σ) : Node σ :=
  match n.list.nextProbe draw with
  | .error _ => { n with panic := some .index }
  | .ok (none, _) => n.route (.probeStart [] false)
  | .ok (some peer, p) =>
    let n := { n with member := { n.member with peers := p.toPeers }, probeCursor := p.probeCursor }
    n.send m (.probe peer.udpAddr) resolved .ping (n.routing.period + 1) []

def ackTimeout (draw : ℕ → ℕ) (n : Node σ) : Node σ :=
  match n.routing.probe with
  | none => n
  | some key =>
    match n.member.peers.kRandomPeers m.subgroupSize draw (newPeer key.target) with
    | .error _ => { n with panic := some .index }
    | .ok none => n
    | .ok (some indirects) => { n with indirects := indirects }

def indirect (resolved : Bool) (n : Node σ) : Node σ :=
  match n.routing.probe with
  | none => n
  | some key =>
    { n with indirects := n.indirects.tail }.send m .indirect resolved .pingReq key.period
      key.target

def periodEnd (n : Node σ) : Node σ :=
  match n.routing.probe with
  | none => n
  | some key => (n.declareDead [key.target]).route .probeEnd

/-- The fan-out takes an event from the channel, queues it for piggybacking and notifies. -/
def fanOut (n : Node σ) : Node σ :=
  match n.member.events with
  | [] => n
  | a :: _ => { n with member := n.member.fanOut, outbox := n.outbox.push a.event }

def exec : Action → Node σ → Node σ
  | .member a, n => { n with member := Member.exec m.udpAddr notify a n.member }
  | .fanOut, n => n.fanOut
  | .receive addr data, n => n.receive crc m addr data
  | .routing a, n => n.route a
  | .relayPing c resolved, n =>
    match n.routing.relays[c]? with
    | none => n
    | some r => n.send m (.relayPing c) resolved .ping r.key.period []
  | .relayConsume c, n => n.relayConsume m c
  | .probe draw resolved, n => n.probe m draw resolved
  | .ackTimeout draw, n => n.ackTimeout m draw
  | .indirect resolved, n => n.indirect m resolved
  | .periodEnd, n => n.periodEnd
  | .outbox a, n => { n with outbox := n.outbox.exec crc a }
  | .pushBack s k, n =>
    { n with outbox := n.outbox.pushBack s k }.returned s.origin (s.stage = SendStage.written)

def machine : Machine (Node σ) Action :=
  ⟨fun a n => n.Running ∧ guard a n, exec crc m notify⟩

instance (a : Member.Action) (me : Member σ) : Decidable (Member.enabled a me) :=
  inferInstanceAs (Decidable ((Member.machine [] fun _ _ => id).enabled a me))

instance (a : Routing.Action Bytes) (r : Routing Bytes) : Decidable (Routing.enabled a r) :=
  inferInstanceAs (Decidable ((Routing.machine Bytes).enabled a r))

instance (a : Outbox.Action Origin) (o : Outbox Origin) : Decidable (Outbox.enabled a o) :=
  inferInstanceAs (Decidable ((Outbox.machine crc32 Origin).enabled a o))

instance : (a : Action) → (n : Node σ) → Decidable (guard a n)
  | .fanOut, _ => .isTrue trivial
  | .relayConsume c, n => inferInstanceAs (Decidable (Routing.enabled (.consume c) n.routing))
  | .pushBack s k, n => inferInstanceAs (Decidable (Outbox.enabled (.pushBack s k) n.outbox))
  | .member _, _ | .receive _ _, _ | .routing _, _ | .relayPing _ _, _ | .probe _ _, _
  | .ackTimeout _, _ | .indirect _, _ | .periodEnd, _ | .outbox _, _ =>
    inferInstanceAs (Decidable (_ ∧ _))

instance (n : Node σ) : Decidable n.Running := inferInstanceAs (Decidable (_ ∧ _))

instance (a : Action) (n : Node σ) : Decidable ((machine crc m notify).enabled a n) :=
  inferInstanceAs (Decidable (_ ∧ _))

end Node
end Commute.Swim
