import Commute.Swim.Node
import Commute.Swim.WireGrammar

/-!
# What a member sends can be received

The wire format has room for addresses of up to `maxTargetSize` bytes, and the
limits on packets and on piggybacked events are computed from that. Nothing keeps
longer addresses out of a member: neither `New` nor `join` checks a length. If the
own address and those in join bodies are short, every address a member knows is,
since others come from packets, and then every packet it writes can be read.
-/
namespace Commute.Swim

abbrev Short (x : Bytes) : Prop := x.length ≤ maxTargetSize

/-- A message the encoder can be trusted with. -/
structure Message.Sendable (msg : Message) : Prop extends msg.Valid where
  piggybacked : msg.events.length ≤ maxPiggybackEvents

/-- A packet that the receiver reads completely and decodes to the message. -/
structure Packet.Receivable (crc : Bytes → UInt32) (p : Packet) : Prop where
  length_le : p.data.length ≤ maxMessageSize
  decoded : ∀ received, Message.unmarshalBinary crc p.data received = (.ok (), p.msg)

theorem eventBytes_le {events : List Event} (h : ∀ e ∈ events, Short e.node) :
    eventBytes events ≤ events.length * maxEventSize := by
  rw [eventBytes_eq]
  induction events with
  | nil => simp
  | cons e events ih =>
    obtain ⟨he, h⟩ := List.forall_mem_cons.mp h
    have hevent : e.payload.length ≤ maxEventSize := by
      rw [e.length_payload]
      exact Nat.add_le_add_left he _
    rw [List.flatMap_cons, List.length_append, List.length_cons, Nat.succ_mul, Nat.add_comm]
    exact Nat.add_le_add (ih h) hevent

theorem Message.Sendable.receivable {msg : Message} (h : msg.Sendable) (crc : Bytes → UInt32) :
    ∃ b, msg.marshalBinary crc = .ok b ∧ Packet.Receivable crc ⟨msg, b⟩ := by
  refine ⟨_, msg.marshalBinary_eq crc, ?_, ?_⟩
  · have hsize := msg.length_payload
    have hevents := Nat.le_trans (eventBytes_le h.node_le)
      (Nat.mul_le_mul_right maxEventSize h.piggybacked)
    have hsrc := h.src_le
    have htarget := h.target_le
    rw [List.length_append, length_bigEndianBytes, hsize]
    unfold maxMessageSize maxBaseMessageSize
    omega
  · intro received
    rw [unmarshalBinary_eq_ok]
    simpa [wire] using decode_wire crc h.toValid []

namespace Member

variable {σ : Type} {self : Bytes} {notify : Peer → EventKind → σ → σ} {m : Member σ}
  {P : Bytes → Prop}

/-- Every address in the list, in a call of `process` or in the channel has the property. -/
structure Knows (P : Bytes → Prop) (m : Member σ) : Prop where
  peers : ∀ x ∈ m.peers.addrs, P x
  carries : m.Carries fun a => P a.event.node

def Action.nodes : Action → List Bytes
  | .join _ body => body.peers.map JoinPeer.udpAddr
  | .declareDead nodes => nodes
  | _ => []

theorem addrs_advance (t : Task) (m : Member σ) :
    ∀ x ∈ (m.advance t).peers.addrs, x ∈ m.peers.addrs := by
  intro x hx
  by_cases hstage : t.stage = .delete
  · simp only [advance, hstage] at hx
    exact (Peers.mem_addrs_delete.mp hx).1
  · unfold Peers.addrs at hx ⊢
    rwa [peers_advance hstage] at hx

theorem Knows.declareDead (h : Knows P m) {nodes : List Bytes} (hnodes : ∀ x ∈ nodes, P x) :
    Knows P (m.declareDead nodes) :=
  ⟨h.peers, h.carries.start (List.forall_mem_map.mpr hnodes)⟩

theorem Knows.join (h : Knows P m) {draw : ℕ → ℕ} {body : JoinBody}
    (hbody : ∀ jp ∈ body.peers, P jp.udpAddr) : Knows P (m.join self draw body) := by
  have hadded : ∀ q ∈ (m.peers.join self draw body).2, P q.udpAddr := fun q hq =>
    List.forall_mem_map.mpr hbody _ (Peers.join_added self draw body m.peers q hq)
  refine ⟨fun x hx => ?_, (h.carries.setPeers _).start (List.forall_mem_map.mpr hadded)⟩
  rcases ((Peers.joined_join self draw body m.peers).mem_addrs x).mp hx with hx | hx
  · exact h.peers x hx
  · obtain ⟨q, hq, rfl⟩ := List.mem_map.mp hx
    exact hadded q hq

theorem Knows.fanOut (h : Knows P m) : Knows P m.fanOut := by
  refine ⟨?_, h.carries.fanOut⟩
  unfold Member.fanOut
  split <;> exact h.peers

theorem Knows.exec (h : Knows P m) {a : Action} (hen : enabled a m) (ha : ∀ x ∈ a.nodes, P x) :
    Knows P (exec self notify a m) := by
  cases a with
  | join draw body => exact h.join (List.forall_mem_map.mp ha)
  | declareDead nodes => exact h.declareDead ha
  | advance t => exact ⟨fun x hx => h.peers x (addrs_advance t m x hx), h.carries.advance hen⟩
  | cancel t => exact ⟨h.peers, h.carries.finish hen.1⟩
  | fanOut => exact h.fanOut
  | deliver n => exact ⟨h.peers, ⟨h.carries.tasks, h.carries.events⟩⟩

end Member

namespace Routing

variable {A : Type} {s : Routing A} {P : Bytes → Prop}

/-- The targets of the relays and of the probe have the property. -/
structure Targets (P : Bytes → Prop) (s : Routing A) : Prop where
  relays : ∀ r ∈ s.relays, P r.key.target
  probe : ∀ key, s.probe = some key → P key.target

/-- The addresses that an action may make a target. -/
def Action.targets : Action A → List Bytes
  | .pingReq key _ => [key.target]
  | .probeStart peer _ => [peer]
  | _ => []

theorem Targets.exec (h : Targets P s) {a : Action A} (ha : ∀ x ∈ a.targets, P x) :
    Targets P (exec a s) := by
  refine ⟨fun r hr => ?_, fun key hkey => ?_⟩
  · obtain ⟨j, hj⟩ := List.mem_iff_getElem?.mp hr
    rcases relay_exec hj with ⟨key, requester, rfl, -, -, rfl⟩ | ⟨r₀, hr₀, hstep⟩
    · exact ha _ List.mem_cons_self
    · rw [hstep.key_eq.1]
      exact h.relays r₀ (List.mem_of_getElem? hr₀)
  · rcases probe_exec hkey with hkey | ⟨ok, rfl⟩
    · exact h.probe key hkey
    · exact ha _ List.mem_cons_self

end Routing

/-- A send of a member that knows short addresses only. -/
structure Send.Fits {O : Type} (Q : O → Prop) (s : Send O) : Prop where
  origin : Q s.origin
  msg : s.msg.Sendable
  items : ∀ i ∈ s.items, Short i.event.node
  fresh : s.stage = .pop → s.msg.events = []

namespace Outbox

variable {O : Type} {crc : Bytes → UInt32} {Q : O → Prop} {o : Outbox O}

structure Fits (crc : Bytes → UInt32) (Q : O → Prop) (o : Outbox O) : Prop where
  queue : ∀ i ∈ o.queue, Short i.event.node
  sends : ∀ s ∈ o.sends, s.Fits Q
  packets : ∀ p ∈ o.packets, p.Receivable crc

theorem Fits.push (h : Fits crc Q o) {e : Event} (he : Short e.node) : Fits crc Q (o.push e) :=
  { h with queue := List.forall_mem_cons.mpr ⟨he, h.queue⟩ }

theorem Fits.start (h : Fits crc Q o) {origin : O} (horigin : Q origin) {msg : Message}
    (hmsg : msg.Sendable) (hfresh : msg.events = []) : Fits crc Q (o.start origin msg) :=
  { h with
    sends := List.forall_mem_cons.mpr
      ⟨⟨horigin, hmsg, List.forall_mem_nil _, fun _ => hfresh⟩, h.sends⟩ }

variable [DecidableEq O]

theorem Fits.replace (h : Fits crc Q o) {s s' : Send O} (hs' : s'.Fits Q) :
    ∀ t ∈ s' :: o.sends.erase s, t.Fits Q :=
  List.forall_mem_cons.mpr ⟨hs', fun t ht => h.sends t (List.mem_of_mem_erase ht)⟩

theorem Fits.pop (h : Fits crc Q o) {s : Send O} (hs : s ∈ o.sends) (hstage : s.stage = .pop)
    {items rest : List EventItem} (hpops : Pops maxPiggybackEvents o.queue items rest) :
    Fits crc Q (o.pop s items rest) := by
  have hfits := h.sends s hs
  have hitems : ∀ i ∈ items, Short i.event.node := fun i hi =>
    h.queue i (hpops.perm.subset (List.mem_append_left rest hi))
  have hlen : items.length ≤ maxPiggybackEvents := hpops.length ▸ Nat.min_le_left ..
  have hevents : s.msg.events ++ items.map EventItem.event = items.map EventItem.event := by
    rw [hfits.fresh hstage, List.nil_append]
  unfold Outbox.pop
  rw [hevents]
  refine ⟨fun i hi => h.queue i (hpops.perm.subset (List.mem_append_right items hi)),
    h.replace ⟨hfits.origin, ?_, hitems, nofun⟩, h.packets⟩
  refine ⟨{ hfits.msg.toValid with events_le := ?_, node_le := List.forall_mem_map.mpr hitems }, ?_⟩
  · rw [List.length_map]
    exact Nat.le_trans hlen (by decide)
  · rwa [List.length_map]

theorem Fits.write (h : Fits crc Q o) {s : Send O} (hs : s ∈ o.sends) (ok : Bool) :
    Fits crc Q (o.write crc s ok) := by
  have hfits := h.sends s hs
  obtain ⟨b, hb, hreceivable⟩ := hfits.msg.receivable crc
  unfold Outbox.write
  rw [hb]
  refine ⟨h.queue, h.replace { hfits with fresh := ?_ }, List.forall_mem_append.mpr
    ⟨h.packets, List.forall_mem_singleton.mpr hreceivable⟩⟩
  cases ok <;> exact nofun

theorem Fits.pushBack (h : Fits crc Q o) {s : Send O} (hs : s ∈ o.sends) (k : ℤ) :
    Fits crc Q (o.pushBack s k) := by
  refine { h with
    queue := List.forall_mem_append.mpr ⟨?_, h.queue⟩
    sends := fun t ht => h.sends t (List.mem_of_mem_erase ht) }
  unfold Send.pushed
  split_ifs
  · intro i hi
    obtain ⟨j, hj, rfl⟩ := List.mem_map.mp (List.mem_of_mem_filter hi)
    exact (h.sends s hs).items j hj
  · exact (h.sends s hs).items

end Outbox

def Origin.Short : Origin → Prop
  | .probe peer => Swim.Short peer
  | _ => True

def Config.Short (cfg : Config) : Prop :=
  ∀ port, cfg.conn = some port → Swim.Short (hostPort cfg.advertiseHost port)

theorem Settings.udpAddr_ne_nil (m : Settings) : m.udpAddr ≠ [] := by
  simp [udpAddr, hostPort]

namespace Node

variable {σ : Type} {crc : Bytes → UInt32} {m : Settings} {notify : Peer → EventKind → σ → σ}
  {n : Node σ}

def ShortJoins : Action → Node σ → Prop
  | .member a, _ => ∀ x ∈ a.nodes, Short x
  | _, _ => True

instance : (a : Action) → (n : Node σ) → Decidable (ShortJoins a n)
  | .member a, _ => inferInstanceAs (Decidable (∀ x ∈ a.nodes, x.length ≤ maxTargetSize))
  | .fanOut, _ | .receive _ _, _ | .routing _, _ | .relayPing _ _, _ | .relayConsume _, _
  | .probe _ _, _ | .ackTimeout _, _ | .indirect _, _ | .periodEnd, _ | .outbox _, _
  | .pushBack _ _, _ => .isTrue trivial

/-- Every address in a node is short, and everything it has written can be received. -/
structure Fits (crc : Bytes → UInt32) (n : Node σ) : Prop where
  member : n.member.Knows Short
  routing : n.routing.Targets Short
  outbox : n.outbox.Fits crc Origin.Short
  panic : ∀ p, n.panic = some p → p = .unmarshalBinary

theorem Fits.init (start : σ) : Fits crc (init start) :=
  ⟨⟨by simp [Node.init, Member.init, Peers.new, Peers.addrs],
      ⟨by simp [Node.init, Member.init], by simp [Node.init, Member.init]⟩⟩,
    ⟨by simp [Node.init, Routing.init], nofun⟩,
    ⟨by simp [Node.init, Outbox.init], by simp [Node.init, Outbox.init],
      by simp [Node.init, Outbox.init]⟩, nofun⟩

theorem Fits.declareDead (h : Fits crc n) {nodes : List Bytes} (hnodes : ∀ x ∈ nodes, Short x) :
    Fits crc (n.declareDead nodes) :=
  { h with member := h.member.declareDead hnodes }

theorem Fits.route (h : Fits crc n) {a : Routing.Action Bytes} (ha : ∀ x ∈ a.targets, Short x) :
    Fits crc (n.route a) :=
  { h with routing := h.routing.exec ha }

theorem Fits.returned (h : Fits crc n) {origin : Origin} (horigin : origin.Short) (ok : Bool) :
    Fits crc (n.returned origin ok) := by
  cases origin with
  | relayPing c => exact h.route (List.forall_mem_nil _)
  | probe peer => exact h.route (List.forall_mem_singleton.mpr horigin)
  | reply => exact h
  | relayAck c => exact h
  | indirect => exact h

/-- `NewMessage` does not panic for a short target. -/
theorem Fits.send (h : Fits crc n) (hself : Short m.udpAddr) (origin : Origin)
    (horigin : origin.Short) (resolved : Bool) (kind : MessageKind) (period : UInt64)
    {target : Bytes} (htarget : Short target) :
    Fits crc (n.send m origin resolved kind period target) := by
  have hpos : 1 ≤ m.udpAddr.length := List.length_pos_iff.mpr m.udpAddr_ne_nil
  unfold Node.send newMessage
  rw [if_neg m.udpAddr_ne_nil, if_neg (Nat.not_lt.mpr htarget)]
  dsimp only
  split_ifs
  · have hmsg : Message.Sendable ⟨messageVersion, kind, m.udpAddr, period, target, []⟩ :=
      ⟨⟨rfl, hpos, hself, htarget, Nat.zero_le _, List.forall_mem_nil _⟩, Nat.zero_le _⟩
    exact { h with outbox := h.outbox.start horigin hmsg rfl }
  · exact h.returned horigin false

theorem Fits.receive (h : Fits crc n) (hself : Short m.udpAddr) (addr data : Bytes) :
    Fits crc (n.receive crc m addr data) := by
  unfold Node.receive
  split
  · exact { h with panic := fun p hp => (Option.some.inj hp).symm }
  · exact h
  · next msg hdecode =>
    -- What arrives was checked by the decoder.
    have hvalid := (Message.wire_of_decode crc hdecode).1
    have hnodes : ∀ x ∈ (msg.events.filter fun e => e.kind = .dead).map Event.node, Short x :=
      List.forall_mem_map.mpr fun e he => hvalid.node_le e (List.mem_of_mem_filter he)
    have hdead := h.declareDead hnodes
    dsimp only
    split
    · exact hdead.route (List.forall_mem_nil _)
    · exact hdead.send hself .reply trivial true .ack msg.period (Nat.zero_le _)
    · exact hdead.route (List.forall_mem_singleton.mpr hvalid.target_le)

theorem Fits.relayConsume (h : Fits crc n) (hself : Short m.udpAddr) (c : ℕ) :
    Fits crc (n.relayConsume m c) := by
  have hconsumed : Fits crc (n.route (.consume c)) := h.route (List.forall_mem_nil _)
  unfold Node.relayConsume
  split
  · exact h
  · next r hr =>
    split_ifs
    · exact hconsumed.send hself (.relayAck c) trivial true .ack r.key.period
        (h.routing.relays r (List.mem_of_getElem? hr))
    · exact hconsumed

theorem Fits.probe (h : Fits crc n) (hself : Short m.udpAddr) (draw : ℕ → ℕ) (resolved : Bool) :
    Fits crc (n.probe m draw resolved) := by
  obtain ⟨next, peers, cursor, hnext, hperm⟩ := PeerList.nextProbe_eq_ok draw n.list
  unfold Node.probe
  rw [hnext]
  cases next with
  | none =>
    -- Without a peer there is no probe, whatever its address would be.
    exact h.route (List.forall_mem_singleton.mpr (Nat.zero_le _))
  | some peer =>
    have hpeer : Short peer.udpAddr :=
      h.member.peers _ (List.mem_map_of_mem (PeerList.mem_of_nextProbe hnext))
    have hmember : Member.Knows Short
        { n.member with peers := { n.member.peers with peers := peers } } :=
      ⟨fun x hx => h.member.peers x ((hperm.map Peer.udpAddr).mem_iff.mp hx),
        h.member.carries.setPeers _⟩
    have hlist : Fits crc { n with
        member := { n.member with peers := { n.member.peers with peers := peers } }
        probeCursor := cursor } := { h with member := hmember }
    exact hlist.send hself (.probe peer.udpAddr) hpeer resolved .ping _ (Nat.zero_le _)

theorem Fits.ackTimeout (h : Fits crc n) (draw : ℕ → ℕ) : Fits crc (n.ackTimeout m draw) := by
  unfold Node.ackTimeout
  split
  · exact h
  · next key _ =>
    obtain ⟨result, hresult⟩ :=
      n.member.peers.kRandomPeers_eq_ok m.subgroupSize draw (newPeer key.target)
    rw [hresult]
    cases result with
    | none => exact h
    | some indirects => exact { h with }

theorem Fits.fanOut (h : Fits crc n) : Fits crc n.fanOut := by
  unfold Node.fanOut
  split
  · exact h
  · next a events hevents =>
    have ha : Short a.event.node := h.member.carries.events a
      (by rw [hevents]; exact List.mem_cons_self)
    exact { h with member := h.member.fanOut, outbox := h.outbox.push ha }

theorem Fits.exec (h : Fits crc n) (hself : Short m.udpAddr) {a : Action} (hguard : guard a n)
    (hshort : ShortJoins a n) : Fits crc (exec crc m notify a n) := by
  cases a with
  | member a => exact { h with member := h.member.exec hguard.2 hshort }
  | fanOut => exact h.fanOut
  | receive addr data => exact h.receive hself addr data
  | routing a =>
    refine h.route ?_
    cases a with
    | pingReq | probeStart => cases hguard.1
    | _ => exact List.forall_mem_nil _
  | relayPing c resolved =>
    simp only [Node.exec]
    split
    · exact h
    · exact h.send hself (.relayPing c) trivial resolved .ping _ (Nat.zero_le _)
  | relayConsume c => exact h.relayConsume hself c
  | probe draw resolved => exact h.probe hself draw resolved
  | ackTimeout draw => exact h.ackTimeout draw
  | indirect resolved =>
    simp only [Node.exec, Node.indirect]
    split
    · exact h
    · next key hkey =>
      have htail : Fits crc { n with indirects := n.indirects.tail } := { h with }
      exact htail.send hself .indirect trivial resolved .pingReq _ (h.routing.probe key hkey)
  | periodEnd =>
    simp only [Node.exec, Node.periodEnd]
    split
    · exact h
    · next key hkey =>
      have htarget := List.forall_mem_singleton.mpr (h.routing.probe key hkey)
      exact (h.declareDead htarget).route (List.forall_mem_nil _)
  | outbox a =>
    refine { h with outbox := ?_ }
    cases a with
    | push | start | pushBack => cases hguard.1
    | pop s items rest =>
      obtain ⟨-, -, ⟨hs, hstage⟩, hpops⟩ := hguard
      exact h.outbox.pop hs hstage hpops
    | write s ok => exact h.outbox.write hguard.2.2.1 ok
  | pushBack s k =>
    have hs := hguard.2.1
    have hpushed : Fits crc { n with outbox := n.outbox.pushBack s k } :=
      { h with outbox := h.outbox.pushBack hs k }
    exact hpushed.returned (h.outbox.sends s hs).origin _

variable {trimSpace : Bytes → Bytes} {splitHostPort : Bytes → Except String (Bytes × Bytes)}
  {quote : Bytes → String} {cfg : Config}

/-- If a member advertises a short address and the join bodies it gets have short addresses
only, `NewMessage` does not panic, and every packet it writes is read as it was written. -/
theorem packets_receivable (hnew : new trimSpace splitHostPort quote cfg = .ok m)
    (hhost : cfg.Short) {start : σ} {as : List Action}
    (h : ((machine crc m notify).restrict ShortJoins).Legal (init start) as) :
    ((machine crc m notify).after (init start) as).panic ≠ some .newMessage ∧
      ∀ p ∈ ((machine crc m notify).after (init start) as).outbox.packets,
        p.data.length ≤ maxMessageSize ∧
          ∀ received, Message.unmarshalBinary crc p.data received = (.ok (), p.msg) := by
  obtain ⟨hconn, hadvertised⟩ := new_eq_ok hnew
  have hself : Short m.udpAddr := by
    have := hhost m.port hconn
    rwa [hadvertised] at this
  have hfits := h.invariant (I := Fits crc) (.init start)
    fun a n hn ha => hn.exec hself ha.1.2 ha.2
  rw [Machine.after_restrict] at hfits
  refine ⟨fun hpanic => ?_, fun p hp => ?_⟩
  · cases hfits.panic _ hpanic
  · exact ⟨(hfits.outbox.packets p hp).length_le, (hfits.outbox.packets p hp).decoded⟩

def soleConfig (host : Bytes) : Config := ⟨[97], host, some 1, [], 2, 1, 1, 0, true⟩

def soleSettings (host : Bytes) : Settings := ⟨host, 1, ∅, 2, 1, 1, 3⟩

abbrev sole (host : Bytes) : Machine (Node Unit) Action :=
  machine crc32 (soleSettings host) fun _ _ => id

/-- The ping of the first period to a peer, on its way through `sendToAddr`. -/
def firstPing (host peer : Bytes) (stage : SendStage) : Send Origin :=
  ⟨.probe peer, stage, ⟨1, .ping, hostPort host 1, 1, [], []⟩, []⟩

/-- The node learns of a peer and of `b:1` in a join exchange with `b:1`, and pings the
peer. -/
def pingFirst (host peer : Bytes) : List Action :=
  [.member (.join Nat.pred ⟨[98, 58, 49], [⟨peer, 1⟩, ⟨[98, 58, 49], 1⟩]⟩), .probe id true,
    .outbox (.pop (firstPing host peer .pop) [] []),
    .outbox (.write (firstPing host peer .write) true),
    .pushBack (firstPing host peer .written) 0]

theorem packets_pingFirst :
    let run := pingFirst [97] [99, 58, 49]
    ((sole [97]).after (init ()) run).panic ≠ some .newMessage ∧
      ((sole [97]).after (init ()) run).outbox.packets.length = 1 ∧
      ∀ p ∈ ((sole [97]).after (init ()) run).outbox.packets,
        p.data.length ≤ maxMessageSize ∧
          ∀ received, Message.unmarshalBinary crc32 p.data received = (.ok (), p.msg) := by
  intro run
  have hnew : new id (fun _ => .error "") (fun _ => "") (soleConfig [97]) =
      .ok (soleSettings [97]) := rfl
  have hhost : (soleConfig [97]).Short := by
    rintro port ⟨⟩
    decide
  have hrun : ((sole [97]).restrict ShortJoins).Legal (init ()) run := by decide +kernel
  obtain ⟨hpanic, hpackets⟩ := packets_receivable hnew hhost hrun
  exact ⟨hpanic, by decide +kernel, hpackets⟩

/-- No ack comes in time from a host whose name has 46 bytes and its address with the port 48,
and the ping-req for it kills the process. That host itself writes packets nobody can read. -/
theorem not_receivable_longAddress :
    let host := List.replicate 46 99
    let long := hostPort host 1
    (new id (fun _ => .error "") (fun _ => "") (soleConfig [97]) = .ok (soleSettings [97]) ∧
      (sole [97]).Legal (init ()) (pingFirst [97] long ++ [.ackTimeout id, .indirect true]) ∧
      ((sole [97]).after (init ())
        (pingFirst [97] long ++ [.ackTimeout id, .indirect true])).panic = some .newMessage) ∧
    (new id (fun _ => .error "") (fun _ => "") (soleConfig host) = .ok (soleSettings host) ∧
      (sole host).Legal (init ()) (pingFirst host [99, 58, 49]) ∧
      ∃ p ∈ ((sole host).after (init ()) (pingFirst host [99, 58, 49])).outbox.packets,
        ∀ received, Message.unmarshalBinary crc32 p.data received ≠ (.ok (), p.msg)) := by
  intro host long
  refine ⟨⟨rfl, by decide +kernel, by decide +kernel⟩, rfl, by decide +kernel, ?_⟩
  have hsrc : ∃ p ∈ ((sole host).after (init ()) (pingFirst host [99, 58, 49])).outbox.packets,
      maxTargetSize < p.msg.src.length := by decide +kernel
  obtain ⟨p, hp, hsrc⟩ := hsrc
  refine ⟨p, hp, fun received hdecoded => ?_⟩
  have hvalid := (Message.wire_of_decode crc32
    ((Message.unmarshalBinary_eq_ok crc32).mp hdecoded)).1
  exact Nat.not_lt.mpr hvalid.src_le hsrc

end Node
end Commute.Swim
