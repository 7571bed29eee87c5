import Commute.Swim.JoinExchange
import Commute.Swim.Sending

/-!
# What a member's knowledge rests on

A member learns from join bodies, from packets, and from probes that nobody answers.
`Lore` says what is so in the world around it: which peers there are, who was found
dead, in which periods pings were sent and which of them were answered. If everything
that comes in agrees with the lore, then so does everything a member stores, passes on
or tells its notifier.
-/
namespace Commute.Swim

/-- What is so around a member. -/
structure Lore where
  member : Peer → Prop
  dead : Bytes → Prop
  asked : UInt64 → Prop
  answered : RelayKey → Prop

namespace Lore

variable (L : Lore)

def Known (x : Bytes) : Prop := ∃ port, L.member ⟨x, port⟩

def Holds (e : Event) : Prop :=
  match e.kind with
  | .alive => L.Known e.node
  | .dead => L.dead e.node

/-- What a member says about others in a message. -/
structure Says (me : Bytes) (msg : Message) : Prop where
  src : msg.src = me
  reply : msg.kind = .ack → msg.target = [] → L.asked msg.period
  relayed : msg.kind = .ack → msg.target ≠ [] → L.answered ⟨msg.target, msg.period⟩
  request : msg.kind = .pingReq → L.Known msg.target

/-- What a member relies on when it gets a message. -/
structure Hears (msg : Message) : Prop where
  events : ∀ e ∈ msg.events, L.Holds e
  ping : msg.kind = .ping → L.asked msg.period
  ack : msg.kind = .ack → L.answered (ackOf msg.src msg.period msg.target).key
  request : msg.kind = .pingReq → L.Known msg.target

/-- More is so. -/
structure Extends (L' : Lore) : Prop where
  member : ∀ q, L.member q → L'.member q
  dead : ∀ x, L.dead x → L'.dead x
  asked : ∀ n, L.asked n → L'.asked n
  answered : ∀ key, L.answered key → L'.answered key

variable {L} {L' : Lore}

theorem Known.mono {x : Bytes} (h : L.Known x) (hL : L.Extends L') : L'.Known x :=
  h.imp fun _ => hL.member _

theorem Holds.mono {e : Event} (h : L.Holds e) (hL : L.Extends L') : L'.Holds e := by
  unfold Holds at *
  split at h
  · exact h.mono hL
  · exact hL.dead _ h

theorem Says.mono {self : Bytes} {msg : Message} (h : L.Says self msg) (hL : L.Extends L') :
    L'.Says self msg :=
  ⟨h.src, fun hk ht => hL.asked _ (h.reply hk ht), fun hk ht => hL.answered _ (h.relayed hk ht),
    fun hk => (h.request hk).mono hL⟩

end Lore

variable {L L' : Lore}

namespace Member

variable {σ : Type} {self : Bytes} {notify : Peer → EventKind → σ → σ} {m m' : Member σ}

/-- The member list, the states, and all announcements on their way agree with the lore. -/
structure Sound (L : Lore) (m : Member σ) : Prop where
  listed : ∀ q ∈ m.peers.peers, L.member q
  state : ∀ x e, m.peers.state.lookup x = some e → e.node = x ∧ L.Holds e
  dead : ∀ x, m.peers.Dead x → L.dead x
  carried : m.Carries fun a => L.Holds a.event
  deleting : ∀ t ∈ m.tasks, t.stage = .delete → t.current.event.kind = .dead
  notifying : ∀ c ∈ m.notifying, L.Holds ⟨c.kind, c.peer.udpAddr⟩
  delivered : ∀ d ∈ m.delivered, L.Holds ⟨d.call.kind, d.call.peer.udpAddr⟩

theorem Sound.mono (h : Sound L m) (hL : L.Extends L') : Sound L' m where
  listed q hq := hL.member q (h.listed q hq)
  state x e he := ⟨(h.state x e he).1, (h.state x e he).2.mono hL⟩
  dead x hx := hL.dead x (h.dead x hx)
  carried := ⟨fun t ht a ha => (h.carried.tasks t ht a ha).mono hL,
    fun a ha => (h.carried.events a ha).mono hL⟩
  deleting := h.deleting
  notifying c hc := (h.notifying c hc).mono hL
  delivered d hd := (h.delivered d hd).mono hL

theorem Sound.init (start : σ) : Sound L (init start) where
  listed := by simp [Member.init, Peers.new]
  state := by simp [Member.init, Peers.new]
  dead := by simp [Member.init, Peers.new, Peers.Dead]
  carried := ⟨by simp [Member.init], by simp [Member.init]⟩
  deleting := by simp [Member.init]
  notifying := by simp [Member.init]
  delivered := by simp [Member.init]

theorem deleting_start {tasks : List Task} {as : List Announcement}
    (h : ∀ t ∈ tasks, t.stage = .delete → t.current.event.kind = .dead) :
    ∀ t ∈ start as ++ tasks, t.stage = .delete → t.current.event.kind = .dead := by
  refine List.forall_mem_append.mpr ⟨?_, h⟩
  cases as with
  | nil => exact List.forall_mem_nil _
  | cons a as => exact List.forall_mem_singleton.mpr nofun

theorem Sound.join (h : Sound L m) (draw : ℕ → ℕ) {body : JoinBody}
    (hbody : ∀ q ∈ body.peers.map JoinPeer.peer, L.member q) :
    Sound L (m.join self draw body) := by
  have hadded := Peers.mem_added self draw body m.peers
  have hjoined := Peers.joined_join self draw body m.peers
  refine { h with
    listed := fun q hq => ?_
    state := ?_
    dead := fun x hx => ?_
    carried := (h.carried.setPeers _).start ?_
    deleting := deleting_start h.deleting }
  · rcases List.mem_append.mp (hjoined.peers.mem_iff.mp hq) with hq | hq
    · exact h.listed q hq
    · exact hbody q (hadded q hq)
  · change ∀ x e, (m.peers.join self draw body).1.state.lookup x = some e → _
    rw [hjoined.state]
    exact h.state
  · refine h.dead x ?_
    by_contra hnot
    refine @Peers.not_dead_erase _ body.src x hnot ?_
    have hx' : (m.peers.join self draw body).1.Dead x := hx
    unfold Peers.Dead at hx' ⊢
    rwa [hjoined.deadPeers] at hx'
  · exact List.forall_mem_map.mpr fun q hq => ⟨q.httpPort, hbody q (hadded q hq)⟩

theorem Sound.declareDead (h : Sound L m) {nodes : List Bytes} (hnodes : ∀ x ∈ nodes, L.dead x) :
    Sound L (m.declareDead nodes) :=
  { h with
    carried := h.carried.start (List.forall_mem_map.mpr hnodes)
    deleting := deleting_start h.deleting }

theorem Sound.finish (h : Sound L m) {t : Task} (ht : t ∈ m.tasks) : Sound L (m.finish t) :=
  { h with
    carried := h.carried.finish ht
    deleting := deleting_start fun t' ht' => h.deleting t' (List.mem_of_mem_erase ht') }

theorem Sound.enter (h : Sound L m) {t : Task} (ht : t ∈ m.tasks) {stage : Stage}
    (hstage : stage = .delete → t.current.event.kind = .dead) : Sound L (m.enter t stage) :=
  { h with
    carried := h.carried.enter ht stage
    deleting := List.forall_mem_cons.mpr
      ⟨hstage, fun t' ht' => h.deleting t' (List.mem_of_mem_erase ht')⟩ }

/-- A section of `process` writes the event of the call, and only deletes for a dead one. -/
theorem Sound.advance (h : Sound L m) {t : Task} (ht : t ∈ m.tasks) : Sound L (m.advance t) := by
  have hcurrent : L.Holds t.current.event := h.carried.tasks t ht _ List.mem_cons_self
  unfold Member.advance
  split
  · split
    · exact h.finish ht
    · next peers hrecord =>
      have hpeers := Peers.record_eq_some hrecord
      have hrecorded : Sound L { m with peers := peers } := by
        refine { h with listed := ?_, state := ?_, dead := ?_, carried := h.carried.setPeers _ }
        · rw [hpeers]
          exact h.listed
        · rw [hpeers]
          intro x e he
          rw [FMap.lookup_insert_eq] at he
          split_ifs at he with hx
          · obtain rfl := Option.some.inj he
            exact ⟨hx.symm, hcurrent⟩
          · exact h.state x e he
        · rw [hpeers]
          exact h.dead
      split
      · exact hrecorded.enter ht nofun
      · next hkind => exact hrecorded.enter ht fun _ => hkind
  · next hstage =>
    have hkind := h.deleting t ht hstage
    have hdead : L.dead t.current.event.node := by
      unfold Lore.Holds at hcurrent
      rwa [hkind] at hcurrent
    have hdeleted : Sound L { m with peers := (m.peers.delete t.current.event.node).2 } := by
      refine { h with listed := ?_, dead := ?_, carried := h.carried.setPeers _ }
      · exact fun q hq => h.listed q (List.mem_of_mem_filter hq)
      · intro x hx
        rcases (Peers.Dead.insert _).mp hx with rfl | hx
        · exact hdead
        · exact h.dead x hx
    exact hdeleted.enter ht nofun
  · split_ifs
    · have hsent : Sound L { m with events := m.events ++ [t.current] } :=
        { h with
          carried := ⟨h.carried.tasks, List.forall_mem_append.mpr
            ⟨h.carried.events, List.forall_mem_singleton.mpr hcurrent⟩⟩ }
      exact hsent.finish ht
    · exact h

theorem Sound.fanOut (h : Sound L m) : Sound L m.fanOut := by
  have hcarried := h.carried.fanOut
  unfold Member.fanOut at hcarried ⊢
  split at hcarried
  · exact h
  · next a events heq =>
    have ha : L.Holds a.event := h.carried.events a (by rw [heq]; exact List.mem_cons_self)
    exact { h with carried := hcarried, notifying := List.forall_mem_cons.mpr ⟨ha, h.notifying⟩ }

theorem Sound.deliver (h : Sound L m) {c : Notification} (hc : c ∈ m.notifying) :
    Sound L (m.deliver notify c) :=
  { h with
    carried := ⟨h.carried.tasks, h.carried.events⟩
    notifying := fun c' hc' => h.notifying c' (List.mem_of_mem_erase hc')
    delivered := List.forall_mem_cons.mpr ⟨h.notifying c hc, h.delivered⟩ }

def Action.Agrees (L : Lore) : Action → Prop
  | .join _ body => ∀ q ∈ body.peers.map JoinPeer.peer, L.member q
  | .declareDead nodes => ∀ x ∈ nodes, L.dead x
  | _ => True

theorem Sound.exec (h : Sound L m) {a : Action} (hen : enabled a m) (ha : a.Agrees L) :
    Sound L (exec self notify a m) := by
  cases a with
  | join draw body => exact h.join draw ha
  | declareDead nodes => exact h.declareDead ha
  | advance t => exact h.advance hen
  | cancel t => exact h.finish hen.1
  | fanOut => exact h.fanOut
  | deliver c => exact h.deliver hen

end Member

namespace Routing

variable {A : Type} {s : Routing A} {P : Ack → Prop}

/-- Every ack in a buffer or on its way to one has the property. -/
structure Holds (P : Ack → Prop) (s : Routing A) : Prop where
  acks : ∀ a, s.acks = some a → P a
  listen : ∀ dest a, s.listen = some (dest, a) → P a
  buffers : ∀ r ∈ s.relays, ∀ a, r.buffer = some a → P a

/-- An ack for the probe loop was there before or was just put there. -/
theorem acks_exec {a : Action A} {ack : Ack} (h : (exec a s).acks = some ack) :
    s.acks = some ack ∨ s.listen = some (.probe, ack) := by
  cases a with
  | pingReq key requester =>
    simp only [exec, pingReq] at h
    split_ifs at h <;> exact Or.inl h
  | cleanup c =>
    simp only [exec, cleanup] at h
    split at h <;> exact Or.inl h
  | ack src period target =>
    simp only [exec, Routing.ack] at h
    split at h <;> exact Or.inl h
  | deliver =>
    simp only [exec, deliver] at h
    split at h
    · exact Or.inl h
    · next a hl =>
      rcases Option.or_eq_some_iff.mp h with h | ⟨-, h⟩
      · exact Or.inl h
      · exact Or.inr (by rw [hl, Option.some.inj h])
    · split_ifs at h <;> exact Or.inl h
  | probeConsume => cases h
  | _ => exact Or.inl h

theorem Holds.exec (h : Holds P s) {a : Action A}
    (ha : ∀ src period target, a = .ack src period target → P (ackOf src period target)) :
    Holds P (exec a s) := by
  refine ⟨fun ack hack => ?_, fun dest ack hack => ?_, fun r hr ack hack => ?_⟩
  · rcases acks_exec hack with hack | hack
    · exact h.acks ack hack
    · exact h.listen _ ack hack
  · rcases listen_exec hack with hack | ⟨src, period, target, rfl, rfl, -⟩
    · exact h.listen dest ack hack
    · exact ha src period target rfl
  · obtain ⟨j, hj⟩ := List.mem_iff_getElem?.mp hr
    rcases relay_exec hj with ⟨_, _, -, -, -, rfl⟩ | ⟨r₀, hr₀, hstep⟩
    · cases hack
    · have hbuffer := h.buffers r₀ (List.mem_of_getElem? hr₀)
      cases hstep with
      | consume => cases hack
      | deliver ack' _ hl =>
        rcases Option.or_eq_some_iff.mp hack with hack | ⟨-, hack⟩
        · exact hbuffer ack hack
        · exact Option.some.inj hack ▸ h.listen _ ack' hl
      | _ => exact hbuffer ack hack

theorem Holds.mono {Q : Ack → Prop} (h : Holds P s) (hPQ : ∀ a, P a → Q a) : Holds Q s :=
  ⟨fun a ha => hPQ a (h.acks a ha), fun d a ha => hPQ a (h.listen d a ha),
    fun r hr a ha => hPQ a (h.buffers r hr a ha)⟩

theorem Targets.mono {P Q : Bytes → Prop} (h : s.Targets P) (hPQ : ∀ x, P x → Q x) : s.Targets Q :=
  ⟨fun r hr => hPQ _ (h.relays r hr), fun key hkey => hPQ _ (h.probe key hkey)⟩

end Routing

def Origin.Known (L : Lore) : Origin → Prop
  | .probe peer => L.Known peer
  | _ => True

/-- A send of a member whose knowledge agrees with the lore. -/
structure Send.Sound (L : Lore) (me : Bytes) (s : Send Origin) : Prop where
  origin : s.origin.Known L
  said : L.Says me s.msg
  events : ∀ e ∈ s.msg.events, L.Holds e
  items : ∀ i ∈ s.items, L.Holds i.event

namespace Outbox

variable {crc : Bytes → UInt32} {self : Bytes} {o : Outbox Origin}

structure Sound (L : Lore) (me : Bytes) (o : Outbox Origin) : Prop where
  queue : ∀ i ∈ o.queue, L.Holds i.event
  sends : ∀ s ∈ o.sends, s.Sound L me
  packets : ∀ p ∈ o.packets, L.Says me p.msg ∧ ∀ e ∈ p.msg.events, L.Holds e

theorem Sound.mono (h : Sound L self o) (hL : L.Extends L') : Sound L' self o := by
  refine ⟨fun i hi => (h.queue i hi).mono hL, fun s hs => ?_,
    fun p hp => ⟨(h.packets p hp).1.mono hL, fun e he => ((h.packets p hp).2 e he).mono hL⟩⟩
  have hsend := h.sends s hs
  refine ⟨?_, hsend.said.mono hL, fun e he => (hsend.events e he).mono hL,
    fun i hi => (hsend.items i hi).mono hL⟩
  have horigin := hsend.origin
  unfold Origin.Known at horigin ⊢
  split at horigin
  · exact horigin.mono hL
  · trivial

theorem Sound.push (h : Sound L self o) {e : Event} (he : L.Holds e) : Sound L self (o.push e) :=
  { h with queue := List.forall_mem_cons.mpr ⟨he, h.queue⟩ }

theorem Sound.start (h : Sound L self o) {origin : Origin} (horigin : origin.Known L)
    {msg : Message} (hmsg : L.Says self msg) (hfresh : msg.events = []) :
    Sound L self (o.start origin msg) := by
  refine { h with sends := List.forall_mem_cons.mpr ⟨⟨horigin, hmsg, ?_, ?_⟩, h.sends⟩ }
  · rw [hfresh]
    exact List.forall_mem_nil _
  · exact List.forall_mem_nil _

theorem Sound.replace (h : Sound L self o) {s s' : Send Origin} (hs' : s'.Sound L self) :
    ∀ t ∈ s' :: o.sends.erase s, t.Sound L self :=
  List.forall_mem_cons.mpr ⟨hs', fun t ht => h.sends t (List.mem_of_mem_erase ht)⟩

theorem Sound.pop (h : Sound L self o) {s : Send Origin} (hs : s ∈ o.sends)
    {items rest : List EventItem} (hperm : (items ++ rest).Perm o.queue) :
    Sound L self (o.pop s items rest) := by
  have hsend := h.sends s hs
  have hitems : ∀ i ∈ items, L.Holds i.event := fun i hi =>
    h.queue i (hperm.subset (List.mem_append_left rest hi))
  refine { h with queue := ?_, sends := h.replace ⟨hsend.origin, ?_, ?_, hitems⟩ }
  · exact fun i hi => h.queue i (hperm.subset (List.mem_append_right items hi))
  · exact ⟨hsend.said.src, hsend.said.reply, hsend.said.relayed, hsend.said.request⟩
  · exact List.forall_mem_append.mpr ⟨hsend.events, List.forall_mem_map.mpr hitems⟩

theorem Sound.write (h : Sound L self o) {s : Send Origin} (hs : s ∈ o.sends) (ok : Bool) :
    Sound L self (o.write crc s ok) := by
  have hsend := h.sends s hs
  unfold Outbox.write
  split
  · exact { h with }
  · exact { h with
      sends := h.replace ⟨hsend.origin, hsend.said, hsend.events, hsend.items⟩
      packets := List.forall_mem_append.mpr
        ⟨h.packets, List.forall_mem_singleton.mpr ⟨hsend.said, hsend.events⟩⟩ }

theorem Sound.pushBack (h : Sound L self o) {s : Send Origin} (hs : s ∈ o.sends) (k : ℤ) :
    Sound L self (o.pushBack s k) := by
  refine { h with
    queue := List.forall_mem_append.mpr ⟨?_, h.queue⟩
    sends := fun t ht => h.sends t (List.mem_of_mem_erase ht) }
  unfold Send.pushed
  split_ifs
  · intro i hi
    obtain ⟨j, hj, rfl⟩ := List.mem_map.mp (List.mem_of_mem_filter hi)
    exact (h.sends s hs).items j hj
  · exact (h.sends s hs).items

end Outbox

namespace Node

variable {σ : Type} {crc : Bytes → UInt32} {m : Settings} {notify : Peer → EventKind → σ → σ}
  {n : Node σ} {self : Bytes}

/-- Everything in a node agrees with the lore. -/
structure Sound (L : Lore) (me : Bytes) (n : Node σ) : Prop where
  member : n.member.Sound L
  targets : n.routing.Targets L.Known
  acks : n.routing.Holds fun a => L.answered a.key
  outbox : n.outbox.Sound L me

theorem Sound.mono (h : Sound L self n) (hL : L.Extends L') : Sound L' self n :=
  ⟨h.member.mono hL, h.targets.mono fun _ hx => hx.mono hL, h.acks.mono fun _ => hL.answered _,
    h.outbox.mono hL⟩

theorem Sound.init (start : σ) : Sound L self (init start) where
  member := .init start
  targets := ⟨by simp [Node.init, Routing.init], by simp [Node.init, Routing.init]⟩
  acks := ⟨by simp [Node.init, Routing.init], by simp [Node.init, Routing.init],
    by simp [Node.init, Routing.init]⟩
  outbox := ⟨by simp [Node.init, Outbox.init], by simp [Node.init, Outbox.init],
    by simp [Node.init, Outbox.init]⟩

theorem Sound.declareDead (h : Sound L self n) {nodes : List Bytes}
    (hnodes : ∀ x ∈ nodes, L.dead x) : Sound L self (n.declareDead nodes) :=
  { h with member := h.member.declareDead hnodes }

theorem Sound.route (h : Sound L self n) {a : Routing.Action Bytes}
    (htargets : ∀ x ∈ a.targets, L.Known x)
    (hacks : ∀ src period target, a = .ack src period target →
      L.answered (ackOf src period target).key) : Sound L self (n.route a) :=
  { h with targets := h.targets.exec htargets, acks := h.acks.exec hacks }

theorem Sound.returned (h : Sound L self n) {origin : Origin} (horigin : origin.Known L)
    (ok : Bool) : Sound L self (n.returned origin ok) := by
  cases origin with
  | relayPing c => exact h.route (List.forall_mem_nil _) nofun
  | probe peer => exact h.route (List.forall_mem_singleton.mpr horigin) nofun
  | reply => exact h
  | relayAck c => exact h
  | indirect => exact h

/-- A message that is about to be sent agrees with the lore. -/
theorem Sound.send (h : Sound L m.udpAddr n) (origin : Origin) (horigin : origin.Known L)
    (resolved : Bool) {kind : MessageKind} {period : UInt64} {target : Bytes}
    (hreply : kind = .ack → target = [] → L.asked period)
    (hrelayed : kind = .ack → target ≠ [] → L.answered ⟨target, period⟩)
    (hrequest : kind = .pingReq → L.Known target) :
    Sound L m.udpAddr (n.send m origin resolved kind period target) := by
  unfold Node.send
  split
  · exact { h with }
  · next msg hmsg =>
    unfold newMessage at hmsg
    split_ifs at hmsg
    obtain rfl := Except.ok.inj hmsg
    split_ifs
    · exact { h with outbox := h.outbox.start horigin ⟨rfl, hreply, hrelayed, hrequest⟩ rfl }
    · exact h.returned horigin false

theorem Sound.receive (h : Sound L m.udpAddr n) (addr : Bytes) {data : Bytes}
    (hdata : ∀ msg, Message.decode crc (data.take maxMessageSize) = .ok msg → L.Hears msg) :
    Sound L m.udpAddr (n.receive crc m addr data) := by
  unfold Node.receive
  split
  · exact { h with }
  · exact h
  · next msg hdecode =>
    have hmsg := hdata msg hdecode
    have hnodes : ∀ x ∈ (msg.events.filter fun e => e.kind = .dead).map Event.node, L.dead x := by
      refine List.forall_mem_map.mpr fun e he => ?_
      obtain ⟨he, hkind⟩ := List.mem_filter.mp he
      have hholds := hmsg.events e he
      unfold Lore.Holds at hholds
      rwa [of_decide_eq_true hkind] at hholds
    have hdead := h.declareDead hnodes
    dsimp only
    split
    · next hkind =>
      refine hdead.route (List.forall_mem_nil _) ?_
      rintro _ _ _ ⟨⟩
      exact hmsg.ack hkind
    · next hkind =>
      exact hdead.send .reply trivial true (fun _ _ => hmsg.ping hkind)
        (fun _ h => absurd rfl h) nofun
    · next hkind =>
      exact hdead.route (List.forall_mem_singleton.mpr (hmsg.request hkind)) nofun

theorem Sound.relayConsume (h : Sound L m.udpAddr n) (c : ℕ)
    (hmember : ∀ x, L.Known x → x ≠ []) : Sound L m.udpAddr (n.relayConsume m c) := by
  have hconsumed : Sound L m.udpAddr (n.route (.consume c)) :=
    h.route (List.forall_mem_nil _) nofun
  unfold Node.relayConsume
  split
  · exact h
  · next r hr =>
    have hrelay := List.mem_of_getElem? hr
    split_ifs with hbuffer
    · obtain ⟨a, ha, hkey⟩ : ∃ a, r.buffer = some a ∧ a.key = r.key := by
        simpa [Option.any_eq_true] using hbuffer
      have hanswered := h.acks.buffers r hrelay a ha
      rw [hkey] at hanswered
      exact hconsumed.send (.relayAck c) trivial true
        (fun _ hnil => absurd hnil (hmember _ (h.targets.relays r hrelay)))
        (fun _ _ => hanswered) nofun
    · exact hconsumed

theorem Sound.probe (h : Sound L m.udpAddr n) (draw : ℕ → ℕ) (resolved : Bool) :
    Sound L m.udpAddr (n.probe m draw resolved) := by
  obtain ⟨next, peers, cursor, hnext, hperm⟩ := PeerList.nextProbe_eq_ok draw n.list
  unfold Node.probe
  rw [hnext]
  cases next with
  | none => exact { h with
      targets := ⟨h.targets.relays, nofun⟩
      acks := ⟨h.acks.acks, h.acks.listen, h.acks.buffers⟩ }
  | some peer =>
    have hpeer : L.Known peer.udpAddr :=
      ⟨peer.httpPort, h.member.listed peer (PeerList.mem_of_nextProbe hnext)⟩
    have hlist : Sound L m.udpAddr { n with
        member := { n.member with peers := { n.member.peers with peers := peers } }
        probeCursor := cursor } :=
      { h with
        member := { h.member with
          listed := fun q hq => h.member.listed q (hperm.mem_iff.mp hq)
          carried := h.member.carried.setPeers _ } }
    exact hlist.send (.probe peer.udpAddr) hpeer resolved nofun nofun nofun

/-- What comes in from outside agrees with the lore. -/
def Action.Agrees (crc : Bytes → UInt32) (L : Lore) : Action → Node σ → Prop
  | .member a, _ => a.Agrees L
  | .receive _ data, _ => ∀ msg,
      Message.decode crc (data.take maxMessageSize) = .ok msg → L.Hears msg
  | .periodEnd, n => ∀ key, n.routing.probe = some key → L.dead key.target
  | _, _ => True

/-- An action whose input agrees with the lore keeps the agreement. -/
theorem Sound.exec (h : Sound L m.udpAddr n) (hmember : ∀ x, L.Known x → x ≠ []) {a : Action}
    (hguard : guard a n) (ha : a.Agrees crc L n) :
    Sound L m.udpAddr (exec crc m notify a n) := by
  cases a with
  | member a => exact { h with member := h.member.exec hguard.2 ha }
  | fanOut =>
    simp only [Node.exec, Node.fanOut]
    split
    · exact h
    · next a events hevents =>
      have hevent : L.Holds a.event := h.member.carried.events a
        (by rw [hevents]; exact List.mem_cons_self)
      exact { h with member := h.member.fanOut, outbox := h.outbox.push hevent }
  | receive addr data => exact h.receive addr ha
  | routing a =>
    cases a with
    | pingReq | probeStart | ack => cases hguard.1
    | _ => exact h.route (List.forall_mem_nil _) (by simp)
  | relayPing c resolved =>
    simp only [Node.exec]
    split
    · exact h
    · exact h.send (.relayPing c) trivial resolved (by simp) (by simp) (by simp)
  | relayConsume c => exact h.relayConsume c hmember
  | probe draw resolved => exact h.probe draw resolved
  | ackTimeout draw =>
    simp only [Node.exec, Node.ackTimeout]
    split
    · exact h
    · split <;> exact { h with }
  | indirect resolved =>
    simp only [Node.exec, Node.indirect]
    split
    · exact h
    · next key hkey =>
      have htail : Sound L m.udpAddr { n with indirects := n.indirects.tail } := { h with }
      exact htail.send .indirect trivial resolved (by simp) (by simp)
        fun _ => h.targets.probe key hkey
  | periodEnd =>
    simp only [Node.exec, Node.periodEnd]
    split
    · exact h
    · next key hkey =>
      exact (h.declareDead (List.forall_mem_singleton.mpr (ha key hkey))).route
        (List.forall_mem_nil _) (by simp)
  | outbox a =>
    refine { h with outbox := ?_ }
    cases a with
    | push | start | pushBack => cases hguard.1
    | pop s items rest =>
      obtain ⟨-, -, ⟨hs, -⟩, hpops⟩ := hguard
      exact h.outbox.pop hs hpops.perm
    | write s ok => exact h.outbox.write hguard.2.2.1 ok
  | pushBack s k =>
    have hs := hguard.2.1
    have hpushed : Sound L m.udpAddr { n with outbox := n.outbox.pushBack s k } :=
      { h with outbox := h.outbox.pushBack hs k }
    exact hpushed.returned (h.outbox.sends s hs).origin _

/-- The node has recorded the event, excludes its subject from the list, has told its notifier,
or has sent the event to another member. -/
inductive Reports (n : Node σ) (e : Event) : Prop
  | recorded (h : n.member.peers.state.lookup e.node = some e)
  | excluded (hkind : e.kind = .dead) (h : n.member.peers.Dead e.node)
  | notified (d : Delivery σ) (hd : d ∈ n.member.delivered)
      (h : e = ⟨d.call.kind, d.call.peer.udpAddr⟩)
  | sent (p : Packet) (hp : p ∈ n.outbox.packets) (h : e ∈ p.msg.events)

theorem Sound.reports (h : Sound L self n) {e : Event} (he : n.Reports e) : L.Holds e := by
  cases he with
  | recorded he => exact (h.member.state _ e he).2
  | excluded hkind he =>
    unfold Lore.Holds
    rw [hkind]
    exact h.member.dead _ he
  | notified d hd he => exact he ▸ h.member.delivered d hd
  | sent p hp he => exact (h.outbox.packets p hp).2 e he

end Node
end Commute.Swim
