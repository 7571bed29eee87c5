import Commute.Swim.Evidence
import Commute.Swim.NodeParts

/-!
# A group of members

Members that know of nobody outside the group exchange join bodies over HTTP and
packets over UDP. The network keeps every body and every packet that was ever written:
it may lose, delay, reorder, repeat or misdirect them, and it may damage packets as
long as the damage is detected. A run interleaves the sections of all goroutines of all
members.
-/
namespace Commute.Swim

deriving instance DecidableEq for JoinPeer, JoinBody

/-- What a member of the group was started with. -/
structure Site where
  settings : Settings
  appPort : UInt16

namespace Site

def addr (s : Site) : Bytes := s.settings.udpAddr

def peer (s : Site) : Peer := ⟨s.addr, s.appPort⟩

/-- An address that fits into a message and survives JSON. -/
def WellFormed (s : Site) : Prop := Short s.addr ∧ ValidAddr s.addr

end Site

theorem Outbox.packets_of_reaches {crc : Bytes → UInt32} {o o' : Outbox Origin}
    (h : (Outbox.machine crc Origin).Reaches o o') : ∀ p ∈ o.packets, p ∈ o'.packets := by
  obtain ⟨as, hlegal, rfl⟩ := h
  refine hlegal.invariant (I := fun o' => ∀ p ∈ o.packets, p ∈ o'.packets) (fun _ => id) ?_
  intro a o' ho' _ p hp
  cases a with
  | write s ok =>
    simp only [Outbox.machine, Outbox.exec, Outbox.write]
    split
    · exact ho' p hp
    · exact List.mem_append_left _ (ho' p hp)
  | _ => exact ho' p hp

structure Group (ι σ : Type) where
  node : ι → Node σ
  bodies : List Json

namespace Group

variable {ι σ : Type}

def init (start : ι → σ) : Group ι σ := ⟨fun i => .init (start i), []⟩

/-- A member runs one section, or it writes its member list as a request of `Bootstrap` or an
answer of `JoinHandler`. -/
inductive Action (ι : Type) where
  | act (i : ι) (a : Node.Action)
  | asJoinBody (i : ι)

variable (crc : Bytes → UInt32)

/-- A packet that can be decoded was written by a member. -/
def Delivered (data : Bytes) (g : Group ι σ) : Prop :=
  (Message.decode crc (data.take maxMessageSize)).isOk →
    ∃ j, ∃ p ∈ (g.node j).outbox.packets, p.data = data

/-- A join body is what one of the bodies in the network is read as. -/
def Posted (body : JoinBody) (g : Group ι σ) : Prop :=
  ∃ doc ∈ g.bodies, (JoinBody.unmarshalJSON doc).toOption = some body

/-- What a member gets from the network is in the network. -/
def Arrives : Node.Action → Group ι σ → Prop
  | .receive _ data, g => Delivered crc data g
  | .member (.join _ body), g => Posted body g
  | _, _ => True

variable (site : ι → Site) (notify : Peer → EventKind → σ → σ)

def enabled : Action ι → Group ι σ → Prop
  | .act i a, g =>
    (Node.machine crc (site i).settings notify).enabled a (g.node i) ∧ Arrives crc a g
  | .asJoinBody _, _ => True

variable [DecidableEq ι]

def exec : Action ι → Group ι σ → Group ι σ
  | .act i a, g =>
    { g with
      node := Function.update g.node i (Node.exec crc (site i).settings notify a (g.node i)) }
  | .asJoinBody i, g =>
    { g with
      bodies := ((g.node i).member.peers.asJoinBody (site i).addr (site i).appPort).marshalJSON ::
        g.bodies }

def machine : Machine (Group ι σ) (Action ι) := ⟨enabled crc site notify, exec crc site notify⟩

section Decidable

variable [Fintype ι]

omit [DecidableEq ι] in
instance decidableArrives : (a : Node.Action) → (g : Group ι σ) → Decidable (Arrives crc a g)
  | .receive _ _, _ => inferInstanceAs (Decidable (_ → _))
  | .member (.join _ body), g => inferInstanceAs (Decidable
      (∃ doc ∈ g.bodies, (JoinBody.unmarshalJSON doc).toOption = some body))
  | .member (.declareDead _), _ | .member (.advance _), _ | .member (.cancel _), _
  | .member .fanOut, _ | .member (.deliver _), _ | .fanOut, _ | .routing _, _ | .relayPing _ _, _
  | .relayConsume _, _ | .probe _ _, _ | .ackTimeout _, _ | .indirect _, _ | .periodEnd, _
  | .outbox _, _ | .pushBack _ _, _ => .isTrue trivial

instance : (a : Action ι) → (g : Group ι σ) → Decidable ((machine crc site notify).enabled a g)
  | .act _ _, _ => inferInstanceAs (Decidable (_ ∧ _))
  | .asJoinBody _, _ => .isTrue trivial

end Decidable

section Lore

def Pinged (period : UInt64) (g : Group ι σ) : Prop :=
  ∃ j, ∃ p ∈ (g.node j).outbox.packets, p.msg.kind = .ping ∧ p.msg.period = period

/-- The member at this address has itself acked a ping of this period. -/
def Acked (key : RelayKey) (g : Group ι σ) : Prop :=
  ∃ j, (site j).addr = key.target ∧ ∃ p ∈ (g.node j).outbox.packets,
    p.msg.kind = .ack ∧ p.msg.period = key.period ∧ p.msg.target = []

/-- In the run, the period of a probe of `x` ended without an ack. -/
def Unanswered (start : ι → σ) (as : List (Action ι)) (x : Bytes) : Prop :=
  ∃ before after j period, as = before ++ .act j .periodEnd :: after ∧
    (((machine crc site notify).after (init start) before).node j).routing.probe =
      some ⟨x, period⟩

def lore (start : ι → σ) (as : List (Action ι)) : Lore where
  member q := ∃ i, q = (site i).peer
  dead := Unanswered crc site notify start as
  asked period := Pinged period ((machine crc site notify).after (init start) as)
  answered key := Acked site key ((machine crc site notify).after (init start) as)

end Lore

variable {crc site notify} {start : ι → σ} {as : List (Action ι)} {g : Group ι σ}

/-- The lists of members, the packets and the bodies of a group rest on what is so. -/
structure Sound (crc : Bytes → UInt32) (site : ι → Site) (L : Lore) (g : Group ι σ) : Prop where
  node : ∀ i, (g.node i).Sound L (site i).addr
  fits : ∀ i, (g.node i).Fits crc
  bodies : ∀ doc ∈ g.bodies, ∃ body, JoinBody.unmarshalJSON doc = .ok body ∧
    ∀ q ∈ body.peers.map JoinPeer.peer, L.member q

section Step

variable (hsites : ∀ i, (site i).WellFormed)

omit [DecidableEq ι] in
theorem Sound.members {L : Lore} (h : Sound crc site L g) {body : JoinBody}
    (hbody : Posted body g) : ∀ q ∈ body.peers.map JoinPeer.peer, L.member q := by
  obtain ⟨doc, hdoc, hread⟩ := hbody
  obtain ⟨body', hbody', hmembers⟩ := h.bodies doc hdoc
  rw [hbody'] at hread
  obtain rfl := Option.some.inj hread
  exact hmembers

omit [DecidableEq ι] in
theorem hears_of_packet {L : Lore} (h : Sound crc site L g) {j : ι} {p : Packet}
    (hp : p ∈ (g.node j).outbox.packets) (hpinged : ∀ n, Pinged n g → L.asked n)
    (hacked : ∀ key, Acked site key g → L.answered key) : L.Hears p.msg := by
  obtain ⟨hmsg, hevents⟩ := (h.node j).outbox.packets p hp
  refine ⟨hevents, fun hkind => hpinged _ ⟨j, p, hp, hkind, rfl⟩, fun hkind => ?_, hmsg.request⟩
  by_cases htarget : p.msg.target = []
  · -- the sender itself acks
    refine hacked _ ⟨j, ?_, p, hp, hkind, rfl, htarget⟩
    simp [ackOf, Ack.key, htarget, hmsg.src]
  · have hkey : (ackOf p.msg.src p.msg.period p.msg.target).key =
        ⟨p.msg.target, p.msg.period⟩ := by simp [ackOf, Ack.key, htarget]
    rw [hkey]
    exact hmsg.relayed hkind htarget

omit [DecidableEq ι] in
theorem agrees_of_arrives {L : Lore} (h : Sound crc site L g) {a : Node.Action} {n : Node σ}
    (hguard : Node.guard a n) (harrives : Arrives crc a g)
    (hpinged : ∀ n, Pinged n g → L.asked n) (hacked : ∀ key, Acked site key g → L.answered key)
    (hdead : ∀ key, a = .periodEnd → n.routing.probe = some key → L.dead key.target) :
    a.Agrees crc L n := by
  cases a with
  | member a =>
    cases a with
    | join draw body => exact h.members harrives
    | declareDead => cases hguard.1
    | _ => trivial
  | receive addr data =>
    intro msg hmsg
    obtain ⟨j, p, hp, rfl⟩ := harrives (by rw [hmsg]; rfl)
    have hreceivable := (h.fits j).outbox.packets p hp
    rw [List.take_of_length_le hreceivable.length_le] at hmsg
    have hdecoded := (Message.unmarshalBinary_eq_ok crc).mp (hreceivable.decoded p.msg)
    obtain rfl := Except.ok.inj (hmsg.symm.trans hdecoded)
    exact hears_of_packet h hp hpinged hacked
  | periodEnd => exact fun key => hdead key rfl
  | _ => trivial

omit [DecidableEq ι] in
include hsites in
theorem shortJoins_of_arrives {L : Lore} (hL : ∀ q, L.member q → ∃ i, q = (site i).peer)
    (h : Sound crc site L g) {a : Node.Action} {n : Node σ} (hguard : Node.guard a n)
    (harrives : Arrives crc a g) : Node.ShortJoins a n := by
  cases a with
  | member a =>
    cases a with
    | join draw body =>
      refine List.forall_mem_map.mpr fun jp hjp => ?_
      obtain ⟨i, hi⟩ := hL _ (h.members harrives _ (List.mem_map_of_mem hjp))
      have haddr : jp.udpAddr = (site i).addr := congrArg Peer.udpAddr hi
      rw [haddr]
      exact (hsites i).1
    | declareDead => cases hguard.1
    | _ => exact List.forall_mem_nil _
  | _ => trivial

theorem packets_exec (a : Action ι) (ha : enabled crc site notify a g) (j : ι) :
    ∀ p ∈ (g.node j).outbox.packets, p ∈ ((exec crc site notify a g).node j).outbox.packets := by
  cases a with
  | act i a =>
    by_cases hij : j = i
    · subst hij
      simp only [exec, Function.update_self]
      exact Outbox.packets_of_reaches (Node.reaches_outbox a ha.1.1 ha.1.2)
    · simp only [exec, Function.update_of_ne hij]
      exact fun _ => id
  | asJoinBody i => exact fun _ => id

theorem lore_extends (a : Action ι)
    (ha : enabled crc site notify a ((machine crc site notify).after (init start) as)) :
    (lore crc site notify start as).Extends (lore crc site notify start (as ++ [a])) := by
  have hpackets := packets_exec a ha
  refine ⟨fun _ => id, ?_, ?_, ?_⟩
  · rintro x ⟨before, after, j, period, rfl, hprobe⟩
    exact ⟨before, after ++ [a], j, period, by simp, hprobe⟩
  · rintro period ⟨j, p, hp, hmsg⟩
    simp only [lore, Machine.after_append]
    exact ⟨j, p, hpackets j p hp, hmsg⟩
  · rintro key ⟨j, haddr, p, hp, hmsg⟩
    simp only [lore, Machine.after_append]
    exact ⟨j, haddr, p, hpackets j p hp, hmsg⟩

omit [DecidableEq ι] in
theorem Sound.mono {L L' : Lore} (h : Sound crc site L g) (hL : L.Extends L') :
    Sound crc site L' g where
  node i := (h.node i).mono hL
  fits := h.fits
  bodies doc hdoc := by
    obtain ⟨body, hbody, hmembers⟩ := h.bodies doc hdoc
    exact ⟨body, hbody, fun q hq => hL.member q (hmembers q hq)⟩

include hsites in
theorem Sound.act {L : Lore} (h : Sound crc site L g)
    (hL : ∀ q, L.member q → ∃ i, q = (site i).peer) (i : ι) {a : Node.Action}
    (hguard : Node.guard a (g.node i)) (harrives : Arrives crc a g)
    (ha : a.Agrees crc L (g.node i)) : Sound crc site L (exec crc site notify (.act i a) g) := by
  have hknown : ∀ x, L.Known x → x ≠ [] := by
    rintro x ⟨port, hx⟩
    obtain ⟨j, hj⟩ := hL _ hx
    have haddr : x = (site j).addr := congrArg Peer.udpAddr hj
    rw [haddr]
    exact (site j).settings.udpAddr_ne_nil
  have hshort := shortJoins_of_arrives hsites hL h hguard harrives
  refine ⟨fun j => ?_, fun j => ?_, h.bodies⟩
  · by_cases hij : j = i
    · subst hij
      simp only [exec, Function.update_self]
      exact (h.node j).exec hknown hguard ha
    · simp only [exec, Function.update_of_ne hij]
      exact h.node j
  · by_cases hij : j = i
    · subst hij
      simp only [exec, Function.update_self]
      exact (h.fits j).exec (hsites j).1 hguard hshort
    · simp only [exec, Function.update_of_ne hij]
      exact h.fits j

include hsites in
theorem Sound.asJoinBody {L : Lore} (h : Sound crc site L g)
    (hL : ∀ q, L.member q ↔ ∃ i, q = (site i).peer) (i : ι) :
    Sound crc site L (exec crc site notify (.asJoinBody i) g) := by
  have hentries := (g.node i).member.peers.peers_asJoinBody (site i).addr (site i).appPort
  have hmembers : ∀ q ∈ ((g.node i).member.peers.asJoinBody (site i).addr
      (site i).appPort).peers.map JoinPeer.peer, L.member q := by
    rw [hentries]
    exact List.forall_mem_append.mpr ⟨(h.node i).member.listed,
      List.forall_mem_singleton.mpr ((hL _).mpr ⟨i, rfl⟩)⟩
  refine ⟨h.node, h.fits, List.forall_mem_cons.mpr ⟨⟨_, ?_, hmembers⟩, h.bodies⟩⟩
  refine JoinBody.unmarshalJSON_marshalJSON (hsites i).2 fun jp hjp => ?_
  obtain ⟨j, hj⟩ := (hL _).mp (hmembers _ (List.mem_map_of_mem hjp))
  have haddr : jp.udpAddr = (site j).addr := congrArg Peer.udpAddr hj
  rw [haddr]
  exact (hsites j).2

include hsites in
theorem sound_after (h : (machine crc site notify).Legal (init start) as) :
    Sound crc site (lore crc site notify start as)
      ((machine crc site notify).after (init start) as) := by
  refine h.snoc_induction (P := fun as => Sound crc site (lore crc site notify start as)
    ((machine crc site notify).after (init start) as)) ?_ ?_
  · exact ⟨fun i => .init (start i), fun i => .init (start i), List.forall_mem_nil _⟩
  · intro as a _ ha ih
    have hextends := lore_extends a ha
    have hsound := ih.mono hextends
    rw [Machine.after_append]
    cases a with
    | act i a =>
      refine hsound.act hsites (fun q hq => hq) i ha.1.2 ha.2 ?_
      refine agrees_of_arrives hsound ha.1.2 ha.2 hextends.asked hextends.answered ?_
      rintro key rfl hprobe
      exact ⟨as, [], i, key.period, rfl, hprobe⟩
    | asJoinBody i =>
      have hstep : Sound crc site _ (exec crc site notify (.asJoinBody i) _) :=
        hsound.asJoinBody hsites (fun q => .rfl) i
      exact hstep

end Step

section Pair

def pair (b : Bool) : Site := ⟨Node.soleSettings (if b then [98] else [97]), 1⟩

theorem pair_wellFormed : ∀ b, (pair b).WellFormed := by
  unfold Site.WellFormed
  decide

abbrev pairMachine : Machine (Group Bool Unit) (Action Bool) := machine crc32 pair fun _ _ => id

def ping (stage : SendStage) : Send Origin :=
  ⟨.probe [98, 58, 49], stage, ⟨1, .ping, [97, 58, 49], 1, [], []⟩, []⟩

def pong (stage : SendStage) : Send Origin :=
  ⟨.reply, stage, ⟨1, .ack, [98, 58, 49], 1, [], []⟩, []⟩

/-- The first member reads the list of the second one and pings it. -/
def joinAndPing : List (Action Bool) :=
  [.asJoinBody true, .act false (.member (.join id ⟨[98, 58, 49], [⟨[98, 58, 49], 1⟩]⟩)),
    .act false (.probe id true), .act false (.outbox (.pop (ping .pop) [] [])),
    .act false (.outbox (.write (ping .write) true)), .act false (.pushBack (ping .written) 0)]

/-- Nobody answers, and the first member declares the second one dead. -/
def findDead : List (Action Bool) :=
  joinAndPing ++ [.act false .periodEnd,
    .act false (.member (.advance ⟨.record, ⟨⟨.dead, [98, 58, 49]⟩, none⟩, []⟩))]

def encoded (msg : Message) : Bytes := (msg.marshalBinary crc32).toOption.getD []

def answer : List (Action Bool) :=
  joinAndPing ++ [.act true (.receive [] (encoded (ping .write).msg)),
    .act true (.outbox (.pop (pong .pop) [] [])), .act true (.outbox (.write (pong .write) true)),
    .act false (.receive [] (encoded (pong .write).msg)), .act false (.routing .deliver)]

end Pair

theorem reaches_list_after (h : (machine crc site notify).Legal (init start) as) (i : ι) :
    (PeerList.machine (site i).addr).Reaches .new
      (((machine crc site notify).after (init start) as).node i).list := by
  refine h.invariant (I := fun g => (PeerList.machine (site i).addr).Reaches .new (g.node i).list)
    (.refl _) ?_
  intro a g hg ha
  cases a with
  | act j a =>
    by_cases hij : i = j
    · subst hij
      simp only [machine, exec, Function.update_self]
      exact hg.trans (Node.reaches_list a)
    · simp only [machine, exec, Function.update_of_ne hij]
      exact hg
  | asJoinBody j => exact hg

theorem exists_site_of_listed (hsites : ∀ i, (site i).WellFormed)
    (h : (machine crc site notify).Legal (init start) as) (i : ι) {q : Peer}
    (hq : q ∈ (((machine crc site notify).after (init start) as).node i).member.peers.peers) :
    ∃ j, j ≠ i ∧ q = (site j).peer := by
  obtain ⟨j, rfl⟩ := ((sound_after hsites h).node i).member.listed q hq
  refine ⟨j, ?_, rfl⟩
  rintro rfl
  obtain ⟨sections, -, hsections⟩ := reaches_list_after h j
  have hlist := PeerList.wellFormed_run (site j).addr sections
  rw [PeerList.run, hsections] at hlist
  exact hlist.self_notMem (List.mem_map_of_mem (f := Peer.udpAddr) hq)

/-- A member lists only other members of the group, with the port of their API, and every packet
that a member writes names it as its source and is read by any receiver as it was written. -/
theorem members_only (hsites : ∀ i, (site i).WellFormed)
    (h : (machine crc site notify).Legal (init start) as) (i : ι) :
    (∀ q ∈ (((machine crc site notify).after (init start) as).node i).member.peers.peers,
        ∃ j, j ≠ i ∧ q = (site j).peer) ∧
      (∀ p ∈ (((machine crc site notify).after (init start) as).node i).outbox.packets,
        p.msg.src = (site i).addr ∧
          Message.decode crc (p.data.take maxMessageSize) = .ok p.msg) ∧
      (((machine crc site notify).after (init start) as).node i).panic ≠ some .newMessage := by
  have hsound := sound_after hsites h
  refine ⟨fun q hq => exists_site_of_listed hsites h i hq,
    fun p hp => ⟨((hsound.node i).outbox.packets p hp).1.src, ?_⟩, ?_⟩
  · have hreceivable := (hsound.fits i).outbox.packets p hp
    rw [List.take_of_length_le hreceivable.length_le]
    exact (Message.unmarshalBinary_eq_ok crc).mp (hreceivable.decoded p.msg)
  · intro hpanic
    cases (hsound.fits i).panic _ hpanic

theorem members_only_answer :
    (((pairMachine.after (init fun _ => ()) answer).node false).member.peers.peers =
        [⟨[98, 58, 49], 1⟩]) ∧ ∃ j, j ≠ false ∧ ⟨[98, 58, 49], 1⟩ = (pair j).peer := by
  have hrun : pairMachine.Legal (init fun _ => ()) answer := by decide +kernel
  obtain ⟨hlisted, -, -⟩ := members_only pair_wellFormed hrun false
  exact ⟨by decide +kernel, hlisted ⟨[98, 58, 49], 1⟩ (by decide +kernel)⟩

/-- Whatever a member records, acts on, passes on or tells its notifier about a death goes back
to a member of the group that probed the dead one and got no ack within the period. -/
theorem unanswered_of_reports (hsites : ∀ i, (site i).WellFormed)
    (h : (machine crc site notify).Legal (init start) as) (i : ι) {x : Bytes}
    (hx : (((machine crc site notify).after (init start) as).node i).Reports ⟨.dead, x⟩) :
    Unanswered crc site notify start as x ∧ ∃ k, (site k).addr = x := by
  have hdead := ((sound_after hsites h).node i).reports hx
  refine ⟨hdead, ?_⟩
  obtain ⟨before, after, j, period, rfl, hprobe⟩ := hdead
  have hbefore := sound_after hsites (Machine.legal_append.mp h).1
  obtain ⟨port, k, hk⟩ := (hbefore.node j).targets.probe _ hprobe
  exact ⟨k, (congrArg Peer.udpAddr hk).symm⟩

theorem unanswered_findDead :
    Unanswered crc32 pair (fun _ _ => id) (fun _ => ()) findDead [98, 58, 49] ∧
      ∃ k, (pair k).addr = [98, 58, 49] := by
  have hrun : pairMachine.Legal (init fun _ => ()) findDead := by decide +kernel
  exact unanswered_of_reports pair_wellFormed hrun false (.recorded (by decide +kernel))

/-- If the probe loop is about to take an ack for its probe, directly or through relays, then
the probed member itself has acked a ping that a member sent in that period. -/
theorem acked_of_probeConsume (hsites : ∀ i, (site i).WellFormed)
    (h : (machine crc site notify).Legal (init start) as) (i : ι) {key : RelayKey}
    (hprobe : (((machine crc site notify).after (init start) as).node i).routing.probe = some key)
    (hack : (((machine crc site notify).after (init start) as).node i).routing.acks.map Ack.key =
      some key) :
    Acked site key ((machine crc site notify).after (init start) as) ∧
      Pinged key.period ((machine crc site notify).after (init start) as) := by
  have hsound := sound_after hsites h
  obtain ⟨a, ha, rfl⟩ := Option.map_eq_some_iff.mp hack
  have hacked := (hsound.node i).acks.acks a ha
  refine ⟨hacked, ?_⟩
  obtain ⟨j, -, p, hp, hkind, hperiod, htarget⟩ := hacked
  exact hperiod ▸ ((hsound.node j).outbox.packets p hp).1.reply hkind htarget

theorem acked_answer :
    let g := pairMachine.after (init fun _ => ()) answer
    (g.node false).routing.probe = some ⟨[98, 58, 49], 1⟩ ∧ Acked pair ⟨[98, 58, 49], 1⟩ g ∧
      Pinged 1 g := by
  intro g
  have hrun : pairMachine.Legal (init fun _ => ()) answer := by decide +kernel
  have hprobe : (g.node false).routing.probe = some ⟨[98, 58, 49], 1⟩ := by decide +kernel
  have hack : (g.node false).routing.acks.map Ack.key = some ⟨[98, 58, 49], 1⟩ := by
    decide +kernel
  exact ⟨hprobe, acked_of_probeConsume pair_wellFormed hrun false hprobe hack⟩

end Group
end Commute.Swim
