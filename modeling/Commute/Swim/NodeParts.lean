import Commute.Swim.Node

/-!
# The parts of a member

A `Node` is put together from the member list, the routing of acks and the sends,
each of which is a machine of its own. In every run of a node each part is in a
state that it reaches by itself, so what holds in every run of a part holds in a
whole member.

`MemberStep` and `RoutingStep` say what an action does to a part; what a run does to
the part follows from them. The routing also relies on its callers: the send of a
relay or of the probe loop is in progress only while the routing waits for it.
-/
namespace Commute.Swim.Node

variable {σ : Type} {crc : Bytes → UInt32} {m : Settings} {notify : Peer → EventKind → σ → σ}
  {n : Node σ} {origin : Origin} {resolved : Bool} {kind : MessageKind} {period : UInt64}
  {target : Bytes}

section Member

@[simp] theorem member_returned (ok : Bool) : (n.returned origin ok).member = n.member := by
  cases origin <;> rfl

@[simp] theorem list_returned (ok : Bool) : (n.returned origin ok).list = n.list := by
  cases origin <;> rfl

@[simp] theorem member_send :
    (n.send m origin resolved kind period target).member = n.member := by
  unfold send
  split
  · rfl
  · split_ifs
    · rfl
    · exact member_returned false

@[simp] theorem list_send : (n.send m origin resolved kind period target).list = n.list := by
  unfold send
  split
  · rfl
  · split_ifs
    · rfl
    · exact list_returned false

/-- What an action does to the member and the cursor of its list. -/
inductive MemberStep (m : Settings) (notify : Peer → EventKind → σ → σ) (a : Action)
    (n n' : Node σ) : Prop
  | same (hmember : n'.member = n.member) (hlist : n'.list = n.list)
  | act (b : Member.Action) (hb : b.direct = true → a = .member b)
    (hmember : n'.member = Member.exec m.udpAddr notify b n.member)
    (hlist : n'.list = ⟨(Member.exec m.udpAddr notify b n.member).peers, n.probeCursor⟩)
  | probe (draw : ℕ → ℕ) (resolved : Bool) (peer : Peer) (p : PeerList)
    (ha : a = .probe draw resolved) (hnext : n.list.nextProbe draw = .ok (some peer, p))
    (hmember : n'.member = { n.member with peers := p.toPeers }) (hlist : n'.list = p)

theorem memberStep_receive (addr data : Bytes) :
    MemberStep m notify (.receive addr data) n (n.receive crc m addr data) := by
  unfold receive
  split
  · exact .same rfl rfl
  · exact .same rfl rfl
  · next msg _ =>
    refine .act (.declareDead ((msg.events.filter fun e => e.kind = .dead).map Event.node)) nofun
      ?_ ?_ <;> dsimp only <;> split
    · rfl
    · exact member_send
    · rfl
    · rfl
    · exact list_send
    · rfl

theorem memberStep_exec (a : Action) : MemberStep m notify a n (exec crc m notify a n) := by
  cases a with
  | member b => exact .act b (fun _ => rfl) rfl rfl
  | fanOut =>
    simp only [Node.exec, Node.fanOut]
    split
    · exact .same rfl rfl
    · exact .act .fanOut nofun rfl rfl
  | receive addr data => exact memberStep_receive addr data
  | relayPing c resolved =>
    simp only [Node.exec]
    split
    · exact .same rfl rfl
    · exact .same member_send list_send
  | relayConsume c =>
    simp only [Node.exec, relayConsume]
    split
    · exact .same rfl rfl
    · split_ifs
      · exact .same member_send list_send
      · exact .same rfl rfl
  | probe draw resolved =>
    simp only [Node.exec, probe]
    split
    · exact .same rfl rfl
    · exact .same rfl rfl
    · next peer p hnext => exact .probe draw resolved peer p rfl hnext member_send list_send
  | ackTimeout draw =>
    simp only [Node.exec, ackTimeout]
    split
    · exact .same rfl rfl
    · split <;> exact .same rfl rfl
  | indirect resolved =>
    simp only [Node.exec, indirect]
    split
    · exact .same rfl rfl
    · exact .same member_send list_send
  | periodEnd =>
    simp only [Node.exec, periodEnd]
    split
    · exact .same rfl rfl
    · next key _ => exact .act (.declareDead [key.target]) nofun rfl rfl
  | routing a => exact .same rfl rfl
  | outbox a => exact .same rfl rfl
  | pushBack s k => exact .same (member_returned _) (list_returned _)

theorem peers_fanOut (me : Member σ) : me.fanOut.peers = me.peers := by
  unfold Member.fanOut
  split <;> rfl

/-- A section of `process` is at most one section of the list. -/
theorem reaches_advance (self : Bytes) (t : Task) (me : Member σ) (cursor : ℕ) :
    (PeerList.machine self).Reaches ⟨me.peers, cursor⟩ ⟨(me.advance t).peers, cursor⟩ := by
  unfold Member.advance
  split
  · have hrecord := Machine.Reaches.step (M := PeerList.machine self) (s := ⟨me.peers, cursor⟩)
      (.record t.current.event) trivial
    simp only [PeerList.machine, PeerList.exec] at hrecord
    cases hnew : me.peers.record t.current.event with
    | none => exact .refl _
    | some peers =>
      rw [hnew] at hrecord
      dsimp only
      split <;> exact hrecord
  · exact .step (PeerList.Action.delete t.current.event.node) trivial
  · split_ifs <;> exact .refl _

theorem reaches_list (a : Action) :
    (PeerList.machine m.udpAddr).Reaches n.list (exec crc m notify a n).list := by
  have hstep : MemberStep m notify a n (exec crc m notify a n) := memberStep_exec a
  cases hstep with
  | same _ hlist => exact .of_eq hlist
  | act b _ _ hlist =>
    rw [hlist]
    cases b with
    | join draw body => exact .step (PeerList.Action.join draw body) trivial
    | advance t => exact reaches_advance m.udpAddr t n.member n.probeCursor
    | declareDead | cancel | deliver => exact .refl _
    | fanOut => exact .of_eq (by simp only [Member.exec, peers_fanOut]; rfl)
  | probe draw _ peer p _ hnext _ hlist =>
    have hprobe := Machine.Reaches.step (M := PeerList.machine m.udpAddr) (s := n.list)
      (.nextProbe draw) trivial
    simp only [PeerList.machine, PeerList.exec, hnext] at hprobe
    rw [hlist]
    exact hprobe

end Member

section Outbox

@[simp] theorem outbox_returned (ok : Bool) : (n.returned origin ok).outbox = n.outbox := by
  cases origin <;> rfl

theorem reaches_start (h : ¬ n.outbox.panicked = true) : (Outbox.machine crc Origin).Reaches
    n.outbox (n.send m origin resolved kind period target).outbox := by
  unfold send
  split
  · exact .refl _
  · next msg _ =>
    split_ifs
    · exact .step (Outbox.Action.start origin msg) h
    · exact .of_eq (outbox_returned false)

theorem reaches_outbox (a : Action) (hrun : n.Running) (hguard : guard a n) :
    (Outbox.machine crc Origin).Reaches n.outbox (exec crc m notify a n).outbox := by
  have hpanic : ¬ n.outbox.panicked = true := by simp [hrun.2.2]
  cases a with
  | member a => exact .refl _
  | fanOut =>
    simp only [Node.exec, Node.fanOut]
    split
    · exact .refl _
    · next a _ _ =>
      exact .step (Outbox.Action.push a.event) hpanic
  | receive addr data =>
    simp only [Node.exec, receive]
    split
    · exact .refl _
    · exact .refl _
    · next msg _ =>
      split
      · exact .refl _
      · exact reaches_start (n := n.declareDead _) hpanic
      · exact .refl _
  | routing a => exact .refl _
  | relayPing c resolved =>
    simp only [Node.exec]
    split
    · exact .refl _
    · exact reaches_start hpanic
  | relayConsume c =>
    simp only [Node.exec, relayConsume]
    split
    · exact .refl _
    · split_ifs
      · exact reaches_start (n := n.route _) hpanic
      · exact .refl _
  | probe draw resolved =>
    simp only [Node.exec, probe]
    split
    · exact .refl _
    · exact .refl _
    · next peer p _ =>
      exact reaches_start (n := { n with
        member := { n.member with peers := p.toPeers }, probeCursor := p.probeCursor }) hpanic
  | ackTimeout draw =>
    simp only [Node.exec, ackTimeout]
    split
    · exact .refl _
    · split <;> exact .refl _
  | indirect resolved =>
    simp only [Node.exec, indirect]
    split
    · exact .refl _
    · exact reaches_start (n := { n with indirects := n.indirects.tail }) hpanic
  | periodEnd =>
    simp only [Node.exec, periodEnd]
    split <;> exact .refl _
  | outbox a => exact .step a hguard.2
  | pushBack s k =>
    simp only [Node.exec, outbox_returned]
    exact .step (Outbox.Action.pushBack s k) hguard

end Outbox

/-- The routing waits for the sends in progress of the relays and of the probe loop, and each
of these has at most one. -/
structure Attended (calls : List Origin) (r : Routing Bytes) : Prop where
  relayPing : ∀ c, .relayPing c ∈ calls → r.phase c = some .pinging
  relayOnce : ∀ c, calls.count (.relayPing c) ≤ 1
  probe : ∀ peer, .probe peer ∈ calls → r.probe = none
  probeOnce : calls.countP Origin.ofProbe ≤ 1

namespace Attended

variable {calls calls' : List Origin} {r : Routing Bytes}

theorem perm (h : Attended calls r) (hperm : calls'.Perm calls) : Attended calls' r :=
  ⟨fun c hc => h.relayPing c (hperm.mem_iff.mp hc),
    fun c => (hperm.count_eq _).trans_le (h.relayOnce c),
    fun p hp => h.probe p (hperm.mem_iff.mp hp), (hperm.countP_eq _).trans_le h.probeOnce⟩

theorem sublist (h : Attended calls r) (hsub : calls'.Sublist calls) : Attended calls' r :=
  ⟨fun c hc => h.relayPing c (hsub.subset hc),
    fun c => Nat.le_trans (hsub.count_le _) (h.relayOnce c),
    fun p hp => h.probe p (hsub.subset hp), Nat.le_trans hsub.countP_le h.probeOnce⟩

theorem cons (h : Attended calls r)
    (hrelay : ∀ c, origin = .relayPing c → r.phase c = some .pinging ∧ .relayPing c ∉ calls)
    (hprobe : ∀ peer, origin = .probe peer → r.probe = none)
    (hidle : origin.ofProbe → ∀ o ∈ calls, o.ofProbe = false) : Attended (origin :: calls) r := by
  refine ⟨fun c hc => ?_, fun c => ?_, fun peer hp => ?_, ?_⟩
  · rcases List.mem_cons.mp hc with hc | hc
    · exact (hrelay c hc.symm).1
    · exact h.relayPing c hc
  · rw [List.count_cons]
    split_ifs with ho
    · rw [List.count_eq_zero_of_not_mem (hrelay c (eq_of_beq ho)).2]
    · exact h.relayOnce c
  · rcases List.mem_cons.mp hp with hp | hp
    · exact hprobe peer hp.symm
    · exact h.probe peer hp
  · rw [List.countP_cons]
    split_ifs with ho
    · have hzero : calls.countP Origin.ofProbe = 0 :=
        List.countP_eq_zero.mpr fun o hmem => by simp [hidle ho o hmem]
      rw [hzero]
    · exact h.probeOnce

theorem exec (h : Attended calls r) {a : Routing.Action Bytes} (hen : Routing.enabled a r)
    (hpinged : ∀ c ok, a ≠ .pinged c ok) (hstart : ∀ peer ok, a ≠ .probeStart peer ok) :
    Attended calls (Routing.exec a r) := by
  refine { h with relayPing := fun c hc => ?_, probe := fun peer hp => ?_ }
  · have hphase := h.relayPing c hc
    obtain ⟨rel, hrel, hpinging⟩ := Option.map_eq_some_iff.mp hphase
    obtain ⟨rel', hrel', hstep⟩ := Routing.exists_relay_exec (a := a) hrel
    rw [Routing.phase_eq hrel']
    -- A relay that pings is moved by the end of its send only.
    cases hstep with
    | same => rw [hpinging]
    | pinged ok ha => exact absurd ha (hpinged c ok)
    | timeout ha =>
      subst ha
      cases hphase.symm.trans hen.2
    | consume ha =>
      subst ha
      cases hphase.symm.trans hen.2.1
    | cleanup ha =>
      subst ha
      cases hphase.symm.trans hen.2
    | deliver ack => exact congrArg some hpinging
  · cases hnext : (Routing.exec a r).probe with
    | none => rfl
    | some key =>
      rcases Routing.probe_exec hnext with hkey | ⟨ok, ha⟩
      · cases hkey.symm.trans (h.probe peer hp)
      · exact absurd ha (hstart key.target ok)

end Attended

section Routing

def calls (n : Node σ) : List Origin := n.outbox.sends.map Send.origin

/-- A step that the routing takes, or that leaves it alone, and that keeps it attended. -/
def Advances (n n' : Node σ) : Prop :=
  Attended n'.calls n'.routing ∧ (Routing.machine Bytes).Reaches n.routing n'.routing

theorem Advances.trans {n' n'' : Node σ} (h : Advances n n') (h' : Advances n' n'') :
    Advances n n'' :=
  ⟨h'.1, h.2.trans h'.2⟩

theorem notMem_calls {kind : Origin → Bool} (h : n.Idle kind) :
    ∀ o ∈ n.calls, kind o = false :=
  List.forall_mem_map.mpr h

theorem advances_of_eq {n₁ n' : Node σ} (hrouting : n₁.routing = n.routing)
    (h : Advances n₁ n') : Advances n n' :=
  ⟨h.1, (Machine.Reaches.of_eq hrouting).trans h.2⟩

theorem advances_route (h : Attended n.calls n.routing) {a : Routing.Action Bytes}
    (hen : Routing.enabled a n.routing) (hpinged : ∀ c ok, a ≠ .pinged c ok)
    (hstart : ∀ peer ok, a ≠ .probeStart peer ok) : Advances n (n.route a) :=
  ⟨h.exec hen hpinged hstart, .step a hen⟩

theorem advances_returned (h : Attended (origin :: n.calls) n.routing)
    (hrun : n.routing.panicked = false) (ok : Bool) : Advances n (n.returned origin ok) := by
  have hrest : Attended n.calls n.routing := h.sublist (List.sublist_cons_self ..)
  have hpanic : ¬ n.routing.panicked = true := by simp [hrun]
  cases origin with
  | relayPing c =>
    have hcount := h.relayOnce c
    rw [List.count_cons_self] at hcount
    have hnot : .relayPing c ∉ n.calls := List.count_eq_zero.mp (by omega)
    refine ⟨{ hrest with relayPing := fun c' hc' => ?_ },
      .step (Routing.Action.pinged c ok) ⟨hpanic, h.relayPing c List.mem_cons_self⟩⟩
    have hne : c ≠ c' := by
      rintro rfl
      exact hnot hc'
    rw [← hrest.relayPing c' hc']
    simp [returned, route, Routing.exec, Routing.phase, Routing.update, hne]
  | probe peer =>
    have hcount := h.probeOnce
    rw [List.countP_cons_of_pos (p := Origin.ofProbe) rfl] at hcount
    have hnot := List.countP_eq_zero.mp (Nat.le_zero.mp (Nat.le_of_succ_le_succ hcount))
    refine ⟨{ hrest with probe := fun p hp => absurd rfl (hnot _ hp) },
      .step (Routing.Action.probeStart peer ok) ⟨hpanic, h.probe peer List.mem_cons_self⟩⟩
  | reply => exact ⟨hrest, .refl _⟩
  | relayAck c => exact ⟨hrest, .refl _⟩
  | indirect => exact ⟨hrest, .refl _⟩

theorem advances_send (h : Attended (origin :: n.calls) n.routing)
    (hrun : n.routing.panicked = false) :
    Advances n (n.send m origin resolved kind period target) := by
  have hrest : Attended n.calls n.routing := h.sublist (List.sublist_cons_self ..)
  unfold send
  split
  · exact ⟨hrest, .refl _⟩
  · split_ifs
    · exact ⟨h, .refl _⟩
    · exact advances_returned h hrun false

/-- The caller may start a send. -/
def Free : Origin → Node σ → Prop
  | .relayPing c, n => n.routing.phase c = some .pinging ∧ n.Idle fun o => o = .relayPing c
  | .probe _, n => n.routing.probe = none ∧ n.Idle Origin.ofProbe
  | .indirect, n => n.Idle Origin.ofProbe
  | _, _ => True

theorem Attended.start (h : Attended n.calls n.routing) (hfree : Free origin n) :
    Attended (origin :: n.calls) n.routing := by
  cases origin with
  | relayPing c =>
    refine h.cons ?_ nofun nofun
    rintro c' ⟨⟩
    exact ⟨hfree.1, fun hmem => by simpa using notMem_calls hfree.2 _ hmem⟩
  | probe peer => exact h.cons nofun (fun _ _ => hfree.1) fun _ => notMem_calls hfree.2
  | indirect => exact h.cons nofun nofun fun _ => notMem_calls hfree
  | reply => exact h.cons nofun nofun nofun
  | relayAck c => exact h.cons nofun nofun nofun

theorem calls_outbox {a : Outbox.Action Origin} (ha : a.direct = true)
    (hen : Outbox.enabled a n.outbox) :
    ((n.outbox.exec crc a).sends.map Send.origin).Perm n.calls := by
  cases a with
  | push | start | pushBack => cases ha
  | pop s items rest => exact ((List.perm_cons_erase hen.2.1.1).map Send.origin).symm
  | write s ok =>
    simp only [Outbox.exec, Outbox.write]
    split
    · exact .refl _
    · exact ((List.perm_cons_erase hen.2.1).map Send.origin).symm

/-- What an action does to the routing and to the calls in progress. Before a call starts,
nothing happens to either, except that a relay takes the ack that it passes on. -/
inductive RoutingStep (m : Settings) (a : Action) (n : Node σ) : Node σ → Prop
  | same {n' : Node σ} (hcalls : n'.calls.Perm n.calls) (hrouting : n'.routing = n.routing) :
    RoutingStep m a n n'
  | route {n₁ : Node σ} (b : Routing.Action Bytes) (hcalls : n₁.calls = n.calls)
    (hrouting : n₁.routing = n.routing) (hen : Routing.enabled b n.routing)
    (hpinged : ∀ c ok, b ≠ .pinged c ok) (hstart : ∀ peer ok, b ≠ .probeStart peer ok)
    (hconsume : b = .probeConsume → a = .routing .probeConsume)
    (hend : b = .probeEnd → a = .periodEnd) : RoutingStep m a n (n₁.route b)
  | send {n₁ : Node σ} (origin : Origin) (resolved : Bool) (kind : MessageKind) (period : UInt64)
    (target : Bytes) (hcalls : n₁.calls = n.calls) (hrouting : n₁.routing = n.routing)
    (hfree : Free origin n) :
    RoutingStep m a n (n₁.send m origin resolved kind period target)
  | relayAck (c : ℕ) (period : UInt64) (target : Bytes)
    (hen : Routing.enabled (.consume c) n.routing) :
    RoutingStep m a n ((n.route (.consume c)).send m (.relayAck c) true .ack period target)
  | unprobed (hfree : Free (.probe []) n) : RoutingStep m a n (n.returned (.probe []) false)
  | pushBack (s : Send Origin) (k : ℤ) (ha : a = .pushBack s k) (hs : s ∈ n.outbox.sends) :
    RoutingStep m a n ({ n with outbox := n.outbox.pushBack s k }.returned s.origin
      (s.stage = SendStage.written))

theorem routingStep_receive (hrun : n.routing.panicked = false) (hlisten : n.routing.listen = none)
    (addr data : Bytes) :
    RoutingStep m (.receive addr data) n (n.receive crc m addr data) := by
  have hpanic : ¬ n.routing.panicked = true := by simp [hrun]
  unfold receive
  split
  · exact .same (.refl _) rfl
  · exact .same (.refl _) rfl
  · dsimp only
    split
    · exact .route (.ack _ _ _) rfl rfl ⟨hpanic, hlisten⟩ nofun nofun nofun nofun
    · exact .send .reply true .ack _ [] rfl rfl trivial
    · exact .route (.pingReq _ _) rfl rfl ⟨hpanic, hlisten⟩ nofun nofun nofun nofun

theorem routingStep_exec (a : Action) (hrun : n.Running) (hguard : guard a n) :
    RoutingStep m a n (exec crc m notify a n) := by
  have hpanic : ¬ n.routing.panicked = true := by simp [hrun.2.1]
  cases a with
  | member a => exact .same (.refl _) rfl
  | fanOut =>
    simp only [Node.exec, Node.fanOut]
    split <;> exact .same (.refl _) rfl
  | receive addr data => exact routingStep_receive hrun.2.1 hguard.1 addr data
  | routing b =>
    cases b with
    | timeout | cleanup | deliver | probeConsume =>
      exact .route _ rfl rfl hguard.2.1 nofun nofun (by simp) nofun
    | _ => cases hguard.1
  | relayPing c resolved =>
    simp only [Node.exec]
    split
    · exact .same (.refl _) rfl
    · exact .send (.relayPing c) resolved .ping _ [] rfl rfl hguard
  | relayConsume c =>
    simp only [Node.exec, relayConsume]
    split
    · exact .same (.refl _) rfl
    · split_ifs
      · exact .relayAck c _ _ hguard
      · exact .route (.consume c) rfl rfl hguard nofun nofun nofun nofun
  | probe draw resolved =>
    have hfree : ∀ peer, Free (.probe peer) n := fun _ => ⟨hguard.1, hguard.2.2⟩
    simp only [Node.exec, probe]
    split
    · exact .same (.refl _) rfl
    · exact .unprobed (hfree [])
    · next peer p _ =>
      exact .send (.probe peer.udpAddr) resolved .ping _ [] rfl rfl (hfree _)
  | ackTimeout draw =>
    simp only [Node.exec, ackTimeout]
    split
    · exact .same (.refl _) rfl
    · split <;> exact .same (.refl _) rfl
  | indirect resolved =>
    simp only [Node.exec, indirect]
    split
    · exact .same (.refl _) rfl
    · exact .send .indirect resolved .pingReq _ _ rfl rfl hguard.2.2
  | periodEnd =>
    simp only [Node.exec, periodEnd]
    split
    · exact .same (.refl _) rfl
    · exact .route .probeEnd rfl rfl ⟨hpanic, hguard.1⟩ nofun nofun nofun fun _ => rfl
  | outbox a => exact .same (calls_outbox hguard.1 hguard.2) rfl
  | pushBack s k => exact .pushBack s k rfl hguard.2.1

theorem advances_exec (a : Action) (h : Attended n.calls n.routing) (hrun : n.Running)
    (hguard : guard a n) : Advances n (exec crc m notify a n) := by
  have hstep : RoutingStep m a n (exec crc m notify a n) := routingStep_exec a hrun hguard
  generalize exec crc m notify a n = n' at hstep ⊢
  cases hstep with
  | same hcalls hrouting => exact ⟨hrouting ▸ h.perm hcalls, .of_eq hrouting⟩
  | route b hcalls hrouting hen hpinged hstart =>
    rw [← hcalls, ← hrouting] at h
    rw [← hrouting] at hen
    exact advances_of_eq hrouting (advances_route h hen hpinged hstart)
  | send origin resolved kind period target hcalls hrouting hfree =>
    have hcall := h.start hfree
    rw [← hcalls, ← hrouting] at hcall
    exact advances_of_eq hrouting (advances_send hcall (hrouting ▸ hrun.2.1))
  | relayAck c period target hen =>
    have hconsume : Advances n (n.route (.consume c)) := advances_route h hen nofun nofun
    exact hconsume.trans (advances_send (hconsume.1.start trivial) hrun.2.1)
  | unprobed hfree => exact advances_returned (h.start hfree) hrun.2.1 false
  | pushBack s k _ hs =>
    have hcalls : (s.origin :: (n.outbox.pushBack s k).sends.map Send.origin).Perm n.calls :=
      ((List.perm_cons_erase hs).map Send.origin).symm
    exact advances_returned (n := { n with outbox := n.outbox.pushBack s k }) (h.perm hcalls)
      hrun.2.1 _

end Routing

/-- In every run of a member its list, its routing and its sends are where they get to by
themselves. -/
theorem parts_after {start : σ} {as : List Action}
    (h : (machine crc m notify).Legal (init start) as) :
    (PeerList.machine m.udpAddr).Reaches .new
        ((machine crc m notify).after (init start) as).list ∧
      (Routing.machine Bytes).Reaches .init
        ((machine crc m notify).after (init start) as).routing ∧
      (Outbox.machine crc Origin).Reaches .init
        ((machine crc m notify).after (init start) as).outbox := by
  have hattended : Attended (init start).calls (init start).routing :=
    ⟨nofun, fun _ => Nat.zero_le _, nofun, Nat.zero_le _⟩
  refine ⟨?_, ?_, ?_⟩
  · exact h.reaches (f := list) (I := fun _ => True) trivial
      fun a n _ ha => ⟨trivial, reaches_list a⟩
  · exact h.reaches (f := Node.routing) (I := fun n => Attended n.calls n.routing) hattended
      fun a n hn ha => advances_exec a hn ha.1 ha.2
  · exact h.reaches (f := Node.outbox) (I := fun _ => True) trivial
      fun a n _ ha => ⟨trivial, reaches_outbox a ha.1 ha.2⟩

end Commute.Swim.Node
