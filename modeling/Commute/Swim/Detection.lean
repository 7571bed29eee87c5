import Commute.Swim.NodeParts
import Commute.Swim.RoundRobin
import Commute.Swim.Sending

/-!
# A silent peer is found in bounded time

The cursor of `nextProbe` passes every place of the list before the list is shuffled
again, so a peer that stays in a list of `n` peers is probed once in any `2 n - 1`
probes. A member waits for the end of a probe before it starts the next one. If no ack
from the peer comes, the period of its probe ends with declaring it dead.
-/
namespace Commute.Swim

namespace PeerList

variable {p : PeerList} {x : Bytes} {k : ℕ}

/-- One of the next `k` calls of `nextProbe` returns `x`: in this round, or in the next one
wherever the shuffle puts it. -/
def Within (x : Bytes) (k : ℕ) (p : PeerList) : Prop :=
  (∃ i q, p.probeCursor ≤ i ∧ p.peers[i]? = some q ∧ q.udpAddr = x ∧ i < p.probeCursor + k) ∨
    x ∈ p.addrs ∧ (p.peers.length - p.probeCursor) + p.peers.length ≤ k

theorem within_of_mem (hx : x ∈ p.addrs) : p.Within x (2 * p.peers.length - 1) := by
  obtain ⟨q, hq, rfl⟩ := List.mem_map.mp hx
  obtain ⟨i, hi⟩ := List.mem_iff_getElem?.mp hq
  have hlt := (List.getElem?_eq_some_iff.mp hi).1
  rcases Nat.lt_or_ge i p.probeCursor with hbefore | hahead
  · exact Or.inr ⟨hx, by omega⟩
  · exact Or.inl ⟨i, q, hahead, hi, rfl, by omega⟩

theorem not_within_zero : ¬ p.Within x 0 := by
  rintro (⟨i, q, hle, -, -, hlt⟩ | ⟨hx, hle⟩)
  · omega
  · have hpos : 0 < p.peers.length := by
      rw [← List.length_map (f := Peer.udpAddr)]
      exact List.length_pos_of_mem hx
    omega

/-- A call of `nextProbe` returns `x` or brings it one call nearer. -/
theorem Within.nextProbe (h : p.Within x (k + 1)) (draw : ℕ → ℕ) : ∃ peer p',
    p.nextProbe draw = .ok (some peer, p') ∧ (peer.udpAddr = x ∨ p'.Within x k) := by
  rcases Nat.lt_or_ge p.probeCursor p.peers.length with hlt | hge
  · refine ⟨_, _, nextProbe_next draw hlt, ?_⟩
    rcases h with ⟨i, q, hle, hi, hq, hik⟩ | ⟨hx, hle⟩
    · rcases hle.eq_or_lt with rfl | hnext
      · left
        rw [(List.getElem?_eq_some_iff.mp hi).2, hq]
      · exact Or.inr (Or.inl ⟨i, q, hnext, hi, hq, by dsimp only; omega⟩)
    · exact Or.inr (Or.inr ⟨hx, by dsimp only; omega⟩)
  · -- nothing is left of this round
    have hx : x ∈ p.addrs ∧ p.peers.length ≤ k + 1 := by
      rcases h with ⟨i, q, hle, hi, -, -⟩ | ⟨hx, hle⟩
      · have := (List.getElem?_eq_some_iff.mp hi).1
        omega
      · exact ⟨hx, by omega⟩
    have hne : p.peers ≠ [] := List.map_eq_nil_iff.not.mp (List.ne_nil_of_mem hx.1)
    obtain ⟨peer, rest, hperm, hreset⟩ := nextProbe_reset draw ⟨hne, hge⟩
    refine ⟨peer, _, hreset, ?_⟩
    have hx' : x ∈ (peer :: rest).map Peer.udpAddr := (hperm.map _).mem_iff.mpr hx.1
    rcases List.mem_cons.mp hx' with rfl | hrest
    · exact Or.inl rfl
    · right; left
      obtain ⟨q, hq, rfl⟩ := List.mem_map.mp hrest
      obtain ⟨i, hi⟩ := List.mem_iff_getElem?.mp hq
      have hlen := (List.getElem?_eq_some_iff.mp hi).1
      have htotal := hperm.length_eq
      rw [List.length_cons] at htotal
      exact ⟨i + 1, q, by dsimp only; omega, hi, rfl, by dsimp only; omega⟩

end PeerList

namespace Node

variable {σ : Type} {crc : Bytes → UInt32} {m : Settings} {notify : Peer → EventKind → σ → σ}
  {n : Node σ} {x : Bytes}

/-- The list stays as it is, addresses are found, the ping to `x` is written, and the probe
loop gets no ack from `x`. -/
def Silent (x : Bytes) : Action → Node σ → Prop
  | .member (.join _ _), _ => False
  | .member (.advance t), _ => t.stage ≠ .delete
  | .probe _ resolved, _ => resolved = true
  | .pushBack s _, _ => s.origin = .probe x → s.stage = .written
  | .routing .probeConsume, n => ∀ a ∈ n.routing.acks, a.addr ≠ x
  | _, _ => True

instance : (a : Action) → (n : Node σ) → Decidable (Silent x a n)
  | .member (.join _ _), _ => .isFalse id
  | .member (.advance t), _ => inferInstanceAs (Decidable (t.stage ≠ .delete))
  | .probe _ resolved, _ => inferInstanceAs (Decidable (resolved = true))
  | .pushBack s _, _ => inferInstanceAs (Decidable (s.origin = .probe x → s.stage = .written))
  | .routing .probeConsume, n => inferInstanceAs (Decidable (∀ a ∈ n.routing.acks, a.addr ≠ x))
  | .member (.declareDead _), _ | .member (.cancel _), _ | .member .fanOut, _
  | .member (.deliver _), _ | .fanOut, _ | .receive _ _, _ | .routing (.pingReq _ _), _
  | .routing (.pinged _ _), _ | .routing (.timeout _), _ | .routing (.consume _), _
  | .routing (.cleanup _), _ | .routing (.ack _ _ _), _ | .routing .deliver, _
  | .routing (.probeStart _ _), _ | .routing .probeEnd, _ | .relayPing _ _, _ | .relayConsume _, _
  | .ackTimeout _, _ | .indirect _, _ | .periodEnd, _ | .outbox _, _ => .isTrue trivial

inductive Mark where
  | started
  | ended (key : RelayKey)
deriving DecidableEq

/-- A probe starts, or its period ends without an ack. -/
def marks : Action → Node σ → List Mark
  | .probe _ _, _ => [.started]
  | .periodEnd, n => (n.routing.probe.map Mark.ended).toList
  | _, _ => []

/-- The probe loop sends the ping to `x` or waits for its ack. -/
def Probing (x : Bytes) (n : Node σ) : Prop :=
  .probe x ∈ n.calls ∨ ∃ period, n.routing.probe = some ⟨x, period⟩

theorem not_probing (hprobe : n.routing.probe = none) (hidle : n.Idle Origin.ofProbe) :
    ¬ n.Probing x := by
  rintro (hcall | ⟨period, hwait⟩)
  · cases notMem_calls hidle _ hcall
  · rw [hprobe] at hwait
    cases hwait

section Send

variable {origin : Origin} {resolved : Bool} {kind : MessageKind} {period : UInt64} {target : Bytes}

theorem Probing.send (h : n.Probing x) (horigin : ∀ peer, origin ≠ .probe peer) :
    (n.send m origin resolved kind period target).Probing x := by
  unfold Node.send
  split
  · exact h
  · split_ifs
    · exact h.imp_left (List.mem_cons_of_mem _)
    · cases origin with
      | probe peer => exact absurd rfl (horigin peer)
      | _ => exact h

theorem probing_send : (n.send m (.probe x) true .ping period []).Probing x := by
  unfold Node.send newMessage
  rw [if_neg m.udpAddr_ne_nil, if_neg (by simp)]
  exact Or.inl List.mem_cons_self

end Send

theorem Probing.route (h : n.Probing x) {a : Routing.Action Bytes}
    (hprobe : (Routing.exec a n.routing).probe = n.routing.probe) : (n.route a).Probing x :=
  h.imp_right fun ⟨period, hwait⟩ => ⟨period, hprobe.trans hwait⟩

/-- The probe loop goes on to wait for the ack once its ping is written; no other send moves it
away from a probe. -/
theorem Probing.pushBack (h : n.Probing x) (hattended : Attended n.calls n.routing)
    {s : Send Origin} (hs : s ∈ n.outbox.sends) (k : ℤ)
    (hwritten : s.origin = .probe x → s.stage = .written) :
    ({ n with outbox := n.outbox.pushBack s k }.returned s.origin
      (s.stage = SendStage.written)).Probing x := by
  have hcalls : (s.origin :: (n.outbox.pushBack s k).sends.map Send.origin).Perm n.calls :=
    ((List.perm_cons_erase hs).map Send.origin).symm
  have hothers : s.origin ≠ .probe x → .probe x ∈ n.calls →
      .probe x ∈ (n.outbox.pushBack s k).sends.map Send.origin := fun hne hcall =>
    (List.mem_cons.mp (hcalls.mem_iff.mpr hcall)).resolve_left fun heq => hne heq.symm
  cases horigin : s.origin with
  | probe peer =>
    by_cases hpeer : peer = x
    · subst hpeer
      right
      refine ⟨n.routing.period + 1, ?_⟩
      simp [returned, Node.route, Routing.exec, hwritten horigin]
    · -- the probe loop has one send at a time and does not wait meanwhile
      exfalso
      have hcall : .probe peer ∈ n.calls := horigin ▸ List.mem_map_of_mem hs
      rcases h with hx | ⟨period, hwait⟩
      · have hrest := hothers (by rw [horigin]; simpa using hpeer) hx
        have honce := (hattended.perm hcalls).probeOnce
        rw [horigin, List.countP_cons_of_pos (p := Origin.ofProbe) rfl] at honce
        have hpos : 0 < ((n.outbox.pushBack s k).sends.map Send.origin).countP Origin.ofProbe :=
          List.countP_pos_iff.mpr ⟨_, hrest, rfl⟩
        omega
      · rw [hattended.probe peer hcall] at hwait
        cases hwait
  | relayPing c =>
    have hmoved : Probing x { n with outbox := n.outbox.pushBack s k } :=
      h.imp_left (hothers (by rw [horigin]; simp))
    exact hmoved.route rfl
  | reply => exact h.imp_left (hothers (by rw [horigin]; simp))
  | relayAck c => exact h.imp_left (hothers (by rw [horigin]; simp))
  | indirect => exact h.imp_left (hothers (by rw [horigin]; simp))

theorem probe_exec_other {a : Routing.Action Bytes} {r : Routing Bytes}
    (hstart : ∀ peer ok, a ≠ .probeStart peer ok) (hconsume : a ≠ .probeConsume)
    (hend : a ≠ .probeEnd) : (Routing.exec a r).probe = r.probe := by
  rcases Routing.probe_exec_eq a r with ⟨peer, ok, h⟩ | h | h | h
  · exact absurd h (hstart peer ok)
  · exact absurd h hconsume
  · exact absurd h hend
  · exact h

theorem Probing.probeConsume (h : n.Probing x)
    (hsilent : ∀ a ∈ n.routing.acks, a.addr ≠ x) : (n.route .probeConsume).Probing x := by
  refine h.imp_right fun ⟨period, hwait⟩ => ⟨period, ?_⟩
  simp only [Node.route, Routing.exec, Routing.probeConsume, hwait]
  refine if_neg fun hmatch => ?_
  obtain ⟨a, ha, hkey⟩ := Option.map_eq_some_iff.mp hmatch
  exact hsilent a ha (congrArg RelayKey.target hkey)

theorem Probing.of_eq {n' : Node σ} (h : n.Probing x) (hcalls : n'.calls.Perm n.calls)
    (hrouting : n'.routing = n.routing) : n'.Probing x := by
  unfold Probing at h ⊢
  rwa [hcalls.mem_iff, hrouting]

/-- A probe of `x` ends only with its period, since no ack comes from `x`. -/
theorem Probing.exec (h : n.Probing x) (hattended : Attended n.calls n.routing) {a : Action}
    (hrun : n.Running) (hguard : guard a n) (hsilent : Silent x a n) :
    (exec crc m notify a n).Probing x ∨ ∃ period, .ended ⟨x, period⟩ ∈ marks a n := by
  have hstep : RoutingStep m a n (Node.exec crc m notify a n) := routingStep_exec a hrun hguard
  generalize Node.exec crc m notify a n = n' at hstep ⊢
  cases hstep with
  | same hcalls hrouting => exact Or.inl (h.of_eq hcalls hrouting)
  | route b hcalls hrouting _ _ hstart hconsume hend =>
    have h₁ := h.of_eq (.of_eq hcalls) hrouting
    by_cases hb : b = .probeEnd
    · obtain rfl := hend hb
      right
      rcases h with hcall | ⟨period, hwait⟩
      · cases notMem_calls hguard.2.2 _ hcall
      · exact ⟨period, by simp [marks, hwait]⟩
    · left
      by_cases hb' : b = .probeConsume
      · obtain rfl := hconsume hb'
        subst hb'
        exact h₁.probeConsume (hrouting ▸ hsilent)
      · exact h₁.route (probe_exec_other hstart hb' hb)
  | send origin resolved kind period target hcalls hrouting hfree =>
    refine Or.inl ((h.of_eq (.of_eq hcalls) hrouting).send ?_)
    rintro peer rfl
    exact not_probing hfree.1 hfree.2 h
  | relayAck c period target =>
    have hconsumed : Probing x (n.route (.consume c)) := h.route rfl
    exact Or.inl (hconsumed.send nofun)
  | unprobed hfree => exact absurd h (not_probing hfree.1 hfree.2)
  | pushBack s k ha hs =>
    subst ha
    exact Or.inl (h.pushBack hattended hs k hsilent)

/-- A member whose list does not change keeps the cursor unless it probes. -/
theorem list_exec {a : Action} (hsilent : Silent x a n)
    (hprobe : ∀ draw resolved, a ≠ .probe draw resolved) :
    (exec crc m notify a n).list.peers = n.list.peers ∧
      (exec crc m notify a n).list.probeCursor = n.list.probeCursor := by
  have hstep : MemberStep m notify a n (exec crc m notify a n) := memberStep_exec a
  cases hstep with
  | same _ hlist =>
    rw [hlist]
    exact ⟨rfl, rfl⟩
  | act b hb _ hlist =>
    rw [hlist]
    refine ⟨?_, rfl⟩
    cases b with
    | join draw body =>
      obtain rfl := hb rfl
      exact hsilent.elim
    | advance t =>
      obtain rfl := hb rfl
      exact Member.peers_advance hsilent n.member
    | fanOut => exact congrArg Peers.peers (peers_fanOut n.member)
    | declareDead | cancel | deliver => rfl
  | probe draw resolved _ _ ha => exact absurd ha (hprobe draw resolved)

theorem count_marks {a : Action} (hprobe : ∀ draw resolved, a ≠ .probe draw resolved) :
    (marks a n).count .started = 0 := by
  cases a with
  | probe draw resolved => exact absurd rfl (hprobe draw resolved)
  | periodEnd =>
    simp only [marks]
    cases n.routing.probe <;> rfl
  | _ => rfl

/-- The probe of `x` has ended without an ack, or it is going on, or it comes within what is
left of `k` probes. -/
def Tracked (k : ℕ) (x : Bytes) (out : List Mark) (n : Node σ) : Prop :=
  (∃ period, .ended ⟨x, period⟩ ∈ out) ∨ n.Probing x ∧ out.count .started ≤ k ∨
    n.list.Within x (k - out.count .started)

/-- The next probe is the one of `x`, or it leaves one probe less until that one. -/
theorem tracked_probe {k : ℕ} {out : List Mark}
    (hwithin : n.list.Within x (k - out.count .started)) (draw : ℕ → ℕ) :
    Tracked k x (out ++ marks (.probe draw true) n)
      (exec crc m notify (.probe draw true) n) := by
  obtain ⟨j, hj⟩ : ∃ j, k - out.count .started = j + 1 := by
    cases hk : k - out.count .started with
    | zero => exact absurd (hk ▸ hwithin) PeerList.not_within_zero
    | succ j => exact ⟨j, rfl⟩
  rw [hj] at hwithin
  obtain ⟨peer, p, hnext, hx | hnear⟩ := hwithin.nextProbe draw
  · right; left
    simp only [Node.exec, Node.probe, hnext, marks, List.count_append, hx]
    exact ⟨probing_send, by simp; omega⟩
  · right; right
    simp only [Node.exec, Node.probe, hnext, marks, List.count_append, list_send]
    have hj' : k - (out.count .started + [Mark.started].count .started) = j := by
      simp
      omega
    rw [hj']
    exact hnear

theorem Tracked.exec {k : ℕ} {out : List Mark} (h : Tracked k x out n)
    (hattended : Attended n.calls n.routing) {a : Action} (hrun : n.Running) (hguard : guard a n)
    (hsilent : Silent x a n) : Tracked k x (out ++ marks a n) (exec crc m notify a n) := by
  rcases h with ⟨period, hended⟩ | ⟨hprobing, hcount⟩ | hwithin
  · exact Or.inl ⟨period, List.mem_append_left _ hended⟩
  · rcases hprobing.exec hattended hrun hguard hsilent with hnext | ⟨period, hended⟩
    · right; left
      refine ⟨hnext, ?_⟩
      -- the next probe does not start before the end of this one
      have hother : ∀ draw resolved, a ≠ .probe draw resolved := by
        rintro draw resolved rfl
        exact not_probing hguard.1 hguard.2.2 hprobing
      rw [List.count_append, count_marks hother]
      exact hcount
    · exact Or.inl ⟨period, List.mem_append_right _ hended⟩
  · by_cases hprobe : ∃ draw resolved, a = .probe draw resolved
    · obtain ⟨draw, resolved, rfl⟩ := hprobe
      have hresolved : resolved = true := hsilent
      subst hresolved
      exact tracked_probe hwithin draw
    · right; right
      have hother : ∀ draw resolved, a ≠ .probe draw resolved := fun draw resolved ha =>
        hprobe ⟨draw, resolved, ha⟩
      have hlist : (Node.exec crc m notify a n).list.peers = n.list.peers ∧
          (Node.exec crc m notify a n).list.probeCursor = n.list.probeCursor :=
        list_exec hsilent hother
      rw [List.count_append, count_marks hother]
      unfold PeerList.Within Peers.addrs at hwithin ⊢
      rw [hlist.1, hlist.2]
      exact hwithin

theorem attended_after {start : σ} {as : List Action}
    (h : (machine crc m notify).Legal (init start) as) :
    Attended ((machine crc m notify).after (init start) as).calls
      ((machine crc m notify).after (init start) as).routing :=
  h.invariant (I := fun n => Attended n.calls n.routing)
    ⟨nofun, fun _ => Nat.zero_le _, nofun, Nat.zero_le _⟩
    fun a _ hn ha => (advances_exec a hn ha.1 ha.2).1

/-- While the list of `n` peers does not change, a listed peer from which no ack comes is
declared dead before the probe `2 n` starts: the period of one of its probes ends without an
ack. -/
theorem ended_of_silent {start : σ} {as bs : List Action}
    (has : (machine crc m notify).Legal (init start) as)
    (hx : x ∈ ((machine crc m notify).after (init start) as).list.addrs)
    (hbs : ((machine crc m notify).restrict (Silent x)).Legal
      ((machine crc m notify).after (init start) as) bs)
    (hcount : 2 * ((machine crc m notify).after (init start) as).list.peers.length ≤
      ((machine crc m notify).emits marks
        ((machine crc m notify).after (init start) as) bs).count .started) :
    ∃ period, .ended ⟨x, period⟩ ∈ (machine crc m notify).emits marks
      ((machine crc m notify).after (init start) as) bs := by
  have hattended := attended_after has
  have hpos : 0 < ((machine crc m notify).after (init start) as).list.peers.length := by
    rw [← List.length_map (f := Peer.udpAddr)]
    exact List.length_pos_of_mem hx
  have hwithin := PeerList.within_of_mem hx
  generalize (machine crc m notify).after (init start) as = n at *
  generalize hk : 2 * n.list.peers.length - 1 = k at hwithin
  have htracked := hbs.emits_invariant marks (o := [])
    (I := fun out n => Tracked k x out n ∧ Attended n.calls n.routing)
    ⟨Or.inr (Or.inr hwithin), hattended⟩
    fun a out n hn ha =>
      ⟨hn.1.exec hn.2 ha.1.1 ha.1.2 ha.2, (advances_exec a hn.2 ha.1.1 ha.1.2).1⟩
  rw [List.nil_append, Machine.emits_restrict, Machine.after_restrict] at htracked
  rcases htracked.1 with hended | ⟨-, hle⟩ | hleft
  · exact hended
  · omega
  · rw [Nat.sub_eq_zero_of_le (by omega)] at hleft
    exact absurd hleft PeerList.not_within_zero

/-- The node `a:1` learns of `b:1`, probes it, and gets no ack before the period ends. -/
def silentPeer : List Action :=
  [.probe id true, .outbox (.pop (firstPing [97] [98, 58, 49] .pop) [] []),
    .outbox (.write (firstPing [97] [98, 58, 49] .write) true),
    .pushBack (firstPing [97] [98, 58, 49] .written) 0, .ackTimeout id, .periodEnd,
    .probe id true]

theorem ended_silentPeer : ∃ period, .ended ⟨[98, 58, 49], period⟩ ∈ (sole [97]).emits marks
    ((sole [97]).after (init ()) [.member (.join id ⟨[98, 58, 49], [⟨[98, 58, 49], 1⟩]⟩)])
      silentPeer := by
  refine ended_of_silent ?_ ?_ ?_ ?_
  · decide +kernel
  · decide +kernel
  · decide +kernel
  · decide +kernel

end Node
end Commute.Swim
