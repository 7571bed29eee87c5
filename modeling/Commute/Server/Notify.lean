import Commute.Swim.Member

/-!
# Which address a join puts into the gossip pool

The server is the notifier of its member. The fan-out of `Start` builds the peer
it notifies about from the event's address alone, so the port that the join
exchange brought is gone: every announced peer enters the pool with port zero.
-/
namespace Commute.Server

open Swim

/-- `Server.Notify` on the addresses to gossip with. A dead peer is known by its UDP
address only, so every address of its host goes. -/
def notify (peer : Peer) (kind : EventKind) (peers : List Bytes) : List Bytes :=
  match kind with
  | .alive => if peer.httpAddr ∈ peers then peers else peers ++ [peer.httpAddr]
  | .dead => peers.filter fun p => !(cutHost peer.udpAddr ++ [58]).isPrefixOf p

theorem mem_notify_alive (peer : Peer) (peers : List Bytes) :
    peer.httpAddr ∈ notify peer .alive peers := by
  unfold notify
  dsimp only
  split_ifs with h
  · exact h
  · simp

/-- The notification that a join leads to names the peer's address. It names the peer's
port, and the peer's HTTP address enters the pool, exactly if that port is zero. -/
theorem notify_joined_iff {self : Bytes} {m : Member (List Bytes)}
    (h : (Member.machine self notify).Reaches (.init []) m)
    {d : Delivery (List Bytes)} (hd : d ∈ m.delivered) {p : Peer} (hp : d.call.origin = some p) :
    d.call.kind = .alive ∧
      ((d.call.peer.udpAddr = p.udpAddr ∧ d.call.peer.httpPort = p.httpPort ∧
        p.httpAddr ∈ d.after) ↔ p.httpPort = 0) := by
  obtain ⟨hcall, before, hafter⟩ := (Member.announced_of_reaches h).delivered d hd
  obtain ⟨hpeer, hkind⟩ := hcall p hp
  refine ⟨hkind, ?_⟩
  rw [hafter, hpeer, hkind]
  constructor
  · exact fun hport => hport.2.1.symm
  · intro hport
    obtain ⟨udpAddr, httpPort⟩ := p
    obtain rfl : httpPort = 0 := hport
    exact ⟨rfl, rfl, mem_notify_alive _ _⟩

abbrev serving : Machine (Member (List Bytes)) Member.Action := Member.machine [97, 58, 49] notify

/-- The node `a:1` handles a join request of `b:1`, which serves HTTP on `port`, and
notifies its server. -/
def joinActions (port : UInt16) : List Member.Action :=
  let u : Bytes := [98, 58, 49]
  let a : Announcement := ⟨⟨.alive, u⟩, some ⟨u, port⟩⟩
  [.join (fun _ => 0) ⟨u, [⟨u, port⟩]⟩, .advance ⟨.record, a, []⟩, .advance ⟨.send, a, []⟩,
    .fanOut, .deliver ⟨newPeer u, .alive, some ⟨u, port⟩⟩]

def joinRun (port : UInt16) : Member (List Bytes) := serving.after (.init []) (joinActions port)

theorem reaches_joinRun (port : UInt16) : serving.Reaches (.init []) (joinRun port) :=
  ⟨joinActions port, ⟨trivial, List.mem_cons_self, List.mem_cons_self, trivial,
    List.mem_cons_self, trivial⟩, rfl⟩

theorem notify_joinRun_zero : [98, 58, 48] ∈ (joinRun 0).notifier := by
  have hd : (joinRun 0).delivered.head (by decide) ∈ (joinRun 0).delivered := List.head_mem _
  exact ((notify_joined_iff (reaches_joinRun 0) hd rfl).2.mpr rfl).2.2

/-- A peer that serves HTTP on port 8080 is announced with port zero and enters the pool
under an address at which nothing listens. -/
theorem notify_joinRun_8080 :
    serving.Reaches (.init []) (joinRun 8080) ∧
      (joinRun 8080).delivered.map (fun d => d.call) =
        [⟨⟨[98, 58, 49], 0⟩, .alive, some ⟨[98, 58, 49], 8080⟩⟩] ∧
      (joinRun 8080).notifier = [[98, 58, 48]] ∧
      Peer.httpAddr ⟨[98, 58, 49], 8080⟩ = [98, 58, 56, 48, 56, 48] :=
  ⟨reaches_joinRun 8080, by decide, by decide, by decide⟩

end Commute.Server
