import Commute.Foundation.Json
import Commute.Server.GossipPool
import Commute.Swim.Node

/-!
# The address that peers derive and the one a node advertises

A node names itself to peers by its advertise address, which `New` takes apart with
`net.SplitHostPort`. Its peers know it by the HTTP address that they derive from its
UDP address, cut at the first colon. A message is accepted only if both are the same,
which fails for every host that contains a colon: exactly the IPv6 addresses in
brackets that `SplitHostPort` admits.
-/
namespace Commute.Server

open Swim Fault

def lastIndexByte (s : Bytes) (c : UInt8) : Option ℕ :=
  (s.reverse.idxOf? c).map fun i => s.length - 1 - i

/-- The text of an `AddrError`. Bytes of the address that are not UTF-8 show as U+FFFD. -/
def addrErr (addr : Bytes) (why : String) : Except String (Bytes × Bytes) :=
  let text := String.ofList (Json.encodeString (.of addr))
  .error (if addr = [] then why else s!"address {text}: {why}")

def splitEnd (hostport host : Bytes) (i j k : ℕ) : Except String (Bytes × Bytes) :=
  if 91 ∈ hostport.drop j then addrErr hostport "unexpected '[' in address"
  else if 93 ∈ hostport.drop k then addrErr hostport "unexpected ']' in address"
  else .ok (host, hostport.drop (i + 1))

def splitHostPort (hostport : Bytes) : Except String (Bytes × Bytes) :=
  match lastIndexByte hostport 58 with
  | none => addrErr hostport "missing port in address"
  | some i =>
    if hostport.head? = some 91 then
      -- the first ']' is expected just before the last ':'
      match hostport.idxOf? 93 with
      | none => addrErr hostport "missing ']' in address"
      | some stop =>
        if stop + 1 = hostport.length then addrErr hostport "missing port in address"
        else if stop + 1 = i then
          splitEnd hostport ((hostport.take stop).drop 1) i 1 (stop + 1)
        else if hostport[stop + 1]? = some 58 then addrErr hostport "too many colons in address"
        else addrErr hostport "missing port in address"
    else if 58 ∈ hostport.take i then addrErr hostport "too many colons in address"
    else splitEnd hostport (hostport.take i) i 0 0

example : splitHostPort [97, 58, 98, 58] = .error "address a:b:: too many colons in address" := rfl

/-- The fields of the configuration that `New` checks. -/
structure Config where
  nodeID : Bytes
  advertiseAddr : Bytes
  gossipInterval : ℤ

section New

variable (quote : Bytes → String)

def new (cfg : Config) : Except Fault Config := do
  let addr := cfg.advertiseAddr
  failIf (cfg.nodeID = []) "node ID is required"
  failIf (addr = []) "advertise address is required"
  match splitHostPort addr with
  | .error _ => .error (.error s!"invalid advertise address {quote addr}: must be host:port")
  | .ok (host, port) => do
    failIf (host = [] ∨ port = [])
      s!"invalid advertise address {quote addr}: must be host:port"
    failIf (cfg.gossipInterval ≤ 0) "gossip interval must be greater than zero"
    .ok cfg

/-- The sender that the values of the header `X-Node-Addr` name. -/
def parseNodeAddr (nodeAddr : Option (List Bytes)) (peers : List Bytes) : Except Fault Bytes :=
  match nodeAddr with
  | none => .error (.error "header X-Node-Addr missing")
  | some nodeAddr => do
    failIf (nodeAddr.length > 1) "multiple X-Node-Addr headers"
    let peer ← index nodeAddr 0
    failIf (peer = []) "header X-Node-Addr empty"
    failIf (peers.contains peer = false) s!"unknown peer in X-Node-Addr: {quote peer}"
    .ok peer

variable {quote} {cfg srv : Config}

theorem new_eq_ok (h : new quote cfg = .ok srv) :
    srv = cfg ∧ ∃ host port, splitHostPort cfg.advertiseAddr = .ok (host, port) ∧
      host ≠ [] ∧ port ≠ [] := by
  unfold new at h
  simp only [↓failIf_bind_eq_ok] at h
  obtain ⟨-, -, h⟩ := h
  split at h
  · cases h
  · next host port hsplit =>
    simp only [↓failIf_bind_eq_ok, not_or] at h
    obtain ⟨⟨hhost, hport⟩, -, ⟨⟩⟩ := h
    exact ⟨rfl, host, port, hsplit, hhost, hport⟩

theorem parseNodeAddr_mem {peer : Bytes} {peers : List Bytes} (hpeer : peer ≠ [])
    (hmem : peer ∈ peers) : parseNodeAddr quote (some [peer]) peers = .ok peer := by
  simp [parseNodeAddr, failIf, index, hpeer, hmem, bind, Except.bind]

end New

theorem notMem_formatUint (n : ℕ) : 58 ∉ formatUint n := by
  intro h
  obtain ⟨c, hc, heq⟩ := List.mem_map.mp h
  have hdigit : 48 ≤ c.toNat ∧ c.toNat ≤ 57 :=
    Char.isDigit_iff_toNat.mp (Nat.isDigit_of_mem_toDigits (by decide) (by decide) hc)
  have hbyte : c.toNat % 2 ^ 8 = 58 := congrArg UInt8.toNat heq
  omega

theorem idxOf?_append_cons {c : UInt8} {s : Bytes} (h : c ∉ s) (rest : Bytes) :
    (s ++ c :: rest).idxOf? c = some s.length := by
  induction s with
  | nil => simp [List.idxOf?_cons]
  | cons b s ih =>
    obtain ⟨hb, hs⟩ := not_or.mp (List.mem_cons.not.mp h)
    simp [List.idxOf?_cons, Ne.symm hb, ih hs]

theorem lastIndexByte_hostPort (host : Bytes) (port : UInt16) :
    lastIndexByte (hostPort host port) 58 = some host.length := by
  have hdigits : 58 ∉ (formatUint port.toNat).reverse := by
    rw [List.mem_reverse]
    exact notMem_formatUint _
  have hreverse : (hostPort host port).reverse =
      (formatUint port.toNat).reverse ++ 58 :: host.reverse := by
    simp [hostPort]
  rw [lastIndexByte, hreverse, idxOf?_append_cons hdigits]
  simp [hostPort]

/-- What `SplitHostPort` accepts has a colon in its host only in brackets. -/
theorem bracket_of_splitHostPort {host : Bytes} {port : UInt16} {r : Bytes × Bytes}
    (h : splitHostPort (hostPort host port) = .ok r) (hcolon : 58 ∈ host) :
    host.head? = some 91 := by
  have hhead : (hostPort host port).head? = host.head? := by
    rw [hostPort, List.append_assoc]
    exact List.head?_append_of_ne_nil _ (List.ne_nil_of_mem hcolon)
  have htake : (hostPort host port).take host.length = host := by
    rw [hostPort, List.append_assoc, List.take_left]
  unfold splitHostPort at h
  rw [lastIndexByte_hostPort] at h
  dsimp only at h
  rw [hhead, htake] at h
  by_contra hne
  rw [if_neg hne, if_pos hcolon] at h
  cases h

/-- Cutting the UDP address at the first colon finds a host exactly if it has no colon. -/
theorem cutHost_hostPort_iff (host : Bytes) (port : UInt16) :
    cutHost (hostPort host port) = host ↔ 58 ∉ host := by
  constructor
  · intro h
    rw [← h]
    exact notMem_cutHost _
  · intro h
    rw [hostPort, List.append_assoc]
    exact cutHost_append h _

variable {quote : Bytes → String} {trimSpace : Bytes → Bytes}

/-- A node is known to its peers under the address it advertises, so that they accept its
messages and file its acks under the name they gossip to, if and only if its host has no
colon. -/
theorem httpAddr_eq_advertiseAddr_iff {cfg srv : Config} {swimCfg : Swim.Config}
    {member : Swim.Settings} {httpPort : UInt16} (hsrv : new quote cfg = .ok srv)
    (hmember : Swim.new trimSpace splitHostPort quote swimCfg = .ok member)
    (haddr : cfg.advertiseAddr = hostPort swimCfg.advertiseHost httpPort) :
    (Peer.httpAddr ⟨member.udpAddr, httpPort⟩ = srv.advertiseAddr ∧
      ∀ peers, parseNodeAddr quote (some [srv.advertiseAddr])
        (notify ⟨member.udpAddr, httpPort⟩ .alive peers) =
          .ok (Peer.httpAddr ⟨member.udpAddr, httpPort⟩)) ↔
      58 ∉ swimCfg.advertiseHost := by
  obtain ⟨rfl, -⟩ := new_eq_ok hsrv
  obtain ⟨-, hhost⟩ := Swim.new_eq_ok hmember
  have hequal : Peer.httpAddr ⟨member.udpAddr, httpPort⟩ = srv.advertiseAddr ↔
      58 ∉ swimCfg.advertiseHost := by
    rw [haddr, hhost, ← cutHost_hostPort_iff _ member.port, httpAddr_eq, hostPort,
      List.append_assoc]
    exact List.append_left_inj _
  rw [← hequal, and_iff_left_of_imp]
  intro heq peers
  have hne : srv.advertiseAddr ≠ [] := by
    rw [haddr, hostPort]
    simp
  rw [← heq] at hne ⊢
  exact parseNodeAddr_mem hne (mem_notify_alive _ _)

/-- The verb `%q` on printable text without quotes. -/
def quotePlain (s : Bytes) : String :=
  String.ofList ('"' :: s.map (fun b => Char.ofNat b.toNat) ++ ['"'])

/-- A configuration of both parts of a node with this host, on UDP port 1. -/
def nodeConfig (host : Bytes) : Config × Swim.Config :=
  (⟨[97], hostPort host 80, 1⟩, ⟨[97], host, some 1, [], 2, 1, 3, 0, true⟩)

theorem httpAddr_eq_advertiseAddr_name :
    Peer.httpAddr ⟨hostPort [98] 1, 80⟩ = hostPort [98] 80 := by
  have hsrv : new quotePlain (nodeConfig [98]).1 = .ok (nodeConfig [98]).1 := by rfl
  have hmember : Swim.new id splitHostPort quotePlain (nodeConfig [98]).2 =
      .ok ⟨[98], 1, ∅, 2, 1, 3, 3⟩ := by rfl
  exact ((httpAddr_eq_advertiseAddr_iff hsrv hmember rfl).mpr (by decide)).1

/-- The host `[::1]` is accepted by both, and peers know the node as `[:80`. -/
theorem httpAddr_ne_advertiseAddr_ipv6 :
    let host : Bytes := [91, 58, 58, 49, 93]
    let peer : Peer := ⟨hostPort host 1, 80⟩
    (new quotePlain (nodeConfig host).1 = .ok (nodeConfig host).1 ∧
      Swim.new id splitHostPort quotePlain (nodeConfig host).2 =
        .ok ⟨host, 1, ∅, 2, 1, 3, 3⟩) ∧
    peer.httpAddr = [91, 58, 56, 48] ∧ peer.httpAddr ≠ (nodeConfig host).1.advertiseAddr ∧
    parseNodeAddr quotePlain (some [(nodeConfig host).1.advertiseAddr])
      (notify peer .alive []) =
        .error (.error "unknown peer in X-Node-Addr: \"[::1]:80\"") :=
  ⟨⟨rfl, rfl⟩, by decide, by decide, by decide⟩

end Commute.Server
