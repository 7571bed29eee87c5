import Commute.Server.Notify
import Mathlib.Data.List.Induction
import Mathlib.Data.List.Nodup
import Mathlib.Data.List.TakeWhile
import Mathlib.Data.Set.Function

/-!
# Which peers a server gossips with

A peer that comes alive enters the pool under its HTTP address, and a dead one, of
which only the UDP address is known, takes every address of its host with it. The
pool therefore holds exactly the peers last notified as alive, for every sequence of
notifications, if and only if no two peers share what precedes the first colon of
their UDP addresses.
-/
namespace Commute.Server

open Swim

theorem notMem_cutHost (addr : Bytes) : 58 ∉ cutHost addr := by
  intro h
  simpa using List.mem_takeWhile_imp h

theorem cutHost_append {host : Bytes} (h : 58 ∉ host) (rest : Bytes) :
    cutHost (host ++ 58 :: rest) = host := by
  have hall : ∀ b ∈ host, decide (b ≠ 58) = true := by
    intro b hb
    exact decide_eq_true fun heq => h (heq ▸ hb)
  rw [cutHost, List.takeWhile_append_of_pos hall]
  simp

theorem httpAddr_eq (p : Peer) :
    p.httpAddr = cutHost p.udpAddr ++ 58 :: formatUint p.httpPort.toNat := by
  simp [Peer.httpAddr]

theorem isPrefixOf_httpAddr (addr : Bytes) (p : Peer) :
    (cutHost addr ++ [58]).isPrefixOf p.httpAddr = true ↔ cutHost addr = cutHost p.udpAddr := by
  rw [List.isPrefixOf_iff_prefix, httpAddr_eq]
  constructor
  · rintro ⟨rest, hrest⟩
    have hcut := congrArg cutHost hrest
    rwa [List.append_assoc, List.singleton_append, cutHost_append (notMem_cutHost _),
      cutHost_append (notMem_cutHost _)] at hcut
  · intro h
    rw [h]
    exact ⟨formatUint p.httpPort.toNat, by simp⟩

/-- The peer that a notification carries: of a dead one only the UDP address is known. -/
def notified (p : Peer) : EventKind → Peer
  | .alive => p
  | .dead => newPeer p.udpAddr

/-- The pool after notifications about these peers, one at a time. -/
def notifyAll (calls : List (Peer × EventKind)) : List Bytes :=
  calls.foldl (fun peers c => notify (notified c.1 c.2) c.2 peers) []

/-- The kind of the last notification about a peer. -/
def lastKind (p : Peer) (calls : List (Peer × EventKind)) : Option EventKind :=
  ((calls.filter fun c => c.1 = p).getLast?).map Prod.snd

/-- The pool has, without duplicates, the HTTP addresses of the peers last notified as alive. -/
def HoldsAlive (calls : List (Peer × EventKind)) (peers : List Bytes) : Prop :=
  peers.Nodup ∧ ∀ addr, addr ∈ peers ↔ ∃ p, lastKind p calls = some .alive ∧ p.httpAddr = addr

theorem notifyAll_append (calls : List (Peer × EventKind)) (p : Peer) (kind : EventKind) :
    notifyAll (calls ++ [(p, kind)]) = notify (notified p kind) kind (notifyAll calls) := by
  simp [notifyAll]

theorem lastKind_append (q : Peer) (calls : List (Peer × EventKind)) (p : Peer)
    (kind : EventKind) :
    lastKind q (calls ++ [(p, kind)]) = if p = q then some kind else lastKind q calls := by
  unfold lastKind
  split_ifs with h <;> simp [List.filter_append, h]

theorem mem_of_lastKind {p : Peer} {calls : List (Peer × EventKind)} {kind : EventKind}
    (h : lastKind p calls = some kind) : (p, kind) ∈ calls := by
  unfold lastKind at h
  obtain ⟨c, hc, rfl⟩ := Option.map_eq_some_iff.mp h
  obtain ⟨hmem, hp⟩ := List.mem_filter.mp (List.mem_of_getLast? hc)
  rwa [← of_decide_eq_true hp]

theorem HoldsAlive.alive {calls : List (Peer × EventKind)} {peers : List Bytes}
    (h : HoldsAlive calls peers) (p : Peer) :
    HoldsAlive (calls ++ [(p, .alive)]) (notify p .alive peers) := by
  have hmem : ∀ addr, addr ∈ notify p .alive peers ↔ addr ∈ peers ∨ p.httpAddr = addr := by
    intro addr
    unfold notify
    dsimp only
    split_ifs with hp
    · rw [or_iff_left_of_imp]
      rintro rfl
      exact hp
    · simp [eq_comm]
  refine ⟨?_, ?_⟩
  · unfold notify
    dsimp only
    split_ifs with hp
    · exact h.1
    · rw [← List.concat_eq_append]
      exact List.Nodup.concat hp h.1
  · intro addr
    rw [hmem, h.2]
    constructor
    · rintro (⟨q, hq, haddr⟩ | haddr)
      · exact ⟨q, by rw [lastKind_append, hq, ite_self], haddr⟩
      · exact ⟨p, by rw [lastKind_append, if_pos rfl], haddr⟩
    · rintro ⟨q, hq, haddr⟩
      rw [lastKind_append] at hq
      split_ifs at hq with hpq
      · exact Or.inr (hpq ▸ haddr)
      · exact Or.inl ⟨q, hq, haddr⟩

theorem HoldsAlive.dead {calls : List (Peer × EventKind)} {peers : List Bytes}
    (h : HoldsAlive calls peers) {p : Peer}
    (hhosts : ∀ q, (q, .alive) ∈ calls → cutHost p.udpAddr = cutHost q.udpAddr → p = q) :
    HoldsAlive (calls ++ [(p, .dead)]) (notify (newPeer p.udpAddr) .dead peers) := by
  refine ⟨h.1.filter _, ?_⟩
  intro addr
  have hmem : addr ∈ notify (newPeer p.udpAddr) .dead peers ↔
      addr ∈ peers ∧ ¬ (cutHost p.udpAddr ++ [58]).isPrefixOf addr = true := by
    simp only [notify, newPeer, List.mem_filter, Bool.not_eq_true', Bool.not_eq_true]
  rw [hmem, h.2]
  constructor
  · rintro ⟨⟨q, hq, rfl⟩, hprefix⟩
    rw [isPrefixOf_httpAddr] at hprefix
    refine ⟨q, ?_, rfl⟩
    rw [lastKind_append, if_neg, hq]
    rintro rfl
    exact hprefix rfl
  · rintro ⟨q, hq, rfl⟩
    rw [lastKind_append] at hq
    split_ifs at hq with hpq
    · cases hq
    · refine ⟨⟨q, hq, rfl⟩, ?_⟩
      rw [isPrefixOf_httpAddr]
      exact fun hhost => hpq (hhosts q (mem_of_lastKind hq) hhost)

/-- The pool follows the notifications if and only if the peers have different hosts. -/
theorem notifyAll_holdsAlive_iff (ps : Set Peer) :
    (∀ calls, (∀ c ∈ calls, c.1 ∈ ps) → HoldsAlive calls (notifyAll calls)) ↔
      Set.InjOn (fun p => cutHost p.udpAddr) ps := by
  constructor
  · intro h p hp q hq hhost
    by_contra hne
    -- both come alive, and the death of one takes the other with it
    have hcalls : ∀ c ∈ [(p, EventKind.alive), (q, .alive), (p, .dead)], c.1 ∈ ps := by
      simp [hp, hq]
    have hq : q.httpAddr ∈ notifyAll [(p, .alive), (q, .alive), (p, .dead)] :=
      ((h _ hcalls).2 _).mpr ⟨q, by simp [lastKind, hne], rfl⟩
    have hprefix := (isPrefixOf_httpAddr p.udpAddr q).mpr hhost
    simp [notifyAll, notified, newPeer, notify, hprefix] at hq
  · intro h calls
    induction calls using List.reverseRecOn with
    | nil => exact fun _ => ⟨List.nodup_nil, by simp [notifyAll, lastKind]⟩
    | append_singleton calls c ih =>
      intro hcalls
      obtain ⟨p, kind⟩ := c
      obtain ⟨hbefore, hp⟩ := List.forall_mem_append.mp hcalls
      rw [notifyAll_append]
      cases kind with
      | alive => exact (ih hbefore).alive p
      | dead =>
        refine (ih hbefore).dead ?_
        exact fun q hq hhost => h (hp _ (List.mem_singleton_self _)) (hbefore _ hq) hhost

/-- Two nodes on one host, and two nodes whose hosts are different IPv6 addresses: the death
of the first node empties the pool. -/
theorem notifyAll_sharedHost :
    let a : Peer := ⟨[49, 58, 49], 80⟩
    let b : Peer := ⟨[49, 58, 50], 81⟩
    let v : Peer := ⟨[91, 58, 58, 49, 93, 58, 49], 80⟩
    let w : Peer := ⟨[91, 58, 58, 50, 93, 58, 49], 81⟩
    (a.udpAddr ≠ b.udpAddr ∧ a.httpAddr ≠ b.httpAddr) ∧
      (v.udpAddr ≠ w.udpAddr ∧ v.httpAddr ≠ w.httpAddr) ∧
      (notifyAll [(a, .alive), (b, .alive), (a, .dead)] = [] ∧
        ¬ HoldsAlive [(a, .alive), (b, .alive), (a, .dead)] []) ∧
      (notifyAll [(v, .alive), (w, .alive), (v, .dead)] = [] ∧
        ¬ HoldsAlive [(v, .alive), (w, .alive), (v, .dead)] []) := by
  refine ⟨by decide, by decide, ⟨by decide, ?_⟩, ⟨by decide, ?_⟩⟩
  · intro h
    exact absurd ((h.2 _).mpr ⟨⟨[49, 58, 50], 81⟩, by decide, rfl⟩) (by simp)
  · intro h
    exact absurd ((h.2 _).mpr ⟨⟨[91, 58, 58, 50, 93, 58, 49], 81⟩, by decide, rfl⟩) (by simp)

end Commute.Server
