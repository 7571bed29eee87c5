import Commute.Foundation.Machine
import Commute.Swim.Member

/-!
# The member list under its lock

`peers` is changed in four lock-protected sections: a join exchange, a delete,
the state update of `process`, and `nextProbe`, which walks through the list with
a cursor and shuffles it when the cursor has passed the end. Any interleaving of
the goroutines is a run of these sections.

The list never holds an address twice, the node itself, or a dead address, and
only a join from a dead address itself brings it back.
-/
namespace Commute.Swim

open Fault

section Exchange

variable {α : Type} {xs ys : List α} {i j : ℕ}

/-- The assignment `xs[i], xs[j] = xs[j], xs[i]`. -/
def exchange (xs : List α) (i j : ℕ) : Except Fault (List α) := do
  let a ← index xs i
  let b ← index xs j
  .ok ((xs.set i b).set j a)

theorem exchange_eq (hi : i < xs.length) (hj : j < xs.length) :
    exchange xs i j = .ok (swap xs i j) := by
  simp [exchange, swap, index, hi, hj, ok_bind]

theorem swap_perm (xs : List α) (i j : ℕ) : (swap xs i j).Perm xs := by
  unfold swap
  split
  · next a b ha hb =>
    obtain ⟨hi, rfl⟩ := List.getElem?_eq_some_iff.mp ha
    obtain ⟨hj, rfl⟩ := List.getElem?_eq_some_iff.mp hb
    exact List.set_set_perm hi hj
  · exact .refl xs

/-- The Fisher–Yates loop; `draw n` is what the random source returns for `IntN(n)`. -/
def shuffle (draw : ℕ → ℕ) (xs : List α) : Except Fault (List α) :=
  (List.range' 1 (xs.length - 1)).foldlM (fun xs i => exchange xs i (draw (i + 1) % (i + 1))) xs

theorem shuffle_eq_ok (draw : ℕ → ℕ) (xs : List α) :
    ∃ ys, shuffle draw xs = .ok ys ∧ ys.Perm xs := by
  have hloop : ∀ (is : List ℕ) (xs : List α), (∀ i ∈ is, i < xs.length) → ∃ ys,
      is.foldlM (fun xs i => exchange xs i (draw (i + 1) % (i + 1))) xs = .ok ys ∧ ys.Perm xs := by
    intro is
    induction is with
    | nil => exact fun xs _ => ⟨xs, rfl, .refl xs⟩
    | cons i is ih =>
      intro xs his
      obtain ⟨hi, his⟩ := List.forall_mem_cons.mp his
      have hj : draw (i + 1) % (i + 1) < xs.length :=
        Nat.lt_of_le_of_lt (Nat.le_of_lt_succ (Nat.mod_lt _ i.succ_pos)) hi
      have hperm := swap_perm xs i (draw (i + 1) % (i + 1))
      obtain ⟨ys, hys, hyp⟩ := ih _ (hperm.length_eq.symm ▸ his)
      rw [List.foldlM_cons, exchange_eq hi hj]
      exact ⟨ys, hys, hyp.trans hperm⟩
  apply hloop
  intro i hi
  rw [List.mem_range'_1] at hi
  omega

end Exchange

/-- An entry of a join body as the peer it stands for. -/
def JoinPeer.peer (jp : JoinPeer) : Peer := ⟨jp.udpAddr, jp.httpPort⟩

namespace Peers

def addrs (p : Peers) : List Bytes := p.peers.map Peer.udpAddr

def Dead (p : Peers) (x : Bytes) : Prop := (p.deadPeers.lookup x).isSome

instance (p : Peers) (x : Bytes) : Decidable (p.Dead x) :=
  inferInstanceAs (Decidable ((p.deadPeers.lookup x).isSome = true))

/-- An entry of a join body is ignored, or adds a peer that is new, alive and not the node
itself at some place of the list. -/
theorem joinEntry_cases (self : Bytes) (draw : ℕ → ℕ) (p : Peers) (added : List Peer)
    (jp : JoinPeer) : joinEntry self draw (p, added) jp = (p, added) ∨
      jp.udpAddr ≠ self ∧ ¬ p.Dead jp.udpAddr ∧ jp.udpAddr ∉ p.addrs ∧
        joinEntry self draw (p, added) jp =
          ({ p with
              peers := swap (p.peers ++ [⟨jp.udpAddr, jp.httpPort⟩]) p.peers.length
                (draw (p.peers.length + 1) % (p.peers.length + 1)) },
            added ++ [⟨jp.udpAddr, jp.httpPort⟩]) := by
  unfold joinEntry
  split_ifs with hself hdead hany
  · exact Or.inl rfl
  · exact Or.inl rfl
  · exact Or.inl rfl
  · refine Or.inr ⟨hself, hdead, ?_, ?_⟩
    · simpa [addrs] using hany
    · simp

/-- What a join exchange with a body from `src` does, apart from the places of the added
peers. -/
structure Joined (me src : Bytes) (p p' : Peers) (added : List Peer) : Prop where
  peers : p'.peers.Perm (p.peers ++ added)
  state : p'.state = p.state
  deadPeers : p'.deadPeers = p.deadPeers.erase src
  fresh : (added.map Peer.udpAddr).Nodup ∧ ∀ q ∈ added, q.udpAddr ∉ p.addrs
  alive : ∀ q ∈ added, q.udpAddr ≠ me ∧ ¬ p'.Dead q.udpAddr

theorem Joined.mem_addrs {self src : Bytes} {p p' : Peers} {added : List Peer}
    (h : Joined self src p p' added) (x : Bytes) :
    x ∈ p'.addrs ↔ x ∈ p.addrs ∨ x ∈ added.map Peer.udpAddr := by
  rw [addrs, (h.peers.map _).mem_iff, List.map_append, List.mem_append, addrs]

theorem Joined.joinEntry {self src : Bytes} {p p' : Peers} {added : List Peer}
    (h : Joined self src p p' added) (draw : ℕ → ℕ) (jp : JoinPeer) :
    Joined self src p (joinEntry self draw (p', added) jp).1
      (Peers.joinEntry self draw (p', added) jp).2 := by
  rcases joinEntry_cases self draw p' added jp with heq | ⟨hself, hdead, hnew, heq⟩
  · rwa [heq]
  · rw [h.mem_addrs, not_or] at hnew
    rw [heq]
    refine ⟨?_, h.state, h.deadPeers, ⟨?_, ?_⟩, ?_⟩
    · exact (swap_perm _ _ _).trans ((h.peers.append_right _).trans (by simp))
    · rw [List.map_append, List.nodup_append]
      refine ⟨h.fresh.1, List.nodup_singleton _, ?_⟩
      intro x hx y hy hxy
      obtain rfl := hxy.trans (List.mem_singleton.mp hy)
      exact hnew.2 hx
    · exact List.forall_mem_append.mpr ⟨h.fresh.2, List.forall_mem_singleton.mpr hnew.1⟩
    · exact List.forall_mem_append.mpr ⟨h.alive, List.forall_mem_singleton.mpr ⟨hself, hdead⟩⟩

theorem joined_join (self : Bytes) (draw : ℕ → ℕ) (body : JoinBody) (p : Peers) :
    Joined self body.src p (p.join self draw body).1 (p.join self draw body).2 := by
  have hstart : Joined self body.src p { p with deadPeers := p.deadPeers.erase body.src } [] :=
    ⟨by simp, rfl, rfl, by simp, by simp⟩
  unfold join
  generalize ({ p with deadPeers := p.deadPeers.erase body.src } : Peers) = start at hstart ⊢
  generalize ([] : List Peer) = added at hstart ⊢
  induction body.peers generalizing start added with
  | nil => exact hstart
  | cons jp peers ih => exact ih _ _ (hstart.joinEntry draw jp)

/-- A join exchange adds only entries of its body. -/
theorem mem_added (self : Bytes) (draw : ℕ → ℕ) (body : JoinBody) (p : Peers) :
    ∀ q ∈ (p.join self draw body).2, q ∈ body.peers.map JoinPeer.peer := by
  have hloop : ∀ (peers : List JoinPeer) (p : Peers) (added : List Peer),
      ∀ q ∈ (peers.foldl (Peers.joinEntry self draw) (p, added)).2,
        q ∈ added ∨ q ∈ peers.map JoinPeer.peer := by
    intro peers
    induction peers with
    | nil => exact fun p added q hq => Or.inl hq
    | cons jp peers ih =>
      intro p added q hq
      rw [List.map_cons, List.mem_cons]
      rw [List.foldl_cons] at hq
      rcases joinEntry_cases self draw p added jp with heq | ⟨-, -, -, heq⟩
      · rw [heq] at hq
        exact (ih _ _ q hq).imp_right Or.inr
      · rw [heq] at hq
        rcases ih _ _ q hq with hq | hq
        · exact (List.mem_append.mp hq).imp_right fun h => Or.inl (List.mem_singleton.mp h)
        · exact Or.inr (Or.inr hq)
  exact fun q hq => (hloop _ _ _ q hq).resolve_left List.not_mem_nil

theorem join_added (self : Bytes) (draw : ℕ → ℕ) (body : JoinBody) (p : Peers) :
    ∀ q ∈ (p.join self draw body).2, q.udpAddr ∈ body.peers.map JoinPeer.udpAddr := by
  intro q hq
  obtain ⟨jp, hjp, rfl⟩ := List.mem_map.mp (mem_added self draw body p q hq)
  exact List.mem_map_of_mem hjp

/-- The member list holds every address once, and neither the node itself nor the dead. -/
structure WellFormed (me : Bytes) (p : Peers) : Prop where
  nodup : p.addrs.Nodup
  self_notMem : me ∉ p.addrs
  alive : ∀ x ∈ p.addrs, ¬ p.Dead x

variable {self : Bytes} {p : Peers}

theorem Dead.insert {x : Bytes} (peer : Bytes) :
    ({ p with deadPeers := p.deadPeers.insert peer () } : Peers).Dead x ↔ x = peer ∨ p.Dead x := by
  unfold Dead
  rw [FMap.lookup_insert_eq]
  split_ifs with h <;> simp [h]

theorem not_dead_erase {src x : Bytes} (h : ¬ p.Dead x) :
    ¬ ({ p with deadPeers := p.deadPeers.erase src } : Peers).Dead x := by
  unfold Dead at *
  by_cases hx : x = src
  · rw [hx, AList.lookup_erase]
    simp
  · rwa [AList.lookup_erase_ne hx]

theorem WellFormed.join (h : WellFormed self p) (draw : ℕ → ℕ) (body : JoinBody) :
    WellFormed self (p.join self draw body).1 := by
  have hj := joined_join self draw body p
  refine ⟨?_, ?_, ?_⟩
  · rw [addrs, (hj.peers.map _).nodup_iff, List.map_append, List.nodup_append]
    refine ⟨h.nodup, hj.fresh.1, ?_⟩
    rintro x hx y hy rfl
    obtain ⟨q, hq, rfl⟩ := List.mem_map.mp hy
    exact hj.fresh.2 q hq hx
  · rw [hj.mem_addrs, not_or]
    refine ⟨h.self_notMem, fun hself => ?_⟩
    obtain ⟨q, hq, hqself⟩ := List.mem_map.mp hself
    exact (hj.alive q hq).1 hqself
  · intro x hx
    rcases (hj.mem_addrs x).mp hx with hx | hx
    · unfold Dead
      rw [hj.deadPeers]
      exact not_dead_erase (h.alive x hx)
    · obtain ⟨q, hq, rfl⟩ := List.mem_map.mp hx
      exact (hj.alive q hq).2

theorem mem_addrs_delete {peer x : Bytes} :
    x ∈ (p.delete peer).2.addrs ↔ x ∈ p.addrs ∧ x ≠ peer := by
  simp only [delete, addrs, List.mem_map, List.mem_filter, decide_eq_true_eq]
  constructor
  · rintro ⟨q, ⟨hq, hne⟩, rfl⟩
    exact ⟨⟨q, hq, rfl⟩, hne⟩
  · rintro ⟨⟨q, hq, rfl⟩, hne⟩
    exact ⟨q, ⟨hq, hne⟩, rfl⟩

theorem WellFormed.delete (h : WellFormed self p) (peer : Bytes) :
    WellFormed self (p.delete peer).2 := by
  refine ⟨h.nodup.sublist (List.filter_sublist.map _), ?_, ?_⟩
  · exact fun hself => h.self_notMem (mem_addrs_delete.mp hself).1
  · intro x hx hdead
    obtain ⟨hx, hne⟩ := mem_addrs_delete.mp hx
    exact h.alive x hx (((Dead.insert peer).mp hdead).resolve_left hne)

theorem WellFormed.reorder (h : WellFormed self p) {peers : List Peer}
    (hperm : peers.Perm p.peers) : WellFormed self { p with peers := peers } := by
  have haddrs := hperm.map Peer.udpAddr
  exact ⟨haddrs.nodup_iff.mpr h.nodup, mt haddrs.mem_iff.mp h.self_notMem,
    fun x hx => h.alive x (haddrs.mem_iff.mp hx)⟩

end Peers

/-- The member list with the cursor of `nextProbe`. -/
structure PeerList extends Peers where
  probeCursor : ℕ

namespace PeerList

def new : PeerList := ⟨.new, 0⟩

/-- The next peer to probe, none if there is no peer. -/
def nextProbe (draw : ℕ → ℕ) (p : PeerList) : Except Fault (Option Peer × PeerList) :=
  if p.peers.length = 0 then .ok (none, p)
  else do
    let p ← if p.peers.length ≤ p.probeCursor then do
        let peers ← shuffle draw p.peers
        .ok { p with peers := peers, probeCursor := 0 }
      else .ok p
    let peer ← index p.peers p.probeCursor
    .ok (some peer, { p with probeCursor := p.probeCursor + 1 })

/-- `nextProbe` starts a new round. -/
def Resets (p : PeerList) : Prop := p.peers ≠ [] ∧ p.peers.length ≤ p.probeCursor

instance (p : PeerList) : Decidable p.Resets := inferInstanceAs (Decidable (_ ∧ _))

theorem nextProbe_nil {p : PeerList} (draw : ℕ → ℕ) (h : p.peers = []) :
    p.nextProbe draw = .ok (none, p) := by
  rw [nextProbe, if_pos (List.length_eq_zero_iff.mpr h)]

theorem nextProbe_next {p : PeerList} (draw : ℕ → ℕ) (h : p.probeCursor < p.peers.length) :
    p.nextProbe draw =
      .ok (some p.peers[p.probeCursor], { p with probeCursor := p.probeCursor + 1 }) := by
  rw [nextProbe, if_neg (Nat.ne_zero_of_lt h), if_neg (Nat.not_le.mpr h)]
  simp [ok_bind, index, h]

theorem nextProbe_reset {p : PeerList} (draw : ℕ → ℕ) (h : p.Resets) :
    ∃ peer rest, (peer :: rest).Perm p.peers ∧ p.nextProbe draw =
      .ok (some peer, ⟨{ p.toPeers with peers := peer :: rest }, 1⟩) := by
  obtain ⟨peers, hshuffle, hperm⟩ := shuffle_eq_ok draw p.peers
  rw [nextProbe, if_neg (mt List.length_eq_zero_iff.mp h.1), if_pos h.2, hshuffle]
  cases peers with
  | nil => exact absurd hperm.symm.eq_nil h.1
  | cons peer rest => exact ⟨peer, rest, hperm, rfl⟩

/-- `nextProbe` never panics and only reorders the list. -/
theorem nextProbe_eq_ok (draw : ℕ → ℕ) (p : PeerList) :
    ∃ peer peers cursor,
      p.nextProbe draw = .ok (peer, ⟨{ p.toPeers with peers := peers }, cursor⟩) ∧
        peers.Perm p.peers := by
  by_cases hnil : p.peers = []
  · exact ⟨_, p.peers, p.probeCursor, nextProbe_nil draw hnil, .refl _⟩
  · rcases Nat.lt_or_ge p.probeCursor p.peers.length with hlt | hge
    · exact ⟨_, p.peers, _, nextProbe_next draw hlt, .refl _⟩
    · obtain ⟨peer, rest, hperm, h⟩ := nextProbe_reset draw ⟨hnil, hge⟩
      exact ⟨_, _, _, h, hperm⟩

theorem mem_of_nextProbe {p p' : PeerList} {draw : ℕ → ℕ} {peer : Peer}
    (h : p.nextProbe draw = .ok (some peer, p')) : peer ∈ p.peers := by
  by_cases hnil : p.peers = []
  · rw [nextProbe_nil draw hnil] at h
    cases h
  · rcases Nat.lt_or_ge p.probeCursor p.peers.length with hlt | hge
    · rw [nextProbe_next draw hlt] at h
      obtain ⟨⟨⟩, -⟩ := Prod.mk.inj (Except.ok.inj h)
      exact List.getElem_mem hlt
    · obtain ⟨peer', rest, hperm, hreset⟩ := nextProbe_reset draw ⟨hnil, hge⟩
      rw [hreset] at h
      obtain ⟨⟨⟩, -⟩ := Prod.mk.inj (Except.ok.inj h)
      exact hperm.subset List.mem_cons_self

inductive Action where
  | join (draw : ℕ → ℕ) (body : JoinBody)
  | delete (peer : Bytes)
  | record (e : Event)
  | nextProbe (draw : ℕ → ℕ)

def exec (self : Bytes) : Action → PeerList → PeerList
  | .join draw body, p => { p with toPeers := (p.toPeers.join self draw body).1 }
  | .delete peer, p => { p with toPeers := (p.toPeers.delete peer).2 }
  | .record e, p => { p with toPeers := (p.toPeers.record e).getD p.toPeers }
  | .nextProbe draw, p =>
    match p.nextProbe draw with
    | .ok (_, p') => p'
    | .error _ => p

/-- Every section can run whenever it gets the lock. -/
def machine (self : Bytes) : Machine PeerList Action := ⟨fun _ _ => True, exec self⟩

def run (self : Bytes) (as : List Action) : PeerList := (machine self).after new as

def Action.Rejoins (x : Bytes) : Action → Prop
  | .join _ body => body.src = x
  | _ => False

variable {self : Bytes} {p : PeerList}

theorem wellFormed_exec (h : p.WellFormed self) (a : Action) : (exec self a p).WellFormed self := by
  cases a with
  | join draw body => exact h.join draw body
  | delete peer => exact h.delete peer
  | record e =>
    simp only [exec]
    cases hrecord : p.record e with
    | none => exact h
    | some p' =>
      rw [Option.getD_some, Peers.record_eq_some hrecord]
      exact ⟨h.nodup, h.self_notMem, h.alive⟩
  | nextProbe draw =>
    obtain ⟨peer, peers, cursor, hnext, hperm⟩ := nextProbe_eq_ok draw p
    simp only [exec, hnext]
    exact h.reorder hperm

theorem wellFormed_run (self : Bytes) (as : List Action) : (run self as).WellFormed self := by
  have hnew : new.WellFormed self :=
    ⟨List.nodup_nil, List.not_mem_nil, by simp [new, Peers.new, Peers.addrs]⟩
  have hlegal : (machine self).Legal new as := Machine.legal_of_enabled fun _ _ => trivial
  exact hlegal.invariant (I := fun p => p.WellFormed self) hnew fun a p h _ => wellFormed_exec h a

theorem dead_exec {x : Bytes} (h : p.Dead x) {a : Action} (ha : ¬ a.Rejoins x) :
    (exec self a p).Dead x := by
  cases a with
  | join draw body =>
    unfold Peers.Dead at *
    simp only [exec, (Peers.joined_join self draw body p.toPeers).deadPeers]
    rwa [AList.lookup_erase_ne (Ne.symm ha)]
  | delete peer => exact (Peers.Dead.insert peer).mpr (Or.inr h)
  | record e =>
    simp only [exec]
    cases hrecord : p.record e with
    | none => exact h
    | some p' =>
      rw [Option.getD_some, Peers.record_eq_some hrecord]
      exact h
  | nextProbe draw =>
    obtain ⟨peer, peers, cursor, hnext, -⟩ := nextProbe_eq_ok draw p
    simp only [exec, hnext]
    exact h

theorem dead_after {x : Bytes} (h : p.Dead x) {as : List Action} (has : ∀ a ∈ as, ¬ a.Rejoins x) :
    ((machine self).after p as).Dead x := by
  induction as generalizing p with
  | nil => exact h
  | cons a as ih =>
    obtain ⟨ha, has⟩ := List.forall_mem_cons.mp has
    exact ih (dead_exec h ha) has

/-- Whatever the sections of a run, the list stays well formed, `nextProbe` stays in range,
and a dead address comes back only after a join from itself. -/
theorem run_memberList (self : Bytes) (as : List Action) :
    (run self as).addrs.Nodup ∧ self ∉ (run self as).addrs ∧
      (∀ x ∈ (run self as).addrs, ¬ (run self as).Dead x) ∧
      (∀ draw, ∃ result, (run self as).nextProbe draw = .ok result) ∧
      ∀ before between x, as = before ++ between → (run self before).Dead x →
        x ∈ (run self as).addrs → ∃ a ∈ between, a.Rejoins x := by
  have hwf := wellFormed_run self as
  refine ⟨hwf.nodup, hwf.self_notMem, hwf.alive, ?_, ?_⟩
  · intro draw
    obtain ⟨peer, peers, cursor, hnext, -⟩ := nextProbe_eq_ok draw (run self as)
    exact ⟨_, hnext⟩
  · rintro before between x rfl hdead hx
    by_contra hno
    push Not at hno
    refine hwf.alive x hx ?_
    rw [run, Machine.after_append]
    exact dead_after hdead hno

end PeerList
end Commute.Swim
