import Commute.Swim.PeerList

/-!
# Round-robin probing

A round lasts from one moment at which `nextProbe` puts the cursor back to the
start of the list to the next. What is still to be probed in a round is what lies
at or behind the cursor. A join only moves peers away from the places before the
cursor, but a delete before the cursor shifts the next peer in front of it: that
peer is not probed in this round.
-/
namespace Commute.Swim.PeerList

def returned : Action → PeerList → List Peer
  | .nextProbe draw, p =>
    match p.nextProbe draw with
    | .ok (some peer, _) => [peer]
    | _ => []
  | _, _ => []

/-- A delete takes a peer away that has been probed, before the round is over. -/
def Action.Shifts : Action → PeerList → Prop
  | .delete peer, p => p.probeCursor < p.peers.length ∧
      peer ∈ (p.peers.take p.probeCursor).map Peer.udpAddr
  | _, _ => False

instance : (a : Action) → (p : PeerList) → Decidable (a.Shifts p)
  | .delete _, _ => inferInstanceAs (Decidable (_ ∧ _))
  | .join _ _, _ | .record _, _ | .nextProbe _, _ => .isFalse id

def pending (p : PeerList) : List Bytes := (p.peers.drop p.probeCursor).map Peer.udpAddr

theorem mem_pending {p : PeerList} {x : Bytes} :
    x ∈ p.pending ↔ ∃ i q, p.probeCursor ≤ i ∧ p.peers[i]? = some q ∧ q.udpAddr = x := by
  rw [pending, List.mem_map]
  simp only [List.mem_iff_getElem?, List.getElem?_drop]
  constructor
  · rintro ⟨q, ⟨i, hi⟩, rfl⟩
    exact ⟨_, q, Nat.le_add_right _ _, hi, rfl⟩
  · rintro ⟨i, q, hle, hi, rfl⟩
    exact ⟨q, ⟨i - p.probeCursor, by rwa [Nat.add_sub_cancel' hle]⟩, rfl⟩

theorem pending_of_resets {p : PeerList} (h : p.Resets) : p.pending = [] := by
  rw [pending, List.drop_eq_nil_of_le h.2, List.map_nil]

/-- Appending an element and exchanging it with another moves the other one back. -/
theorem getElem?_swap_concat {α : Type} {xs : List α} {y x : α} {i j : ℕ}
    (hi : xs[i]? = some x) : ∃ k, i ≤ k ∧ (swap (xs ++ [y]) xs.length j)[k]? = some x := by
  have hlt : i < xs.length := (List.getElem?_eq_some_iff.mp hi).1
  have hix : (xs ++ [y])[i]? = some x := by rw [List.getElem?_append_left hlt, hi]
  unfold swap
  split
  · next a b ha hb =>
    by_cases hij : i = j
    · subst hij
      obtain rfl := Option.some.inj (hix.symm.trans hb)
      refine ⟨xs.length, hlt.le, ?_⟩
      rw [List.getElem?_set_ne (Nat.ne_of_lt hlt), List.getElem?_set_self (by simp)]
    · refine ⟨i, le_rfl, ?_⟩
      rw [List.getElem?_set_ne (Ne.symm hij), List.getElem?_set_ne (Nat.ne_of_gt hlt), hix]
  · exact ⟨i, le_rfl, hix⟩

theorem pending_joinEntry {self : Bytes} {draw : ℕ → ℕ} {p : Peers} {added : List Peer}
    {cursor : ℕ} {x : Bytes} (h : x ∈ pending ⟨p, cursor⟩) (jp : JoinPeer) :
    x ∈ pending ⟨(Peers.joinEntry self draw (p, added) jp).1, cursor⟩ := by
  rcases Peers.joinEntry_cases self draw p added jp with heq | ⟨-, -, -, heq⟩
  · rwa [heq]
  · rw [mem_pending] at h ⊢
    obtain ⟨i, q, hle, hi, hq⟩ := h
    obtain ⟨k, hik, hk⟩ := getElem?_swap_concat hi
    rw [heq]
    exact ⟨k, q, Nat.le_trans hle hik, hk, hq⟩

theorem pending_join {self : Bytes} {p : PeerList} {x : Bytes} (h : x ∈ p.pending)
    (draw : ℕ → ℕ) (body : JoinBody) : x ∈ (exec self (.join draw body) p).pending := by
  unfold exec Peers.join
  dsimp only
  have hstart : x ∈ pending
      ⟨{ p.toPeers with deadPeers := p.deadPeers.erase body.src }, p.probeCursor⟩ := h
  generalize ({ p.toPeers with deadPeers := p.deadPeers.erase body.src } : Peers) = start
    at hstart ⊢
  generalize ([] : List Peer) = added
  induction body.peers generalizing start added with
  | nil => exact hstart
  | cons jp peers ih => exact ih _ (pending_joinEntry hstart jp) _

theorem pending_delete {self peer : Bytes} {p : PeerList} {x : Bytes} (h : x ∈ p.pending)
    (hne : x ≠ peer) (hshift : ¬ (Action.delete peer).Shifts p) :
    x ∈ (exec self (.delete peer) p).pending := by
  have hlt : p.probeCursor < p.peers.length := by
    obtain ⟨i, q, hle, hi, -⟩ := mem_pending.mp h
    exact Nat.lt_of_le_of_lt hle (List.getElem?_eq_some_iff.mp hi).1
  have hkeep : (p.peers.take p.probeCursor).filter (fun q => q.udpAddr ≠ peer) =
      p.peers.take p.probeCursor := by
    rw [List.filter_eq_self]
    intro q hq
    have hq' := fun hpeer => hshift ⟨hlt, hpeer⟩
    simp only [decide_eq_true_eq, ne_eq]
    rintro rfl
    exact hq' (List.mem_map_of_mem hq)
  have hdrop : (exec self (.delete peer) p).peers.drop p.probeCursor =
      (p.peers.drop p.probeCursor).filter (fun q => q.udpAddr ≠ peer) := by
    simp only [exec, Peers.delete]
    conv_lhs => rw [← List.take_append_drop p.probeCursor p.peers, List.filter_append, hkeep]
    exact List.drop_left' (List.length_take_of_le hlt.le)
  obtain ⟨q, hq, rfl⟩ := List.mem_map.mp h
  refine List.mem_map.mpr ⟨q, ?_, rfl⟩
  change q ∈ (exec self (.delete peer) p).peers.drop p.probeCursor
  rw [hdrop]
  exact List.mem_filter.mpr ⟨hq, by simpa using hne⟩

section Round

variable {self : Bytes} {p : PeerList} {x : Bytes}

/-- The round has returned `x` or still has it ahead. -/
def Covered (x : Bytes) (out : List Peer) (p : PeerList) : Prop :=
  x ∈ out.map Peer.udpAddr ∨ x ∈ p.pending

theorem Covered.nextProbe {out : List Peer} (h : Covered x out p) (draw : ℕ → ℕ) :
    Covered x (out ++ returned (.nextProbe draw) p) (exec self (.nextProbe draw) p) := by
  unfold Covered
  rw [List.map_append, List.mem_append]
  rcases h with hout | hpending
  · exact Or.inl (Or.inl hout)
  · obtain ⟨i, q, hle, hi, rfl⟩ := mem_pending.mp hpending
    have hlt := Nat.lt_of_le_of_lt hle (List.getElem?_eq_some_iff.mp hi).1
    have hsplit := List.drop_eq_getElem_cons hlt
    rw [pending, hsplit, List.map_cons, List.mem_cons] at hpending
    simp only [returned, exec, nextProbe_next draw hlt]
    rcases hpending with hhead | hrest
    · exact Or.inl (Or.inr (List.mem_singleton.mpr hhead))
    · exact Or.inr hrest

theorem Covered.exec {out : List Peer} (h : Covered x out p) {a : Action}
    (hshift : ¬ a.Shifts p) (hstay : x ∈ (exec self a p).addrs) :
    Covered x (out ++ returned a p) (PeerList.exec self a p) := by
  cases a with
  | nextProbe draw => exact h.nextProbe draw
  | join draw body => exact h.imp (by simp [returned]) fun h => pending_join h draw body
  | delete peer =>
    have hne : x ≠ peer := (Peers.mem_addrs_delete.mp hstay).2
    exact h.imp (by simp [returned]) fun h => pending_delete h hne hshift
  | record e =>
    refine h.imp (by simp [returned]) fun h => ?_
    simp only [PeerList.exec]
    cases hrecord : p.record e with
    | none => exact h
    | some p' =>
      rw [Option.getD_some, Peers.record_eq_some hrecord]
      exact h

theorem covered_reset (h : p.Resets) (draw : ℕ → ℕ)
    (hx : x ∈ (exec self (.nextProbe draw) p).addrs) :
    Covered x (returned (.nextProbe draw) p) (exec self (.nextProbe draw) p) := by
  obtain ⟨peer, rest, -, hnext⟩ := nextProbe_reset draw h
  simp only [exec, hnext, Peers.addrs, List.map_cons, List.mem_cons] at hx
  simp only [Covered, returned, exec, hnext, List.map_cons, List.map_nil, List.mem_singleton,
    pending, List.drop_succ_cons, List.drop_zero]
  exact hx

/-- If no delete takes away a peer before the cursor, then every address that stays in the
list from one reset of the cursor to the next is returned in between. -/
theorem returned_of_round {before between : List Action} {draw : ℕ → ℕ}
    (hfirst : (run self before).Resets)
    (hx : x ∈ (run self (before ++ [.nextProbe draw])).addrs)
    (hbetween : ((machine self).restrict fun a p =>
      ¬ a.Shifts p ∧ x ∈ (exec self a p).addrs).Legal
        (run self (before ++ [.nextProbe draw])) between)
    (hlast : (run self (before ++ .nextProbe draw :: between)).Resets) :
    x ∈ ((machine self).emits returned (run self before) (.nextProbe draw :: between)).map
      Peer.udpAddr := by
  have hstart : run self (before ++ [.nextProbe draw]) =
      exec self (.nextProbe draw) (run self before) := Machine.after_append
  have hend : run self (before ++ .nextProbe draw :: between) =
      (machine self).after (exec self (.nextProbe draw) (run self before)) between :=
    Machine.after_append
  rw [hstart] at hx hbetween
  have hcovered := hbetween.emits_invariant returned (I := Covered x)
    (covered_reset hfirst draw hx) fun a out p h ha => h.exec ha.2.1 ha.2.2
  rw [Machine.emits_restrict, Machine.after_restrict] at hcovered
  refine hcovered.resolve_right ?_
  rw [← hend, pending_of_resets hlast]
  exact List.not_mem_nil

/-- A draw that leaves a shuffled list as it is. -/
def keepOrder (n : ℕ) : ℕ := n - 1

/-- The first round over the peers `a`, `b` and `c` of the node `s`. -/
def firstRound : List Action :=
  [.join keepOrder ⟨[97], [⟨[97], 1⟩, ⟨[98], 1⟩, ⟨[99], 1⟩]⟩, .nextProbe keepOrder,
    .nextProbe keepOrder, .nextProbe keepOrder]

theorem returned_firstRound :
    [98] ∈ ((machine [115]).emits returned (run [115] firstRound)
      [.nextProbe keepOrder, .delete [99], .nextProbe keepOrder]).map Peer.udpAddr := by
  refine returned_of_round (by decide) (by decide) ?_ (by decide)
  exact ⟨⟨trivial, by decide, by decide⟩, ⟨trivial, by decide, by decide⟩, trivial⟩

/-- The probed peer `a` is declared dead: the delete puts `b` before the cursor, and the
round ends without a probe of `b`, which was in the list all the time. -/
theorem skipped_firstRound :
    let round := [.nextProbe keepOrder, .delete [97], .nextProbe keepOrder]
    (run [115] firstRound).Resets ∧ ¬ (run [115] (firstRound ++ round.take 2)).Resets ∧
      (run [115] (firstRound ++ round)).Resets ∧
      (∀ n ≤ 3, [98] ∈ (run [115] (firstRound ++ round.take n)).addrs) ∧
      [98] ∉ ((machine [115]).emits returned (run [115] firstRound) round).map Peer.udpAddr := by
  decide

end Round
end Commute.Swim.PeerList
