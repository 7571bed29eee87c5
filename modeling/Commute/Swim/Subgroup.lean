import Commute.Swim.PeerList
import Mathlib.Data.Finset.Card

/-!
# The subgroup of an indirect probe

A probe without an ack asks some other peers to probe the target. `kRandomPeers`
takes every candidate if there are no more than the subgroup size, and draws
candidates otherwise, at most three times as often as there are any, until it has
enough different ones. The subgroup is therefore as large as it should be exactly
if the draws hit enough different candidates.
-/
namespace Commute.Swim.Peers

open Fault

/-- The sampling loop with that many draws left; `draw n` is the one with `n` left after it. -/
def sample (candidates : List Peer) (subgroupSize : ℤ) (draw : ℕ → ℕ) :
    ℕ → FMap Bytes Peer → Except Fault (FMap Bytes Peer)
  | 0, subgroup => .ok subgroup
  | n + 1, subgroup => do
    let peer ← index candidates (draw n % candidates.length)
    if (subgroup.lookup peer.udpAddr).isSome then sample candidates subgroupSize draw n subgroup
    else
      let subgroup := subgroup.insert peer.udpAddr peer
      if subgroup.entries.length = subgroupSize then .ok subgroup
      else sample candidates subgroupSize draw n subgroup

/-- Peers to send a ping-req to, none if there is no peer but the excluded one. -/
def kRandomPeers (subgroupSize : ℤ) (draw : ℕ → ℕ) (exclude : Peer) (p : Peers) :
    Except Fault (Option (List Peer)) :=
  let candidates := p.peers.filter fun q => q.udpAddr ≠ exclude.udpAddr
  if candidates.length = 0 then .ok none
  else if candidates.length ≤ subgroupSize then .ok (some candidates)
  else do
    let subgroup ← sample candidates subgroupSize draw (3 * candidates.length) ∅
    .ok (some (subgroup.entries.map Sigma.snd))

theorem sample_eq_ok {candidates : List Peer} (hpos : 0 < candidates.length) (subgroupSize : ℤ)
    (draw : ℕ → ℕ) (n : ℕ) (subgroup : FMap Bytes Peer) :
    ∃ result, sample candidates subgroupSize draw n subgroup = .ok result := by
  induction n generalizing subgroup with
  | zero => exact ⟨subgroup, rfl⟩
  | succ n ih =>
    have hlt : draw n % candidates.length < candidates.length := Nat.mod_lt _ hpos
    simp only [sample, index, List.getElem?_eq_getElem hlt, ok_bind]
    split_ifs
    · exact ih _
    · exact ⟨_, rfl⟩
    · exact ih _

theorem kRandomPeers_eq_ok (subgroupSize : ℤ) (draw : ℕ → ℕ) (exclude : Peer) (p : Peers) :
    ∃ result, p.kRandomPeers subgroupSize draw exclude = .ok result := by
  unfold kRandomPeers
  dsimp only
  split_ifs with hnone hall
  · exact ⟨none, rfl⟩
  · exact ⟨some _, rfl⟩
  · obtain ⟨subgroup, hsample⟩ :=
      sample_eq_ok (Nat.pos_of_ne_zero hnone) subgroupSize draw (3 * _) ∅
    rw [hsample]
    exact ⟨_, rfl⟩

/-- The peers that a call excluding `exclude` can select. -/
def others (exclude : Peer) (p : Peers) : List Peer :=
  p.peers.filter fun q => q.udpAddr ≠ exclude.udpAddr

/-- The positions among `len` candidates that the draws of the last `n` rounds hit. -/
def drawn (draw : ℕ → ℕ) (len n : ℕ) : Finset ℕ :=
  (Finset.range n).image fun i => draw i % len

/-- The subgroup holds the candidates at the positions `hit`, and nothing else. -/
structure Selected (candidates : List Peer) (subgroup : FMap Bytes Peer) (hit : Finset ℕ) :
    Prop where
  length : subgroup.entries.length = hit.card
  isSome_iff : ∀ j q, candidates[j]? = some q →
    ((subgroup.lookup q.udpAddr).isSome = true ↔ j ∈ hit)
  listed : ∀ x q, subgroup.lookup x = some q → q ∈ candidates ∧ q.udpAddr = x

theorem selected_empty (candidates : List Peer) : Selected candidates ∅ ∅ where
  length := rfl
  isSome_iff _ _ _ := by simp
  listed _ _ h := by simp at h

/-- Candidates at different positions have different addresses, so a new one adds its
position and no other. -/
theorem Selected.insert {candidates : List Peer} (hdistinct : (candidates.map Peer.udpAddr).Nodup)
    {subgroup : FMap Bytes Peer} {hit : Finset ℕ} (h : Selected candidates subgroup hit) {j : ℕ}
    {q : Peer} (hq : candidates[j]? = some q) (hnew : ¬ (subgroup.lookup q.udpAddr).isSome) :
    Selected candidates (subgroup.insert q.udpAddr q) (insert j hit) := by
  have hj : j ∉ hit := fun hmem => hnew ((h.isSome_iff j q hq).mpr hmem)
  refine ⟨?_, ?_, ?_⟩
  · have hnotMem : q.udpAddr ∉ subgroup := by
      rw [← AList.lookup_isSome]
      exact hnew
    rw [AList.entries_insert_of_notMem hnotMem, List.length_cons, h.length,
      Finset.card_insert_of_notMem hj]
  · intro i r hr
    have hsame : r.udpAddr = q.udpAddr ↔ i = j := by
      constructor
      · intro haddr
        have hi : (candidates.map Peer.udpAddr)[i]? = some q.udpAddr := by
          rw [List.getElem?_map, hr, ← haddr]
          rfl
        have hj' : (candidates.map Peer.udpAddr)[j]? = some q.udpAddr := by
          rw [List.getElem?_map, hq]
          rfl
        obtain ⟨hlt, -⟩ := List.getElem?_eq_some_iff.mp hi
        exact (List.getElem?_inj hlt hdistinct).mp (hi.trans hj'.symm)
      · rintro rfl
        rw [hr] at hq
        rw [Option.some.inj hq]
    rw [FMap.lookup_insert_eq, Finset.mem_insert, ← hsame]
    by_cases haddr : r.udpAddr = q.udpAddr
    · simp [haddr]
    · simp only [haddr, if_false, false_or]
      exact h.isSome_iff i r hr
  · intro x r hr
    rw [FMap.lookup_insert_eq] at hr
    split_ifs at hr with hx
    · obtain rfl := Option.some.inj hr
      exact ⟨List.mem_of_getElem? hq, hx.symm⟩
    · exact h.listed x r hr

/-- The loop ends with as many candidates as the subgroup needs, or with all that were
there before or drawn. -/
theorem sample_selected {candidates : List Peer}
    (hdistinct : (candidates.map Peer.udpAddr).Nodup) (hpos : 0 < candidates.length)
    (subgroupSize : ℤ) (draw : ℕ → ℕ) (n : ℕ) {subgroup : FMap Bytes Peer} {hit : Finset ℕ}
    (h : Selected candidates subgroup hit) (hlt : (hit.card : ℤ) < subgroupSize) :
    ∃ result hit', sample candidates subgroupSize draw n subgroup = .ok result ∧
      Selected candidates result hit' ∧
      (hit'.card : ℤ) = min subgroupSize (hit ∪ drawn draw candidates.length n).card := by
  induction n generalizing subgroup hit with
  | zero =>
    refine ⟨subgroup, hit, rfl, h, ?_⟩
    rw [drawn, Finset.range_zero, Finset.image_empty, Finset.union_empty, min_eq_right hlt.le]
  | succ n ih =>
    have hj : draw n % candidates.length < candidates.length := Nat.mod_lt _ hpos
    have hq := List.getElem?_eq_getElem hj
    have hdrawn : hit ∪ drawn draw candidates.length (n + 1) =
        insert (draw n % candidates.length) hit ∪ drawn draw candidates.length n := by
      rw [drawn, Finset.range_add_one, Finset.image_insert, Finset.union_insert,
        Finset.insert_union]
      rfl
    simp only [sample, index, hq, ok_bind]
    rw [hdrawn]
    split_ifs with hold hfull
    · have hmem := (h.isSome_iff _ _ hq).mp hold
      rw [Finset.insert_eq_of_mem hmem]
      exact ih h hlt
    · have hnext := h.insert hdistinct hq hold
      refine ⟨_, _, rfl, hnext, ?_⟩
      rw [hnext.length] at hfull
      rw [hfull, min_eq_left]
      rw [← hfull]
      exact_mod_cast Finset.card_le_card Finset.subset_union_left
    · have hnext := h.insert hdistinct hq hold
      rw [hnext.length] at hfull
      apply ih hnext
      have hgrow := Finset.card_insert_le (draw n % candidates.length) hit
      omega

/-- What a probe expects of the selection: none if there is no other peer, and otherwise
that many different other peers, or all of them if there are fewer. -/
def Selection (subgroupSize : ℤ) (exclude : Peer) (p : Peers) : Option (List Peer) → Prop
  | none => p.others exclude = []
  | some selected =>
    p.others exclude ≠ [] ∧
    (selected.length : ℤ) = min subgroupSize (p.others exclude).length ∧
    (selected.map Peer.udpAddr).Nodup ∧
    ∀ q ∈ selected, q ∈ p.peers ∧ q.udpAddr ≠ exclude.udpAddr

theorem mem_others {exclude : Peer} {p : Peers} {q : Peer} :
    q ∈ p.others exclude ↔ q ∈ p.peers ∧ q.udpAddr ≠ exclude.udpAddr := by
  simp [others]

theorem Selected.values {candidates : List Peer} {subgroup : FMap Bytes Peer} {hit : Finset ℕ}
    (h : Selected candidates subgroup hit) :
    (subgroup.entries.map Sigma.snd).length = hit.card ∧
      ((subgroup.entries.map Sigma.snd).map Peer.udpAddr).Nodup ∧
      ∀ q ∈ subgroup.entries.map Sigma.snd, q ∈ candidates := by
  have hentry : ∀ e ∈ subgroup.entries, e.2 ∈ candidates ∧ e.2.udpAddr = e.1 :=
    fun e he => h.listed e.1 e.2 (FMap.mem_entries_iff.mp he)
  refine ⟨?_, ?_, ?_⟩
  · rw [List.length_map, h.length]
  · have hkeys : (subgroup.entries.map Sigma.snd).map Peer.udpAddr = subgroup.keys := by
      rw [List.map_map]
      exact List.map_congr_left fun e he => (hentry e he).2
    rw [hkeys]
    exact subgroup.keys_nodup
  · intro q hq
    obtain ⟨e, he, rfl⟩ := List.mem_map.mp hq
    exact (hentry e he).1

/-- The selection is exact if and only if there are no more candidates than the subgroup
needs, or the draws hit enough different ones. -/
theorem kRandomPeers_selection_iff {subgroupSize : ℤ} (hsize : 0 < subgroupSize)
    (draw : ℕ → ℕ) (exclude : Peer) {p : Peers} (hdistinct : p.addrs.Nodup) :
    (∃ result, p.kRandomPeers subgroupSize draw exclude = .ok result ∧
      p.Selection subgroupSize exclude result) ↔
    ((p.others exclude).length : ℤ) ≤ subgroupSize ∨
      subgroupSize ≤
        (drawn draw (p.others exclude).length (3 * (p.others exclude).length)).card := by
  have hothers : ((p.others exclude).map Peer.udpAddr).Nodup :=
    List.Nodup.sublist (List.filter_sublist.map _) hdistinct
  unfold kRandomPeers
  rw [← others]
  dsimp only
  split_ifs with hnone hall
  · rw [List.length_eq_zero_iff] at hnone
    simp [Selection, hnone, hsize.le]
  · refine iff_of_true ⟨_, rfl, ?_⟩ (Or.inl hall)
    refine ⟨?_, (min_eq_right hall).symm, hothers, fun q hq => mem_others.mp hq⟩
    rw [ne_eq, ← List.length_eq_zero_iff]
    exact hnone
  · have hpos : 0 < (p.others exclude).length := Nat.pos_of_ne_zero hnone
    obtain ⟨subgroup, hit, hsample, hsel, hcard⟩ := sample_selected hothers hpos subgroupSize draw
      (3 * (p.others exclude).length) (selected_empty _) (by simpa using hsize)
    rw [Finset.empty_union] at hcard
    obtain ⟨hlength, hnodup, hmem⟩ := hsel.values
    rw [hsample]
    simp only [ok_bind, Except.ok.injEq, exists_eq_left', Selection, hlength, hcard]
    constructor
    · rintro ⟨-, hmin, -⟩
      omega
    · intro hdraws
      refine ⟨?_, by omega, hnodup, fun q hq => mem_others.mp (hmem q hq)⟩
      exact List.ne_nil_of_length_pos hpos

def fourPeers : Peers := ⟨[⟨[97], 0⟩, ⟨[98], 0⟩, ⟨[99], 0⟩, ⟨[100], 0⟩], ∅, ∅⟩

theorem kRandomPeers_selection_secondCandidate :
    ∃ result, fourPeers.kRandomPeers 2 (fun n => if n = 4 then 1 else 0) ⟨[97], 0⟩ = .ok result ∧
      fourPeers.Selection 2 ⟨[97], 0⟩ result :=
  (kRandomPeers_selection_iff (by decide) _ _ (by decide)).mpr (Or.inr (by decide))

/-- Two of three peers are wanted, and all nine draws hit the same one. -/
theorem kRandomPeers_sameDraws :
    fourPeers.addrs.Nodup ∧
      fourPeers.kRandomPeers 2 (fun _ => 0) ⟨[97], 0⟩ = .ok (some [⟨[98], 0⟩]) ∧
      ¬ ∃ result, fourPeers.kRandomPeers 2 (fun _ => 0) ⟨[97], 0⟩ = .ok result ∧
        fourPeers.Selection 2 ⟨[97], 0⟩ result := by
  have hresult : fourPeers.kRandomPeers 2 (fun _ => 0) ⟨[97], 0⟩ = .ok (some [⟨[98], 0⟩]) := by
    decide
  refine ⟨by decide, hresult, ?_⟩
  rintro ⟨result, hok, hselection⟩
  rw [hresult] at hok
  cases hok
  exact absurd hselection.2.1 (by decide)

end Commute.Swim.Peers
