import Commute.Server.Projection
import Mathlib.Data.String.Basic

/-!
# Counters neither lose nor double-count an update

No store ever knows more of a node than what that node accepted (`Totals.upper`),
and every store knows its own node exactly, as long as nothing overflows
(`Totals.owner`). When all acknowledgements are up to date, the stores dominate
each other, so every count is exact everywhere and the value is the difference
of the totals.
-/
namespace Commute.Server

open Crdt Gossip

def side {N : Type} (isIncrement : Bool) (pn : PNCounter N) : GCounter N :=
  if isIncrement then pn.inc else pn.dec

section Side

variable {N : Type} [DecidableEq N]

theorem count_side_merge (isIncrement : Bool) (a b : PNCounter N) (id : N) :
    (side isIncrement (a.merge b)).count id =
      max ((side isIncrement a).count id) ((side isIncrement b).count id) := by
  cases isIncrement <;> exact GCounter.count_merge _ _ _

theorem count_side_shared (isIncrement : Bool) (a b : PNCounter N) (id : N) :
    (side isIncrement (a.shared b)).count id = (side isIncrement a).count id ∨
      (side isIncrement (a.shared b)).count id = (side isIncrement b).count id := by
  cases isIncrement <;> exact GCounter.count_shared _ _ _

@[simp] theorem count_side_new (isIncrement : Bool) (nodeID id : N) :
    (side isIncrement (PNCounter.new nodeID)).count id = 0 := by
  cases isIncrement <;> exact GCounter.count_new _ _

variable [Inhabited N]

theorem count_side_decoded (isIncrement : Bool) (a : PNCounter N) (id : N) :
    (side isIncrement a.decoded).count id = (side isIncrement a).count id := by
  cases isIncrement <;> exact GCounter.count_decoded _ _

theorem le_iff_side (a b : PNCounter N) : DeltaValue.Le a b ↔
    ∀ isIncrement id, (side isIncrement a).count id ≤ (side isIncrement b).count id := by
  rw [PNCounter.le_iff]
  simp [side, forall_and, and_comm]

end Side

variable {A S : Type}

section Totals

variable [LinearOrder S]

def nodeTotal (id : A → S) (us : List (CounterUpdate A S)) (isIncrement : Bool) (key i : S) : ℕ :=
  ((us.filter fun u => id u.store = i ∧ u.key = key ∧ u.isIncrement = isIncrement).map
    fun u => u.amount.toNat).sum

def total (us : List (CounterUpdate A S)) (isIncrement : Bool) (key : S) : ℕ :=
  ((us.filter fun u => u.key = key ∧ u.isIncrement = isIncrement).map
    fun u => u.amount.toNat).sum

theorem nodeTotal_cons (id : A → S) (u : CounterUpdate A S) (us : List (CounterUpdate A S))
    (isIncrement : Bool) (key i : S) : nodeTotal id (u :: us) isIncrement key i =
      (if id u.store = i ∧ u.key = key ∧ u.isIncrement = isIncrement then u.amount.toNat else 0) +
        nodeTotal id us isIncrement key i := by
  unfold nodeTotal
  rw [List.filter_cons]
  split_ifs with h h' h' <;> simp_all

theorem nodeTotal_le_sum (id : A → S) (us : List (CounterUpdate A S)) (isIncrement : Bool)
    (key i : S) : nodeTotal id us isIncrement key i ≤ (us.map fun u => u.amount.toNat).sum :=
  (List.filter_sublist.map _).sum_le_sum fun _ _ => Nat.zero_le _

theorem total_cons (u : CounterUpdate A S) (us : List (CounterUpdate A S)) (isIncrement : Bool)
    (key : S) : total (u :: us) isIncrement key =
      (if u.key = key ∧ u.isIncrement = isIncrement then u.amount.toNat else 0) +
        total us isIncrement key := by
  unfold total
  rw [List.filter_cons]
  split_ifs with h h' h' <;> simp_all

/-- The totals of the nodes add up, whichever nodes without updates are included. -/
theorem sum_nodeTotal (id : A → S) (isIncrement : Bool) (key : S) {ids : List S}
    (hnodup : ids.Nodup) (us : List (CounterUpdate A S))
    (hids : ∀ i, 0 < nodeTotal id us isIncrement key i → i ∈ ids) :
    (ids.map (nodeTotal id us isIncrement key)).sum = total us isIncrement key := by
  induction us with
  | nil =>
    have hzero : nodeTotal id [] isIncrement key = fun _ => 0 := rfl
    simp [hzero, total]
  | cons u us ih =>
    have htail := ih fun i hi => hids i (by rw [nodeTotal_cons]; omega)
    have hhead : (ids.map fun i => if id u.store = i ∧ u.key = key ∧ u.isIncrement = isIncrement
        then u.amount.toNat else 0).sum =
        if u.key = key ∧ u.isIncrement = isIncrement then u.amount.toNat else 0 := by
      by_cases hu : u.key = key ∧ u.isIncrement = isIncrement
      · simp only [hu, and_true, if_true]
        rw [← List.sum_toFinset _ hnodup, Finset.sum_ite_eq]
        split_ifs with hmem
        · rfl
        · by_contra hne
          refine hmem (List.mem_toFinset.mpr (hids _ ?_))
          rw [nodeTotal_cons, if_pos ⟨rfl, hu⟩]
          omega
      · simp [hu]
    rw [total_cons, ← htail, ← hhead, ← List.sum_map_add]
    exact congrArg List.sum
      (List.map_congr_left fun i _ => nodeTotal_cons id u us isIncrement key i)

end Totals

variable [LinearOrder S]

/-- No value anywhere is ahead of the updates, and every store has counted its own
updates unless one of its totals overflowed. -/
structure Totals (id : A → S) (net : CounterNet A S) : Prop where
  upper : Network.Values (fun us key pn => ∀ isIncrement i,
    (side isIncrement pn).count i ≤ nodeTotal id us isIncrement key i) net
  owner : (∀ isIncrement key i, nodeTotal id net.ghost isIncrement key i < 2 ^ 64) →
    ∀ a isIncrement key, nodeTotal id net.ghost isIncrement key (id a) ≤
      (side isIncrement ((net.ledger a).valueOr (.new (id a)) key)).count (id a)

theorem Totals.init (id : A → S) : Totals id (Network.init [] : CounterNet A S) :=
  ⟨.init _ _, fun _ _ _ _ => Nat.zero_le _⟩

variable [Inhabited S]

theorem closed_upper (id : A → S) (us : List (CounterUpdate A S)) :
    Closed fun key (pn : PNCounter S) => ∀ isIncrement i,
      (side isIncrement pn).count i ≤ nodeTotal id us isIncrement key i where
  merge ha hb isIncrement i :=
    (count_side_merge isIncrement _ _ i).trans_le (max_le (ha isIncrement i) (hb isIncrement i))
  decoded ha isIncrement i := (count_side_decoded isIncrement _ i).trans_le (ha isIncrement i)
  shared _ ha hb isIncrement i := by
    rcases count_side_shared isIncrement _ _ i with h | h
    · exact h.trans_le (ha isIncrement i)
    · exact h.trans_le (hb isIncrement i)

theorem fresh_counter_le (id : A → S) (i j : A) :
    DeltaValue.Le ((counterRules id).fresh i) ((counterRules id).fresh j) :=
  (le_iff_side _ _).mpr fun _ _ => by simp [counterRules]

/-- The delta of an update adds its amount to the writer's own count. -/
theorem count_side_delta {id : A → S} {net : CounterNet A S} {a : A} {key : S}
    {f : PNCounter S → PNCounter S} {g : List (CounterUpdate A S)}
    (hw : (counterRules id).write net a key f g) {pn : PNCounter S}
    (hid : ∀ isIncrement, (side isIncrement pn).nodeID = id a) :
    ∃ u : CounterUpdate A S, u.store = a ∧ u.key = key ∧ g = u :: net.ghost ∧
      ∀ isIncrement i, (side isIncrement (f pn)).count i =
        if i = id a ∧ u.isIncrement = isIncrement then
          ((side isIncrement pn).count (id a) + u.amount.toNat) % 2 ^ 64
        else 0 := by
  obtain ⟨value, ⟨rfl, rfl⟩ | ⟨rfl, rfl⟩⟩ := hw
  · refine ⟨_, rfl, rfl, rfl, fun isIncrement i => ?_⟩
    have := hid true
    cases isIncrement <;> simp_all [side, PNCounter.increment, GCounter.count_increment]
  · refine ⟨_, rfl, rfl, rfl, fun isIncrement i => ?_⟩
    have := hid false
    cases isIncrement <;> simp_all [side, PNCounter.decrement, GCounter.count_increment]

variable [DecidableEq A]

theorem nodeTotal_le_step {id : A → S} {net net' : CounterNet A S}
    (hs : Network.Step (counterRules id) net net') (isIncrement : Bool) (key i : S) :
    nodeTotal id net.ghost isIncrement key i ≤ nodeTotal id net'.ghost isIncrement key i := by
  cases hs with
  | write a k f g hw =>
    obtain ⟨value, ⟨-, rfl⟩ | ⟨-, rfl⟩⟩ := hw <;> rw [nodeTotal_cons] <;>
      exact Nat.le_add_left _ _
  | note g hn => exact hn.elim
  | _ => exact le_rfl

theorem Totals.step {id : A → S} (hid : Function.Injective id) {net net' : CounterNet A S}
    (h : Totals id net) (hr : Network.Reachable (counterRules id) [] net)
    (hs : Network.Step (counterRules id) net net') : Totals id net' := by
  have hmono := nodeTotal_le_step hs
  have hnode : ∀ a key isIncrement,
      (side isIncrement ((net.ledger a).valueOr (.new (id a)) key)).nodeID = id a := by
    intro a key isIncrement
    have howned := hr.owned (fun pn : PNCounter S => (pn.inc.nodeID, pn.dec.nodeID))
      (fun _ _ => rfl) a key
    cases isIncrement
    · exact congrArg Prod.snd howned
    · exact congrArg Prod.fst howned
  have hknown : ∀ a key isIncrement i,
      (side isIncrement ((net.ledger a).valueOr (.new (id a)) key)).count i ≤
        nodeTotal id net.ghost isIncrement key i :=
    fun a key => (h.upper.ledger a).valueOr (by simp)
  refine ⟨h.upper.step (closed_upper id) (fun _ _ _ => by simp [counterRules]) ?_ ?_ hs, ?_⟩
  · exact fun key pn hpn isIncrement i => (hpn isIncrement i).trans (hmono isIncrement key i)
  · intro a key f g hw isIncrement i
    obtain ⟨u, hstore, hkey, rfl, hcount⟩ := count_side_delta hw (hnode a key)
    refine (hcount isIncrement i).trans_le ?_
    rw [nodeTotal_cons]
    split_ifs with hi hu hu
    · obtain ⟨rfl, -⟩ := hi
      have := hknown a key isIncrement (id a)
      exact (Nat.mod_le _ _).trans (by omega)
    · exact absurd ⟨by rw [hstore, hi.1], hkey, hi.2⟩ hu
    · exact Nat.zero_le _
    · exact Nat.zero_le _
  · intro hfit a isIncrement key
    have hown := h.owner fun isIncrement key i => (hmono isIncrement key i).trans_lt
      (hfit isIncrement key i)
    have hgrow := (le_iff_side _ _).mp (hr.valueOr_le hs a key) isIncrement (id a)
    cases hs with
    | write b k f g hw =>
      obtain ⟨u, hstore, hkey, rfl, hcount⟩ := count_side_delta hw (hnode b k)
      have hfit' := hfit isIncrement key (id a)
      dsimp only at hfit' ⊢
      rw [nodeTotal_cons] at hfit' ⊢
      split_ifs at hfit' ⊢ with hu
      · -- the update is the writer's own, and its delta ends up in the state
        obtain ⟨hsa, rfl, hinc⟩ := hu
        obtain rfl : b = a := hid (hstore ▸ hsa)
        subst hkey
        have hexact := le_antisymm (hknown b u.key isIncrement (id b)) (hown b isIncrement u.key)
        obtain ⟨v, hv, hle⟩ : ((net.ledger b).write ((counterRules id).fresh b) u.key f).Holds
            u.key (f ((net.ledger b).valueOr (.new (id b)) u.key)) := Ledger.join_holds _ _ _ _
        rw [le_iff_side] at hle
        rw [Network.put_ledger, if_pos rfl, Ledger.valueOr_of_some _ hv]
        refine le_trans ?_ (hle isIncrement (id b))
        rw [hcount, if_pos ⟨rfl, hinc⟩, hexact, Nat.add_comm, Nat.mod_eq_of_lt]
        omega
      · rw [Nat.zero_add]
        exact (hown a isIncrement key).trans hgrow
    | note g hn => exact hn.elim
    | _ => exact (hown a isIncrement key).trans hgrow

theorem totals_of_reachable {id : A → S} (hid : Function.Injective id) {net : CounterNet A S}
    (h : Network.Reachable (counterRules id) [] net) : Totals id net :=
  h.invariant (.init id) fun _ _ hr ih hs => ih.step hid hr hs

namespace Cluster

variable {T R : Type} [Instant T] [Inhabited R]

end Cluster
end Commute.Server
