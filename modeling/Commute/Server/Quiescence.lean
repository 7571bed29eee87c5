import Commute.Gossip.Quiescence
import Commute.Server.DeltaEquivalence

/-!
# Stores that are no longer written fall silent

Between two writes of its clients a cluster only gossips. If every two stores complete
an exchange in both directions, and once more after that, then no store builds a message
for any other and all stores read the same. The exchanges may overlap, and any other
gossip may happen in between, old and repeated messages included.
-/
namespace Commute.Server

open Crdt Gossip

variable {A S T R : Type} [DecidableEq A] [LinearOrder S] [Inhabited S] [Instant T] [Inhabited R]

namespace Cluster

/-- One call of a run in which nobody writes. -/
inductive Gossip (w : Cluster A S T R) : Cluster A S T R → Prop
  | getSet (a : A) (key : S) : Gossip w (w.getSet a key)
  | delta (a b : A) : Gossip w (w.delta a b)
  | merge (p : Packet A S T R) (msg : Message S T R) : p ∈ w.sent → msg.Perm p.msg →
      Gossip w (w.merge p msg)
  | ack (p : AckPacket A) : p ∈ w.acks → Gossip w (w.ack p)

abbrev Gossips : Cluster A S T R → Cluster A S T R → Prop := Relation.ReflTransGen Gossip

/-- On the way from `w` to `w'` the store `i` builds a message for `j`, then `j` merges
it, and then `i` takes the acknowledgement; or `i` has nothing to send. -/
inductive Exchange (i j : A) (w w' : Cluster A S T R) : Prop
  | idle (u : Cluster A S T R) : Gossips w u → ((u.store i).delta j).1 = none →
      Gossips u w' → Exchange i j w w'
  | passed (u v x : Cluster A S T R) (sent msg : Message S T R) : Gossips w u →
      ((u.store i).delta j).1 = some sent → Gossips (u.delta i j) v → msg.Perm sent →
      Gossips (v.merge ⟨i, j, sent⟩ msg) x →
      Gossips (x.ack ⟨j, i, ((v.store j).merge msg).1⟩) w' → Exchange i j w w'

variable {w w' : Cluster A S T R}

theorem Gossip.step (allowed : SetCondition A S) (h : Gossip w w') : Step allowed w w' := by
  cases h with
  | getSet a key => exact .getSet a key
  | delta a b => exact .delta a b
  | merge p msg hp hperm => exact .merge p msg hp hperm
  | ack p hp => exact .ack p hp

theorem Gossip.sent_subset (h : Gossip w w') : w.sent ⊆ w'.sent := by
  cases h with
  | delta a b =>
    unfold Cluster.delta
    split
    · exact List.Subset.refl _
    · exact List.subset_cons_self _ _
  | _ => exact List.Subset.refl _

theorem Gossip.acks_subset (h : Gossip w w') : w.acks ⊆ w'.acks := by
  cases h with
  | delta a b =>
    unfold Cluster.delta
    split <;> exact List.Subset.refl _
  | merge p msg _ _ => exact List.subset_cons_self _ _
  | _ => exact List.Subset.refl _

namespace Gossips

theorem sent_subset (h : Gossips w w') : w.sent ⊆ w'.sent := by
  induction h with
  | refl => exact List.Subset.refl _
  | tail _ hs ih => exact List.Subset.trans ih hs.sent_subset

theorem acks_subset (h : Gossips w w') : w.acks ⊆ w'.acks := by
  induction h with
  | refl => exact List.Subset.refl _
  | tail _ hs ih => exact List.Subset.trans ih hs.acks_subset

theorem nodeID (h : Gossips w w') (a : A) : (w'.store a).nodeID = (w.store a).nodeID := by
  induction h with
  | refl => rfl
  | tail _ hs ih => rw [(hs.step fun _ _ _ _ => True).nodeID, ih]

theorem reachable {id : A → S} {allowed : SetCondition A S} (h : Gossips w w')
    (hw : Reachable id allowed w) : Reachable id allowed w' := by
  induction h with
  | refl => exact hw
  | tail _ hs ih => exact ih.step (hs.step allowed)

end Gossips

omit [Inhabited R] in
theorem mem_sent_delta {i j : A} {sent : Message S T R}
    (h : ((w.store i).delta j).1 = some sent) : ⟨i, j, sent⟩ ∈ (w.delta i j).sent := by
  unfold Cluster.delta
  generalize (w.store i).delta j = d at h
  obtain ⟨m, st⟩ := d
  obtain rfl : m = some sent := h
  exact List.mem_cons_self

theorem Exchange.gossips {i j : A} (h : Exchange i j w w') : Gossips w w' := by
  cases h with
  | idle u hu _ hw' => exact hu.trans hw'
  | passed u v x sent msg hu hd hv hperm hx hw' =>
    have hmerged := (hu.tail (.delta i j)).trans
      (hv.tail (.merge ⟨i, j, sent⟩ msg (hv.sent_subset (mem_sent_delta hd)) hperm))
    have hacked := hx.tail (.ack _ (hx.acks_subset List.mem_cons_self))
    exact (hmerged.trans hacked).trans hw'

theorem Exchange.trans {i j : A} {w₀ w₁ : Cluster A S T R} (h₀ : Gossips w₀ w)
    (h : Exchange i j w w') (h₁ : Gossips w' w₁) : Exchange i j w₀ w₁ := by
  cases h with
  | idle u hu hd hw' => exact .idle u (h₀.trans hu) hd (hw'.trans h₁)
  | passed u v x sent msg hu hd hv hperm hx hw' =>
    exact .passed u v x sent msg (h₀.trans hu) hd hv hperm hx (hw'.trans h₁)

theorem gossips_exchange (i j : A) (w : Cluster A S T R) : Gossips w (w.exchange i j) := by
  have hbuilt : Gossips w (w.delta i j) := .single (.delta i j)
  unfold Cluster.exchange
  dsimp only
  split
  · exact hbuilt
  · next p _ hsent =>
    have hmerged := hbuilt.tail (.merge p p.msg (hsent ▸ List.mem_cons_self) (.refl _))
    split
    · exact hmerged
    · next q _ hacks => exact hmerged.tail (.ack q (hacks ▸ List.mem_cons_self))

theorem exchange_exchange (i j : A) (w : Cluster A S T R) : Exchange i j w (w.exchange i j) := by
  cases hd : ((w.store i).delta j).1 with
  | none => exact .idle w .refl hd (gossips_exchange i j w)
  | some sent =>
    apply Exchange.passed w (w.delta i j) ((w.delta i j).merge ⟨i, j, sent⟩ sent) sent sent .refl
      hd .refl (.refl _) .refl
    have hsent : (w.delta i j).sent = ⟨i, j, sent⟩ :: w.sent := by
      unfold Cluster.delta
      generalize (w.store i).delta j = d at hd
      obtain ⟨m, st⟩ := d
      obtain rfl : m = some sent := hd
      rfl
    unfold Cluster.exchange
    dsimp only
    rw [hsent]
    exact .refl

/-- Undisturbed rounds contain an exchange between every pair of stores that they list. -/
theorem exchange_of_mem {i j : A} {ps : List (A × A)} (h : (i, j) ∈ ps) (w : Cluster A S T R) :
    Exchange i j w (w.exchanges ps) := by
  have hgossips : ∀ (ps : List (A × A)) (w : Cluster A S T R), Gossips w (w.exchanges ps) := by
    intro ps
    induction ps with
    | nil => exact fun _ => .refl
    | cons p ps ih => exact fun w => (gossips_exchange p.1 p.2 w).trans (ih _)
  induction ps generalizing w with
  | nil => cases h
  | cons p ps ih =>
    rcases List.mem_cons.mp h with rfl | hmem
    · exact (exchange_exchange i j w).trans .refl (hgossips ps _)
    · exact (ih hmem _).trans (gossips_exchange p.1 p.2 w) .refl

end Cluster

namespace Component

variable {V Γ : Type} [DeltaValue V] (c : Component A S T R V) {id : A → S}
  {w w' w₀ w₁ w₂ : Cluster A S T R} {i j : A}

theorem network_delta (g : Γ) {sent : Message S T R} (h : ((w.store i).delta j).1 = some sent) :
    c.network (w.delta i j) g = (c.network w g).build i j ∧
      c.part sent = (c.network w g).part i j := by
  have hsome := c.delta_some j (w.store i) sent h
  unfold Cluster.delta
  generalize (w.store i).delta j = d at h hsome
  obtain ⟨m, st⟩ := d
  obtain rfl : m = some sent := h
  obtain ⟨hledger, hpart⟩ := hsome
  refine ⟨?_, hpart⟩
  change { c.network (w.put i st) g with
    sent := ⟨i, j, (c.part sent).1, (c.part sent).2⟩ :: (c.network w g).sent } = _
  rw [network_put, hledger, hpart]
  rfl

theorem network_merge (g : Γ) (hid : ∀ a, (w.store a).nodeID = id a) {sent msg : Message S T R}
    (hperm : msg.Perm sent) :
    c.network (w.merge ⟨i, j, sent⟩ msg) g =
      (c.network w g).deliver (fun a => c.fresh (id a)) ⟨i, j, (c.part sent).1, (c.part sent).2⟩
        (c.part msg).2 := by
  change { c.network (w.put j ((w.store j).merge msg).2) g with
    receipts := ⟨j, i, c.seq ((w.store j).merge msg).1⟩ :: (c.network w g).receipts } = _
  rw [network_put, c.merge_ledger, c.merge_seq, hid, (c.perm hperm).1]
  rfl

theorem network_ack (g : Γ) (p : AckPacket A) :
    c.network (w.ack p) g = (c.network w g).confirm ⟨p.src, p.dst, c.seq p.ack⟩ := by
  unfold Cluster.ack
  rw [network_put, c.ack_ledger]
  rfl

theorem quiet (hid : ∀ a, (w.store a).nodeID = id a) (h : Cluster.Gossips w w') :
    Network.Quiet (fun a => c.fresh (id a)) (c.network w ()) (c.network w' ()) := by
  induction h with
  | refl => exact .refl
  | @tail u v hu hs ih =>
    have hids : ∀ a, (u.store a).nodeID = id a := fun a =>
      (Cluster.Gossips.nodeID hu a).trans (hid a)
    cases hs with
    | getSet a key => exact ih
    | delta a b =>
      rcases c.delta_step (.quiet fun a => c.fresh (id a)) u () a b with heq | hstep
      · rwa [heq]
      · exact ih.tail hstep
    | merge p msg hp hperm =>
      exact ih.tail (c.merge_step hp hperm (congrArg c.fresh (hids p.dst)).symm)
    | ack p hp => exact ih.tail (c.ack_step hp)

section Exchanges

variable (hidle : ∀ (peer : A) (st : Store A S T R), (st.delta peer).1 = none →
  ((c.ledger st).delta peer).1 = none)

include hidle

theorem exchange (hid : ∀ a, (w.store a).nodeID = id a) (h : Cluster.Exchange i j w w') :
    Network.Exchange (fun a => c.fresh (id a)) i j (c.network w ()) (c.network w' ()) := by
  have hids : ∀ {u}, Cluster.Gossips w u → ∀ a, (u.store a).nodeID = id a :=
    fun hu a => (hu.nodeID a).trans (hid a)
  cases h with
  | idle u hu hd hw' =>
    exact .idle _ (c.quiet hid hu) (hidle j (u.store i) hd) (c.quiet (hids hu) hw')
  | passed u v x sent msg hu hd hv hperm hx hw' =>
    obtain ⟨hbuild, hpart⟩ := c.network_delta () hd
    have hbuilt := hu.tail (.delta i j)
    have hv' := hbuilt.trans hv
    have hmerge : Cluster.Gossip v (v.merge ⟨i, j, sent⟩ msg) :=
      .merge _ msg (hv.sent_subset (Cluster.mem_sent_delta hd)) hperm
    have hmerged := hv'.tail hmerge
    have hx' := hmerged.trans hx
    have hacked := hx'.tail (.ack _ (hx.acks_subset List.mem_cons_self))
    have hquiet := c.quiet (hids hbuilt) hv
    have hquiet' := c.quiet (hids hmerged) hx
    have hquiet'' := c.quiet (hids hacked) hw'
    rw [hbuild] at hquiet
    rw [c.network_merge () (hids hv') hperm, hpart] at hquiet'
    rw [network_ack, c.merge_seq, (c.perm hperm).1, hpart] at hquiet''
    exact .passed _ _ _ _ (c.quiet hid hu) hquiet (hpart ▸ (c.perm hperm).2) hquiet' hquiet''

/-- After two exchanges between every two stores nothing of this type is left to send. -/
theorem quiescent [LawfulDeltaValue V] (hfresh : ∀ a b, DeltaValue.Le (c.fresh a) (c.fresh b))
    (hid : ∀ a, (w₀.store a).nodeID = id a)
    (hsound : Network.Sound (.quiet fun a => c.fresh (id a)) (c.network w₀ ()))
    (hbacked : (c.network w₀ ()).Backed)
    (h₁ : ∀ i j, i ≠ j → Cluster.Exchange i j w₀ w₁)
    (h₂ : ∀ i j, i ≠ j → Cluster.Exchange i j w₁ w₂) {i j : A} (hij : i ≠ j) :
    (c.ledger (w₂.store i)).acked j = (c.ledger (w₂.store i)).seq := by
  have hid₁ : ∀ a, (w₁.store a).nodeID = id a := fun a =>
    ((h₁ i j hij).gossips.nodeID a).trans (hid a)
  exact Network.quiescent_of_exchanges (fun a b => hfresh (id a) (id b)) hsound hbacked
    (fun a b hab => c.exchange hidle hid (h₁ a b hab))
    (fun a b hab => c.exchange hidle hid₁ (h₂ a b hab)) i j hij

end Exchanges

end Component

omit [Inhabited R] in
theorem Store.delta_eq_none_iff {peer : A} {st : Store A S T R} :
    (st.delta peer).1 = none ↔ (st.counters.delta peer).1 = none ∧
      (st.registers.delta peer).1 = none ∧ (st.sets.delta peer).1 = none := by
  unfold Store.delta
  dsimp only
  split_ifs with h
  · simpa using h
  · simpa using h

namespace Cluster

variable {id : A → S} {w₀ w₁ w₂ : Cluster A S T R}

/-- After two exchanges between every two stores everything is acknowledged. -/
theorem quiescent_of_exchanges [LinearOrder T] [LinearInstant T] {allowed : SetCondition A S}
    (h : Reachable id allowed w₀) (h₁ : ∀ i j, i ≠ j → Exchange i j w₀ w₁)
    (h₂ : ∀ i j, i ≠ j → Exchange i j w₁ w₂) :
    w₂.counters.Quiescent ∧ w₂.registers.Quiescent ∧ w₂.sets.Quiescent := by
  have hcounters := Network.Reachable.sound h.counters
  have hregisters := Network.Reachable.sound h.registers
  have hsets := Network.Reachable.sound h.sets
  have hbacked := Network.Reachable.backed h.counters
  have hbacked' := Network.Reachable.backed h.registers
  have hbacked'' := Network.Reachable.backed h.sets
  refine ⟨fun i j hij => ?_, fun i j hij => ?_, fun i j hij => ?_⟩
  · exact counterComponent.quiescent (fun _ _ hd => (Store.delta_eq_none_iff.mp hd).1)
      (fresh_counter_le fun s => s) h.nodeID { hcounters with }
      hbacked h₁ h₂ hij
  · exact registerComponent.quiescent (fun _ _ hd => (Store.delta_eq_none_iff.mp hd).2.1)
      (fresh_register_le fun s => s) h.nodeID { hregisters with }
      hbacked' h₁ h₂ hij
  · exact setComponent.quiescent (fun _ _ hd => (Store.delta_eq_none_iff.mp hd).2.2)
      (fresh_set_le (fun s => s) fun _ _ _ _ => True) h.nodeID { hsets with }
      hbacked'' h₁ h₂ hij

theorem Reachable.getRegister_eq [LinearOrder T] [LinearInstant T] (hid : Function.Injective id)
    {allowed : SetCondition A S} {w : Cluster A S T R} (h : Reachable id allowed w) {a b : A}
    {key : S} (heq : Network.Equivalent (w.store a).registers (w.store b).registers key) :
    (w.store a).getRegister key = (w.store b).getRegister key := by
  have hselected := selected_of_reachable hid h.registers
  have hgenuine : ∀ c v, (w.store c).registers.state.lookup key = some v →
      Genuine key w.writes v.entry :=
    fun c v hv => Ledger.valueOr_of_some (.new (id c)) hv ▸ hselected.genuine c key
  unfold Store.getRegister
  rcases heq.cases with ⟨hv, hu⟩ | ⟨v, u, hv, hu, hle, hle'⟩ <;> rw [hv, hu]
  rw [LWWRegister.le_iff] at hle hle'
  have hentry := (hgenuine a v hv).unique (hgenuine b u hu) (le_antisymm hle hle')
  exact congrArg (fun e : LWWEntry S T R => (e.value, true)) hentry

/-- Stores that have everything acknowledged read the same, if clients pass on contexts of the
same store only. -/
theorem Reachable.sameReads [LinearOrder T] [LinearInstant T] (hid : Function.Injective id)
    {w : Cluster A S T R} (h : Reachable id OwnContext w) (hcounters : w.counters.Quiescent)
    (hregisters : w.registers.Quiescent) (hsets : w.sets.Quiescent) (i j : A) :
    Store.SameReads (w.store i) (w.store j) := by
  have hc := setConsistent_of_reachable hid (fun _ _ _ _ => returned_of_own) h.sets
  have hcausal := setCausality_of_reachable hid (fun _ _ _ _ => returned_of_own)
    (fun _ _ _ _ hc => hc.guarded_of_own) h.sets
  refine ⟨fun key => ?_, fun key => ?_, fun key => ?_⟩
  · exact Store.getCounter_congr ((Network.Reachable.sound h.counters).quiescent_equivalent
      (fresh_counter_le id) hcounters i j key)
  · exact h.getRegister_eq hid ((Network.Reachable.sound h.registers).quiescent_equivalent
      (fresh_register_le id) hregisters i j key)
  · exact Store.getSet_congr (fun value => hc.sites.chronicle (key, value))
      ((Network.Reachable.sound h.sets).quiescent_equivalent (fresh_set_le id OwnContext) hsets
        i j key)
      ((hcausal.traced.ledger i).state key) ((hcausal.traced.ledger j).state key)

/-- Stores that complete two exchanges between every two of them after the last write have
nothing left to send and read the same, if clients pass on contexts of the same store only. -/
theorem settled [LinearOrder T] [LinearInstant T] (hid : Function.Injective id)
    (h : Reachable id OwnContext w₀)
    (h₁ : ∀ i j, i ≠ j → Exchange i j w₀ w₁) (h₂ : ∀ i j, i ≠ j → Exchange i j w₁ w₂) {i j : A}
    (hij : i ≠ j) :
    ((w₂.store i).delta j).1 = none ∧ Store.SameReads (w₂.store i) (w₂.store j) := by
  obtain ⟨hcounters, hregisters, hsets⟩ := quiescent_of_exchanges h h₁ h₂
  have hw₁ := (h₁ i j hij).gossips.reachable h
  have hw₂ := (h₂ i j hij).gossips.reachable hw₁
  have hsound := Network.Reachable.sound hw₂.counters
  have hsound' := Network.Reachable.sound hw₂.registers
  have hsound'' := Network.Reachable.sound hw₂.sets
  constructor
  · apply Store.delta_eq_none_iff.mpr
    exact ⟨Ledger.delta_eq_none (hsound.coherent i).seq_pos (hcounters i j hij),
      Ledger.delta_eq_none (hsound'.coherent i).seq_pos (hregisters i j hij),
      Ledger.delta_eq_none (hsound''.coherent i).seq_pos (hsets i j hij)⟩
  · exact hw₂.sameReads hid hcounters hregisters hsets i j

/-- Two stores with writes of all three types that the other one has not seen. -/
def written : Cluster Bool String ℕ ℕ :=
  let first := ((init pairID).incrementCounter true "c" 5).setRegister true "r" 1 7
  ((first.addSet true "k" "x" ∅).decrementCounter false "c" 2).addSet false "k" "y" ∅

def bothWays : List (Bool × Bool) := [(true, false), (false, true)]

theorem settled_written :
    (((written.exchanges bothWays).exchanges bothWays).store true).getCounter "c" = (3, true) ∧
      Store.SameReads (((written.exchanges bothWays).exchanges bothWays).store true)
        (((written.exchanges bothWays).exchanges bothWays).store false) := by
  have hinit : Reachable pairID OwnContext (init pairID : Cluster Bool String ℕ ℕ) := .refl
  have hfirst := ((hinit.step (.incrementCounter true "c" 5)).step
    (.setRegister true "r" 1 7)).step (.addSet true "k" "x" ∅ (Or.inl rfl))
  have hwritten : Reachable pairID OwnContext written :=
    (hfirst.step (.decrementCounter false "c" 2)).step (.addSet false "k" "y" ∅ (Or.inl rfl))
  have hpairs : ∀ i j, i ≠ j → (i, j) ∈ bothWays := by decide
  have hsettled := settled pairID_injective hwritten
    (fun i j hij => exchange_of_mem (hpairs i j hij) _)
    (fun i j hij => exchange_of_mem (hpairs i j hij) _) (i := true) (j := false) (by decide)
  exact ⟨by decide +kernel, hsettled.2⟩

end Cluster
end Commute.Server
