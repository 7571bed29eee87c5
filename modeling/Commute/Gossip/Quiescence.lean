import Commute.Gossip.Causal

/-!
# Gossip comes to rest

A run without local writes cannot raise any value above what all nodes together
hold. Once every node has passed its state to every other one, all values are
level: whatever is merged from then on is dominated, so no ledger grows and no
sequence number moves. A second acknowledged exchange between every two nodes
then confirms everything, and nobody has anything left to send.

Nothing is said about how the exchanges interleave with each other, with lost
attempts or with messages of the past.
-/
namespace Commute.Gossip

open DeltaValue

variable {A K V Γ : Type}

/-- The rules of a run without local writes. -/
def Rules.quiet (fresh : A → V) : Rules A K V Γ := ⟨fresh, fun _ _ _ _ _ => False, fun _ _ => False⟩

variable [DecidableEq K] [DeltaValue V]

theorem Ledger.mergeAll_eq_self {l : Ledger A K V} (fresh : V) {payload : FMap K V}
    (h : ∀ k v, payload.lookup k = some v → l.Holds k v) : l.mergeAll fresh payload = l := by
  have hes : ∀ e ∈ payload.entries, l.Holds e.1 e.2 :=
    fun e he => h e.1 e.2 (FMap.mem_entries_iff.mp he)
  unfold Ledger.mergeAll
  generalize payload.entries = es at hes
  induction es with
  | nil => rfl
  | cons e es ih =>
    have hskip : l.mergeKey fresh e.1 e.2 = l := by
      obtain ⟨v, hv, hle⟩ := hes e List.mem_cons_self
      unfold Ledger.mergeKey
      rw [hv]
      exact if_pos hle
    rw [List.foldl_cons, hskip]
    exact ih fun e' he' => hes e' (List.mem_cons_of_mem _ he')

theorem Ledger.delta_eq_none [DecidableEq A] {l : Ledger A K V} {peer : A} (hpos : 0 < l.seq)
    (h : l.acked peer = l.seq) : (l.delta peer).1 = none := by
  rcases Ledger.delta_cases peer l with ⟨h0, -⟩ | ⟨-, hlt, -⟩ | ⟨-, -, he⟩
  · omega
  · omega
  · rw [he]

namespace Network

variable [DecidableEq A]

def build (w : Network A K V Γ) (a b : A) : Network A K V Γ :=
  { w.put a ((w.ledger a).delta b).2 with
    sent := ⟨a, b, (w.part a b).1, (w.part a b).2⟩ :: w.sent }

/-- The receiver of a message part has merged it, visited in the order of `payload`. -/
def deliver (fresh : A → V) (w : Network A K V Γ) (env : Envelope A K V) (payload : FMap K V) :
    Network A K V Γ :=
  { w.put env.dst ((w.ledger env.dst).mergeAll (fresh env.dst) payload) with
    receipts := ⟨env.dst, env.src, env.seq⟩ :: w.receipts }

def confirm (w : Network A K V Γ) (r : Receipt A) : Network A K V Γ :=
  w.put r.dst ((w.ledger r.dst).ack r.src r.seq)

/-- A run without local writes leads from `w` to `w'`. -/
abbrev Quiet (fresh : A → V) : Network A K V Γ → Network A K V Γ → Prop :=
  Relation.ReflTransGen (Step (.quiet fresh))

/-- On the way from `w` to `w'`, which has no local writes, `i` builds a message part for
`j`, then `j` merges it, and then `i` takes the receipt; or `i` has nothing to send. -/
inductive Exchange (fresh : A → V) (i j : A) (w w' : Network A K V Γ) : Prop
  | idle (u : Network A K V Γ) : Quiet fresh w u → ((u.ledger i).delta j).1 = none →
      Quiet fresh u w' → Exchange fresh i j w w'
  | passed (u v x : Network A K V Γ) (payload : FMap K V) : Quiet fresh w u →
      Quiet fresh (u.build i j) v → payload.entries.Perm (u.part i j).2.entries →
      Quiet fresh (v.deliver fresh ⟨i, j, (u.part i j).1, (u.part i j).2⟩ payload) x →
      Quiet fresh (x.confirm ⟨j, i, (u.part i j).1⟩) w' → Exchange fresh i j w w'

/-- Every value of a message part is one that its sender holds. -/
def Backed (w : Network A K V Γ) : Prop :=
  ∀ env ∈ w.sent, ∀ k x, env.payload.lookup k = some x → (w.ledger env.src).Holds k x

/-- Every node holds what any node has. -/
def Level (w : Network A K V Γ) : Prop :=
  ∀ a b k v, (w.ledger a).state.lookup k = some v → (w.ledger b).Holds k v

variable {fresh : A → V} {w w' w₀ w₁ w₂ : Network A K V Γ} {i j : A}

theorem Step.sent_subset {R : Rules A K V Γ} (h : Step R w w') : w.sent ⊆ w'.sent := by
  cases h with
  | delta a b => exact List.subset_cons_self _ _
  | _ => exact List.Subset.refl _

theorem Step.receipts_subset {R : Rules A K V Γ} (h : Step R w w') :
    w.receipts ⊆ w'.receipts := by
  cases h with
  | merge env payload _ _ => exact List.subset_cons_self _ _
  | _ => exact List.Subset.refl _

theorem Step.acked_le {R : Rules A K V Γ} (h : Step R w w') (i j : A) :
    (w.ledger i).acked j ≤ (w'.ledger i).acked j := by
  have hput : ∀ a l, (w.ledger a).acked j ≤ l.acked j →
      (w.ledger i).acked j ≤ ((w.put a l).ledger i).acked j := by
    intro a l hl
    rw [put_ledger]
    split_ifs with hi
    · exact hi ▸ hl
    · exact le_rfl
  cases h with
  | write a k f g _ => exact hput a _ le_rfl
  | note g _ => exact le_rfl
  | delta a b =>
    apply hput
    unfold Ledger.acked
    rw [Ledger.delta_acks]
  | merge env payload _ _ =>
    apply hput
    unfold Ledger.acked
    rw [Ledger.mergeAll_acks]
  | ack r _ =>
    apply hput
    rw [Ledger.ack_acked]
    split_ifs with hj
    · exact hj ▸ le_max_left _ _
    · exact le_rfl

namespace Quiet

theorem build (w : Network A K V Γ) (a b : A) : Quiet fresh w (w.build a b) :=
  .single (.delta a b)

theorem deliver {env : Envelope A K V} {payload : FMap K V} (henv : env ∈ w.sent)
    (hperm : payload.entries.Perm env.payload.entries) :
    Quiet fresh w (w.deliver fresh env payload) :=
  .single (.merge env payload henv hperm)

theorem confirm {r : Receipt A} (hr : r ∈ w.receipts) : Quiet fresh w (w.confirm r) :=
  .single (.ack r hr)

theorem sent_subset (h : Quiet fresh w w') : w.sent ⊆ w'.sent := by
  induction h with
  | refl => exact List.Subset.refl _
  | tail _ hs ih => exact List.Subset.trans ih hs.sent_subset

theorem receipts_subset (h : Quiet fresh w w') : w.receipts ⊆ w'.receipts := by
  induction h with
  | refl => exact List.Subset.refl _
  | tail _ hs ih => exact List.Subset.trans ih hs.receipts_subset

theorem acked_le (h : Quiet fresh w w') (i j : A) :
    (w.ledger i).acked j ≤ (w'.ledger i).acked j := by
  induction h with
  | refl => exact le_rfl
  | tail _ hs ih => exact ih.trans (hs.acked_le i j)

end Quiet

theorem Exchange.quiet (h : Exchange fresh i j w w') : Quiet fresh w w' := by
  cases h with
  | idle u hu _ hw' => exact hu.trans hw'
  | passed u v x payload hu hv hperm hx hw' =>
    have hbuilt := hu.trans (Quiet.build u i j)
    have hmerged := hv.trans (Quiet.deliver (hv.sent_subset List.mem_cons_self) hperm)
    have hacked := hx.trans (Quiet.confirm (hx.receipts_subset List.mem_cons_self))
    exact ((hbuilt.trans hmerged).trans hacked).trans hw'

variable [LawfulDeltaValue V]

theorem Quiet.evolves (h : Quiet fresh w w') (a : A) : (w.ledger a).Evolves (w'.ledger a) := by
  induction h with
  | refl => exact .refl _
  | tail _ hs ih => exact ih.trans (hs.evolves a)

theorem Quiet.sound (h : Quiet fresh w w') (hw : Sound (.quiet fresh) w) :
    Sound (.quiet fresh) w' := by
  induction h with
  | refl => exact hw
  | tail _ hs ih => exact ih.step hs

section Exchanges

/-- The receiver ends up with whatever the sender held at the start. -/
theorem Exchange.holds (hfresh : ∀ a b, Le (fresh a) (fresh b)) (hw : Sound (.quiet fresh) w)
    (h : Exchange fresh i j w w') {k : K} {d : V} (hd : (w.ledger i).Holds k d) :
    (w'.ledger j).Holds k d := by
  cases h with
  | idle u hu hnone hw' =>
    have hsound := hu.sound hw
    have hbrings := hsound.brings (b := j) hfresh ((hu.evolves i).holds hd)
    -- the part that is not sent is empty, so the receiver holds all of it already
    have hmerged := Brings.mergeAll hsound hbrings (List.Perm.refl _)
    have hpart : (u.part i j).2 = ∅ := by simp [part, hnone]
    rw [hpart] at hmerged
    exact (hw'.evolves j).holds hmerged
  | passed u v x payload hu hv hperm hx hw' =>
    have hsound := hu.sound hw
    have hbrings := hsound.brings (b := j) hfresh ((hu.evolves i).holds hd)
    have hv' : Quiet fresh u v := (Quiet.build u i j).trans hv
    have hmerged := Brings.mergeAll (hv'.sound hsound) (hbrings.mono (hv'.evolves j)) hperm
    have hdone : Quiet fresh _ w' :=
      (hx.trans (Quiet.confirm (hx.receipts_subset List.mem_cons_self))).trans hw'
    apply (hdone.evolves j).holds
    unfold Network.deliver
    dsimp only
    rwa [put_ledger, if_pos rfl]

/-- The sender ends up with an acknowledgement of whatever it had logged at the start. -/
theorem Exchange.seq_le_acked (h : Exchange fresh i j w w') :
    (w.ledger i).seq ≤ (w'.ledger i).acked j := by
  cases h with
  | idle u hu hnone hw' =>
    have hacked : (u.ledger i).seq ≤ (u.ledger i).acked j := by
      rcases Ledger.delta_cases j (u.ledger i) with ⟨-, he⟩ | ⟨-, -, he⟩ | ⟨-, hle, -⟩
      · simp [he] at hnone
      · simp [he] at hnone
      · exact hle
    exact ((hu.evolves i).seq_le.trans hacked).trans (hw'.acked_le i j)
  | passed u v x payload hu hv hperm hx hw' =>
    have hv' : Quiet fresh u v := (Quiet.build u i j).trans hv
    have hx' : Quiet fresh u x := hv'.trans
      ((Quiet.deliver (hv.sent_subset List.mem_cons_self) hperm).trans hx)
    have hconfirm : max ((x.ledger i).acked j) (u.part i j).1 ≤
        ((x.confirm ⟨j, i, (u.part i j).1⟩).ledger i).acked j := by
      unfold Network.confirm
      rw [put_ledger, if_pos rfl, Ledger.ack_acked, if_pos rfl]
    have hacked : (u.ledger i).seq ≤ max ((x.ledger i).acked j) (u.part i j).1 := by
      rcases Ledger.delta_cases j (u.ledger i) with ⟨-, he⟩ | ⟨-, -, he⟩ | ⟨-, hle, -⟩
      · exact le_max_of_le_right (by simp [part, he])
      · exact le_max_of_le_right (by simp [part, he])
      · exact le_max_of_le_left (hle.trans (hx'.acked_le i j))
    exact ((hu.evolves i).seq_le.trans (hacked.trans hconfirm)).trans (hw'.acked_le i j)

end Exchanges

theorem Backed.step {R : Rules A K V Γ} (h : w.Backed) (hw : Sound R w) (hs : Step R w w') :
    w'.Backed := by
  have hold : ∀ env ∈ w.sent, ∀ k x, env.payload.lookup k = some x →
      (w'.ledger env.src).Holds k x :=
    fun env henv k x hx => (hs.evolves env.src).holds (h env henv k x hx)
  have hnew := fun a b k x hx => (hs.evolves a).holds ((hw.part_spec a b).2.2 k x hx)
  cases hs with
  | delta a b =>
    intro env henv k x hx
    rcases List.mem_cons.mp henv with rfl | henv
    · exact hnew a b k x hx
    · exact hold env henv k x hx
  | _ => exact hold

theorem Reachable.backed {R : Rules A K V Γ} {g : Γ} (h : Reachable R g w) : w.Backed :=
  h.invariant (by simp [Backed, Network.init]) fun _ _ hr hb hs =>
    hb.step (Reachable.sound hr) hs

theorem Quiet.backed (h : Quiet fresh w w') (hw : Sound (.quiet fresh) w) (hb : w.Backed) :
    w'.Backed := by
  induction h with
  | refl => exact hb
  | tail hq hs ih => exact ih.step (Quiet.sound hq hw) hs

section Bound

variable {l : Ledger A K V}

theorem Step.bounded (hfresh : ∀ a k u, l.state.lookup k = some u → Le (fresh a) u)
    (hb : w.Backed) (hs : Step (.quiet fresh) w w')
    (h : ∀ a k v, (w.ledger a).state.lookup k = some v → l.Holds k v) :
    ∀ a k v, (w'.ledger a).state.lookup k = some v → l.Holds k v := by
  cases hs with
  | write a k f g hw => exact hw.elim
  | note g hn => exact hn.elim
  | delta a b =>
    apply put_forall (P := fun _ l' => ∀ k v, l'.state.lookup k = some v → l.Holds k v) h
    rw [Ledger.delta_state]
    exact h a
  | merge env payload henv hperm =>
    apply put_forall (P := fun _ l' => ∀ k v, l'.state.lookup k = some v → l.Holds k v) h
    intro k v hv
    apply mergeAll_holds_of (hfresh env.dst) hv (h env.dst k)
    intro x hx
    rw [← FMap.mem_entries_iff, hperm.mem_iff, FMap.mem_entries_iff] at hx
    obtain ⟨u, hu, hle⟩ := hb env henv k x hx
    exact (h env.src k u hu).of_le hle
  | ack r _ =>
    exact put_forall (P := fun _ l' => ∀ k v, l'.state.lookup k = some v → l.Holds k v) h
      (h r.dst)

theorem Quiet.bounded (hfresh : ∀ a k u, l.state.lookup k = some u → Le (fresh a) u)
    (hw : Sound (.quiet fresh) w) (hb : w.Backed) (hq : Quiet fresh w w')
    (h : ∀ a k v, (w.ledger a).state.lookup k = some v → l.Holds k v) :
    ∀ a k v, (w'.ledger a).state.lookup k = some v → l.Holds k v := by
  induction hq with
  | refl => exact h
  | tail hq hs ih => exact hs.bounded hfresh (Quiet.backed hq hw hb) ih

end Bound

/-- After an exchange between every two nodes all values are level. -/
theorem level_of_exchanges (hfresh : ∀ a b, Le (fresh a) (fresh b))
    (hw : Sound (.quiet fresh) w₀) (hb : w₀.Backed)
    (h : ∀ i j, i ≠ j → Exchange fresh i j w₀ w₁) : w₁.Level := by
  intro a b k v hv
  by_cases hab : a = b
  · subst hab
    exact ⟨v, hv, LawfulDeltaValue.le_refl v⟩
  have hq := (h a b hab).quiet
  -- `b` has what every node had at the start, and nobody can rise above that
  have hstart : ∀ c k v, (w₀.ledger c).state.lookup k = some v → (w₁.ledger b).Holds k v := by
    intro c k v hv
    by_cases hcb : c = b
    · subst hcb
      exact (hq.evolves c).grows k v hv
    · exact (h c b hcb).holds hfresh hw ⟨v, hv, LawfulDeltaValue.le_refl v⟩
  have hmin : ∀ c k u, (w₁.ledger b).state.lookup k = some u → Le (fresh c) u := fun c k u hu =>
    LawfulDeltaValue.le_trans (hfresh c b) (((hq.sound hw).coherent b).fresh_le_state k u hu)
  exact hq.bounded hmin hw hb hstart a k v hv

/-- In a level network a quiet step neither changes a value nor logs anything. -/
theorem Level.step (h : w.Level) (hb : w.Backed) (hs : Step (.quiet fresh) w w') (a : A) :
    (w'.ledger a).state = (w.ledger a).state ∧ (w'.ledger a).seq = (w.ledger a).seq := by
  have hput : ∀ c l, l.state = (w.ledger c).state → l.seq = (w.ledger c).seq →
      ((w.put c l).ledger a).state = (w.ledger a).state ∧
        ((w.put c l).ledger a).seq = (w.ledger a).seq := by
    intro c l hstate hseq
    rw [put_ledger]
    split_ifs with ha
    · exact ha ▸ ⟨hstate, hseq⟩
    · exact ⟨rfl, rfl⟩
  cases hs with
  | write c k f g hw => exact hw.elim
  | note g hn => exact hn.elim
  | delta c b =>
    apply hput c _ (Ledger.delta_state b _)
    rcases Ledger.delta_cases b (w.ledger c) with ⟨-, he⟩ | ⟨-, -, he⟩ | ⟨-, -, he⟩ <;> rw [he]
  | merge env payload henv hperm =>
    have hsame : (w.ledger env.dst).mergeAll (fresh env.dst) payload = w.ledger env.dst := by
      apply Ledger.mergeAll_eq_self
      intro k x hx
      rw [← FMap.mem_entries_iff, hperm.mem_iff, FMap.mem_entries_iff] at hx
      obtain ⟨v, hv, hle⟩ := hb env henv k x hx
      exact (h env.src env.dst k v hv).of_le hle
    exact hput env.dst _ (congrArg Ledger.state hsame) (congrArg Ledger.seq hsame)
  | ack r _ => exact hput r.dst _ rfl rfl

/-- A level network stays as it is, however long it gossips. -/
theorem Level.quiet (h : w.Level) (hw : Sound (.quiet fresh) w) (hb : w.Backed)
    (hq : Quiet fresh w w') (a : A) :
    (w'.ledger a).state = (w.ledger a).state ∧ (w'.ledger a).seq = (w.ledger a).seq := by
  induction hq generalizing a with
  | refl => exact ⟨rfl, rfl⟩
  | @tail x y hx hs ih =>
    have hlevel : x.Level := by
      intro c d k v hv
      unfold Ledger.Holds
      rw [(ih d).1]
      exact h c d k v ((ih c).1 ▸ hv)
    have hstep := hlevel.step (Quiet.backed hx hw hb) hs a
    exact ⟨hstep.1.trans (ih a).1, hstep.2.trans (ih a).2⟩

/-- After two acknowledged exchanges between every two nodes, the second ones after the
first ones, everything is acknowledged. -/
theorem quiescent_of_exchanges (hfresh : ∀ a b, Le (fresh a) (fresh b))
    (hw : Sound (.quiet fresh) w₀) (hb : w₀.Backed)
    (h₁ : ∀ i j, i ≠ j → Exchange fresh i j w₀ w₁)
    (h₂ : ∀ i j, i ≠ j → Exchange fresh i j w₁ w₂) : w₂.Quiescent := by
  intro i j hij
  have hq₁ := (h₁ i j hij).quiet
  have hq₂ := (h₂ i j hij).quiet
  have hlevel := level_of_exchanges hfresh hw hb h₁
  have hseq := (hlevel.quiet (hq₁.sound hw) (hq₁.backed hw hb) hq₂ i).2
  apply le_antisymm ((hq₂.sound (hq₁.sound hw)).acked_le i j)
  rw [hseq]
  exact (h₂ i j hij).seq_le_acked

end Network
end Commute.Gossip
