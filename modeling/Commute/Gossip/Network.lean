import Commute.Gossip.Delta

/-!
# Ledgers that gossip over a lossy network

A network keeps every message part and every acknowledgement ever built, and a
step may deliver any of them: loss, delay, duplication and reordering are all
instances of that. A message is delivered only to the node it was built for,
and the acknowledgement of a delivery goes back to the sender of the message.

`Reachable.sound` is the invariant of all runs. Its central field says that
whatever a node has acknowledged, it holds.
-/
namespace Commute.Gossip

open DeltaValue

/-- A message part that `src` built for `dst`. -/
structure Envelope (A K V : Type) where
  src : A
  dst : A
  seq : ℕ
  payload : FMap K V

/-- The node `src` acknowledges to `dst` everything below `seq`. -/
structure Receipt (A : Type) where
  src : A
  dst : A
  seq : ℕ

/-- The ghost component records what a specification needs to remember of a run. -/
structure Network (A K V Γ : Type) where
  ledger : A → Ledger A K V
  sent : List (Envelope A K V)
  receipts : List (Receipt A)
  ghost : Γ

/-- Which local writes a run may make, and what the ghost component sees. -/
structure Rules (A K V Γ : Type) where
  fresh : A → V
  write : Network A K V Γ → A → K → (V → V) → Γ → Prop
  note : Network A K V Γ → Γ → Prop

variable {A K V Γ : Type}

namespace Network

def init (g : Γ) : Network A K V Γ := ⟨fun _ => Ledger.new, [], [], g⟩

def put [DecidableEq A] (w : Network A K V Γ) (a : A) (l : Ledger A K V) : Network A K V Γ :=
  { w with ledger := Function.update w.ledger a l }

theorem put_ledger [DecidableEq A] (w : Network A K V Γ) (a b : A) (l : Ledger A K V) :
    (w.put a l).ledger b = if b = a then l else w.ledger b :=
  Function.update_apply _ _ _ _

theorem put_self [DecidableEq A] (w : Network A K V Γ) (a : A) : w.put a (w.ledger a) = w := by
  unfold put
  rw [Function.update_eq_self]

theorem put_forall [DecidableEq A] {P : A → Ledger A K V → Prop} {w : Network A K V Γ} {a : A}
    {l : Ledger A K V} (h : ∀ b, P b (w.ledger b)) (hl : P a l) (b : A) :
    P b ((w.put a l).ledger b) := by
  rw [put_ledger]
  split_ifs with hb
  · exact hb ▸ hl
  · exact h b

/-- The node `j` holds every delta recorded at `i` below `n`. -/
def Covered [DecidableEq K] [DeltaValue V] (w : Network A K V Γ) (i j : A) (n : ℕ) : Prop :=
  ∀ m k d, (w.ledger i).history m k = some d → m < n → (w.ledger j).Holds k d

theorem Covered.mono [DecidableEq K] [DeltaValue V] [LawfulDeltaValue V]
    {w w' : Network A K V Γ} {i j : A} {n : ℕ} (h : w.Covered i j n)
    (hi : (w.ledger i).Evolves (w'.ledger i)) (hj : (w.ledger j).Evolves (w'.ledger j))
    (hn : n ≤ (w.ledger i).seq) : w'.Covered i j n := by
  intro m k d hd hm
  rw [hi.history_eq m k (hm.trans_le hn)] at hd
  exact hj.holds (h m k d hd hm)

variable [DecidableEq A] [DecidableEq K] [DeltaValue V]

/-- The message part `a` builds for `b`; an up-to-date peer gets an empty one. -/
def part (w : Network A K V Γ) (a b : A) : ℕ × FMap K V :=
  ((w.ledger a).delta b).1.getD (0, ∅)

inductive Step (R : Rules A K V Γ) (w : Network A K V Γ) : Network A K V Γ → Prop
  | write (a : A) (k : K) (f : V → V) (g : Γ) : R.write w a k f g →
      Step R w { w.put a ((w.ledger a).write (R.fresh a) k f) with ghost := g }
  | note (g : Γ) : R.note w g → Step R w { w with ghost := g }
  | delta (a b : A) : Step R w
      { w.put a ((w.ledger a).delta b).2 with
        sent := ⟨a, b, (w.part a b).1, (w.part a b).2⟩ :: w.sent }
  | merge (env : Envelope A K V) (payload : FMap K V) : env ∈ w.sent →
      payload.entries.Perm env.payload.entries → Step R w
      { w.put env.dst ((w.ledger env.dst).mergeAll (R.fresh env.dst) payload) with
        receipts := ⟨env.dst, env.src, env.seq⟩ :: w.receipts }
  | ack (r : Receipt A) : r ∈ w.receipts →
      Step R w (w.put r.dst ((w.ledger r.dst).ack r.src r.seq))

/-- The states of the runs that start with empty ledgers. -/
def Reachable (R : Rules A K V Γ) (g : Γ) : Network A K V Γ → Prop :=
  Relation.ReflTransGen (Step R) (init g)

/-- Invariant rule: what holds initially and is preserved by every step from a
reachable state holds in every reachable state. -/
theorem Reachable.invariant {R : Rules A K V Γ} {g : Γ} {I : Network A K V Γ → Prop}
    (hinit : I (init g)) (hstep : ∀ w w', Reachable R g w → I w → Step R w w' → I w')
    {w : Network A K V Γ} (h : Reachable R g w) : I w := by
  induction h with
  | refl => exact hinit
  | tail hr hs ih => exact hstep _ _ hr ih hs

/-- What merging keeps of its left argument stays as it is in a new value. -/
theorem Reachable.owned {R : Rules A K V Γ} {g : Γ} {w : Network A K V Γ} (h : Reachable R g w)
    {X : Type} (tag : V → X) (htag : ∀ a b, tag (merge a b) = tag a) (a : A) :
    (w.ledger a).Owned tag (R.fresh a) := by
  refine h.invariant (I := fun w => ∀ a, (w.ledger a).Owned tag (R.fresh a)) ?_ ?_ a
  · exact fun a k => rfl
  intro w w' _ ih hs
  cases hs with
  | write a k f g _ =>
    exact put_forall (P := fun a l => l.Owned tag (R.fresh a)) ih ((ih a).join htag k _)
  | note g _ => exact ih
  | delta a b =>
    refine put_forall (P := fun a l => l.Owned tag (R.fresh a)) ih ?_
    intro k
    unfold Ledger.valueOr
    rw [Ledger.delta_state]
    exact ih a k
  | merge env payload _ _ =>
    exact put_forall (P := fun a l => l.Owned tag (R.fresh a)) ih
      (Ledger.mergeAll_invariant (fun _ k v _ h => h.join htag k v) (ih env.dst))
  | ack r _ => exact put_forall (P := fun a l => l.Owned tag (R.fresh a)) ih (ih r.dst)

/-- The invariant of every run. A message part covers what its receiver has not
acknowledged, and a receipt or a recorded acknowledgement is only about deltas
that the acknowledging node holds. -/
structure Sound (R : Rules A K V Γ) (w : Network A K V Γ) : Prop where
  coherent : ∀ a, (w.ledger a).Coherent (R.fresh a)
  acked_le : ∀ i j, (w.ledger i).acked j ≤ (w.ledger i).seq
  acked : ∀ i j, w.Covered i j ((w.ledger i).acked j)
  sent_le : ∀ env ∈ w.sent, env.seq ≤ (w.ledger env.src).seq
  sent : ∀ env ∈ w.sent, ∀ m k d, (w.ledger env.src).history m k = some d → m < env.seq →
    (w.ledger env.dst).Holds k d ∨ ∃ x, env.payload.lookup k = some x ∧ Le d x
  receipts_le : ∀ r ∈ w.receipts, r.seq ≤ (w.ledger r.dst).seq
  receipts : ∀ r ∈ w.receipts, w.Covered r.dst r.src r.seq

theorem Sound.init (R : Rules A K V Γ) (g : Γ) : Sound R (Network.init g) where
  coherent := fun a => Ledger.Coherent.new (R.fresh a)
  acked_le := by simp [Network.init, Ledger.new, Ledger.acked]
  acked := by simp [Covered, Network.init, Ledger.new, Ledger.history]
  sent_le := by simp [Network.init]
  sent := by simp [Network.init]
  receipts_le := by simp [Network.init]
  receipts := by simp [Network.init]

variable [LawfulDeltaValue V]

theorem put_evolves {w : Network A K V Γ} {a : A} {l : Ledger A K V}
    (h : (w.ledger a).Evolves l) (b : A) : (w.ledger b).Evolves ((w.put a l).ledger b) := by
  rw [put_ledger]
  split_ifs with hb
  · exact hb ▸ h
  · exact .refl _

theorem Step.evolves {R : Rules A K V Γ} {w w' : Network A K V Γ} (h : Step R w w') (b : A) :
    (w.ledger b).Evolves (w'.ledger b) := by
  cases h with
  | write a k f g _ => exact put_evolves (Ledger.join_evolves _ _ _ _) b
  | note g _ => exact .refl _
  | delta a c => exact put_evolves (Ledger.delta_evolves _ _) b
  | merge env payload _ _ => exact put_evolves (Ledger.mergeAll_evolves _ _ _) b
  | ack r _ => exact put_evolves (Ledger.ack_evolves _ _ _) b

/-- A step that changes neither acknowledgements nor messages only has to keep
the ledgers coherent. -/
theorem Sound.of_evolves {R : Rules A K V Γ} {w w' : Network A K V Γ} (h : Sound R w)
    (he : ∀ b, (w.ledger b).Evolves (w'.ledger b))
    (hc : ∀ a, (w'.ledger a).Coherent (R.fresh a))
    (hacks : ∀ a, (w'.ledger a).acks = (w.ledger a).acks)
    (hsent : w'.sent = w.sent) (hreceipts : w'.receipts = w.receipts) : Sound R w' := by
  have hacked : ∀ i j, (w'.ledger i).acked j = (w.ledger i).acked j := by
    intro i j
    unfold Ledger.acked
    rw [hacks]
  refine ⟨hc, ?_, ?_, ?_, ?_, ?_, ?_⟩
  · intro i j
    rw [hacked]
    exact (h.acked_le i j).trans (he i).seq_le
  · intro i j
    rw [hacked]
    exact (h.acked i j).mono (he i) (he j) (h.acked_le i j)
  · intro env hm
    rw [hsent] at hm
    exact (h.sent_le env hm).trans (he env.src).seq_le
  · intro env hm m k d hd hlt
    rw [hsent] at hm
    rw [(he env.src).history_eq m k (hlt.trans_le (h.sent_le env hm))] at hd
    exact (h.sent env hm m k d hd hlt).imp_left (he env.dst).holds
  · intro r hm
    rw [hreceipts] at hm
    exact (h.receipts_le r hm).trans (he r.dst).seq_le
  · intro r hm
    rw [hreceipts] at hm
    exact (h.receipts r hm).mono (he r.dst) (he r.src) (h.receipts_le r hm)

theorem Sound.put {R : Rules A K V Γ} {w : Network A K V Γ} (h : Sound R w) {a : A}
    {l : Ledger A K V} (he : (w.ledger a).Evolves l) (hc : l.Coherent (R.fresh a))
    (hacks : l.acks = (w.ledger a).acks) : Sound R (w.put a l) := by
  refine h.of_evolves (put_evolves he) (put_forall h.coherent hc) ?_ rfl rfl
  intro b
  rw [put_ledger]
  split_ifs with hb
  · rw [hacks, hb]
  · rfl

/-- The message part for `b` covers every recorded delta that `b` does not hold
and is dominated by the sender's state. -/
theorem Sound.part_spec {R : Rules A K V Γ} {w : Network A K V Γ} (h : Sound R w) (a b : A) :
    (w.part a b).1 ≤ (w.ledger a).seq ∧
      (∀ m k d, (w.ledger a).history m k = some d → (w.ledger b).Holds k d ∨
        ∃ x, (w.part a b).2.lookup k = some x ∧ Le d x) ∧
      ∀ k x, (w.part a b).2.lookup k = some x → (w.ledger a).Holds k x := by
  have hc := h.coherent a
  cases hd : ((w.ledger a).delta b).1 with
  | none =>
    have hpart : w.part a b = (0, ∅) := by simp [part, hd]
    have hacked : (w.ledger a).seq ≤ (w.ledger a).acked b := by
      rcases Ledger.delta_cases b (w.ledger a) with ⟨-, he⟩ | ⟨-, -, he⟩ | ⟨-, hle, -⟩
      · simp [he] at hd
      · simp [he] at hd
      · exact hle
    refine ⟨by simp [hpart], ?_, by simp [hpart]⟩
    intro m k d hh
    exact Or.inl (h.acked a b m k d hh ((hc.history_lt hh).2.trans_le hacked))
  | some p =>
    obtain ⟨n, payload⟩ := p
    have hpart : w.part a b = (n, payload) := by simp [part, hd]
    obtain ⟨rfl, hcover, hstate⟩ := Ledger.delta_spec hc hd
    rw [hpart]
    refine ⟨le_rfl, ?_, hstate⟩
    intro m k d hh
    exact (hcover m k d hh).imp_left fun hlt => h.acked a b m k d hh hlt

theorem Sound.delta {R : Rules A K V Γ} {w : Network A K V Γ} (h : Sound R w) (a b : A) :
    Sound R { w.put a ((w.ledger a).delta b).2 with
      sent := ⟨a, b, (w.part a b).1, (w.part a b).2⟩ :: w.sent } := by
  obtain ⟨hseq, hcover, -⟩ := h.part_spec a b
  have he := put_evolves (Ledger.delta_evolves b (w.ledger a))
  have hp := h.put (Ledger.delta_evolves b (w.ledger a)) ((h.coherent a).delta b)
    (Ledger.delta_acks b (w.ledger a))
  refine { hp with sent_le := ?_, sent := ?_ }
  · intro env hm
    rcases List.mem_cons.mp hm with rfl | hm
    · exact hseq.trans (he a).seq_le
    · exact hp.sent_le env hm
  · intro env hm m k d hh hlt
    rcases List.mem_cons.mp hm with rfl | hm
    · rw [(he a).history_eq m k (hlt.trans_le hseq)] at hh
      exact (hcover m k d hh).imp_left (he b).holds
    · exact hp.sent env hm m k d hh hlt

/-- Delivering a message: the receiver then holds everything below its number. -/
theorem Sound.merge {R : Rules A K V Γ} {w : Network A K V Γ} (h : Sound R w)
    {env : Envelope A K V} {payload : FMap K V} (hm : env ∈ w.sent)
    (hperm : payload.entries.Perm env.payload.entries) :
    Sound R { w.put env.dst ((w.ledger env.dst).mergeAll (R.fresh env.dst) payload) with
      receipts := ⟨env.dst, env.src, env.seq⟩ :: w.receipts } := by
  have hp := h.put (Ledger.mergeAll_evolves (R.fresh env.dst) payload (w.ledger env.dst))
    ((h.coherent env.dst).mergeAll payload) (Ledger.mergeAll_acks _ _ _)
  refine { hp with receipts_le := ?_, receipts := ?_ }
  · intro r hr
    rcases List.mem_cons.mp hr with rfl | hr
    · exact hp.sent_le env hm
    · exact hp.receipts_le r hr
  · intro r hr
    rcases List.mem_cons.mp hr with rfl | hr
    · intro m k d hd hlt
      rcases hp.sent env hm m k d hd hlt with hheld | ⟨x, hx, hle⟩
      · exact hheld
      · have hx' : payload.lookup k = some x := by
          rw [← FMap.mem_entries_iff, hperm.mem_iff, FMap.mem_entries_iff]
          exact hx
        dsimp only
        rw [put_ledger, if_pos rfl]
        exact (Ledger.mergeAll_holds (R.fresh env.dst) payload _ hx').of_le hle
    · exact hp.receipts r hr

theorem Sound.ack {R : Rules A K V Γ} {w : Network A K V Γ} (h : Sound R w) {r : Receipt A}
    (hr : r ∈ w.receipts) : Sound R (w.put r.dst ((w.ledger r.dst).ack r.src r.seq)) := by
  have he := put_evolves (Ledger.ack_evolves r.src r.seq (w.ledger r.dst))
  have hacked : ∀ i j, ((w.put r.dst ((w.ledger r.dst).ack r.src r.seq)).ledger i).acked j =
      if i = r.dst ∧ j = r.src then max ((w.ledger i).acked j) r.seq
      else (w.ledger i).acked j := by
    intro i j
    rw [put_ledger]
    by_cases hi : i = r.dst
    · subst hi
      rw [if_pos rfl, Ledger.ack_acked]
      by_cases hj : j = r.src <;> simp [hj]
    · simp [hi]
  refine ⟨put_forall h.coherent ((h.coherent r.dst).ack _ _), ?_, ?_, ?_, ?_, ?_, ?_⟩
  · intro i j
    rw [hacked]
    refine le_trans ?_ (he i).seq_le
    split_ifs with hij
    · exact max_le (h.acked_le i j) (hij.1 ▸ h.receipts_le r hr)
    · exact h.acked_le i j
  · intro i j
    rw [hacked]
    split_ifs with hij
    · obtain ⟨rfl, rfl⟩ := hij
      rcases max_choice ((w.ledger r.dst).acked r.src) r.seq with hmax | hmax <;> rw [hmax]
      · exact (h.acked _ _).mono (he _) (he _) (h.acked_le _ _)
      · exact (h.receipts r hr).mono (he _) (he _) (h.receipts_le r hr)
    · exact (h.acked i j).mono (he i) (he j) (h.acked_le i j)
  · exact fun env hm => (h.sent_le env hm).trans (he env.src).seq_le
  · intro env hm m k d hd hlt
    rw [(he env.src).history_eq m k (hlt.trans_le (h.sent_le env hm))] at hd
    exact (h.sent env hm m k d hd hlt).imp_left (he env.dst).holds
  · exact fun r' hm => (h.receipts_le r' hm).trans (he r'.dst).seq_le
  · exact fun r' hm => (h.receipts r' hm).mono (he r'.dst) (he r'.src) (h.receipts_le r' hm)

theorem Sound.step {R : Rules A K V Γ} {w w' : Network A K V Γ} (h : Sound R w)
    (hs : Step R w w') : Sound R w' := by
  cases hs with
  | write a k f g _ =>
    have hp := h.put (Ledger.join_evolves (R.fresh a) k (f ((w.ledger a).valueOr (R.fresh a) k))
      (w.ledger a)) ((h.coherent a).join k _) rfl
    exact { hp with }
  | note g _ => exact { h with }
  | delta a b => exact h.delta a b
  | merge env payload hm hperm => exact h.merge hm hperm
  | ack r hr => exact h.ack hr

theorem Reachable.sound {R : Rules A K V Γ} {g : Γ} {w : Network A K V Γ}
    (h : Reachable R g w) : Sound R w :=
  h.invariant (Sound.init R g) fun _ _ _ hi hs => hi.step hs

theorem Reachable.valueOr_le {R : Rules A K V Γ} {g : Γ} {w w' : Network A K V Γ}
    (h : Reachable R g w) (hs : Step R w w') (a : A) (k : K) :
    Le ((w.ledger a).valueOr (R.fresh a) k) ((w'.ledger a).valueOr (R.fresh a) k) :=
  (hs.evolves a).valueOr_le ((Reachable.sound (h.tail hs)).coherent a) k

end Network
end Commute.Gossip
