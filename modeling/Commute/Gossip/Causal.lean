import Commute.Gossip.Convergence

/-!
# What the nodes of a gossiping network have heard of

Every local write is an event. A node has heard of its own events and of those that the
sender of a message had heard of when it built the part that the node merged. The sets
of events heard of are history variables that no node reads.

`Heard` says that a node holds the delta of every event it has heard of, although
messages leave out what their receiver acknowledged and merges skip what is dominated.
`Known` is the rule for the other direction: what a node holds comes from the events it
has heard of. `known` picks the events heard of from a history that numbers them.
-/
namespace Commute.Gossip

open DeltaValue

/-- Rules whose writes are events. The ghost component names the events so far, and a
write makes a new one. -/
structure CausalRules (A K V Γ E : Type) extends Rules A K V Γ where
  names : Γ → E → Prop
  event : Network A K V Γ → A → K → (V → V) → Γ → E → Prop
  event_write : ∀ {net a k f g e}, event net a k f g e → write net a k f g
  event_fresh : ∀ {net a k f g e}, event net a k f g e → ¬ names net.ghost e
  event_names : ∀ {net a k f g e}, event net a k f g e →
    names g e ∧ ∀ e', names net.ghost e' → names g e'
  note_names : ∀ {net g}, note net g → ∀ e, names net.ghost e → names g e

/-- The deltas of all events, what every node has heard of, and with every message part
what its sender had heard of. -/
structure CausalNetwork (A K V Γ E : Type) where
  net : Network A K V Γ
  log : List (E × K × V)
  past : A → Finset E
  carried : List (Envelope A K V × Finset E)

namespace CausalNetwork

variable {A K V Γ E : Type}

def init (g : Γ) : CausalNetwork A K V Γ E := ⟨.init g, [], fun _ => ∅, []⟩

variable [DecidableEq A] [DecidableEq K] [DecidableEq E] [DeltaValue V]

inductive Step (R : CausalRules A K V Γ E) (c : CausalNetwork A K V Γ E) :
    CausalNetwork A K V Γ E → Prop
  | write (a : A) (k : K) (f : V → V) (g : Γ) (e : E) : R.event c.net a k f g e → Step R c
      { c with
        net := { c.net.put a ((c.net.ledger a).write (R.fresh a) k f) with ghost := g }
        log := (e, k, f ((c.net.ledger a).valueOr (R.fresh a) k)) :: c.log
        past := Function.update c.past a (insert e (c.past a)) }
  | note (g : Γ) : R.note c.net g → Step R c { c with net := { c.net with ghost := g } }
  | delta (a b : A) : Step R c
      { c with
        net := { c.net.put a ((c.net.ledger a).delta b).2 with
          sent := ⟨a, b, (c.net.part a b).1, (c.net.part a b).2⟩ :: c.net.sent }
        carried := (⟨a, b, (c.net.part a b).1, (c.net.part a b).2⟩, c.past a) :: c.carried }
  | merge (env : Envelope A K V) (s : Finset E) (payload : FMap K V) : (env, s) ∈ c.carried →
      payload.entries.Perm env.payload.entries → Step R c
      { c with
        net := { c.net.put env.dst
            ((c.net.ledger env.dst).mergeAll (R.fresh env.dst) payload) with
          receipts := ⟨env.dst, env.src, env.seq⟩ :: c.net.receipts }
        past := Function.update c.past env.dst (c.past env.dst ∪ s) }
  | ack (r : Receipt A) : r ∈ c.net.receipts →
      Step R c { c with net := c.net.put r.dst ((c.net.ledger r.dst).ack r.src r.seq) }

def Reachable (R : CausalRules A K V Γ E) (g : Γ) : CausalNetwork A K V Γ E → Prop :=
  Relation.ReflTransGen (Step R) (init g)

variable {R : CausalRules A K V Γ E} {g : Γ} {c c' : CausalNetwork A K V Γ E}

/-- Invariant rule: what holds initially and is preserved by every step from a
reachable state holds in every reachable state. -/
theorem Reachable.invariant {I : CausalNetwork A K V Γ E → Prop} (h : Reachable R g c)
    (hinit : I (init g)) (hstep : ∀ c c', Reachable R g c → I c → Step R c c' → I c') : I c := by
  induction h with
  | refl => exact hinit
  | tail hr hs ih => exact hstep _ _ hr ih hs

/-- Forgetting what was heard of leaves a run of the network, whose messages are those
that carry a past. -/
theorem Reachable.network (h : Reachable R g c) :
    Network.Reachable R.toRules g c.net ∧ c.carried.map Prod.fst = c.net.sent := by
  induction h with
  | refl => exact ⟨.refl, rfl⟩
  | tail _ hs ih =>
    obtain ⟨hr, hsent⟩ := ih
    cases hs with
    | write a k f g e he => exact ⟨hr.tail (.write a k f g (R.event_write he)), hsent⟩
    | note g hn => exact ⟨hr.tail (.note g hn), hsent⟩
    | delta a b => exact ⟨hr.tail (.delta a b), by simp [hsent]⟩
    | merge env s payload hm hperm =>
      have hmem := List.mem_map_of_mem (f := Prod.fst) hm
      rw [hsent] at hmem
      exact ⟨hr.tail (.merge env payload hmem hperm), hsent⟩
    | ack r hr' => exact ⟨hr.tail (.ack r hr'), hsent⟩

/-- Every event that was heard of is in the log, whose events the ghost component names. -/
structure Named (R : CausalRules A K V Γ E) (c : CausalNetwork A K V Γ E) : Prop where
  log : ∀ x ∈ c.log, R.names c.net.ghost x.1
  past : ∀ a, ∀ e ∈ c.past a, R.names c.net.ghost e
  carried : ∀ p ∈ c.carried, ∀ e ∈ p.2, R.names c.net.ghost e

theorem Named.step (h : Named R c) (hs : Step R c c') : Named R c' := by
  cases hs with
  | write a k f g e he =>
    obtain ⟨hnew, hold⟩ := R.event_names he
    refine ⟨?_, ?_, fun p hp e' he' => hold e' (h.carried p hp e' he')⟩
    · exact List.forall_mem_cons.mpr ⟨hnew, fun x hx => hold _ (h.log x hx)⟩
    · intro b e' he'
      dsimp only at he'
      rw [Function.update_apply] at he'
      split_ifs at he'
      · rcases Finset.mem_insert.mp he' with rfl | he'
        · exact hnew
        · exact hold e' (h.past a e' he')
      · exact hold e' (h.past b e' he')
  | note g hn =>
    have hold := R.note_names hn
    exact ⟨fun x hx => hold _ (h.log x hx), fun a e he => hold e (h.past a e he),
      fun p hp e he => hold e (h.carried p hp e he)⟩
  | delta a b =>
    exact ⟨h.log, h.past, List.forall_mem_cons.mpr ⟨h.past a, h.carried⟩⟩
  | merge env s payload hm _ =>
    refine ⟨h.log, fun b e he => ?_, h.carried⟩
    dsimp only at he
    rw [Function.update_apply] at he
    split_ifs at he
    · rcases Finset.mem_union.mp he with he | he
      · exact h.past env.dst e he
      · exact h.carried (env, s) hm e he
    · exact h.past b e he
  | ack r _ => exact ⟨h.log, h.past, h.carried⟩

theorem Reachable.named (h : Reachable R g c) : Named R c :=
  h.invariant ⟨by simp [init], by simp [init], by simp [init]⟩ fun _ _ _ hi hs => hi.step hs

end CausalNetwork

namespace Network

variable {A K V Γ : Type} [DecidableEq K] [DeltaValue V]

/-- Merging the message part brings its receiver to hold `d`: whatever is above the
receiver's value and the part's value of the key is above `d`. -/
structure Brings (w : Network A K V Γ) (fresh : A → V) (env : Envelope A K V) (k : K)
    (d : V) : Prop where
  exists_value : (∃ v, (w.ledger env.dst).state.lookup k = some v) ∨
    ∃ x, env.payload.lookup k = some x
  le : ∀ u, Le (fresh env.dst) u → (∀ v, (w.ledger env.dst).state.lookup k = some v → Le v u) →
    (∀ x, env.payload.lookup k = some x → Le x u) → Le d u

variable [LawfulDeltaValue V]

theorem Brings.mono {w w' : Network A K V Γ} {fresh : A → V} {env : Envelope A K V} {k : K}
    {d : V} (h : w.Brings fresh env k d)
    (he : (w.ledger env.dst).Evolves (w'.ledger env.dst)) : w'.Brings fresh env k d where
  exists_value := h.exists_value.imp_left fun ⟨v, hv⟩ =>
    let ⟨v', hv', _⟩ := he.grows k v hv
    ⟨v', hv'⟩
  le u hu hv hx := by
    refine h.le u hu (fun v hlookup => ?_) hx
    obtain ⟨v', hv', hle⟩ := he.grows k v hlookup
    exact LawfulDeltaValue.le_trans hle (hv v' hv')

variable [DecidableEq A]

/-- The part that `a` builds for `b` brings everything that `a` holds. -/
theorem Sound.brings {R : Rules A K V Γ} {w : Network A K V Γ} (h : Sound R w)
    (hfresh : ∀ i j, Le (R.fresh i) (R.fresh j)) {a b : A} {k : K} {d : V}
    (hd : (w.ledger a).Holds k d) :
    w.Brings R.fresh ⟨a, b, (w.part a b).1, (w.part a b).2⟩ k d := by
  obtain ⟨v, hv, hle⟩ := hd
  obtain ⟨-, hcover, -⟩ := h.part_spec a b
  refine ⟨?_, fun u hu hstate hpayload => ?_⟩
  · obtain ⟨n, e, he⟩ := (h.coherent a).state_has_history k v hv
    exact (hcover n k e he).imp (fun ⟨u, hu, _⟩ => ⟨u, hu⟩) fun ⟨x, hx, _⟩ => ⟨x, hx⟩
  · refine LawfulDeltaValue.le_trans hle ((h.coherent a).state_le k v hv u ?_ ?_)
    · exact LawfulDeltaValue.le_trans (hfresh a b) hu
    · intro n e he
      rcases hcover n k e he with ⟨x, hx, hex⟩ | ⟨x, hx, hex⟩
      · exact LawfulDeltaValue.le_trans hex (hstate x hx)
      · exact LawfulDeltaValue.le_trans hex (hpayload x hx)

theorem Brings.mergeAll {R : Rules A K V Γ} {w : Network A K V Γ} (h : Sound R w)
    {env : Envelope A K V} {k : K} {d : V} (hb : w.Brings R.fresh env k d) {payload : FMap K V}
    (hperm : payload.entries.Perm env.payload.entries) :
    ((w.ledger env.dst).mergeAll (R.fresh env.dst) payload).Holds k d := by
  have hevolves := Ledger.mergeAll_evolves (R.fresh env.dst) payload (w.ledger env.dst)
  have hc := (h.coherent env.dst).mergeAll payload
  have hheld : ∀ x, env.payload.lookup k = some x →
      ((w.ledger env.dst).mergeAll (R.fresh env.dst) payload).Holds k x := by
    intro x hx
    rw [← FMap.mem_entries_iff, ← hperm.mem_iff, FMap.mem_entries_iff] at hx
    exact Ledger.mergeAll_holds _ _ _ hx
  obtain ⟨u, hu⟩ : ∃ u, ((w.ledger env.dst).mergeAll (R.fresh env.dst) payload).state.lookup k =
      some u := by
    rcases hb.exists_value with ⟨v, hv⟩ | ⟨x, hx⟩
    · obtain ⟨u, hu, -⟩ := hevolves.grows k v hv
      exact ⟨u, hu⟩
    · obtain ⟨u, hu, -⟩ := hheld x hx
      exact ⟨u, hu⟩
  refine ⟨u, hu, hb.le u (hc.fresh_le_state k u hu) ?_ ?_⟩
  · exact fun v hv => (hevolves.grows k v hv).le_of_lookup hu
  · exact fun x hx => (hheld x hx).le_of_lookup hu

end Network

namespace CausalNetwork

variable {A K V Γ E : Type} [DecidableEq A] [DecidableEq K] [DecidableEq E] [DeltaValue V]
  {R : CausalRules A K V Γ E} {g : Γ} {c c' : CausalNetwork A K V Γ E}

/-- A node holds the delta of every event it has heard of, and a message part brings the
deltas of the events its sender had heard of. -/
structure Heard (R : CausalRules A K V Γ E) (c : CausalNetwork A K V Γ E) : Prop where
  past : ∀ a, ∀ x ∈ c.log, x.1 ∈ c.past a → (c.net.ledger a).Holds x.2.1 x.2.2
  carried : ∀ p ∈ c.carried, ∀ x ∈ c.log, x.1 ∈ p.2 → c.net.Brings R.fresh p.1 x.2.1 x.2.2

variable [LawfulDeltaValue V]

theorem Step.evolves (hs : Step R c c') (a : A) :
    (c.net.ledger a).Evolves (c'.net.ledger a) := by
  cases hs with
  | write b k f g e _ => exact Network.put_evolves (Ledger.join_evolves _ _ _ _) a
  | note g _ => exact .refl _
  | delta b b' => exact Network.put_evolves (Ledger.delta_evolves _ _) a
  | merge env s payload _ _ => exact Network.put_evolves (Ledger.mergeAll_evolves _ _ _) a
  | ack r _ => exact Network.put_evolves (Ledger.ack_evolves _ _ _) a

theorem Heard.step (h : Heard R c) (hfresh : ∀ i j, Le (R.fresh i) (R.fresh j))
    (hsound : Network.Sound R.toRules c.net) (hnamed : Named R c) (hs : Step R c c') :
    Heard R c' := by
  have he := hs.evolves
  have hpast : ∀ a, ∀ x ∈ c.log, x.1 ∈ c.past a → (c'.net.ledger a).Holds x.2.1 x.2.2 :=
    fun a x hx hmem => (he a).holds (h.past a x hx hmem)
  have hcarried : ∀ p ∈ c.carried, ∀ x ∈ c.log, x.1 ∈ p.2 →
      c'.net.Brings R.fresh p.1 x.2.1 x.2.2 :=
    fun p hp x hx hmem => (h.carried p hp x hx hmem).mono (he p.1.dst)
  cases hs with
  | write a k f g e hevent =>
    have hnew := R.event_fresh hevent
    refine ⟨fun b x hx hmem => ?_, fun p hp x hx hmem => ?_⟩
    · dsimp only at hmem
      rw [Function.update_apply] at hmem
      rcases List.mem_cons.mp hx with rfl | hold
      · split_ifs at hmem with hb
        · subst hb
          dsimp only
          rw [Network.put_ledger, if_pos rfl]
          exact Ledger.join_holds _ _ _ _
        · exact absurd (hnamed.past b e hmem) hnew
      · split_ifs at hmem with hb
        · subst hb
          rcases Finset.mem_insert.mp hmem with heq | hmem
          · exact absurd (heq ▸ hnamed.log x hold) hnew
          · exact hpast b x hold hmem
        · exact hpast b x hold hmem
    · rcases List.mem_cons.mp hx with rfl | hx
      · exact absurd (hnamed.carried p hp e hmem) hnew
      · exact hcarried p hp x hx hmem
  | note g _ => exact ⟨hpast, hcarried⟩
  | delta a b =>
    refine ⟨hpast, fun p hp x hx hmem => ?_⟩
    rcases List.mem_cons.mp hp with rfl | hp
    · exact (hsound.brings hfresh (h.past a x hx hmem)).mono (he b)
    · exact hcarried p hp x hx hmem
  | merge env s payload hm hperm =>
    refine ⟨fun b x hx hmem => ?_, hcarried⟩
    dsimp only at hmem
    rw [Function.update_apply] at hmem
    split_ifs at hmem with hb
    · subst hb
      rcases Finset.mem_union.mp hmem with hmem | hmem
      · exact hpast env.dst x hx hmem
      · dsimp only
        rw [Network.put_ledger, if_pos rfl]
        exact (h.carried (env, s) hm x hx hmem).mergeAll hsound hperm
    · exact hpast b x hx hmem
  | ack r _ => exact ⟨hpast, hcarried⟩

theorem Reachable.heard (h : Reachable R g c) (hfresh : ∀ i j, Le (R.fresh i) (R.fresh j)) :
    Heard R c :=
  h.invariant ⟨by simp [init], by simp [init]⟩ fun _ _ hr hi hs =>
    hi.step hfresh hr.network.1.sound hr.named hs

/-- A node has a key only if it has heard of a write of the key, and a message part only
if its sender had. -/
structure Keyed (c : CausalNetwork A K V Γ E) : Prop where
  ledger : ∀ a k v, (c.net.ledger a).state.lookup k = some v →
    ∃ x ∈ c.log, x.1 ∈ c.past a ∧ x.2.1 = k
  carried : ∀ p ∈ c.carried, ∀ k v, p.1.payload.lookup k = some v →
    ∃ x ∈ c.log, x.1 ∈ p.2 ∧ x.2.1 = k

theorem Keyed.step (h : Keyed c) (hsound : Network.Sound R.toRules c.net)
    (hs : Step R c c') : Keyed c' := by
  cases hs with
  | write a k f g e _ =>
    have hold : ∀ (s : Finset E) k', (∃ x ∈ c.log, x.1 ∈ s ∧ x.2.1 = k') →
        ∃ x ∈ (e, k, f ((c.net.ledger a).valueOr (R.fresh a) k)) :: c.log,
          x.1 ∈ s ∧ x.2.1 = k' := by
      rintro s k' ⟨x, hx, hx'⟩
      exact ⟨x, List.mem_cons_of_mem _ hx, hx'⟩
    refine ⟨fun b k' v hv => ?_, fun p hp k' v hv => hold _ _ (h.carried p hp k' v hv)⟩
    dsimp only at hv ⊢
    rw [Network.put_ledger] at hv
    rw [Function.update_apply]
    split_ifs at hv ⊢ with hb
    · rw [Ledger.write, Ledger.join_state_lookup] at hv
      split_ifs at hv with hk
      · exact ⟨_, List.mem_cons_self, Finset.mem_insert_self _ _, hk.symm⟩
      · obtain ⟨x, hx, hmem, hkey⟩ := h.ledger a k' v hv
        exact hold _ _ ⟨x, hx, Finset.mem_insert_of_mem hmem, hkey⟩
    · exact hold _ _ (h.ledger b k' v hv)
  | note g _ => exact ⟨h.ledger, h.carried⟩
  | delta a b =>
    refine ⟨fun b' k v hv => ?_, List.forall_mem_cons.mpr ⟨fun k v hv => ?_, h.carried⟩⟩
    · dsimp only at hv
      rw [Network.put_ledger] at hv
      split_ifs at hv with hb
      · rw [Ledger.delta_state] at hv
        exact hb ▸ h.ledger a k v hv
      · exact h.ledger b' k v hv
    · obtain ⟨u, hu, -⟩ := (hsound.part_spec a b).2.2 k v hv
      exact h.ledger a k u hu
  | merge env s payload hm hperm =>
    refine ⟨fun b k v hv => ?_, h.carried⟩
    dsimp only at hv ⊢
    rw [Network.put_ledger] at hv
    rw [Function.update_apply]
    split_ifs at hv ⊢ with hb
    · cases hx : payload.lookup k with
      | none =>
        rw [Ledger.mergeAll_state_lookup, hx] at hv
        obtain ⟨x, hx, hmem, hkey⟩ := h.ledger env.dst k v hv
        exact ⟨x, hx, Finset.mem_union_left _ hmem, hkey⟩
      | some u =>
        rw [← FMap.mem_entries_iff, hperm.mem_iff, FMap.mem_entries_iff] at hx
        obtain ⟨x, hx, hmem, hkey⟩ := h.carried (env, s) hm k u hx
        exact ⟨x, hx, Finset.mem_union_right _ hmem, hkey⟩
    · exact h.ledger b k v hv
  | ack r _ =>
    refine ⟨fun b k v hv => ?_, h.carried⟩
    dsimp only at hv
    rw [Network.put_ledger] at hv
    split_ifs at hv with hb
    · exact hb ▸ h.ledger r.dst k v hv
    · exact h.ledger b k v hv

theorem Reachable.keyed (h : Reachable R g c) : Keyed c :=
  h.invariant ⟨by simp [init, Network.init, Ledger.new], by simp [init]⟩
    fun _ _ hr hi hs => hi.step hr.network.1.sound hs

theorem Reachable.exists_value_iff (h : Reachable R g c)
    (hfresh : ∀ i j, Le (R.fresh i) (R.fresh j)) (a : A) (k : K) :
    (∃ v, (c.net.ledger a).state.lookup k = some v) ↔
      ∃ x ∈ c.log, x.1 ∈ c.past a ∧ x.2.1 = k := by
  constructor
  · rintro ⟨v, hv⟩
    exact h.keyed.ledger a k v hv
  · rintro ⟨x, hx, hmem, rfl⟩
    obtain ⟨v, hv, -⟩ := (h.heard hfresh).past a x hx hmem
    exact ⟨v, hv⟩

/-- Every value at a node has the property `P` of the events the node has heard of, and
every value in a message part has it of what its sender had heard of. -/
structure Known (P : Γ → Finset E → K → V → Prop) (c : CausalNetwork A K V Γ E) : Prop where
  ledger : ∀ a, (c.net.ledger a).All (P c.net.ghost (c.past a))
  carried : ∀ p ∈ c.carried, ∀ k x, p.1.payload.lookup k = some x → P c.net.ghost p.2 k x

omit [DecidableEq A] [DecidableEq E] [DeltaValue V] [LawfulDeltaValue V] in
theorem Known.init (P : Γ → Finset E → K → V → Prop) (g : Γ) :
    Known P (init g : CausalNetwork A K V Γ E) :=
  ⟨fun _ => Ledger.All.new _, by simp [CausalNetwork.init]⟩

/-- One step keeps a property that more events and a longer history only make easier, if
the deltas of local writes have it. -/
theorem Known.step {P : Γ → Finset E → K → V → Prop} (hP : ∀ g s, Closed (P g s))
    (hfresh : ∀ g s a k, P g s k (R.fresh a))
    (hsubset : ∀ g s s' k v, s ⊆ s' → P g s k v → P g s' k v) (h : Known P c)
    (hmono : ∀ s k v, P c.net.ghost s k v → P c'.net.ghost s k v)
    (hevent : ∀ a k f g e, R.event c.net a k f g e →
      P g (insert e (c.past a)) k (f ((c.net.ledger a).valueOr (R.fresh a) k)))
    (hs : Step R c c') : Known P c' := by
  -- the ledger of one node changes, and its past grows
  have hput : ∀ (a : A) (s : Finset E) (l : Ledger A K V) (g : Γ), c.past a ⊆ s →
      (∀ s k v, P c.net.ghost s k v → P g s k v) → l.All (P g s) →
      ∀ b, ((c.net.put a l).ledger b).All (P g (Function.update c.past a s b)) := by
    intro a s l g hs hg hl b
    rw [Network.put_ledger, Function.update_apply]
    split_ifs with hb
    · exact hl
    · exact (h.ledger b).imp (hg _)
  have hself : ∀ a, Function.update c.past a (c.past a) = c.past :=
    fun a => Function.update_eq_self a c.past
  cases hs with
  | write a k f g e he =>
    refine ⟨hput a _ _ g (Finset.subset_insert _ _) hmono ?_, fun p hp k x hx =>
      hmono _ k x (h.carried p hp k x hx)⟩
    have hl : (c.net.ledger a).All (P g (insert e (c.past a))) :=
      (h.ledger a).imp fun k v hv => hsubset _ _ _ k v (Finset.subset_insert _ _) (hmono _ k v hv)
    exact hl.join (hP _ _) (hfresh _ _ a k) (hevent a k f g e he)
  | note g _ =>
    exact ⟨fun a => (h.ledger a).imp (hmono _), fun p hp k x hx =>
      hmono _ k x (h.carried p hp k x hx)⟩
  | delta a b =>
    refine ⟨fun b' => ?_, fun p hp k x hx => ?_⟩
    · have := hput a _ _ c.net.ghost subset_rfl hmono ((h.ledger a).delta (hP _ _) b) b'
      rwa [hself] at this
    · rcases List.mem_cons.mp hp with rfl | hp
      · dsimp only [Network.part] at hx
        cases hd : ((c.net.ledger a).delta b).1 with
        | none => simp [hd] at hx
        | some q => exact (h.ledger a).payload (hP _ _) hd (by simpa [hd] using hx)
      · exact h.carried p hp k x hx
  | merge env s payload hm hperm =>
    refine ⟨hput env.dst _ _ c.net.ghost Finset.subset_union_left hmono ?_, h.carried⟩
    have hl : (c.net.ledger env.dst).All (P c.net.ghost (c.past env.dst ∪ s)) :=
      (h.ledger env.dst).imp fun k v => hsubset _ _ _ k v Finset.subset_union_left
    refine hl.mergeAll (hP _ _) (hfresh _ _ env.dst) payload fun k v hv => ?_
    rw [← FMap.mem_entries_iff, hperm.mem_iff, FMap.mem_entries_iff] at hv
    exact hsubset _ _ _ k v Finset.subset_union_right (h.carried (env, s) hm k v hv)
  | ack r _ =>
    have hl := h.ledger r.dst
    refine ⟨fun b => ?_, h.carried⟩
    have := hput r.dst _ ((c.net.ledger r.dst).ack r.src r.seq) c.net.ghost subset_rfl hmono
      { hl with } b
    rwa [hself] at this

end CausalNetwork

/-- The entries of a history, the latest first, whose numbers are in `s`. The entries are
numbered in the order in which they were made, from zero on. -/
def known {α : Type} (s : Finset ℕ) : List α → List α
  | [] => []
  | x :: xs => if xs.length ∈ s then x :: known s xs else known s xs

/-- A log whose entries have the numbers of the entries of a history and stand in the
relation `rel` to them and to the history before them. -/
def Numbered {α β : Type} (rel : β → α → List α → Prop) : List (ℕ × β) → List α → Prop
  | [], [] => True
  | y :: log, x :: xs => y.1 = xs.length ∧ rel y.2 x xs ∧ Numbered rel log xs
  | _, _ => False

/-- `s` has exactly the numbers of the entries with a property. -/
def Marks {α : Type} (p : α → Prop) (s : Finset ℕ) (xs : List α) : Prop :=
  ∀ n, n ∈ s ↔ ∃ x, xs.reverse[n]? = some x ∧ p x

section Known

variable {α β : Type}

theorem known_sublist (s : Finset ℕ) (xs : List α) : (known s xs).Sublist xs := by
  induction xs with
  | nil => exact .slnil
  | cons x xs ih =>
    unfold known
    split_ifs
    · exact ih.cons_cons x
    · exact ih.cons x

theorem known_mono {s s' : Finset ℕ} (h : s ⊆ s') (xs : List α) :
    (known s xs).Sublist (known s' xs) := by
  induction xs with
  | nil => exact .slnil
  | cons x xs ih =>
    unfold known
    split_ifs with hs hs' hs'
    · exact ih.cons_cons x
    · exact absurd (h hs) hs'
    · exact ih.cons x
    · exact ih

theorem known_sublist_cons (s : Finset ℕ) (x : α) (xs : List α) :
    (known s xs).Sublist (known s (x :: xs)) := by
  rw [known]
  split_ifs
  · exact List.sublist_cons_self _ _
  · exact .refl _

theorem known_insert_length (s : Finset ℕ) (x : α) (xs : List α) :
    known (insert xs.length s) (x :: xs) = x :: known (insert xs.length s) xs := by
  rw [known, if_pos (Finset.mem_insert_self _ _)]

/-- The known entries of a history and those of the log belong together. -/
theorem Numbered.mem_known {rel : β → α → List α → Prop} {log : List (ℕ × β)} {xs : List α}
    (h : Numbered rel log xs) (s : Finset ℕ) :
    (∀ x ∈ known s xs, ∃ y ∈ log, y.1 ∈ s ∧ ∃ before, rel y.2 x before) ∧
      ∀ y ∈ log, y.1 ∈ s → ∃ x ∈ known s xs, ∃ before, rel y.2 x before := by
  induction xs generalizing log with
  | nil =>
    cases log with
    | nil => exact ⟨by simp [known], by simp⟩
    | cons y log => exact h.elim
  | cons x xs ih =>
    cases log with
    | nil => exact h.elim
    | cons y log =>
      obtain ⟨hnumber, hrel, hrest⟩ := h
      obtain ⟨hknown, hlog⟩ := ih hrest
      refine ⟨fun x' hx' => ?_, fun y' hy' hs => ?_⟩
      · have htail : x' ∈ known s xs → ∃ y' ∈ y :: log, y'.1 ∈ s ∧ ∃ b, rel y'.2 x' b := by
          intro hmem
          obtain ⟨y', hy', hrel'⟩ := hknown x' hmem
          exact ⟨y', List.mem_cons_of_mem _ hy', hrel'⟩
        unfold known at hx'
        split_ifs at hx' with hs
        · rcases List.mem_cons.mp hx' with rfl | hx'
          · exact ⟨y, List.mem_cons_self, hnumber ▸ hs, xs, hrel⟩
          · exact htail hx'
        · exact htail hx'
      · rcases List.mem_cons.mp hy' with rfl | hy'
        · refine ⟨x, ?_, xs, hrel⟩
          rw [known, if_pos (hnumber ▸ hs)]
          exact List.mem_cons_self
        · obtain ⟨x', hx', hrel'⟩ := hlog y' hy' hs
          exact ⟨x', (known_sublist_cons s x xs).mem hx', hrel'⟩

section Marks

variable {p : α → Prop} {s : Finset ℕ} {xs : List α} {x : α}

theorem Marks.nil (p : α → Prop) : Marks p ∅ [] := by simp [Marks]

theorem Marks.cons_of_not (h : Marks p s xs) (hx : ¬ p x) : Marks p s (x :: xs) := by
  intro n
  rw [h, List.reverse_cons]
  rcases lt_trichotomy n xs.length with hn | rfl | hn
  · rw [List.getElem?_append_left (by simpa using hn)]
  · simp [hx]
  · rw [List.getElem?_eq_none (by simpa using hn.le), List.getElem?_eq_none (by simpa using hn)]

theorem Marks.cons (h : Marks p s xs) (hx : p x) : Marks p (insert xs.length s) (x :: xs) := by
  intro n
  rw [Finset.mem_insert, h, List.reverse_cons]
  rcases lt_trichotomy n xs.length with hn | rfl | hn
  · rw [List.getElem?_append_left (by simpa using hn)]
    simp [hn.ne]
  · simp [hx]
  · rw [List.getElem?_eq_none (by simpa using hn.le), List.getElem?_eq_none (by simpa using hn)]
    simp [hn.ne']

theorem Marks.known_eq [DecidablePred p] (h : Marks p s xs) : known s xs = xs.filter p := by
  have hprefix : ∀ ys, ys <:+ xs → known s ys = ys.filter p := by
    intro ys
    induction ys with
    | nil => exact fun _ => rfl
    | cons y ys ih =>
      intro hsuffix
      obtain ⟨zs, rfl⟩ := hsuffix
      have hy : ys.length ∈ s ↔ p y := by
        rw [h]
        simp
      rw [known, List.filter_cons, ih ((List.suffix_cons y ys).trans (List.suffix_append _ _))]
      simp only [hy, decide_eq_true_eq]
  exact hprefix xs List.suffix_rfl

end Marks

end Known

end Commute.Gossip
