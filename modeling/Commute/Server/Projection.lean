import Commute.Server.Cluster

/-!
# A run of a cluster is a run of three networks

`Component` says what it takes to see one type of a store as a ledger of its
own. The gossip steps are the same for every component; local writes touch one
component and leave the others alone.
-/
namespace Commute.Server

open Crdt Gossip

variable {A S T R V Γ : Type} [DecidableEq A] [LinearOrder S] [Inhabited S] [Instant T]
  [Inhabited R]

/-- One of the three types a store replicates. -/
structure Component (A S T R V : Type) [DecidableEq A] [LinearOrder S] [Inhabited S] [Instant T]
    [Inhabited R] [DeltaValue V] where
  ledger : Store A S T R → Ledger A S V
  part : Message S T R → ℕ × FMap S V
  seq : AckMessage → ℕ
  fresh : S → V
  perm : ∀ {msg msg' : Message S T R}, msg.Perm msg' →
    (part msg).1 = (part msg').1 ∧ (part msg).2.entries.Perm (part msg').2.entries
  merge_ledger : ∀ (msg : Message S T R) (st : Store A S T R),
    ledger (st.merge msg).2 = (ledger st).mergeAll (fresh st.nodeID) (part msg).2
  merge_seq : ∀ (msg : Message S T R) (st : Store A S T R), seq (st.merge msg).1 = (part msg).1
  ack_ledger : ∀ (sender : A) (body : AckMessage) (st : Store A S T R),
    ledger (st.ack sender body) = (ledger st).ack sender (seq body)
  delta_none : ∀ (peer : A) (st : Store A S T R), (st.delta peer).1 = none →
    ledger (st.delta peer).2 = ledger st
  delta_some : ∀ (peer : A) (st : Store A S T R) (msg : Message S T R),
    (st.delta peer).1 = some msg →
    ledger (st.delta peer).2 = ((ledger st).delta peer).2 ∧
      part msg = ((ledger st).delta peer).1.getD (0, ∅)

namespace Component

variable [DeltaValue V] (c : Component A S T R V)

def network (w : Cluster A S T R) (g : Γ) : Network A S V Γ where
  ledger a := c.ledger (w.store a)
  sent := w.sent.map fun p => ⟨p.src, p.dst, (c.part p.msg).1, (c.part p.msg).2⟩
  receipts := w.acks.map fun p => ⟨p.src, p.dst, c.seq p.ack⟩
  ghost := g

theorem network_put (w : Cluster A S T R) (a : A) (st : Store A S T R) (g : Γ) :
    c.network (w.put a st) g = (c.network w g).put a (c.ledger st) := by
  unfold network Cluster.put Network.put
  congr 1
  funext b
  exact Function.apply_update (fun _ => c.ledger) w.store a st b

theorem network_put_of_eq {w : Cluster A S T R} {a : A} {st : Store A S T R} (g : Γ)
    (h : c.ledger st = c.ledger (w.store a)) : c.network (w.put a st) g = c.network w g := by
  rw [network_put, h]
  exact Network.put_self (c.network w g) a

section Steps

variable {Rl : Rules A S V Γ} {w : Cluster A S T R} {g : Γ}

theorem write_step {a : A} (key : S) (f : V → V) {g' : Γ} {st : Store A S T R}
    (hfresh : Rl.fresh a = c.fresh (w.store a).nodeID)
    (hw : Rl.write (c.network w g) a key f g')
    (hst : c.ledger st = (c.ledger (w.store a)).write (c.fresh (w.store a).nodeID) key f) :
    Network.Step Rl (c.network w g) (c.network (w.put a st) g') := by
  rw [network_put, hst, ← hfresh]
  exact .write a key f g' hw

theorem delta_step (Rl : Rules A S V Γ) (w : Cluster A S T R) (g : Γ) (a b : A) :
    c.network (w.delta a b) g = c.network w g ∨
      Network.Step Rl (c.network w g) (c.network (w.delta a b) g) := by
  unfold Cluster.delta
  have hnone := c.delta_none b (w.store a)
  have hsome := c.delta_some b (w.store a)
  generalize (w.store a).delta b = d at hnone hsome
  obtain ⟨m, st⟩ := d
  cases m with
  | none => exact Or.inl (c.network_put_of_eq g (hnone rfl))
  | some msg =>
    obtain ⟨hledger, hpart⟩ := hsome msg rfl
    right
    change Network.Step Rl _ { c.network (w.put a st) g with
      sent := ⟨a, b, (c.part msg).1, (c.part msg).2⟩ :: (c.network w g).sent }
    rw [network_put, hledger, hpart]
    exact .delta a b

theorem merge_step {p : Packet A S T R} {msg : Message S T R} (hp : p ∈ w.sent)
    (hperm : msg.Perm p.msg) (hfresh : Rl.fresh p.dst = c.fresh (w.store p.dst).nodeID) :
    Network.Step Rl (c.network w g) (c.network (w.merge p msg) g) := by
  obtain ⟨hseq, hentries⟩ := c.perm hperm
  change Network.Step Rl _ { c.network (w.put p.dst ((w.store p.dst).merge msg).2) g with
    receipts := ⟨p.dst, p.src, c.seq ((w.store p.dst).merge msg).1⟩ :: (c.network w g).receipts }
  rw [network_put, c.merge_ledger, c.merge_seq, ← hfresh, hseq]
  exact .merge ⟨p.src, p.dst, (c.part p.msg).1, (c.part p.msg).2⟩ _
    (List.mem_map.mpr ⟨p, hp, rfl⟩) hentries

theorem ack_step {p : AckPacket A} (hp : p ∈ w.acks) :
    Network.Step Rl (c.network w g) (c.network (w.ack p) g) := by
  unfold Cluster.ack
  rw [network_put, c.ack_ledger]
  exact .ack ⟨p.src, p.dst, c.seq p.ack⟩ (List.mem_map.mpr ⟨p, hp, rfl⟩)

end Steps

end Component

def counterComponent : Component A S T R (PNCounter S) where
  ledger := Store.counters
  part msg := (msg.countersSeq, msg.counters)
  seq := AckMessage.countersSeq
  fresh := .new
  perm h := ⟨h.countersSeq, h.counters⟩
  merge_ledger _ _ := rfl
  merge_seq _ _ := rfl
  ack_ledger _ _ _ := rfl
  delta_none _ _ h := congrArg Store.counters (Store.delta_eq_none h)
  delta_some _ _ _ h := by
    obtain ⟨hst, hmsg⟩ := Store.delta_eq_some h
    exact ⟨congrArg Store.counters hst, by rw [hmsg]⟩

def registerComponent : Component A S T R (LWWRegister S T R) where
  ledger := Store.registers
  part msg := (msg.registersSeq, msg.registers)
  seq := AckMessage.registersSeq
  fresh := .new
  perm h := ⟨h.registersSeq, h.registers⟩
  merge_ledger _ _ := rfl
  merge_seq _ _ := rfl
  ack_ledger _ _ _ := rfl
  delta_none _ _ h := congrArg Store.registers (Store.delta_eq_none h)
  delta_some _ _ _ h := by
    obtain ⟨hst, hmsg⟩ := Store.delta_eq_some h
    exact ⟨congrArg Store.registers hst, by rw [hmsg]⟩

def setComponent : Component A S T R (ORSet S S) where
  ledger := Store.sets
  part msg := (msg.setsSeq, msg.sets)
  seq := AckMessage.setsSeq
  fresh := .new
  perm h := ⟨h.setsSeq, h.sets⟩
  merge_ledger _ _ := rfl
  merge_seq _ _ := rfl
  ack_ledger _ _ _ := rfl
  delta_none _ _ h := congrArg Store.sets (Store.delta_eq_none h)
  delta_some _ _ _ h := by
    obtain ⟨hst, hmsg⟩ := Store.delta_eq_some h
    exact ⟨congrArg Store.sets hst, by rw [hmsg]⟩

namespace Cluster

variable {id : A → S} {allowed : SetCondition A S} {w w' : Cluster A S T R}

/-- A step writes a counter, gossips, or leaves the counters alone. -/
theorem Step.counters (hid : ∀ a, (w.store a).nodeID = id a) (h : Step allowed w w') :
    w'.counters = w.counters ∨ Network.Step (counterRules id) w.counters w'.counters := by
  have hfresh : ∀ a, (counterRules id).fresh a = .new (w.store a).nodeID :=
    fun a => congrArg PNCounter.new (hid a).symm
  cases h with
  | incrementCounter a key value =>
    exact Or.inr (counterComponent.write_step key (PNCounter.increment value) (hfresh a)
      ⟨value, Or.inl ⟨rfl, rfl⟩⟩ rfl)
  | decrementCounter a key value =>
    exact Or.inr (counterComponent.write_step key (PNCounter.decrement value) (hfresh a)
      ⟨value, Or.inr ⟨rfl, rfl⟩⟩ rfl)
  | setRegister a key value now => exact Or.inl (counterComponent.network_put_of_eq _ rfl)
  | addSet a key value vv _ => exact Or.inl (counterComponent.network_put_of_eq _ rfl)
  | removeSet a key value vv _ =>
    exact Or.inl (counterComponent.network_put_of_eq _ (Store.removeSet_counters key value vv _))
  | getSet a key => exact Or.inl rfl
  | delta a b =>
    have hdelta : (w.delta a b).counters = counterComponent.network (w.delta a b) w.updates :=
      congrArg (counterComponent.network (w.delta a b)) (delta_history a b w).1
    rw [hdelta]
    exact counterComponent.delta_step (counterRules id) w w.updates a b
  | merge p msg hp hperm =>
    exact Or.inr (counterComponent.merge_step hp hperm (hfresh p.dst))
  | ack p hp => exact Or.inr (counterComponent.ack_step hp)

/-- A step writes a register, gossips, or leaves the registers alone. -/
theorem Step.registers (hid : ∀ a, (w.store a).nodeID = id a) (h : Step allowed w w') :
    w'.registers = w.registers ∨ Network.Step (registerRules id) w.registers w'.registers := by
  have hfresh : ∀ a, (registerRules id : Rules A S (LWWRegister S T R) _).fresh a =
      .new (w.store a).nodeID := fun a => congrArg LWWRegister.new (hid a).symm
  cases h with
  | incrementCounter a key value => exact Or.inl (registerComponent.network_put_of_eq _ rfl)
  | decrementCounter a key value => exact Or.inl (registerComponent.network_put_of_eq _ rfl)
  | setRegister a key value now =>
    refine Or.inr (registerComponent.write_step key (LWWRegister.set value now) (hfresh a)
      ⟨value, now, rfl, ?_⟩ rfl)
    rw [← hid]
    rfl
  | addSet a key value vv _ => exact Or.inl (registerComponent.network_put_of_eq _ rfl)
  | removeSet a key value vv _ =>
    exact Or.inl (registerComponent.network_put_of_eq _ (Store.removeSet_registers key value vv _))
  | getSet a key => exact Or.inl rfl
  | delta a b =>
    have hdelta : (w.delta a b).registers = registerComponent.network (w.delta a b) w.writes :=
      congrArg (registerComponent.network (w.delta a b)) (delta_history a b w).2.1
    rw [hdelta]
    exact registerComponent.delta_step (registerRules id) w w.writes a b
  | merge p msg hp hperm =>
    exact Or.inr (registerComponent.merge_step hp hperm (hfresh p.dst))
  | ack p hp => exact Or.inr (registerComponent.ack_step hp)

/-- A step writes a set, reads one, gossips, or leaves the sets alone. -/
theorem Step.sets (hid : ∀ a, (w.store a).nodeID = id a) (h : Step allowed w w') :
    w'.sets = w.sets ∨ Network.Step (setRules id allowed) w.sets w'.sets := by
  have hfresh : ∀ a, (setRules id allowed).fresh a = .new (w.store a).nodeID :=
    fun a => congrArg ORSet.new (hid a).symm
  have hlog : ∀ a key value vv marker,
      w.history.log (key, value) (w.event a key value vv marker) =
        w.history.log (key, value) (w.sets.sites.event id a (key, value) vv marker) := by
    intro a key value vv marker
    unfold event
    rw [hid]
    rfl
  cases h with
  | incrementCounter a key value => exact Or.inl (setComponent.network_put_of_eq _ rfl)
  | decrementCounter a key value => exact Or.inl (setComponent.network_put_of_eq _ rfl)
  | setRegister a key value now => exact Or.inl (setComponent.network_put_of_eq _ rfl)
  | addSet a key value vv hvv =>
    exact Or.inr (setComponent.write_step key (ORSet.mark true value vv) (hfresh a)
      ⟨value, vv, true, hvv, rfl, hlog a key value vv true⟩ rfl)
  | removeSet a key value vv hvv =>
    rcases removeSet_cases a key value vv w with he | he <;> rw [he]
    · exact Or.inl (setComponent.network_put_of_eq _ rfl)
    · exact Or.inr (setComponent.write_step key (ORSet.mark false value vv) (hfresh a)
        ⟨value, vv, false, hvv, rfl, hlog a key value vv false⟩ rfl)
  | getSet a key =>
    unfold Cluster.getSet Store.getSet
    cases hs : (w.store a).sets.state.lookup key with
    | none =>
      left
      simp [Cluster.sets, SetHistory.read]
    | some set => exact Or.inr (.note _ ⟨a, key, set, hs, rfl⟩)
  | delta a b =>
    have hdelta : (w.delta a b).sets = setComponent.network (w.delta a b) w.history :=
      congrArg (setComponent.network (w.delta a b)) (delta_history a b w).2.2
    rw [hdelta]
    exact setComponent.delta_step (setRules id allowed) w w.history a b
  | merge p msg hp hperm =>
    exact Or.inr (setComponent.merge_step hp hperm (hfresh p.dst))
  | ack p hp => exact Or.inr (setComponent.ack_step hp)

theorem Step.nodeID (h : Step allowed w w') (a : A) :
    (w'.store a).nodeID = (w.store a).nodeID := by
  have hput : ∀ b st, st.nodeID = (w.store b).nodeID →
      ((w.put b st).store a).nodeID = (w.store a).nodeID := by
    intro b st hst
    change (Function.update w.store b st a).nodeID = _
    rw [Function.update_apply]
    split_ifs with hab
    · rw [hst, hab]
    · rfl
  cases h with
  | removeSet b key value vv _ =>
    rcases removeSet_cases b key value vv w with he | he <;> rw [he]
    · exact hput b _ rfl
    · exact hput b _ rfl
  | getSet b key => rfl
  | delta b b' =>
    unfold Cluster.delta Store.delta
    dsimp only
    split_ifs
    · exact hput b _ rfl
    · exact hput b _ rfl
  | _ => exact hput _ _ rfl

theorem Reachable.nodeID (h : Reachable id allowed w) (a : A) : (w.store a).nodeID = id a := by
  induction h with
  | refl => rfl
  | tail _ hs ih => rw [hs.nodeID, ih]

theorem Reachable.counters (h : Reachable id allowed w) :
    Network.Reachable (counterRules id) [] w.counters := by
  induction h with
  | refl => exact .refl
  | tail hr hs ih =>
    rcases hs.counters (Reachable.nodeID hr) with he | he
    · rwa [he]
    · exact ih.tail he

theorem Reachable.registers (h : Reachable id allowed w) :
    Network.Reachable (registerRules id) [] w.registers := by
  induction h with
  | refl => exact .refl
  | tail hr hs ih =>
    rcases hs.registers (Reachable.nodeID hr) with he | he
    · rwa [he]
    · exact ih.tail he

theorem Reachable.sets (h : Reachable id allowed w) :
    Network.Reachable (setRules id allowed) SetHistory.empty w.sets := by
  induction h with
  | refl => exact .refl
  | tail hr hs ih =>
    rcases hs.sets (Reachable.nodeID hr) with he | he
    · rwa [he]
    · exact ih.tail he

end Cluster
end Commute.Server
