import Commute.Server.CounterPasts
import Commute.Server.RegisterPasts
import Commute.Server.Servers
import Commute.Server.SetPasts

/-!
# A run of the servers is a run of three causal networks

`Aspect` is one of the three types as the sections of a store see it. A section under its
lock is a step of the network of that type, and everything else that the servers do only
moves message parts and acknowledgements that the network already has: into a request, to
a handler, from one section of a call to the next. Whatever the interleaving, the ledgers,
what the servers have heard of and the histories are those of a run of the network.
-/
namespace Commute.Server

open Crdt Gossip Swim

def Lock.rank : Lock → ℕ
  | .counters => 0
  | .registers => 1
  | .sets => 2

theorem Lock.rank_lt_next {l next : Lock} (h : l.next = some next) (lock : Lock) :
    lock.rank < next.rank ↔ lock.rank < l.rank ∨ l = lock := by
  cases l <;> cases h <;> cases lock <;> decide

theorem Lock.passed_of_last {l : Lock} (h : l.next = none) (lock : Lock) :
    lock.rank < l.rank ∨ l = lock := by
  cases l <;> cases h
  cases lock <;> decide

variable {S T R V E Γ : Type}

theorem Draft.message_eq_some {d : Draft S T R} {msg : Message S T R}
    (h : d.message = some msg) : (msg.countersSeq, msg.counters) = d.counters.getD (0, ∅) ∧
      (msg.registersSeq, msg.registers) = d.registers.getD (0, ∅) ∧
      (msg.setsSeq, msg.sets) = d.sets.getD (0, ∅) := by
  unfold Draft.message at h
  split_ifs at h
  obtain rfl := Option.some.inj h
  exact ⟨rfl, rfl, rfl⟩

namespace Servers

theorem store_put (w : Servers S T R) (a b : Bytes) (srv : ServerState S T R) :
    (w.put a srv).store b = if b = a then srv.store else w.store b := by
  unfold store put
  dsimp only
  rw [Function.update_apply]
  split_ifs <;> rfl

theorem loop_put (w : Servers S T R) (a b : Bytes) (srv : ServerState S T R) :
    ((w.put a srv).server b).loop = if b = a then srv.loop else (w.server b).loop := by
  unfold put
  dsimp only
  rw [Function.update_apply]
  split_ifs <;> rfl

theorem store_putStore (w : Servers S T R) (a b : Bytes) (st : Store Bytes S T R) :
    (w.putStore a st).store b = if b = a then st else w.store b :=
  store_put w a b _

theorem loop_putStore (w : Servers S T R) (a b : Bytes) (st : Store Bytes S T R) :
    ((w.putStore a st).server b).loop = (w.server b).loop := by
  unfold putStore
  rw [loop_put]
  split_ifs with h
  · rw [h]
  · rfl

theorem past_putPast (w : Servers S T R) (a b : Bytes) (p : Past S) :
    (w.putPast a p).past b = if b = a then p else w.past b :=
  Function.update_apply _ _ _ _

end Servers

structure SameCalls (w w' : Servers S T R) : Prop where
  loop : ∀ a, (w'.server a).loop = (w.server a).loop
  requests : w'.requests = w.requests
  merging : w'.merging = w.merging
  acks : w'.acks = w.acks
  acking : w'.acking = w.acking

/-- Only the store of `a` and what it has heard of changed. -/
structure Local (w w' : Servers S T R) (a : Bytes) (st : Store Bytes S T R) (p : Past S) : Prop
    extends SameCalls w w' where
  store : ∀ b, w'.store b = if b = a then st else w.store b
  past : ∀ b, w'.past b = if b = a then p else w.past b

theorem Local.of_eq {w w' : Servers S T R} {a : Bytes} {st : Store Bytes S T R} {p : Past S}
    (hserver : w'.server = (w.putStore a st).server) (hpast : w'.past = (w.putPast a p).past)
    (hrequests : w'.requests = w.requests) (hmerging : w'.merging = w.merging)
    (hacks : w'.acks = w.acks) (hacking : w'.acking = w.acking) : Local w w' a st p where
  loop b := hserver ▸ Servers.loop_putStore w a b st
  requests := hrequests
  merging := hmerging
  acks := hacks
  acking := hacking
  store b := by
    rw [← Servers.store_putStore, Servers.store, hserver]
    rfl
  past b := hpast ▸ Servers.past_putPast w a b p

structure Unwritten (w w' : Servers S T R) : Prop where
  nodeID : ∀ a, (w'.store a).nodeID = (w.store a).nodeID
  updates : w'.updates = w.updates
  writes : w'.writes = w.writes
  history : w'.history = w.history

namespace Unwritten

theorem refl (w : Servers S T R) : Unwritten w w := ⟨fun _ => rfl, rfl, rfl, rfl⟩

theorem put {w : Servers S T R} {a : Bytes} {srv : ServerState S T R}
    (h : srv.store.nodeID = (w.store a).nodeID) : Unwritten w (w.put a srv) := by
  refine ⟨fun b => ?_, rfl, rfl, rfl⟩
  rw [Servers.store_put]
  split_ifs with hb
  · rw [h, hb]
  · rfl

theorem tick (w : Servers S T R) (a : Bytes) (draw : ℕ) : Unwritten w (w.tick a draw) := by
  unfold Servers.tick
  split
  · exact refl w
  · exact put rfl

theorem postGossip (w : Servers S T R) (i : ℕ) (msg : Message S T R) :
    Unwritten w (w.postGossip i msg) := by
  unfold Servers.postGossip
  split
  · exact refl w
  · split_ifs
    · exact { refl w with }
    · exact refl w

theorem postAck (w : Servers S T R) (i : ℕ) : Unwritten w (w.postAck i) := by
  unfold Servers.postAck
  split
  · exact refl w
  · split_ifs
    · exact { refl w with }
    · exact refl w

theorem ack (w : Servers S T R) (i : ℕ) : Unwritten w (w.ack i) := by
  unfold Servers.ack
  split
  · exact refl w
  · next call _ =>
    have hdone : Unwritten w (w.putStore call.node
        ((w.store call.node).ackSection call.lock call.sender call.body)) :=
      put (by cases call.lock <;> rfl)
    dsimp only
    split
    · exact { hdone with }
    · exact { hdone with }

end Unwritten

variable [LinearOrder S] [Inhabited S] [Instant T] [Inhabited R]

theorem Unwritten.merge (w : Servers S T R) (i : ℕ) : Unwritten w (w.merge i) := by
  unfold Servers.merge
  split
  · exact refl w
  · next call _ =>
    have hdone : Unwritten w (w.putStore call.node
        ((w.store call.node).mergeSection call.lock call.msg)) :=
      put (by cases call.lock <;> rfl)
    dsimp only
    split
    · exact { hdone with }
    · exact { hdone with }

omit [Inhabited R] in
theorem Unwritten.delta (w : Servers S T R) (a : Bytes) : Unwritten w (w.delta a) := by
  unfold Servers.delta
  split
  · exact refl w
  · next call _ =>
    have hnode : ((w.store a).deltaSection call.lock call.peer call.draft).2.nodeID =
        (w.store a).nodeID := by
      cases call.lock <;> rfl
    dsimp only
    split
    · exact put hnode
    · have hdone : Unwritten w (w.put a { w.server a with
          store := ((w.store a).deltaSection call.lock call.peer call.draft).2, loop := none }) :=
        put hnode
      exact { hdone with }

/-- One of the three types in the sections of a store. -/
structure Aspect (S T R V E : Type) [LinearOrder S] [Inhabited S] [Instant T] [Inhabited R]
    [DeltaValue V] [DecidableEq E] extends Component Bytes S T R V where
  lock : Lock
  held : Draft S T R → Option (ℕ × FMap S V)
  past : Past S → Finset E
  message : ∀ {d : Draft S T R} {msg : Message S T R}, d.message = some msg →
    part msg = (held d).getD (0, ∅)
  ledger_delta : ∀ l peer d st, ledger (Store.deltaSection l peer d st).2 =
    if l = lock then ((ledger st).delta peer).2 else ledger st
  held_delta : ∀ l peer d st, held (Store.deltaSection l peer d st).1 =
    if l = lock then ((ledger st).delta peer).1 else held d
  ledger_merge : ∀ l msg st, ledger (Store.mergeSection l msg st) =
    if l = lock then (ledger st).mergeAll (fresh st.nodeID) (part msg).2 else ledger st
  ledger_ack : ∀ l sender body st, ledger (Store.ackSection l sender body st) =
    if l = lock then (ledger st).ack sender (seq body) else ledger st
  past_none : past .none = ∅
  past_record : ∀ p l now, past (Past.record p l now) = if l = lock then past now else past p
  past_hear : ∀ p l carried, past (Past.hear p l carried) =
    if l = lock then past p ∪ past carried else past p

def counterAspect : Aspect S T R (PNCounter S) ℕ where
  toComponent := counterComponent
  lock := .counters
  held := Draft.counters
  past := Past.counters
  message h := (Draft.message_eq_some h).1
  ledger_delta l _ _ _ := by cases l <;> rfl
  held_delta l _ _ _ := by cases l <;> rfl
  ledger_merge l _ _ := by cases l <;> rfl
  ledger_ack l _ _ _ := by cases l <;> rfl
  past_none := rfl
  past_record _ l _ := by cases l <;> rfl
  past_hear _ l _ := by cases l <;> rfl

def registerAspect : Aspect S T R (LWWRegister S T R) ℕ where
  toComponent := registerComponent
  lock := .registers
  held := Draft.registers
  past := Past.registers
  message h := (Draft.message_eq_some h).2.1
  ledger_delta l _ _ _ := by cases l <;> rfl
  held_delta l _ _ _ := by cases l <;> rfl
  ledger_merge l _ _ := by cases l <;> rfl
  ledger_ack l _ _ _ := by cases l <;> rfl
  past_none := rfl
  past_record _ l _ := by cases l <;> rfl
  past_hear _ l _ := by cases l <;> rfl

def setAspect : Aspect S T R (ORSet S S) ((S × S) × ℕ) where
  toComponent := setComponent
  lock := .sets
  held := Draft.sets
  past := Past.sets
  message h := (Draft.message_eq_some h).2.2
  ledger_delta l _ _ _ := by cases l <;> rfl
  held_delta l _ _ _ := by cases l <;> rfl
  ledger_merge l _ _ := by cases l <;> rfl
  ledger_ack l _ _ _ := by cases l <;> rfl
  past_none := rfl
  past_record _ l _ := by cases l <;> rfl
  past_hear _ l _ := by cases l <;> rfl

variable [DeltaValue V] [DecidableEq E]

/-- The network `n` is a run of one type at the servers: it has the ledgers, the pasts and
the history of the servers, and everything that is under way between them. -/
structure Carries (c : Aspect S T R V E) (Rl : CausalRules Bytes S V Γ E) (g₀ g : Γ)
    (w : Servers S T R) (n : CausalNetwork Bytes S V Γ E) : Prop where
  reachable : CausalNetwork.Reachable Rl g₀ n
  ledger : ∀ a, n.net.ledger a = c.ledger (w.store a)
  past : ∀ a, n.past a = c.past (w.past a)
  ghost : n.net.ghost = g
  building : ∀ a call, (w.server a).loop = some call → c.lock.rank < call.lock.rank →
    (⟨a, call.peer, ((c.held call.draft).getD (0, ∅)).1, ((c.held call.draft).getD (0, ∅)).2⟩,
      c.past call.past) ∈ n.carried
  requests : ∀ r ∈ w.requests,
    (⟨r.src, r.dst, (c.part r.msg).1, (c.part r.msg).2⟩, c.past r.past) ∈ n.carried
  merging : ∀ call ∈ w.merging, ∃ payload,
    (⟨call.sender, call.node, (c.part call.msg).1, payload⟩, c.past call.past) ∈ n.carried ∧
      (c.part call.msg).2.entries.Perm payload.entries
  merged : ∀ call ∈ w.merging, c.lock.rank < call.lock.rank →
    ⟨call.node, call.sender, (c.part call.msg).1⟩ ∈ n.net.receipts
  acks : ∀ p ∈ w.acks, ⟨p.src, p.dst, c.seq p.ack⟩ ∈ n.net.receipts
  acking : ∀ call ∈ w.acking, ⟨call.sender, call.node, c.seq call.body⟩ ∈ n.net.receipts

namespace Carries

variable {c : Aspect S T R V E} {Rl : CausalRules Bytes S V Γ E} {g₀ g : Γ}
  {w w' : Servers S T R} {n : CausalNetwork Bytes S V Γ E}

theorem init (c : Aspect S T R V E) (Rl : CausalRules Bytes S V Γ E) (g₀ : Γ) (id : Bytes → S)
    (hnew : ∀ a, c.ledger (.new (id a)) = .new) :
    Carries c Rl g₀ g₀ (Servers.init id) (.init g₀) where
  reachable := .refl
  ledger a := (hnew a).symm
  past _ := c.past_none.symm
  ghost := rfl
  building := by simp [Servers.init]
  requests := by simp [Servers.init]
  merging := by simp [Servers.init]
  merged := by simp [Servers.init]
  acks := by simp [Servers.init]
  acking := by simp [Servers.init]

theorem congr (h : Carries c Rl g₀ g w n) (hcalls : SameCalls w w')
    (hledger : ∀ a, c.ledger (w'.store a) = c.ledger (w.store a))
    (hpast : ∀ a, c.past (w'.past a) = c.past (w.past a)) : Carries c Rl g₀ g w' n where
  reachable := h.reachable
  ledger a := (h.ledger a).trans (hledger a).symm
  past a := (h.past a).trans (hpast a).symm
  ghost := h.ghost
  building a call hcall := h.building a call (hcalls.loop a ▸ hcall)
  requests r hr := h.requests r (hcalls.requests ▸ hr)
  merging call hm := h.merging call (hcalls.merging ▸ hm)
  merged call hm := h.merged call (hcalls.merging ▸ hm)
  acks p hp := h.acks p (hcalls.acks ▸ hp)
  acking call hm := h.acking call (hcalls.acking ▸ hm)

variable {a : Bytes} {st : Store Bytes S T R} {p : Past S}

theorem untouched (h : Carries c Rl g₀ g w n) (hl : Local w w' a st p)
    (hledger : c.ledger st = c.ledger (w.store a)) (hpast : c.past p = c.past (w.past a)) :
    Carries c Rl g₀ g w' n := by
  refine h.congr hl.toSameCalls (fun b => ?_) fun b => ?_
  · rw [hl.store]
    split_ifs with hb
    · rw [hledger, hb]
    · rfl
  · rw [hl.past]
    split_ifs with hb
    · rw [hpast, hb]
    · rfl

theorem write (h : Carries c Rl g₀ g w n) (hl : Local w w' a st p) {k : S} {f : V → V} {g' : Γ}
    {e : E} (hevent : Rl.event n.net a k f g' e)
    (hledger : c.ledger st = (c.ledger (w.store a)).write (Rl.fresh a) k f)
    (hpast : c.past p = insert e (c.past (w.past a))) : ∃ n', Carries c Rl g₀ g' w' n' := by
  have hreach := h.reachable.tail (.write a k f g' e hevent)
  refine ⟨_, hreach, fun b => ?_, fun b => ?_, rfl, ?_, ?_, ?_, ?_, ?_, ?_⟩
  · dsimp only
    rw [Network.put_ledger, hl.store, h.ledger, h.ledger]
    split_ifs
    · exact hledger.symm
    · rfl
  · dsimp only
    rw [Function.update_apply, hl.past, h.past, h.past]
    split_ifs
    · exact hpast.symm
    · rfl
  · exact fun b call hcall => h.building b call (hl.loop b ▸ hcall)
  · exact fun r hr => h.requests r (hl.requests ▸ hr)
  · exact fun call hm => h.merging call (hl.merging ▸ hm)
  · exact fun call hm => h.merged call (hl.merging ▸ hm)
  · exact fun p hp => h.acks p (hl.acks ▸ hp)
  · exact fun call hm => h.acking call (hl.acking ▸ hm)

theorem tick (h : Carries c Rl g₀ g w n) (a : Bytes) (draw : ℕ) :
    Carries c Rl g₀ g (w.tick a draw) n := by
  unfold Servers.tick
  cases hpeer : (w.server a).peers[draw]? with
  | none => exact h
  | some peer =>
    refine { h with ledger := fun b => ?_, building := fun b call hcall hlt => ?_ }
    · rw [Servers.store_put, h.ledger]
      split_ifs with hb
      · rw [hb]
        rfl
      · rfl
    · rw [Servers.loop_put] at hcall
      split_ifs at hcall with hb
      · obtain rfl := Option.some.inj hcall
        exact absurd hlt (Nat.not_lt_zero _)
      · exact h.building b call hcall hlt

theorem deltaSection (h : Carries c Rl g₀ g w n) {a : Bytes} {call : DeltaCall S T R}
    (hcall : (w.server a).loop = some call) :
    ∃ n' : CausalNetwork Bytes S V Γ E, CausalNetwork.Reachable Rl g₀ n' ∧
      n'.net.ghost = g ∧ n'.past = n.past ∧ n'.net.receipts = n.net.receipts ∧
      (∀ b, n'.net.ledger b = if b = a then
        c.ledger ((w.store a).deltaSection call.lock call.peer call.draft).2
        else n.net.ledger b) ∧ (∀ p ∈ n.carried, p ∈ n'.carried) ∧
      (c.lock.rank < call.lock.rank ∨ call.lock = c.lock →
        (⟨a, call.peer, ((c.held ((w.store a).deltaSection call.lock call.peer
            call.draft).1).getD (0, ∅)).1, ((c.held ((w.store a).deltaSection call.lock call.peer
            call.draft).1).getD (0, ∅)).2⟩, c.past (call.past.record call.lock (w.past a))) ∈
          n'.carried) := by
  by_cases hl : call.lock = c.lock
  · refine ⟨_, h.reachable.tail (.delta a call.peer), h.ghost, rfl, rfl, fun b => ?_,
      fun p hp => List.mem_cons_of_mem _ hp, fun _ => ?_⟩
    · dsimp only
      rw [Network.put_ledger, c.ledger_delta, if_pos hl, h.ledger]
    · rw [c.held_delta, if_pos hl, c.past_record, if_pos hl, ← h.ledger, ← h.past]
      exact List.mem_cons_self
  · refine ⟨n, h.reachable, h.ghost, rfl, rfl, fun b => ?_, fun p hp => hp, fun hpassed => ?_⟩
    · rw [c.ledger_delta, if_neg hl, ← h.ledger]
      split_ifs with hb
      · rw [hb]
      · rfl
    · rw [c.held_delta, if_neg hl, c.past_record, if_neg hl]
      exact h.building a call hcall (hpassed.resolve_right hl)

theorem delta (h : Carries c Rl g₀ g w n) (a : Bytes) :
    ∃ n', Carries c Rl g₀ g (w.delta a) n' := by
  unfold Servers.delta
  cases hcall : (w.server a).loop with
  | none => exact ⟨n, h⟩
  | some call =>
    obtain ⟨n', hreach, hghost, hpast, hreceipts, hledger, hcarried, hbuilt⟩ :=
      h.deltaSection hcall
    have hmerged : ∀ call ∈ w.merging, c.lock.rank < call.lock.rank →
        ⟨call.node, call.sender, (c.part call.msg).1⟩ ∈ n'.net.receipts :=
      fun call hm hlt => hreceipts ▸ h.merged call hm hlt
    have hmerging : ∀ call ∈ w.merging, ∃ payload,
        (⟨call.sender, call.node, (c.part call.msg).1, payload⟩, c.past call.past) ∈
          n'.carried ∧ (c.part call.msg).2.entries.Perm payload.entries := by
      intro call hm
      obtain ⟨payload, hmem, hperm⟩ := h.merging call hm
      exact ⟨payload, hcarried _ hmem, hperm⟩
    have hacks : ∀ p ∈ w.acks, ⟨p.src, p.dst, c.seq p.ack⟩ ∈ n'.net.receipts :=
      fun p hp => hreceipts ▸ h.acks p hp
    have hacking : ∀ call ∈ w.acking, ⟨call.sender, call.node, c.seq call.body⟩ ∈
        n'.net.receipts := fun call hm => hreceipts ▸ h.acking call hm
    have hstore : ∀ srv : ServerState S T R, srv.store =
        ((w.store a).deltaSection call.lock call.peer call.draft).2 →
        ∀ b, n'.net.ledger b = c.ledger ((w.put a srv).store b) := by
      intro srv hsrv b
      rw [hledger, Servers.store_put, hsrv, h.ledger]
      split_ifs <;> rfl
    have hloops : ∀ srv : ServerState S T R, (∀ call', srv.loop = some call' →
        c.lock.rank < call'.lock.rank → (⟨a, call'.peer, ((c.held call'.draft).getD (0, ∅)).1,
          ((c.held call'.draft).getD (0, ∅)).2⟩, c.past call'.past) ∈ n'.carried) →
        ∀ b call', ((w.put a srv).server b).loop = some call' →
          c.lock.rank < call'.lock.rank → (⟨b, call'.peer, ((c.held call'.draft).getD (0, ∅)).1,
            ((c.held call'.draft).getD (0, ∅)).2⟩, c.past call'.past) ∈ n'.carried := by
      intro srv hsrv b call' hloop hlt
      rw [Servers.loop_put] at hloop
      split_ifs at hloop with hb
      · exact hb ▸ hsrv call' hloop hlt
      · exact hcarried _ (h.building b call' hloop hlt)
    have hrequests := fun r hr => hcarried _ (h.requests r hr)
    refine ⟨n', ?_⟩
    dsimp only
    cases hnext : call.lock.next with
    | some lock =>
      refine ⟨hreach, hstore _ rfl, fun b => hpast ▸ h.past b, hghost, hloops _ ?_, hrequests,
        hmerging, hmerged, hacks, hacking⟩
      intro call' hcall' hlt
      obtain rfl := Option.some.inj hcall'
      exact hbuilt ((Lock.rank_lt_next hnext c.lock).mp hlt)
    | none =>
      refine ⟨hreach, hstore _ rfl, fun b => hpast ▸ h.past b, hghost,
        hloops _ (fun call' hcall' => nomatch hcall'), ?_, hmerging, hmerged, hacks, hacking⟩
      intro r hr
      rcases List.mem_append.mp hr with hr | hr
      · obtain ⟨msg, hmsg, rfl⟩ := Option.map_eq_some_iff.mp (Option.mem_toList.mp hr)
        dsimp only
        rw [c.message hmsg]
        exact hbuilt (Lock.passed_of_last hnext c.lock)
      · exact hrequests r hr

theorem notify (h : Carries c Rl g₀ g w n) (a : Bytes) (peer : Peer) (kind : EventKind) :
    Carries c Rl g₀ g (w.notify a peer kind) n := by
  unfold Servers.notify
  refine h.congr ⟨fun b => ?_, rfl, rfl, rfl, rfl⟩ (fun b => ?_) fun _ => rfl
  · rw [Servers.loop_put]
    split_ifs with hb
    · rw [hb]
    · rfl
  · rw [Servers.store_put]
    split_ifs with hb
    · rw [hb]
      rfl
    · rfl

theorem postGossip (h : Carries c Rl g₀ g w n) (i : ℕ) (msg : Message S T R)
    (hmsg : ∀ r, w.requests[i]? = some r → msg.Perm r.msg) :
    Carries c Rl g₀ g (w.postGossip i msg) n := by
  unfold Servers.postGossip
  cases hr : w.requests[i]? with
  | none => exact h
  | some r =>
    dsimp only
    split_ifs
    · obtain ⟨hseq, hentries⟩ := c.perm (hmsg r hr)
      refine { h with merging := ?_, merged := ?_ }
      · refine List.forall_mem_cons.mpr ⟨⟨(c.part r.msg).2, ?_, hentries⟩, h.merging⟩
        rw [hseq]
        exact h.requests r (List.mem_of_getElem? hr)
      · exact List.forall_mem_cons.mpr ⟨fun hlt => absurd hlt (Nat.not_lt_zero _), h.merged⟩
    · exact h

theorem postAck (h : Carries c Rl g₀ g w n) (i : ℕ) : Carries c Rl g₀ g (w.postAck i) n := by
  unfold Servers.postAck
  cases hp : w.acks[i]? with
  | none => exact h
  | some p =>
    dsimp only
    split_ifs
    · exact { h with
        acking := List.forall_mem_cons.mpr ⟨h.acks p (List.mem_of_getElem? hp), h.acking⟩ }
    · exact h

/-- A section of `Merge` under the lock of the type delivers the message part. -/
theorem mergeSection (h : Carries c Rl g₀ g w n) {call : MergeCall S T R}
    (hcall : call ∈ w.merging)
    (hfresh : Rl.fresh call.node = c.fresh (w.store call.node).nodeID) :
    ∃ n' : CausalNetwork Bytes S V Γ E, CausalNetwork.Reachable Rl g₀ n' ∧
      n'.net.ghost = g ∧ n'.carried = n.carried ∧
      (∀ b, n'.net.ledger b = if b = call.node then
        c.ledger ((w.store call.node).mergeSection call.lock call.msg)
        else n.net.ledger b) ∧
      (∀ b, n'.past b = if b = call.node then
        c.past ((w.past call.node).hear call.lock call.past) else n.past b) ∧
      (∀ r ∈ n.net.receipts, r ∈ n'.net.receipts) ∧
      (c.lock.rank < call.lock.rank ∨ call.lock = c.lock →
        ⟨call.node, call.sender, (c.part call.msg).1⟩ ∈ n'.net.receipts) := by
  by_cases hl : call.lock = c.lock
  · obtain ⟨payload, hmem, hperm⟩ := h.merging call hcall
    refine ⟨_, h.reachable.tail (.merge _ _ (c.part call.msg).2 hmem hperm), h.ghost, rfl,
      fun b => ?_, fun b => ?_, fun r hr => List.mem_cons_of_mem _ hr, fun _ => ?_⟩
    · dsimp only
      rw [Network.put_ledger, c.ledger_merge, if_pos hl, h.ledger, hfresh]
    · dsimp only
      rw [Function.update_apply, c.past_hear, if_pos hl, h.past]
    · exact List.mem_cons_self
  · refine ⟨n, h.reachable, h.ghost, rfl, fun b => ?_, fun b => ?_, fun r hr => hr,
      fun hpassed => h.merged call hcall (hpassed.resolve_right hl)⟩
    · rw [c.ledger_merge, if_neg hl, ← h.ledger]
      split_ifs with hb
      · rw [hb]
      · rfl
    · rw [c.past_hear, if_neg hl, ← h.past]
      split_ifs with hb
      · rw [hb]
      · rfl

theorem merge (h : Carries c Rl g₀ g w n)
    (hfresh : ∀ a, Rl.fresh a = c.fresh (w.store a).nodeID) (i : ℕ) :
    ∃ n', Carries c Rl g₀ g (w.merge i) n' := by
  unfold Servers.merge
  cases hi : w.merging[i]? with
  | none => exact ⟨n, h⟩
  | some call =>
    have hcall := List.mem_of_getElem? hi
    obtain ⟨n', hreach, hghost, hcarried, hledger, hpast, hreceipts, hdone⟩ :=
      h.mergeSection hcall (hfresh call.node)
    have hmerging : ∀ call ∈ w.merging, ∃ payload,
        (⟨call.sender, call.node, (c.part call.msg).1, payload⟩, c.past call.past) ∈
          n'.carried ∧ (c.part call.msg).2.entries.Perm payload.entries :=
      fun call hm => hcarried ▸ h.merging call hm
    have hmerged := fun (call' : MergeCall S T R) hm hlt => hreceipts _ (h.merged call' hm hlt)
    have hstart : Carries c Rl g₀ g ((w.putStore call.node
        ((w.store call.node).mergeSection call.lock call.msg)).putPast call.node
          ((w.past call.node).hear call.lock call.past)) n' := by
      refine ⟨hreach, fun b => ?_, fun b => ?_, hghost, fun b call' hloop => ?_, ?_, hmerging,
        hmerged, fun p hp => hreceipts _ (h.acks p hp), fun call' hm =>
          hreceipts _ (h.acking call' hm)⟩
      · rw [hledger, h.ledger]
        change _ = c.ledger ((w.putStore call.node _).store b)
        rw [Servers.store_putStore]
        split_ifs <;> rfl
      · rw [hpast, h.past, Servers.past_putPast]
        split_ifs <;> rfl
      · rw [hcarried]
        refine h.building b call' ?_
        rw [← hloop]
        exact (Servers.loop_putStore w _ b _).symm
      · exact fun r hr => hcarried ▸ h.requests r hr
    refine ⟨n', ?_⟩
    dsimp only
    cases hnext : call.lock.next with
    | some lock =>
      -- the call goes on to its next section
      refine { hstart with merging := fun call' hm => ?_, merged := fun call' hm hlt => ?_ }
      · rcases List.mem_or_eq_of_mem_set hm with hm | rfl
        · exact hmerging call' hm
        · exact hmerging call hcall
      · rcases List.mem_or_eq_of_mem_set hm with hm | rfl
        · exact hmerged call' hm hlt
        · exact hdone ((Lock.rank_lt_next hnext c.lock).mp hlt)
    | none =>
      refine { hstart with
        merging := fun call' hm => hmerging call' (List.mem_of_mem_eraseIdx hm)
        merged := fun call' hm => hmerged call' (List.mem_of_mem_eraseIdx hm)
        acks := List.forall_mem_cons.mpr ⟨?_, hstart.acks⟩ }
      have hseq := c.merge_seq call.msg (w.store call.node)
      dsimp only [Store.merge] at hseq ⊢
      rw [hseq]
      exact hdone (Lock.passed_of_last hnext c.lock)

theorem ack (h : Carries c Rl g₀ g w n) (i : ℕ) : ∃ n', Carries c Rl g₀ g (w.ack i) n' := by
  unfold Servers.ack
  cases hi : w.acking[i]? with
  | none => exact ⟨n, h⟩
  | some call =>
    have hcall := List.mem_of_getElem? hi
    obtain ⟨n', hdone⟩ : ∃ n', Carries c Rl g₀ g (w.putStore call.node
        ((w.store call.node).ackSection call.lock call.sender call.body)) n' := by
      by_cases hl : call.lock = c.lock
      · refine ⟨_, h.reachable.tail (.ack _ (h.acking call hcall)), fun b => ?_, h.past, h.ghost,
          fun b call' hloop => ?_, h.requests, h.merging, h.merged, h.acks, h.acking⟩
        · dsimp only
          rw [Network.put_ledger, Servers.store_putStore, h.ledger, h.ledger]
          split_ifs
          · rw [c.ledger_ack, if_pos hl]
          · rfl
        · exact h.building b call' (Servers.loop_putStore w _ b _ ▸ hloop)
      · refine ⟨n, h.congr ⟨fun b => Servers.loop_putStore w _ b _, rfl, rfl, rfl, rfl⟩
          (fun b => ?_) fun _ => rfl⟩
        rw [Servers.store_putStore]
        split_ifs with hb
        · rw [c.ledger_ack, if_neg hl, hb]
        · rfl
    refine ⟨n', ?_⟩
    dsimp only
    cases hnext : call.lock.next with
    | some lock =>
      refine { hdone with acking := fun call' hm => ?_ }
      rcases List.mem_or_eq_of_mem_set hm with hm | rfl
      · exact hdone.acking call' hm
      · exact hdone.acking call hcall
    | none =>
      exact { hdone with
        acking := fun call' hm => hdone.acking call' (List.mem_of_mem_eraseIdx hm) }

end Carries

omit [Instant T] [Inhabited R] in
/-- The removal of a tracked element is a write, any other removal does nothing. -/
theorem Store.removeSet_eq (key value : S) (vv : VV S) (st : Store Bytes S T R) :
    st.removeSet key value vv =
      if (st.sets.state.lookup key).any fun set => (set.state.lookup value).isSome then
        { st with sets := st.sets.write (.new st.nodeID) key (ORSet.mark false value vv) }
      else st := by
  unfold Store.removeSet
  cases hs : st.sets.state.lookup key with
  | none => rfl
  | some set =>
    cases hv : set.state.lookup value with
    | none => simp [hv, ORSet.remove, ORSet.isZero]
    | some ds =>
      have hremove : set.remove value vv = set.mark false value vv := by simp [ORSet.remove, hv]
      have hzero : (set.mark false value vv).isZero = false := rfl
      simp [hv, hremove, hzero, Ledger.write, Ledger.valueOr, hs]

/-- The servers run three networks side by side. -/
structure Refines (id : Bytes → S) (allowed : Servers.Contexts S) (w : Servers S T R) : Prop where
  nodeID : ∀ a, (w.store a).nodeID = id a
  counters : ∃ n, Carries counterAspect (countedRules id) [] w.updates w n
  registers : ∃ n, Carries registerAspect (stampedRules id) [] w.writes w n
  sets : ∃ n, Carries setAspect (observedRules id fun net => allowed (SetNet.sites net)) .empty
    w.history w n

namespace Refines

variable {id : Bytes → S} {allowed : Servers.Contexts S} {w w' : Servers S T R}

theorem init (id : Bytes → S) (allowed : Servers.Contexts S) :
    Refines id allowed (Servers.init id : Servers S T R) := by
  exact ⟨fun _ => rfl, ⟨_, .init _ _ _ id fun _ => rfl⟩, ⟨_, .init _ _ _ id fun _ => rfl⟩,
    ⟨_, .init _ _ _ id fun _ => rfl⟩⟩

theorem gossip (h : Refines id allowed w) (hw : Unwritten w w')
    (hstep : ∀ {V E Γ : Type} [DeltaValue V] [DecidableEq E] (c : Aspect S T R V E)
      (Rl : CausalRules Bytes S V Γ E) (g₀ g : Γ) (n : CausalNetwork Bytes S V Γ E),
      (∀ a, Rl.fresh a = c.fresh (w.store a).nodeID) → Carries c Rl g₀ g w n →
      ∃ n', Carries c Rl g₀ g w' n') : Refines id allowed w' := by
  obtain ⟨n₁, h₁⟩ := h.counters
  obtain ⟨n₂, h₂⟩ := h.registers
  obtain ⟨n₃, h₃⟩ := h.sets
  refine ⟨fun a => (hw.nodeID a).trans (h.nodeID a), ?_, ?_, ?_⟩
  · rw [hw.updates]
    exact hstep _ _ _ _ n₁ (fun a => congrArg PNCounter.new (h.nodeID a).symm) h₁
  · rw [hw.writes]
    exact hstep _ _ _ _ n₂ (fun a => congrArg LWWRegister.new (h.nodeID a).symm) h₂
  · rw [hw.history]
    exact hstep _ _ _ _ n₃ (fun a => congrArg ORSet.new (h.nodeID a).symm) h₃

theorem nodeID_local (h : Refines id allowed w) {a : Bytes} {st : Store Bytes S T R} {p : Past S}
    (hl : Local w w' a st p) (hst : st.nodeID = (w.store a).nodeID) (b : Bytes) :
    (w'.store b).nodeID = id b := by
  rw [hl.store, ← h.nodeID b]
  split_ifs with hb
  · rw [hst, hb]
  · rfl

theorem counterWrite (h : Refines id allowed w) (a : Bytes) (key : S)
    {f : PNCounter S → PNCounter S} {u : CounterUpdate Bytes S}
    (hw : ∀ n : CountedNet Bytes S, n.net.ghost = w.updates →
      (counterRules id).write n.net a key f (u :: w.updates)) :
    Refines id allowed { (w.putStore a { w.store a with
        counters := (w.store a).counters.write (.new (w.store a).nodeID) key f }).putPast a
          { w.past a with counters := insert w.updates.length (w.past a).counters } with
      updates := u :: w.updates } := by
  obtain ⟨n₁, h₁⟩ := h.counters
  obtain ⟨n₂, h₂⟩ := h.registers
  obtain ⟨n₃, h₃⟩ := h.sets
  have hl : Local w { (w.putStore a { w.store a with
        counters := (w.store a).counters.write (.new (w.store a).nodeID) key f }).putPast a
          { w.past a with counters := insert w.updates.length (w.past a).counters } with
      updates := u :: w.updates } a _ _ := .of_eq rfl rfl rfl rfl rfl rfl
  refine ⟨h.nodeID_local hl rfl, ?_, ⟨n₂, h₂.untouched hl rfl rfl⟩, ⟨n₃, h₃.untouched hl rfl rfl⟩⟩
  refine h₁.write hl ⟨hw n₁ h₁.ghost, rfl⟩ ?_ (by rw [h₁.ghost]; rfl)
  exact congrArg (fun i => (w.store a).counters.write (.new i) key f) (h.nodeID a)

theorem setRegister (h : Refines id allowed w) (a : Bytes) (key : S) (value : R) (now : T) :
    Refines id allowed (w.setRegister a key value now) := by
  obtain ⟨n₁, h₁⟩ := h.counters
  obtain ⟨n₂, h₂⟩ := h.registers
  obtain ⟨n₃, h₃⟩ := h.sets
  have hl : Local w (w.setRegister a key value now) a _ _ := .of_eq rfl rfl rfl rfl rfl rfl
  refine ⟨h.nodeID_local hl rfl, ⟨n₁, h₁.untouched hl rfl rfl⟩, ?_,
    ⟨n₃, h₃.untouched hl rfl rfl⟩⟩
  refine h₂.write hl (k := key) ⟨⟨value, now, rfl, ?_⟩, rfl⟩ ?_ (by rw [h₂.ghost]; rfl)
  · rw [h₂.ghost, ← h.nodeID a]
    rfl
  · exact congrArg (fun i => (w.store a).registers.write (.new i) key
      (LWWRegister.set value now)) (h.nodeID a)

/-- The network of the sets knows of the elements what the servers know. -/
theorem sites_eq {n : ObservedNet Bytes S}
    (h : Carries (setAspect : Aspect S T R _ _)
      (observedRules id fun net => allowed (SetNet.sites net)) .empty w.history w n) :
    SetNet.sites n.net = w.sites := by
  have hmarkers : SetNet.markers n.net = w.markers := by
    funext a e
    unfold SetNet.markers Servers.markers
    rw [h.ledger]
    rfl
  unfold SetNet.sites Servers.sites
  rw [hmarkers, h.ghost]

theorem setWrite (h : Refines id allowed w) (a : Bytes) (key value : S) (vv : VV S)
    (marker : Bool) (hvv : allowed w.sites a (key, value) vv) :
    Refines id allowed ((w.logSet a key value vv marker).putStore a { w.store a with
      sets := (w.store a).sets.write (.new (w.store a).nodeID) key
        (ORSet.mark marker value vv) }) := by
  obtain ⟨n₁, h₁⟩ := h.counters
  obtain ⟨n₂, h₂⟩ := h.registers
  obtain ⟨n₃, h₃⟩ := h.sets
  have hl : Local w ((w.logSet a key value vv marker).putStore a { w.store a with
      sets := (w.store a).sets.write (.new (w.store a).nodeID) key
        (ORSet.mark marker value vv) }) a _ _ := .of_eq rfl rfl rfl rfl rfl rfl
  refine ⟨h.nodeID_local hl rfl, ⟨n₁, h₁.untouched hl rfl rfl⟩, ⟨n₂, h₂.untouched hl rfl rfl⟩, ?_⟩
  have hsites := sites_eq h₃
  refine h₃.write hl (k := key) ⟨value, vv, marker, ?_, rfl, ?_, rfl⟩ ?_ (by rw [h₃.ghost]; rfl)
  · change allowed (SetNet.sites n₃.net) a (key, value) vv
    rwa [hsites]
  · rw [hsites, h₃.ghost]
    change w.history.log _ (w.event a key value vv marker) = _
    unfold Servers.event
    rw [h.nodeID]
    rfl
  · exact congrArg (fun i => (w.store a).sets.write (.new i) key
      (ORSet.mark marker value vv)) (h.nodeID a)

theorem getSet (h : Refines id allowed w) (a : Bytes) (key : S) :
    Refines id allowed (w.getSet a key) := by
  obtain ⟨n₁, h₁⟩ := h.counters
  obtain ⟨n₂, h₂⟩ := h.registers
  obtain ⟨n₃, h₃⟩ := h.sets
  refine ⟨h.nodeID, ⟨n₁, { h₁ with }⟩, ⟨n₂, { h₂ with }⟩, ?_⟩
  unfold Servers.getSet Store.getSet
  cases hset : (w.store a).sets.state.lookup key with
  | none => exact ⟨n₃, { h₃ with ghost := by simp [h₃.ghost, SetHistory.read] }⟩
  | some set =>
    have hreach := h₃.reachable.tail (.note _ ⟨a, key, set, by rw [h₃.ledger]; exact hset, rfl⟩)
    exact ⟨_, { h₃ with reachable := hreach, ghost := by rw [h₃.ghost] }⟩

theorem removeSet (h : Refines id allowed w) (a : Bytes) (key value : S) (vv : VV S)
    (hvv : allowed w.sites a (key, value) vv) :
    Refines id allowed (w.removeSet a key value vv) := by
  unfold Servers.removeSet
  rw [Store.removeSet_eq]
  split_ifs
  · exact h.setWrite a key value vv false hvv
  · -- nothing is tracked, and the store stays as it is
    have hself : w.putStore a (w.store a) = w := by
      unfold Servers.putStore Servers.put Servers.store
      rw [Function.update_eq_self]
    rwa [hself]

/-- Every step of the servers is a step of the networks or leaves them alone. -/
theorem exec (h : Refines id allowed w) (action : Servers.Action S T R)
    (henabled : Servers.enabled allowed action w) : Refines id allowed (Servers.exec action w) := by
  cases action with
  | incrementCounter a key value =>
    exact h.counterWrite a key fun n hn => ⟨value, Or.inl ⟨rfl, by rw [hn]⟩⟩
  | decrementCounter a key value =>
    exact h.counterWrite a key fun n hn => ⟨value, Or.inr ⟨rfl, by rw [hn]⟩⟩
  | setRegister a key value now => exact h.setRegister a key value now
  | addSet a key value vv => exact h.setWrite a key value vv true henabled
  | removeSet a key value vv => exact h.removeSet a key value vv henabled
  | getSet a key => exact h.getSet a key
  | notify a peer kind =>
    exact h.gossip (.put rfl) fun _ _ _ _ n _ hn => ⟨n, hn.notify a peer kind⟩
  | tick a draw =>
    exact h.gossip (.tick w a draw) fun _ _ _ _ n _ hn => ⟨n, hn.tick a draw⟩
  | delta a => exact h.gossip (.delta w a) fun _ _ _ _ _ _ hn => hn.delta a
  | postGossip i msg =>
    exact h.gossip (.postGossip w i msg) fun _ _ _ _ n _ hn => ⟨n, hn.postGossip i msg henabled⟩
  | merge i => exact h.gossip (.merge w i) fun _ _ _ _ _ hfresh hn => hn.merge hfresh i
  | postAck i => exact h.gossip (.postAck w i) fun _ _ _ _ n _ hn => ⟨n, hn.postAck i⟩
  | ack i => exact h.gossip (.ack w i) fun _ _ _ _ _ _ hn => hn.ack i

theorem after {as : List (Servers.Action S T R)}
    (h : (Servers.machine allowed).Legal (Servers.init id) as) :
    Refines id allowed ((Servers.machine allowed).after (Servers.init id) as) :=
  h.invariant (init id allowed) fun action _ hw henabled => hw.exec action henabled

end Refines
end Commute.Server
