import Commute.Server.Projection
import Mathlib.Data.String.Basic

/-!
# Registers agree, whatever the clocks return

A writer may stamp different values with the same timestamp, so the order of
entries alone does not make the stores agree. What does is that at most one of
them is ever visible: a store drops its own write unless it is newer than
everything it has written before. `Genuine` says which entries a run can make
visible; no two of them share a stamp. A losing write is still logged and sent,
but only together with what its receiver already has (`Selected.sent`).
-/
namespace Commute.Server

open Crdt Gossip

variable {A S T R : Type}

section Genuine

variable [Inhabited S] [Instant T] [Inhabited R]

/-- The entries of a key that a run with the writes `ws`, the latest first, can make
visible: the zero entry and each write whose stamp was new to them. -/
def Genuine (key : S) : List (S × LWWEntry S T R) → LWWEntry S T R → Prop
  | [], e => e = default
  | (k, written) :: ws, e => Genuine key ws e ∨
      (k = key ∧ e = written ∧ ∀ e', Genuine key ws e' → e'.stamp ≠ written.stamp)

theorem Genuine.default_or_mem {key : S} {ws : List (S × LWWEntry S T R)} {e : LWWEntry S T R}
    (h : Genuine key ws e) : e = default ∨ (key, e) ∈ ws := by
  induction ws with
  | nil => exact Or.inl h
  | cons kw ws ih =>
    obtain ⟨k, written⟩ := kw
    rcases h with h | ⟨rfl, rfl, -⟩
    · exact (ih h).imp_right (List.mem_cons_of_mem _)
    · exact Or.inr List.mem_cons_self

theorem Genuine.unique {key : S} {ws : List (S × LWWEntry S T R)} {e e' : LWWEntry S T R}
    (h : Genuine key ws e) (h' : Genuine key ws e') (hstamp : e.stamp = e'.stamp) : e = e' := by
  induction ws with
  | nil => exact h.trans h'.symm
  | cons kw ws ih =>
    obtain ⟨k, written⟩ := kw
    rcases h with h | ⟨-, rfl, hnew⟩ <;> rcases h' with h' | ⟨-, rfl, hnew'⟩
    · exact ih h h'
    · exact absurd hstamp (hnew' e h)
    · exact absurd hstamp.symm (hnew e' h')
    · rfl

end Genuine

variable [LinearOrder S] [Inhabited S] [Instant T] [Inhabited R]

theorem set_entry [DecidableEq A] {id : A → S} {net : RegisterNet A S T R}
    (hr : Network.Reachable (registerRules id) [] net) (a : A) (key : S) (value : R) (now : T) :
    (((net.ledger a).valueOr (.new (id a)) key).set value now).entry = ⟨id a, now, value⟩ := by
  have hnode : ((net.ledger a).valueOr (.new (id a)) key).nodeID = id a :=
    hr.owned LWWRegister.nodeID LWWRegister.merge_nodeID a key
  rw [LWWRegister.set, hnode]

variable [LinearOrder T]

def ShowsGenuine (ws : List (S × LWWEntry S T R)) (nodeID : S)
    (l : Ledger A S (LWWRegister S T R)) : Prop :=
  ∀ key, Genuine key ws (l.valueOr (.new nodeID) key).entry

/-- Every visible entry is genuine, and every store has kept its own writes or newer
ones. A message brings its receiver to a genuine entry once it is merged with what the
receiver holds. -/
structure Selected (id : A → S) (net : RegisterNet A S T R) : Prop where
  genuine : ∀ a, ShowsGenuine net.ghost (id a) (net.ledger a)
  kept : ∀ a key e, (key, e) ∈ net.ghost → e.writerID = id a →
    e.stamp ≤ ((net.ledger a).valueOr (.new (id a)) key).entry.stamp
  sent : ∀ env ∈ net.sent, ∀ key x, env.payload.lookup key = some x →
    ∃ p, DeltaValue.Le p ((net.ledger env.dst).valueOr (.new (id env.dst)) key) ∧
      Genuine key net.ghost (p.merge x).entry

theorem Selected.init (id : A → S) : Selected id (Network.init [] : RegisterNet A S T R) :=
  ⟨fun _ _ => rfl, by simp [Network.init], by simp [Network.init]⟩

variable [LinearInstant T]

theorem genuine_merge {key : S} {ws : List (S × LWWEntry S T R)} {s p x : LWWRegister S T R}
    (hs : Genuine key ws s.entry) (hp : DeltaValue.Le p s)
    (hx : Genuine key ws (p.merge x).entry) : Genuine key ws (s.merge x).entry := by
  have habsorb : s.merge x = s.merge (p.merge x) := by
    rw [← LWWRegister.merge_assoc, LWWRegister.merge_eq_left hp]
  rw [habsorb, LWWRegister.merge_entry]
  split_ifs
  · exact hx
  · exact hs

theorem fresh_register_le (id : A → S) (i j : A) :
    DeltaValue.Le ((registerRules id : Rules A S (LWWRegister S T R) _).fresh i)
      ((registerRules id).fresh j) :=
  (LWWRegister.le_iff _ _).mpr le_rfl

variable [DecidableEq A]

/-- A write that its store shows is newer than every write of that store, so its stamp
is new. -/
theorem Selected.genuine_write {id : A → S} {net : RegisterNet A S T R} (h : Selected id net)
    (hr : Network.Reachable (registerRules id) [] net) (a : A) (key : S) (value : R) (now : T) :
    Genuine key ((key, ⟨id a, now, value⟩) :: net.ghost)
      ((((net.ledger a).valueOr (.new (id a)) key)).merge
        (((net.ledger a).valueOr (.new (id a)) key).set value now)).entry := by
  rw [LWWRegister.merge_entry, set_entry hr]
  split_ifs with hlt
  · refine Or.inr ⟨rfl, rfl, fun e he heq => ?_⟩
    rw [← heq] at hlt
    refine absurd hlt (not_lt.mpr ?_)
    rcases he.default_or_mem with rfl | hmem
    · exact (LWWRegister.le_iff _ _).mp ((Network.Reachable.sound hr).coherent a
        |>.fresh_le_valueOr key)
    · exact h.kept a key e hmem (congrArg (fun st => (ofLex st).2) heq)
  · exact Or.inl (h.genuine a key)

omit [LinearOrder T] [LinearInstant T] in
theorem Genuine.step {id : A → S} {net net' : RegisterNet A S T R}
    (hs : Network.Step (registerRules id) net net') {key : S} {e : LWWEntry S T R}
    (he : Genuine key net.ghost e) : Genuine key net'.ghost e := by
  cases hs with
  | write a k f g hw =>
    obtain ⟨value, now, -, rfl⟩ := hw
    exact Or.inl he
  | note g hn => exact hn.elim
  | _ => exact he

/-- What the invariant says of the old writes holds of the stores after a step. -/
theorem Selected.kept_step {id : A → S} {net net' : RegisterNet A S T R} (h : Selected id net)
    (hr : Network.Reachable (registerRules id) [] net)
    (hs : Network.Step (registerRules id) net net') (a : A) (key : S) (e : LWWEntry S T R)
    (he : (key, e) ∈ net.ghost) (hwriter : e.writerID = id a) :
    e.stamp ≤ ((net'.ledger a).valueOr (.new (id a)) key).entry.stamp :=
  (h.kept a key e he hwriter).trans ((LWWRegister.le_iff _ _).mp (hr.valueOr_le hs a key))

/-- What the invariant says of the old messages holds of the stores after a step. -/
theorem Selected.sent_step {id : A → S} {net net' : RegisterNet A S T R} (h : Selected id net)
    (hr : Network.Reachable (registerRules id) [] net)
    (hs : Network.Step (registerRules id) net net') :
    ∀ env ∈ net.sent, ∀ key x, env.payload.lookup key = some x →
      ∃ p, DeltaValue.Le p ((net'.ledger env.dst).valueOr (.new (id env.dst)) key) ∧
        Genuine key net'.ghost (p.merge x).entry := by
  intro env hm key x hx
  obtain ⟨p, hp, hg⟩ := h.sent env hm key x hx
  exact ⟨p, LawfulDeltaValue.le_trans hp (hr.valueOr_le hs env.dst key), hg.step hs⟩

omit [LinearOrder T] [LinearInstant T] [DecidableEq A] in
theorem write_valueOr (id : A → S) (net : RegisterNet A S T R) (a : A) (k : S) (value : R)
    (now : T) (key : S) :
    ((net.ledger a).write ((registerRules id).fresh a) k
      (LWWRegister.set value now)).valueOr (.new (id a)) key =
        if key = k then ((net.ledger a).valueOr (.new (id a)) k).merge
          (((net.ledger a).valueOr (.new (id a)) k).set value now)
        else (net.ledger a).valueOr (.new (id a)) key :=
  Ledger.join_valueOr (net.ledger a) (.new (id a)) _ k key

theorem Selected.step {id : A → S} (hid : Function.Injective id) {net net' : RegisterNet A S T R}
    (h : Selected id net) (hr : Network.Reachable (registerRules id) [] net)
    (hs : Network.Step (registerRules id) net net') : Selected id net' := by
  have hkept := h.kept_step hr hs
  have hsent := h.sent_step hr hs
  have hgrow := hr.valueOr_le hs
  have hgenuine : ∀ a, ShowsGenuine net'.ghost (id a) (net.ledger a) :=
    fun a key => (h.genuine a key).step hs
  cases hs with
  | write a k f g hw =>
    obtain ⟨value, now, rfl, rfl⟩ := hw
    refine ⟨?_, ?_, hsent⟩
    · refine Network.put_forall (P := fun b => ShowsGenuine _ (id b)) hgenuine fun key => ?_
      rw [write_valueOr]
      split_ifs with hk
      · subst hk
        exact h.genuine_write hr a key value now
      · exact hgenuine a key
    · intro b key e he hwriter
      rcases List.mem_cons.mp he with heq | he
      · obtain ⟨rfl, rfl⟩ := Prod.mk.inj heq
        obtain rfl : a = b := hid hwriter
        rw [Network.put_ledger, if_pos rfl, write_valueOr, if_pos rfl,
          LWWRegister.merge_stamp, set_entry hr]
        exact le_max_right _ _
      · exact hkept b key e he hwriter
  | note g hn => exact hn.elim
  | delta a b =>
    refine ⟨?_, hkept, ?_⟩
    · refine Network.put_forall (P := fun b => ShowsGenuine _ (id b)) hgenuine fun key => ?_
      unfold Ledger.valueOr
      rw [Ledger.delta_state]
      exact h.genuine a key
    · intro env hm key x hx
      rcases List.mem_cons.mp hm with rfl | hm
      · obtain ⟨p, hp, heq⟩ := (Network.Reachable.sound hr).part_exact (fresh_register_le id)
          (Network.Reachable.exact hr a) hx
        refine ⟨p, LawfulDeltaValue.le_trans hp (hgrow b key), ?_⟩
        change Genuine key net.ghost (DeltaValue.merge p x).entry
        rw [heq]
        exact h.genuine a key
      · exact hsent env hm key x hx
  | merge env payload hm hperm =>
    refine ⟨?_, hkept, hsent⟩
    refine Network.put_forall (P := fun b => ShowsGenuine _ (id b)) hgenuine fun key => ?_
    have hvalue := Ledger.mergeAll_valueOr (.new (id env.dst)) payload (net.ledger env.dst) key
    cases hx : payload.lookup key with
    | none =>
      rw [hx] at hvalue
      exact hvalue ▸ h.genuine env.dst key
    | some x =>
      rw [hx] at hvalue
      rw [← FMap.mem_entries_iff, hperm.mem_iff, FMap.mem_entries_iff] at hx
      obtain ⟨p, hp, hg⟩ := h.sent env hm key x hx
      exact hvalue ▸ genuine_merge (h.genuine env.dst key) hp hg
  | ack r _ =>
    exact ⟨Network.put_forall (P := fun b => ShowsGenuine _ (id b)) hgenuine (h.genuine r.dst),
      hkept, hsent⟩

theorem selected_of_reachable {id : A → S} (hid : Function.Injective id)
    {net : RegisterNet A S T R} (h : Network.Reachable (registerRules id) [] net) :
    Selected id net :=
  h.invariant (.init id) fun _ _ hr ih hs => ih.step hid hr hs

namespace Cluster

end Cluster
end Commute.Server
