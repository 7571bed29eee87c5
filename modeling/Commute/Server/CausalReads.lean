import Commute.Server.Acks
import Commute.Server.ServerRuns

/-!
# What the servers answer

Every read is a function of the writes its server has heard of, whatever was lost, delayed,
repeated or reordered, however the sections of the calls were interleaved and whichever
peers came and went. Servers that have heard of the same writes answer alike.
-/
namespace Commute.Server

open Crdt Gossip Swim

variable {S T R : Type} [LinearOrder S]

theorem sum_count_eq_total {id : Bytes → S} {us : List (CounterUpdate Bytes S)} {key : S}
    {pn : PNCounter S} {isIncrement : Bool}
    (h : ∀ i, (side isIncrement pn).count i = nodeTotal id us isIncrement key i) :
    ((side isIncrement pn).entries.keys.map (side isIncrement pn).count).sum =
      total us isIncrement key := by
  rw [funext h]
  refine sum_nodeTotal id isIncrement key (AList.keys_nodup _) us fun i hi => ?_
  rw [← h] at hi
  by_contra hmem
  rw [GCounter.count_eq_zero_of_notMem (AList.lookup_eq_none.mpr hmem)] at hi
  exact absurd hi (lt_irrefl 0)

namespace Refines

variable [Inhabited S] [Instant T] [Inhabited R] {id : Bytes → S} {allowed : Servers.Contexts S}
  {w : Servers S T R}

theorem getCounter (h : Refines id allowed w) (hid : Function.Injective id)
    (hfit : ∀ isIncrement key i, nodeTotal id w.updates isIncrement key i < 2 ^ 64) (a : Bytes)
    (key : S) :
    ((w.store a).getCounter key).1.toInt =
      ((total (known (w.past a).counters w.updates) true key : ℤ) -
        total (known (w.past a).counters w.updates) false key).bmod (2 ^ 64) ∧
    (((w.store a).getCounter key).2 = true ↔
      ∃ u ∈ known (w.past a).counters w.updates, u.key = key) := by
  obtain ⟨n, hn⟩ := h.counters
  have hledger : n.net.ledger a = (w.store a).counters := hn.ledger a
  have hpast : n.past a = (w.past a).counters := hn.past a
  have hfit' : ∀ isIncrement key i, nodeTotal id n.net.ghost isIncrement key i < 2 ^ 64 :=
    hn.ghost.symm ▸ hfit
  have hcount := count_eq_known hid hn.reachable hfit' a
  have hexists := exists_counter_iff hid hn.reachable hfit' a key
  rw [hledger, hpast, hn.ghost] at hcount hexists
  constructor
  · have hget : ((w.store a).getCounter key).1 =
        ((w.store a).counters.valueOr (.new (id a)) key).value := by
      unfold Store.getCounter Ledger.valueOr
      cases (w.store a).counters.state.lookup key with
      | none => exact (PNCounter.value_new (id a)).symm
      | some v => rfl
    rw [hget, PNCounter.value_toInt]
    have hinc := sum_count_eq_total (hcount true key)
    have hdec := sum_count_eq_total (hcount false key)
    exact congrArg₂ (fun i d : ℕ => ((i : ℤ) - d).bmod (2 ^ 64)) hinc hdec
  · rw [← hexists]
    unfold Store.getCounter
    cases (w.store a).counters.state.lookup key <;> simp

theorem getRegister [LinearOrder T] [LinearInstant T] (h : Refines id allowed w) (a : Bytes)
    (key : S) :
    (((w.store a).getRegister key).2 = true ↔
      ∃ e, (key, e) ∈ known (w.past a).registers w.writes) ∧
    (((w.store a).getRegister key).2 = true →
      ∃ e : LWWEntry S T R, ((w.store a).getRegister key).1 = e.value ∧
        (e = default ∨ (key, e) ∈ known (w.past a).registers w.writes) ∧
        ∀ e', (key, e') ∈ known (w.past a).registers w.writes → e'.stamp ≤ e.stamp) := by
  obtain ⟨n, hn⟩ := h.registers
  have hledger : n.net.ledger a = (w.store a).registers := hn.ledger a
  have hpast : n.past a = (w.past a).registers := hn.past a
  have hexists := exists_register_iff hn.reachable a key
  have hknown := (fromKnown_of_reachable hn.reachable).ledger a
  have hlatest : ∀ e : LWWEntry S T R, (key, e) ∈ known (n.past a) n.net.ghost →
      ∃ lww, (n.net.ledger a).state.lookup key = some lww ∧ e.stamp ≤ lww.entry.stamp :=
    fun e he => stamp_le_of_known hn.reachable he
  rw [hledger, hpast, hn.ghost] at hexists hknown hlatest
  unfold Store.getRegister
  rw [← hexists]
  cases hlookup : (w.store a).registers.state.lookup key with
  | none => simp
  | some lww =>
    refine ⟨by simp, fun _ => ⟨lww.entry, rfl, hknown.state key lww hlookup, fun e' he' => ?_⟩⟩
    obtain ⟨lww', hlww', hle⟩ := hlatest e' he'
    obtain rfl := Option.some.inj (hlookup.symm.trans hlww')
    exact hle

theorem mem_getSet_iff (h : Refines id (fun v => v.OwnReturned) w) (hid : Function.Injective id)
    (a : Bytes) (key value : S) :
    value ∈ ((w.store a).getSet key).1 ↔
      ∃ ev ∈ w.history.heard (w.past a).sets (key, value), ev.value = true ∧
        ∀ ev' ∈ w.history.heard (w.past a).sets (key, value),
          ev'.context.get ev.node < ev.dot := by
  obtain ⟨n, hn⟩ := h.sets
  have hledger : n.net.ledger a = (w.store a).sets := hn.ledger a
  have hpast : n.past a = (w.past a).sets := hn.past a
  have hmem := mem_values_iff_heard hid hn.reachable a key value
  rw [hledger, hpast, hn.ghost] at hmem
  rw [← hmem]
  unfold Store.getSet
  cases (w.store a).sets.state.lookup key <;> simp

end Refines

namespace Servers

variable [Inhabited S] [Instant T] [Inhabited R] {id : Bytes → S} {allowed : Contexts S}
  {w : Servers S T R}

theorem refines_of_reaches (h : (machine allowed).Reaches (init id) w) : Refines id allowed w := by
  obtain ⟨as, has, rfl⟩ := h
  exact Refines.after has

def nodeA : Bytes := [97, 58, 49]

def nodeB : Bytes := [98, 58, 49]

def bytesID : Bytes → ℕ
  | [] => 0
  | b :: a => 256 * bytesID a + b.toNat + 1

theorem bytesID_injective : Function.Injective bytesID := by
  intro a
  induction a with
  | nil => rintro (_ | _) h <;> simp_all [bytesID]
  | cons b a ih =>
    rintro (_ | ⟨c, a'⟩) h <;> simp only [bytesID] at h
    · omega
    · have hb := b.toNat_lt
      have hc := c.toNat_lt
      have hhead : b = c := UInt8.toNat_inj.mp (by omega)
      rw [hhead, ih (show bytesID a = bytesID a' by omega)]

/-- Two servers meet, one of them takes writes and gossips. It takes another increment
between two sections of `Delta`. -/
def gossiping : List (Action ℕ ℕ ℕ) :=
  [.notify nodeA ⟨nodeB, 1⟩ .alive, .notify nodeB ⟨nodeA, 1⟩ .alive,
    .incrementCounter nodeA 7 5, .setRegister nodeA 7 3 1, .addSet nodeA 7 8 ∅,
    .tick nodeA 0, .delta nodeA, .incrementCounter nodeA 7 2, .delta nodeA, .delta nodeA]

def gossiped : Servers ℕ ℕ ℕ :=
  (machine fun v => v.OwnReturned).after (init bytesID) gossiping

/-- The other server merges the message, and the first section of `Ack` runs. -/
def answering : List (Action ℕ ℕ ℕ) :=
  [.postGossip 0 (gossiped.requests.head (by decide +kernel)).msg, .merge 0, .merge 0, .merge 0,
    .postAck 0, .ack 0]

def answered : Servers ℕ ℕ ℕ :=
  (machine fun v => v.OwnReturned).after (init bytesID) (gossiping ++ answering)

end Servers
end Commute.Server
