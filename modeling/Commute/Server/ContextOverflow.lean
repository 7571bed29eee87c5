import Commute.Foundation.Machine
import Commute.Server.SetStore

/-!
# Client contexts and the arithmetic of counters

A context may name any counter for any node, and a write raises the counters of
other nodes to it. In every run in which the counters of contexts leave room for
one increment per write, all counters stay below `2 ^ 63` and no entry has more
siblings than dots; then every slice bound is in range and nothing wraps around.
A context beyond that makes the store panic.
-/
namespace Commute.Server

open Crdt Gossip

/-- Stores and the sets of every message ever built. -/
structure SetCluster (A S : Type) where
  store : A → SetStore A S
  sent : List (FMap S (Option (ORSet64 S S)))

inductive SetCall (A S : Type) where
  | addSet (a : A) (key value : S) (vv : VV64 S)
  | removeSet (a : A) (key value : S) (vv : VV64 S)
  | delta (a peer : A)
  | merge (a : A) (payload : FMap S (Option (ORSet64 S S)))
  | ack (a sender : A) (seq : ℕ)

namespace SetStore

variable {A S : Type} [DecidableEq S] {b c : ℕ} {st : SetStore A S}

/-- All sets of the store and of its log have counters up to `b`. -/
def UpTo (b : ℕ) (st : SetStore A S) : Prop :=
  st.sets.All fun _ set => set.All (DVVSet64.UpTo b)

theorem UpTo.mono {b' : ℕ} (h : st.UpTo b) (hb : b ≤ b') : st.UpTo b' :=
  Ledger.All.imp (fun _ _ hset value ds hds => (hset value ds hds).mono hb) h

theorem UpTo.new (nodeID : S) : (SetStore.new nodeID : SetStore A S).UpTo b := Ledger.All.new _

theorem all_fresh (nodeID : S) : (ORSet64.new nodeID : ORSet64 S S).All (DVVSet64.UpTo b) := by
  simp [ORSet64.All, ORSet64.new]

theorem UpTo.ackSets [DecidableEq A] (h : st.UpTo b) (sender : A) (seq : ℕ) :
    (st.ackSets sender seq).UpTo b :=
  ⟨h.state, h.logged, h.history⟩

theorem UpTo.mergeSets (h : st.UpTo b) (hb : b < 2 ^ 63)
    {payload : FMap S (Option (ORSet64 S S))}
    (hpayload : ∀ key q, payload.lookup key = some q →
      ∃ set, q = some set ∧ set.All (DVVSet64.UpTo b)) :
    Outcome (fun _ => False) (UpTo b) (st.mergeSets payload) :=
  (Ledger.All.mergeAllM (ORSet64.safe_upTo hb) h (fun _ _ _ => all_fresh st.nodeID) hpayload).map
    fun _ hsets => hsets

variable [Inhabited S]

theorem UpTo.markSet (h : st.UpTo b) (hb : b + 1 < 2 ^ 63) {vv : VV64 S}
    (hvv : VV64.Below c vv) (hc : c ≤ b) (marker : Bool) (key value : S) :
    Outcome (fun _ => False) (UpTo (b + 1)) (st.markSet marker key value vv) := by
  have hset : (st.sets.valueOr (.new st.nodeID) key).All (DVVSet64.UpTo b) :=
    Ledger.All.valueOr h (all_fresh st.nodeID)
  have hdelta := ORSet64.all_mark hset (by omega) hvv hc marker value
  have hwrite := Ledger.All.writeM (ORSet64.safe_upTo hb) (h.mono (Nat.le_succ b))
    (all_fresh st.nodeID) hdelta
  exact hwrite.map fun _ hsets => hsets

theorem UpTo.addSet (h : st.UpTo b) (hb : b + 1 < 2 ^ 63) {vv : VV64 S}
    (hvv : VV64.Below c vv) (hc : c ≤ b) (key value : S) :
    Outcome (fun _ => False) (UpTo (b + 1)) (st.addSet key value vv) :=
  h.markSet hb hvv hc true key value

theorem UpTo.removeSet (h : st.UpTo b) (hb : b + 1 < 2 ^ 63) {vv : VV64 S}
    (hvv : VV64.Below c vv) (hc : c ≤ b) (key value : S) :
    Outcome (fun _ => False) (UpTo (b + 1)) (st.removeSet key value vv) := by
  cases hds : st.markers key value with
  | none =>
    rw [removeSet_of_none hds]
    exact h.mono (Nat.le_succ b)
  | some ds =>
    rw [removeSet_of_markers hds]
    exact h.markSet hb hvv hc false key value

theorem UpTo.deltaSets [DecidableEq A] (h : st.UpTo b) (hb : b < 2 ^ 63) (peer : A) :
    Outcome (fun _ => False) (fun r => r.2.UpTo b ∧ ∀ p, r.1.map Prod.snd = some p →
      ∀ key q, p.lookup key = some q → ∃ set, q = some set ∧ set.All (DVVSet64.UpTo b))
      (st.deltaSets peer) := by
  refine (Ledger.All.deltaM (ORSet64.safe_upTo hb) h peer).map fun r hr => ⟨hr.1, ?_⟩
  intro p hp key q hq
  obtain ⟨np, hnp, rfl⟩ := Option.map_eq_some_iff.mp hp
  obtain ⟨raw, hraw, rfl⟩ := Option.map_eq_some_iff.mp hnp
  rw [FMap.lookup_mapVals] at hq
  obtain ⟨set, hset, rfl⟩ := Option.map_eq_some_iff.mp hq
  exact ⟨set.decoded, rfl, hr.2 raw.1 raw.2 hraw key set hset⟩

end SetStore

namespace SetCall

variable {A S : Type}

def isWrite : SetCall A S → Bool
  | addSet .. => true
  | removeSet .. => true
  | _ => false

/-- Every counter of the context of a write is below `c`. -/
def ContextBelow [DecidableEq S] (c : ℕ) : SetCall A S → Prop
  | addSet _ _ _ vv => VV64.Below c vv
  | removeSet _ _ _ vv => VV64.Below c vv
  | _ => True

end SetCall

namespace SetCluster

variable {A S : Type}

def init (id : A → S) : SetCluster A S := ⟨fun a => .new (id a), []⟩

section UpTo

variable [DecidableEq S] {b : ℕ} {w : SetCluster A S}

/-- The counter that a write at `a` increments does not wrap around to zero. -/
def NoWrap (a : A) (key value : S) (w : SetCluster A S) : Prop :=
  ∀ set ds e, (w.store a).sets.state.lookup key = some set → set.state.lookup value = some ds →
    ds.state.lookup set.nodeID = some e → e.counter + 1 ≠ 0

/-- No counter that a call increments wraps around. -/
def CallNoWrap : SetCall A S → SetCluster A S → Prop
  | .addSet a key value _, w => w.NoWrap a key value
  | .removeSet a key value _, w => w.NoWrap a key value
  | _, _ => True

/-- All sets, in the stores, their logs and the messages, have counters up to `b`. -/
structure UpTo (b : ℕ) (w : SetCluster A S) : Prop where
  store : ∀ a, (w.store a).UpTo b
  sent : ∀ p ∈ w.sent, ∀ key q, p.lookup key = some q →
    ∃ set, q = some set ∧ set.All (DVVSet64.UpTo b)

theorem UpTo.mono {b' : ℕ} (h : w.UpTo b) (hb : b ≤ b') : w.UpTo b' where
  store a := (h.store a).mono hb
  sent p hp key q hq := by
    obtain ⟨set, hset, hall⟩ := h.sent p hp key q hq
    exact ⟨set, hset, fun value ds hds => (hall value ds hds).mono hb⟩

theorem UpTo.init (id : A → S) : (init id).UpTo b where
  store _ := .new _
  sent := by simp [SetCluster.init]

theorem UpTo.noWrap (h : w.UpTo b) (hb : b < 2 ^ 63) (a : A) (key value : S) :
    w.NoWrap a key value := by
  intro set ds e hset hds he hzero
  have hle := ((h.store a).state key set hset value ds hds _ e he).2
  have hsucc := congrArg UInt64.toNat hzero
  rw [UInt64.toNat_add, UInt64.toNat_one, UInt64.toNat_zero] at hsucc
  omega

theorem UpTo.callNoWrap (h : w.UpTo b) (hb : b < 2 ^ 63) (k : SetCall A S) : CallNoWrap k w := by
  cases k with
  | addSet a key value vv => exact h.noWrap hb a key value
  | removeSet a key value vv => exact h.noWrap hb a key value
  | delta a peer => trivial
  | merge a payload => trivial
  | ack a sender seq => trivial

end UpTo

variable [DecidableEq A]

def put (a : A) (st : SetStore A S) (w : SetCluster A S) : SetCluster A S :=
  { w with store := Function.update w.store a st }

variable [DecidableEq S]

theorem UpTo.put {b : ℕ} {w : SetCluster A S} (h : w.UpTo b) (a : A) {st : SetStore A S}
    (hst : st.UpTo b) : (w.put a st).UpTo b where
  store a' := by
    change SetStore.UpTo b (Function.update w.store a st a')
    rw [Function.update_apply]
    split_ifs
    · exact hst
    · exact h.store a'
  sent := h.sent

/-- Only a message that was built is merged, its keys in any order. -/
def Enabled : SetCall A S → SetCluster A S → Prop
  | .merge _ payload, w => ∃ p ∈ w.sent, payload.entries.Perm p.entries
  | _, _ => True

variable [Inhabited S]

def call : SetCall A S → SetCluster A S → Except Fault (SetCluster A S)
  | .addSet a key value vv, w => ((w.store a).addSet key value vv).map fun st => w.put a st
  | .removeSet a key value vv, w => ((w.store a).removeSet key value vv).map fun st => w.put a st
  | .delta a peer, w => ((w.store a).deltaSets peer).map fun r =>
    { w.put a r.2 with sent := (r.1.map Prod.snd).toList ++ w.sent }
  | .merge a payload, w => ((w.store a).mergeSets payload).map fun st => w.put a st
  | .ack a sender seq, w => .ok (w.put a ((w.store a).ackSets sender seq))

/-- Calls one after the other, until one of them panics. -/
def machine : Machine (Except Fault (SetCluster A S)) (SetCall A S) where
  enabled c s := ∀ w, s = .ok w → Enabled c w
  exec c s := s >>= call c

section Runs

variable {b c : ℕ} {w : SetCluster A S}

/-- What one call of a run does: it returns, and a write raises the bound by one. -/
theorem UpTo.call (h : w.UpTo b) {k : SetCall A S} (henabled : Enabled k w)
    (hcontext : k.ContextBelow c) (hc : c ≤ b) (hb : b + k.isWrite.toNat < 2 ^ 63) :
    Outcome (fun _ => False) (UpTo (b + k.isWrite.toNat)) (call k w) := by
  cases k with
  | addSet a key value vv =>
    exact ((h.store a).addSet hb hcontext hc key value).map fun st hst =>
      (h.mono (Nat.le_succ b)).put a hst
  | removeSet a key value vv =>
    exact ((h.store a).removeSet hb hcontext hc key value).map fun st hst =>
      (h.mono (Nat.le_succ b)).put a hst
  | delta a peer =>
    refine ((h.store a).deltaSets hb peer).map fun r hr => ⟨(h.put a hr.1).store, ?_⟩
    intro p hp
    rcases List.mem_append.mp hp with hp | hp
    · exact hr.2 p (Option.mem_toList.mp hp)
    · exact h.sent p hp
  | merge a payload =>
    obtain ⟨p, hp, hperm⟩ := henabled
    refine ((h.store a).mergeSets hb ?_).map fun st hst => h.put a hst
    intro key q hq
    exact h.sent p hp key q (AList.perm_lookup hperm ▸ hq)
  | ack a sender seq => exact h.put a ((h.store a).ackSets sender seq)

/-- Every call of a run returns. -/
theorem UpTo.run {id : A → S} {calls : List (SetCall A S)}
    (hlegal : (machine.restrict fun k _ => k.ContextBelow c).Legal (.ok (SetCluster.init id)) calls)
    (hroom : c + calls.countP SetCall.isWrite < 2 ^ 63) :
    ∃ w, machine.after (.ok (SetCluster.init id)) calls = .ok w ∧
      w.UpTo (c + calls.countP SetCall.isWrite) := by
  revert hroom
  refine hlegal.snoc_induction (P := fun calls => c + calls.countP SetCall.isWrite < 2 ^ 63 →
    ∃ w, machine.after (.ok (SetCluster.init id)) calls = .ok w ∧
      w.UpTo (c + calls.countP SetCall.isWrite)) (fun _ => ⟨_, rfl, .init id⟩) ?_
  intro calls k _ hk ih hroom
  have hcount : (calls ++ [k]).countP SetCall.isWrite =
      calls.countP SetCall.isWrite + k.isWrite.toNat := by
    rw [List.countP_append, List.countP_singleton]
    cases k.isWrite <;> rfl
  rw [hcount, ← Nat.add_assoc] at hroom ⊢
  obtain ⟨w, hw, hup⟩ := ih (by omega)
  rw [Machine.after_restrict, hw] at hk
  obtain ⟨w', hw', hup'⟩ := (hup.call (hk.1 w rfl) hk.2 (Nat.le_add_right _ _) hroom).exists_ok
  refine ⟨w', ?_, hup'⟩
  rw [Machine.after_append, hw]
  exact hw'

/-- As long as the contexts of a run leave room for one increment per write, every call of
the run returns and increments no counter beyond the range of its type. -/
theorem contexts_inRange (id : A → S) (c : ℕ) (calls : List (SetCall A S))
    (hlegal : (machine.restrict fun k _ => k.ContextBelow c).Legal (.ok (SetCluster.init id)) calls)
    (hroom : c + calls.countP SetCall.isWrite < 2 ^ 63) (before : List (SetCall A S))
    (k : SetCall A S) (rest : List (SetCall A S)) (hcalls : calls = before ++ k :: rest) :
    ∃ w w', machine.after (.ok (SetCluster.init id)) before = .ok w ∧ call k w = .ok w' ∧
      CallNoWrap k w := by
  subst hcalls
  obtain ⟨hbefore, hk, -⟩ := Machine.legal_append.mp hlegal
  rw [List.countP_append, List.countP_cons] at hroom
  obtain ⟨w, hw, hup⟩ := UpTo.run hbefore (by omega)
  rw [Machine.after_restrict, hw] at hk
  have hwrite : k.isWrite.toNat = if k.isWrite = true then 1 else 0 := by
    cases k.isWrite <;> rfl
  obtain ⟨w', hw', -⟩ :=
    (hup.call (hk.1 w rfl) hk.2 (Nat.le_add_right _ _) (by omega)).exists_ok
  exact ⟨w, w', hw, hw', hup.callNoWrap (by omega) k⟩

end Runs

/-- One store adds an element and another one, which has merged that, writes the element with
a context that names the counter `n` of the first store. -/
def raisingCalls (n : UInt64) : List (SetCall Bool String) :=
  [.addSet false "k" "x" ∅, .delta false true,
    .merge true (AList.singleton "k"
      (some ⟨"", AList.singleton "x" ⟨AList.singleton "b" ⟨1, [true]⟩⟩⟩)),
    .addSet true "k" "x" (AList.singleton "b" n)]

def raisingID (a : Bool) : String := if a then "a" else "b"

theorem raisingCalls_legal (n : UInt64) :
    machine.Legal (.ok (SetCluster.init raisingID)) (raisingCalls n) := by
  refine ⟨fun _ _ => trivial, fun _ _ => trivial, ?_, fun _ _ => trivial, trivial⟩
  rintro w ⟨⟩
  exact ⟨_, List.mem_cons_self, .rfl⟩

/-- A context that raises the counter of the other store to 5. -/
theorem contexts_inRange_raised : ∃ w w',
    machine.after (.ok (SetCluster.init raisingID)) ((raisingCalls 5).take 3) = .ok w ∧
      call (.addSet true "k" "x" (AList.singleton "b" 5)) w = .ok w' ∧
      CallNoWrap (.addSet true "k" "x" (AList.singleton "b" 5)) w := by
  obtain ⟨hadd, hdelta, hmerge, hraise, -⟩ := raisingCalls_legal 5
  have hcontext : VV64.Below 6 (AList.singleton "b" 5 : VV64 String) := by
    intro i x hx
    simp only [FMap.lookup_singleton, Option.ite_none_right_eq_some, Option.some.injEq] at hx
    rw [← hx.2]
    decide
  exact contexts_inRange raisingID 6 (raisingCalls 5)
    ⟨⟨hadd, by simp [SetCall.ContextBelow, VV64.Below]⟩, ⟨hdelta, trivial⟩, ⟨hmerge, trivial⟩,
      ⟨hraise, hcontext⟩, trivial⟩ (by decide) _ _ [] rfl

/-- The slice bound `int(2^64 - 2) + 1` is negative. -/
theorem contexts_overflow :
    machine.Legal (.ok (SetCluster.init raisingID)) (raisingCalls 18446744073709551615) ∧
      machine.after (.ok (SetCluster.init raisingID)) (raisingCalls 18446744073709551615) =
        .error .panic :=
  ⟨raisingCalls_legal _, rfl⟩

end SetCluster
end Commute.Server
