import Commute.Gossip.Recorded
import Commute.Server.CounterTotals

/-!
# Building a message is not observable

`Delta` edits the log of the counters in place. No read of a counter depends on the
log, and every later message has, for each key and node, the maximum of what was
recorded since the peer's acknowledgement, as it was recorded. So calls of `Delta`
can be put anywhere into a run of a store without changing what it answers.
-/
namespace Commute.Server

open Crdt Gossip

inductive Op (A S T R : Type)
  | incrementCounter (key : S) (value : UInt64)
  | decrementCounter (key : S) (value : UInt64)
  | setRegister (key : S) (value : R) (now : T)
  | addSet (key value : S) (vv : VV S)
  | removeSet (key value : S) (vv : VV S)
  | merge (msg : Message S T R)
  | ack (sender : A) (body : AckMessage)
  | delta (peer : A)

def Op.isDelta {A S T R : Type} : Op A S T R → Bool
  | .delta _ => true
  | _ => false

def withoutLog {A K V : Type} (l : Ledger A K V) : Ledger A K V := { l with deltas := ∅ }

section WithoutLog

variable {A K V : Type} [DecidableEq K] [DeltaValue V]

theorem withoutLog_join {l l' : Ledger A K V} (h : withoutLog l = withoutLog l') (fresh : V)
    (k : K) (d : V) : withoutLog (l.join fresh k d) = withoutLog (l'.join fresh k d) := by
  have := congrArg (fun m => withoutLog (Ledger.join fresh k d m)) h
  exact this

theorem withoutLog_mergeAll {l l' : Ledger A K V} (h : withoutLog l = withoutLog l') (fresh : V)
    (payload : FMap K V) :
    withoutLog (l.mergeAll fresh payload) = withoutLog (l'.mergeAll fresh payload) := by
  unfold Ledger.mergeAll
  generalize payload.entries = es
  induction es generalizing l l' with
  | nil => exact h
  | cons e es ih =>
    refine ih ?_
    have hstate : l.state = l'.state := congrArg (fun m => m.state) h
    dsimp only [Ledger.mergeKey]
    rw [hstate]
    split
    · split_ifs
      · exact h
      · exact withoutLog_join h fresh e.1 e.2
    · exact withoutLog_join h fresh e.1 e.2

theorem withoutLog_delta [DecidableEq A] (l : Ledger A K V) (peer : A) :
    withoutLog (l.delta peer).2 = withoutLog l := by
  rcases Ledger.delta_cases peer l with ⟨-, h⟩ | ⟨-, -, h⟩ | ⟨-, -, h⟩
  · rw [h]
  · rw [h]
    rfl
  · rw [h]

end WithoutLog

namespace Store

variable {A S T R : Type} [DecidableEq A] [LinearOrder S] [Inhabited S] [Instant T]

theorem delta_counters (peer : A) (st : Store A S T R) :
    (st.delta peer).2.counters = (st.counters.delta peer).2 := by
  unfold delta
  dsimp only
  split_ifs with hnone
  · -- without news the log is not touched
    rcases Ledger.delta_cases peer st.counters with ⟨-, h⟩ | ⟨-, -, h⟩ | ⟨-, -, h⟩
    · rw [h]
    · rw [h] at hnone
      cases hnone.1
    · rw [h]
  · rfl

theorem delta_msg_counters {peer : A} {st : Store A S T R} {msg : Message S T R}
    (h : (st.delta peer).1 = some msg) :
    msg.counters = ((st.counters.delta peer).1.getD (0, ∅)).2 := by
  rw [(delta_eq_some h).2]

variable [Inhabited R]

def exec : Op A S T R → Store A S T R → Store A S T R
  | .incrementCounter key value, st => st.incrementCounter key value
  | .decrementCounter key value, st => st.decrementCounter key value
  | .setRegister key value now, st => st.setRegister key value now
  | .addSet key value vv, st => st.addSet key value vv
  | .removeSet key value vv, st => st.removeSet key value vv
  | .merge msg, st => (st.merge msg).2
  | .ack sender body, st => st.ack sender body
  | .delta peer, st => (st.delta peer).2

def run (ops : List (Op A S T R)) (st : Store A S T R) : Store A S T R :=
  ops.foldl (fun st op => st.exec op) st

theorem exec_nodeID (op : Op A S T R) (st : Store A S T R) : (st.exec op).nodeID = st.nodeID := by
  cases op with
  | removeSet key value vv =>
    simp only [exec, removeSet]
    split
    · rfl
    · split_ifs <;> rfl
  | delta peer =>
    simp only [exec, delta]
    split_ifs <;> rfl
  | _ => rfl

/-- What joins, acknowledgements and the building of messages keep, every call keeps. -/
theorem exec_counters_invariant {I : Ledger A S (PNCounter S) → Prop} (op : Op A S T R)
    {st : Store A S T R} (hjoin : ∀ l k d, I l → I (l.join (.new st.nodeID) k d))
    (hack : ∀ l a n, I l → I (l.ack a n)) (hdelta : ∀ l a, I l → I (l.delta a).2)
    (h : I st.counters) : I (st.exec op).counters := by
  cases op with
  | incrementCounter key value | decrementCounter key value => exact hjoin _ _ _ h
  | setRegister key value now | addSet key value vv => exact h
  | removeSet key value vv => exact removeSet_counters key value vv st ▸ h
  | merge msg => exact Ledger.mergeAll_invariant (fun l k v _ hl => hjoin l k v hl) h
  | ack sender body => exact hack _ _ _ h
  | delta peer =>
    rw [exec, delta_counters]
    exact hdelta _ _ h

theorem run_backed (ops : List (Op A S T R)) (id : S) :
    (run ops (.new id)).counters.Coherent (.new id) ∧
      (run ops (.new id)).counters.LogBacked := by
  have hrun : ∀ st : Store A S T R, st.nodeID = id →
      st.counters.Coherent (.new id) ∧ st.counters.LogBacked →
      (run ops st).counters.Coherent (.new id) ∧ (run ops st).counters.LogBacked := by
    induction ops with
    | nil => exact fun st _ h => h
    | cons op ops ih =>
      rintro st rfl h
      refine ih (st.exec op) (exec_nodeID op st) ?_
      exact exec_counters_invariant
        (I := fun l => l.Coherent (PNCounter.new st.nodeID) ∧ l.LogBacked)
        op (fun l k d hl => ⟨hl.1.join k d, hl.2.join hl.1 k d⟩)
        (fun l a n hl => ⟨hl.1.ack a n, { hl.2 with }⟩)
        (fun l a hl => ⟨hl.1.delta a, hl.2.delta a⟩) h
  exact hrun (.new id) rfl ⟨.new _, .new⟩

/-- A call other than `Delta` does the same to the counters whatever their log. -/
theorem withoutLog_exec {op : Op A S T R} (hop : op.isDelta = false) {st st' : Store A S T R}
    (hid : st.nodeID = st'.nodeID) (h : withoutLog st.counters = withoutLog st'.counters) :
    withoutLog (st.exec op).counters = withoutLog (st'.exec op).counters := by
  have hvalue : ∀ fresh key, st.counters.valueOr fresh key = st'.counters.valueOr fresh key := by
    intro fresh key
    have := congrArg (fun m => Ledger.valueOr m fresh key) h
    exact this
  cases op with
  | incrementCounter key value | decrementCounter key value =>
    simp only [exec, incrementCounter, decrementCounter, Ledger.write, hid, hvalue]
    exact withoutLog_join h _ _ _
  | setRegister key value now | addSet key value vv => exact h
  | removeSet key value vv =>
    rw [exec, exec, removeSet_counters, removeSet_counters]
    exact h
  | merge msg =>
    simp only [exec, merge, hid]
    exact withoutLog_mergeAll h _ _
  | ack sender body =>
    have := congrArg (fun m => withoutLog (Ledger.ack sender body.countersSeq m)) h
    exact this
  | delta peer => cases hop

/-- Leaving out every call of `Delta` changes nothing but the log. -/
theorem withoutLog_run (ops : List (Op A S T R)) {st st' : Store A S T R}
    (hid : st.nodeID = st'.nodeID) (h : withoutLog st.counters = withoutLog st'.counters) :
    withoutLog (run ops st).counters =
      withoutLog (run (ops.filter fun op => !op.isDelta) st').counters := by
  induction ops generalizing st st' with
  | nil => exact h
  | cons op ops ih =>
    cases hop : op.isDelta with
    | true =>
      rw [List.filter_cons_of_neg (by simp [hop])]
      refine ih ((exec_nodeID op st).trans hid) ?_
      cases op with
      | delta peer =>
        change withoutLog (st.delta peer).2.counters = _
        rw [delta_counters, withoutLog_delta]
        exact h
      | _ => cases hop
    | false =>
      rw [List.filter_cons_of_pos (by simp [hop])]
      refine ih ?_ (withoutLog_exec hop hid h)
      rw [exec_nodeID, exec_nodeID, hid]

def maxCount (isIncrement : Bool) (i : S) (ds : List (PNCounter S)) : ℕ :=
  (ds.map fun d => (side isIncrement d).count i).foldl max 0

theorem count_foldl_merge (isIncrement : Bool) (i : S) (ds : List (PNCounter S))
    (x : PNCounter S) : (side isIncrement (ds.foldl DeltaValue.merge x)).count i =
      (ds.map fun d => (side isIncrement d).count i).foldl max ((side isIncrement x).count i) := by
  induction ds generalizing x with
  | nil => rfl
  | cons d ds ih =>
    rw [List.foldl_cons, ih, List.map_cons, List.foldl_cons]
    congr 1
    exact count_side_merge isIncrement x d i

theorem count_collect {ds : List (PNCounter S)} {x : PNCounter S} (h : collect ds = some x)
    (isIncrement : Bool) (i : S) : (side isIncrement x).count i = maxCount isIncrement i ds := by
  cases ds with
  | nil => cases h
  | cons d ds =>
    rw [collect_cons] at h
    obtain rfl := Option.some.inj h
    rw [count_foldl_merge, maxCount, List.map_cons, List.foldl_cons, Nat.zero_max]

theorem count_of_rel {ds : List (PNCounter S)} {x : Option (PNCounter S)}
    (h : Option.Rel (fun x y => DeltaValue.Le x y ∧ DeltaValue.Le y x) x (collect ds)) :
    (x.isSome ↔ ds ≠ []) ∧ ∀ pn, x = some pn → ∀ isIncrement i,
      (side isIncrement pn).count i = maxCount isIncrement i ds := by
  generalize hy : collect ds = y at h
  cases h with
  | none => simpa using collect_eq_none.mp hy
  | @some pn pn' hle =>
    refine ⟨?_, ?_⟩
    · simp [← collect_eq_none.not, hy]
    · rintro _ ⟨⟩ isIncrement i
      rw [le_iff_side, le_iff_side] at hle
      rw [← count_collect hy]
      exact Nat.le_antisymm (hle.1 isIncrement i) (hle.2 isIncrement i)

/-- `Delta` is not observable: reads are those of the run without it, and every message has
exactly the keys and counts of what was recorded since the acknowledgement. -/
theorem delta_pure (id : S) (ops : List (Op A S T R)) :
    (∀ key, (run ops (.new id)).getCounter key =
      (run (ops.filter fun op => !op.isDelta) (.new id)).getCounter key) ∧
    ∀ q msg, ((run ops (.new id)).delta q).1 = some msg → ∀ key,
      let l := (run ops (.new id)).counters
      ((msg.counters.lookup key).isSome ↔ l.recordedFrom (l.acked q) key ≠ []) ∧
      ∀ pn, msg.counters.lookup key = some pn → ∀ isIncrement i,
        (side isIncrement pn).count i =
          maxCount isIncrement i (l.recordedFrom (l.acked q) key) := by
  refine ⟨?_, ?_⟩
  · intro key
    have hlog : withoutLog (run ops (.new id)).counters =
        withoutLog (run (ops.filter fun op => !op.isDelta) (.new id)).counters :=
      withoutLog_run ops rfl rfl
    have hstate : (run ops (.new id)).counters.state =
        (run (ops.filter fun op => !op.isDelta) (.new id)).counters.state :=
      congrArg (fun m => m.state) hlog
    rw [getCounter, getCounter, hstate]
  · intro q msg hmsg key l
    obtain ⟨hcoherent, hbacked⟩ := run_backed ops id
    have hfresh : ∀ pn : PNCounter S, DeltaValue.Le (.new id) pn := by
      intro pn
      rw [le_iff_side]
      simp
    have hrel := hbacked.delta_rel hcoherent hfresh q key
    rw [← delta_msg_counters hmsg] at hrel
    exact count_of_rel hrel

end Store
end Commute.Server
