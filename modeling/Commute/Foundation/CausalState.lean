import Mathlib.Data.Set.Basic
import Mathlib.Tactic.Common

/-!
# Causal histories with live dots

A replica that tracks causality knows a set of dots, its history, and some of
them are live. A dot that is known on one side and not live there was
superseded, so the join of two replicas keeps a live dot unless the other side
knows it and has dropped it. Causal states form a join semilattice.
-/
namespace Commute

/-- The dots a replica knows and those among them that are live. -/
@[ext]
structure CausalState (D : Type) where
  history : Set D
  live : Set D
  live_subset : live ⊆ history

namespace CausalState

variable {D : Type}

/-- Live dots survive where the other side has them or has never seen them. -/
def join (a b : CausalState D) : CausalState D where
  history := a.history ∪ b.history
  live := (a.live ∩ b.live) ∪ (a.live \ b.history) ∪ (b.live \ a.history)
  live_subset := by
    rintro d ((hd | hd) | hd)
    · exact Or.inl (a.live_subset hd.1)
    · exact Or.inl (a.live_subset hd.1)
    · exact Or.inr (b.live_subset hd.1)

theorem join_comm (a b : CausalState D) : a.join b = b.join a := by
  ext d
  · exact or_comm
  · simp only [join, Set.mem_union, Set.mem_inter_iff, Set.mem_sdiff]
    grind

theorem join_assoc (a b c : CausalState D) : (a.join b).join c = a.join (b.join c) := by
  ext d
  · exact or_assoc
  · have ha := @a.live_subset d
    have hb := @b.live_subset d
    have hc := @c.live_subset d
    simp only [join, Set.mem_union, Set.mem_inter_iff, Set.mem_sdiff]
    grind

theorem join_self (a : CausalState D) : a.join a = a := by
  ext d
  · exact or_self_iff
  · have ha := @a.live_subset d
    simp only [join, Set.mem_union, Set.mem_inter_iff, Set.mem_sdiff]
    grind

end CausalState
end Commute
