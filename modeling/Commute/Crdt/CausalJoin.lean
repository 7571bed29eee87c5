import Commute.Foundation.CausalState
import Commute.Crdt.DVVSet64

/-!
# `Sync` is the causal join

A `DVVSet` represents a causal state: its dots are the history, the dots that
carry a sibling are live. Once it is fixed which value belongs to which dot, the
causal state determines the entries, up to an entry without dots. So `Sync`
inherits the laws of the causal join.
-/
namespace Commute.Crdt

variable {N T : Type} [DecidableEq N]

namespace DVVSet

/-- The entry of a node, which has no dots if it is absent. -/
def entry (ds : DVVSet N T) (i : N) : DVVEntry T := (ds.state.lookup i).getD ⟨0, []⟩

/-- The dots of an entry `(i, n, l)` are `(i, 1), …, (i, n)`; the last `|l|` are live. -/
def causal (ds : DVVSet N T) : CausalState (N × ℕ) where
  history := {d | 1 ≤ d.2 ∧ d.2 ≤ ds.top d.1}
  live := {d | ds.low d.1 < d.2 ∧ d.2 ≤ ds.top d.1}
  live_subset := fun _ hd => ⟨Nat.one_le_of_lt hd.1, hd.2⟩

/-- The `k`-th sibling of an entry with counter `n` is the value of the dot `n - k`. -/
def Assigned (assign : N → ℕ → T) (ds : DVVSet N T) : Prop :=
  ∀ i e, ds.state.lookup i = some e →
    e.values.length ≤ e.counter ∧ ∀ k v, e.values[k]? = some v → v = assign i (e.counter - k)

theorem entry_counter (ds : DVVSet N T) (i : N) : (ds.entry i).counter = ds.top i := by
  unfold entry top
  cases ds.state.lookup i <;> rfl

theorem entry_low (ds : DVVSet N T) (i : N) :
    (ds.entry i).counter - (ds.entry i).values.length = ds.low i := by
  unfold entry low
  cases ds.state.lookup i <;> rfl

theorem causal_congr {a b : DVVSet N T} (h : ∀ i, a.state.lookup i = b.state.lookup i) :
    a.causal = b.causal := by
  have htop : a.top = b.top := funext fun i => by rw [top, top, h]
  have hlow : a.low = b.low := funext fun i => by rw [low, low, h]
  ext ⟨i, n⟩
  · change 1 ≤ n ∧ n ≤ a.top i ↔ 1 ≤ n ∧ n ≤ b.top i
    rw [htop]
  · change a.low i < n ∧ n ≤ a.top i ↔ b.low i < n ∧ n ≤ b.top i
    rw [htop, hlow]

theorem Bounded.causal_sync {a b : DVVSet N T} (ha : a.Bounded) (hb : b.Bounded) :
    (a.sync b).causal = a.causal.join b.causal := by
  ext ⟨i, n⟩
  · change 1 ≤ n ∧ n ≤ (a.sync b).top i ↔
      (1 ≤ n ∧ n ≤ a.top i) ∨ (1 ≤ n ∧ n ≤ b.top i)
    rw [top_sync]
    omega
  · have hla := a.low_le_top i
    have hlb := b.low_le_top i
    change (a.sync b).low i < n ∧ n ≤ (a.sync b).top i ↔
      (((a.low i < n ∧ n ≤ a.top i) ∧ b.low i < n ∧ n ≤ b.top i) ∨
        (a.low i < n ∧ n ≤ a.top i) ∧ ¬ (1 ≤ n ∧ n ≤ b.top i)) ∨
      (b.low i < n ∧ n ≤ b.top i) ∧ ¬ (1 ≤ n ∧ n ≤ a.top i)
    rw [top_sync, ha.low_sync hb]
    omega

/-- The counters and lower bounds can be read off the causal state. -/
theorem top_low_of_causal_eq {a b : DVVSet N T} (h : a.causal = b.causal) (i : N) :
    a.top i = b.top i ∧ a.low i = b.low i := by
  have hhistory : ∀ n, (1 ≤ n ∧ n ≤ a.top i) ↔ (1 ≤ n ∧ n ≤ b.top i) := fun n =>
    Set.ext_iff.mp (congrArg CausalState.history h) (i, n)
  have hlive : ∀ n, (a.low i < n ∧ n ≤ a.top i) ↔ (b.low i < n ∧ n ≤ b.top i) := fun n =>
    Set.ext_iff.mp (congrArg CausalState.live h) (i, n)
  have htop : a.top i = b.top i := by
    have h₁ := hhistory (a.top i)
    have h₂ := hhistory (b.top i)
    omega
  refine ⟨htop, ?_⟩
  have hla := a.low_le_top i
  have hlb := b.low_le_top i
  have h₁ := hlive (a.low i)
  have h₂ := hlive (b.low i)
  omega

section Assigned

variable {assign : N → ℕ → T} {a b : DVVSet N T}

theorem Assigned.bounded (h : a.Assigned assign) : a.Bounded := fun i e he => (h i e he).1

theorem Assigned.entry (h : a.Assigned assign) (i : N) :
    (a.entry i).values.length ≤ (a.entry i).counter ∧
      ∀ k v, (a.entry i).values[k]? = some v → v = assign i ((a.entry i).counter - k) := by
  unfold DVVSet.entry
  cases he : a.state.lookup i with
  | none => simp
  | some e => exact h i e he

theorem Assigned.sync (ha : a.Assigned assign) (hb : b.Assigned assign) :
    (a.sync b).Assigned assign := by
  intro i e he
  refine ⟨ha.bounded.sync hb.bounded i e he, ?_⟩
  rw [sync_lookup] at he
  cases hob : b.state.lookup i with
  | none =>
    simp only [hob] at he
    exact (ha i e he).2
  | some y =>
    cases hoa : a.state.lookup i with
    | none =>
      simp only [hob, hoa, Option.some.injEq] at he
      exact he ▸ (hb i y hob).2
    | some x =>
      simp only [hob, hoa, Option.some.injEq] at he
      intro k v hv
      rw [← he, syncEntry] at hv ⊢
      split_ifs at hv ⊢
      · exact (ha i x hoa).2 k v (getElem?_of_take hv)
      · exact (hb i y hob).2 k v (getElem?_of_take hv)

/-- Where the values of dots are fixed, the causal state determines the entries. -/
theorem Assigned.entry_eq (ha : a.Assigned assign) (hb : b.Assigned assign)
    (h : a.causal = b.causal) (i : N) : a.entry i = b.entry i := by
  obtain ⟨htop, hlow⟩ := top_low_of_causal_eq h i
  obtain ⟨hla, hva⟩ := ha.entry i
  obtain ⟨hlb, hvb⟩ := hb.entry i
  rw [← entry_counter, ← entry_counter] at htop
  rw [← entry_low, ← entry_low] at hlow
  have hlen : (a.entry i).values.length = (b.entry i).values.length := by omega
  have hvalues : (a.entry i).values = (b.entry i).values := by
    apply List.ext_getElem hlen
    intro k hk hk'
    rw [hva k _ (List.getElem?_eq_getElem hk), hvb k _ (List.getElem?_eq_getElem hk'), htop]
  calc a.entry i = ⟨(a.entry i).counter, (a.entry i).values⟩ := rfl
    _ = ⟨(b.entry i).counter, (b.entry i).values⟩ := by rw [htop, hvalues]

end Assigned
end DVVSet

namespace DVVSet64

/-- The dots `(i, 1), …, (i, n)` of the entries. -/
def history (ds : DVVSet64 N T) : Set (N × ℕ) := ds.toSet.causal.history

def live (ds : DVVSet64 N T) : Set (N × ℕ) := ds.toSet.causal.live

def entry (ds : DVVSet64 N T) (i : N) : DVVEntry64 T := (ds.state.lookup i).getD ⟨0, []⟩

/-- Equal up to entries without dots. -/
def Same (a b : DVVSet64 N T) : Prop := ∀ i, a.entry i = b.entry i

/-- Counters are below `2 ^ 62`, and the siblings are those `assign` gives to their dots. -/
def Agrees (assign : N → ℕ → T) (ds : DVVSet64 N T) : Prop :=
  ∀ i e, ds.state.lookup i = some e → e.counter.toNat < 2 ^ 62 ∧
    e.values.length ≤ e.counter.toNat ∧
    ∀ k v, e.values[k]? = some v → v = assign i (e.counter.toNat - k)

section Agrees

variable {assign : N → ℕ → T} {a b c : DVVSet64 N T}

theorem Agrees.fits (h : a.Agrees assign) : a.Fits := by
  intro i e he
  obtain ⟨hlt, hlen, -⟩ := h i e he
  constructor
  · exact hlen
  · omega

theorem Agrees.assigned (h : a.Agrees assign) : a.toSet.Assigned assign := by
  intro i e he
  rw [toSet_lookup] at he
  obtain ⟨e', he', rfl⟩ := Option.map_eq_some_iff.mp he
  exact (h i e' he').2

theorem Agrees.top_lt (h : a.Agrees assign) (i : N) : a.toSet.top i < 2 ^ 62 := by
  unfold DVVSet.top
  rw [toSet_lookup]
  cases he : a.state.lookup i with
  | none => simp
  | some e => exact (h i e he).1

theorem entry_toSet (ds : DVVSet64 N T) (i : N) :
    ds.toSet.entry i = ⟨(ds.entry i).counter.toNat, (ds.entry i).values⟩ := by
  unfold DVVSet.entry entry
  rw [toSet_lookup]
  cases ds.state.lookup i <;> rfl

theorem Agrees.same (ha : a.Agrees assign) (hb : b.Agrees assign)
    (h : a.toSet.causal = b.toSet.causal) : a.Same b := by
  intro i
  have hentry := ha.assigned.entry_eq hb.assigned h i
  rw [entry_toSet, entry_toSet, DVVEntry.mk.injEq, UInt64.toNat_inj] at hentry
  calc a.entry i = ⟨(a.entry i).counter, (a.entry i).values⟩ := rfl
    _ = ⟨(b.entry i).counter, (b.entry i).values⟩ := by rw [hentry.1, hentry.2]

/-- `Sync` returns, and what it returns stands for the causal join. -/
theorem Agrees.sync (ha : a.Agrees assign) (hb : b.Agrees assign) :
    ∃ r, a.sync b = .ok r ∧ r.Agrees assign ∧
      r.toSet.causal = a.toSet.causal.join b.toSet.causal := by
  obtain ⟨r, hr, hlookup⟩ := sync_toSet ha.fits hb.fits
  have hcausal : r.toSet.causal = a.toSet.causal.join b.toSet.causal :=
    (DVVSet.causal_congr hlookup).trans (ha.fits.bounded.causal_sync hb.fits.bounded)
  refine ⟨r, hr, ?_, hcausal⟩
  intro i e he
  have hsync : (a.toSet.sync b.toSet).state.lookup i = some ⟨e.counter.toNat, e.values⟩ := by
    rw [← hlookup, toSet_lookup, he]
    rfl
  refine ⟨?_, ha.assigned.sync hb.assigned i _ hsync⟩
  have htop := DVVSet.top_of_some hsync
  rw [DVVSet.top_sync] at htop
  change max _ _ = e.counter.toNat at htop
  rw [← htop]
  exact max_lt (ha.top_lt i) (hb.top_lt i)

/-- `Sync` of sets that agree with one assignment of values to dots joins the histories
and keeps the live dots that the other side has not dropped, each with its value. It is
commutative, associative and idempotent up to entries without dots. -/
theorem sync_causalJoin (ha : a.Agrees assign) (hb : b.Agrees assign) (hc : c.Agrees assign) :
    (∃ r, a.sync b = .ok r ∧ r.Agrees assign ∧ r.history = a.history ∪ b.history ∧
      r.live = (a.live ∩ b.live) ∪ (a.live \ b.history) ∪ (b.live \ a.history)) ∧
    (∃ r r', a.sync b = .ok r ∧ b.sync a = .ok r' ∧ r.Same r') ∧
    (∃ ab r bc r', a.sync b = .ok ab ∧ ab.sync c = .ok r ∧ b.sync c = .ok bc ∧
      a.sync bc = .ok r' ∧ r.Same r') ∧
    ∃ r, a.sync a = .ok r ∧ r.Same a := by
  obtain ⟨ab, hab, haab, hcab⟩ := ha.sync hb
  obtain ⟨ba, hba, haba, hcba⟩ := hb.sync ha
  obtain ⟨bc, hbc, habc, hcbc⟩ := hb.sync hc
  obtain ⟨l, hl, hal, hcl⟩ := haab.sync hc
  obtain ⟨r, hr, har, hcr⟩ := ha.sync habc
  obtain ⟨aa, haa, haaa, hcaa⟩ := ha.sync ha
  refine ⟨⟨ab, hab, haab, ?_, ?_⟩, ⟨ab, ba, hab, hba, haab.same haba ?_⟩,
    ⟨ab, l, bc, r, hab, hl, hbc, hr, hal.same har ?_⟩, ⟨aa, haa, haaa.same ha ?_⟩⟩
  · exact congrArg CausalState.history hcab
  · exact congrArg CausalState.live hcab
  · rw [hcab, hcba, CausalState.join_comm]
  · rw [hcl, hcab, hcr, hcbc, CausalState.join_assoc]
  · rw [hcaa, CausalState.join_self]

end Agrees

theorem agrees_singleton {assign : N → ℕ → T} {i : N} {e : DVVEntry64 T}
    (hlt : e.counter.toNat < 2 ^ 62) (hlen : e.values.length ≤ e.counter.toNat)
    (hvalues : ∀ k v, e.values[k]? = some v → v = assign i (e.counter.toNat - k)) :
    Agrees assign ⟨AList.singleton i e⟩ := by
  intro j e' he
  rw [FMap.lookup_singleton] at he
  split_ifs at he with hj
  obtain rfl := Option.some.inj he
  subst hj
  exact ⟨hlt, hlen, hvalues⟩

/-- An add of `r`, and the remove with which `r` superseded it. -/
def added : DVVSet64 String Bool := ⟨AList.singleton "r" ⟨1, [true]⟩⟩

def removed : DVVSet64 String Bool := ⟨AList.singleton "r" ⟨2, [false]⟩⟩

theorem sync_causalJoin_removed : ∃ r, added.sync removed = .ok r ∧ ("r", 1) ∉ r.live := by
  have hadded : added.Agrees fun _ n => decide (n = 1) :=
    agrees_singleton (by decide) (by decide) (by simp [List.getElem?_singleton])
  have hremoved : removed.Agrees fun _ n => decide (n = 1) :=
    agrees_singleton (by decide) (by decide) (by simp [List.getElem?_singleton])
  obtain ⟨⟨r, hr, -, -, hlive⟩, -⟩ := sync_causalJoin hadded hremoved hadded
  refine ⟨r, hr, ?_⟩
  have hdead : ("r", 1) ∉ removed.live := by
    change ¬ (removed.toSet.low "r" < 1 ∧ 1 ≤ removed.toSet.top "r")
    decide
  have hknown : ("r", 1) ∈ removed.history := by
    change 1 ≤ 1 ∧ 1 ≤ removed.toSet.top "r"
    decide
  rw [hlive]
  rintro ((h | h) | h)
  · exact hdead h.2
  · exact h.2 hknown
  · exact hdead h.1

end DVVSet64
end Commute.Crdt
