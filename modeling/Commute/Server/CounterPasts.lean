import Commute.Gossip.Causal
import Commute.Server.CounterTotals

/-!
# A counter counts the updates its store has heard of

The updates of a run are numbered in their order. A store counts for every node exactly
the updates of that node it has heard of: no value is ahead of them, and the delta of the
latest one carries the total of all of the node's updates before it.
-/
namespace Commute.Server

open Crdt Gossip

variable {A S : Type} [LinearOrder S]

theorem nodeTotal_le_of_sublist (id : A → S) {us vs : List (CounterUpdate A S)}
    (h : us.Sublist vs) (isIncrement : Bool) (key i : S) :
    nodeTotal id us isIncrement key i ≤ nodeTotal id vs isIncrement key i :=
  ((h.filter _).map _).sum_le_sum fun _ _ => Nat.zero_le _

/-- The delta of an update carries the total of the writer's updates up to it. -/
def Accounts (id : A → S) (d : S × PNCounter S) (u : CounterUpdate A S)
    (us : List (CounterUpdate A S)) : Prop :=
  d.1 = u.key ∧ nodeTotal id (u :: us) u.isIncrement u.key (id u.store) ≤
    (side u.isIncrement d.2).count (id u.store)

/-- What dominates the deltas of known updates is not behind the known updates. -/
theorem nodeTotal_known_le {id : A → S} {log : List (ℕ × S × PNCounter S)}
    {us : List (CounterUpdate A S)} (h : Numbered (Accounts id) log us) {s : Finset ℕ}
    {isIncrement : Bool} {key i : S} {n : ℕ}
    (hn : ∀ x ∈ log, x.1 ∈ s → x.2.1 = key → (side isIncrement x.2.2).count i ≤ n) :
    nodeTotal id (known s us) isIncrement key i ≤ n := by
  induction us generalizing log with
  | nil => exact Nat.zero_le n
  | cons u us ih =>
    cases log with
    | nil => exact h.elim
    | cons x log =>
      obtain ⟨hnumber, ⟨hkey, htotal⟩, hrest⟩ := h
      have htail := ih hrest fun y hy => hn y (List.mem_cons_of_mem _ hy)
      unfold known
      split_ifs with hmem
      · rw [nodeTotal_cons]
        split_ifs with hu
        · -- the latest known update of the node, whose delta has everything before it
          obtain ⟨hi, hk, hinc⟩ := hu
          have hx := hn x List.mem_cons_self (hnumber ▸ hmem) (hkey.trans hk)
          rw [hi, hk, hinc, nodeTotal_cons, if_pos ⟨hi, hk, hinc⟩] at htotal
          have hsub := nodeTotal_le_of_sublist id (known_sublist s us) isIncrement key i
          omega
        · rwa [Nat.zero_add]
      · exact htail

variable [Inhabited S]

/-- The writes of counters, numbered in their order. -/
def countedRules (id : A → S) :
    CausalRules A S (PNCounter S) (List (CounterUpdate A S)) ℕ where
  toRules := counterRules id
  names us n := n < us.length
  event net a key f g n := (counterRules id).write net a key f g ∧ n = net.ghost.length
  event_write h := h.1
  event_fresh h := by
    rw [h.2]
    exact lt_irrefl _
  event_names := by
    rintro net a key f g n ⟨⟨value, ⟨-, rfl⟩ | ⟨-, rfl⟩⟩, rfl⟩ <;>
      exact ⟨Nat.lt_succ_self _, fun m hm => Nat.lt_succ_of_lt hm⟩
  note_names h := h.elim

abbrev CountedNet (A S : Type) := CausalNetwork A S (PNCounter S) (List (CounterUpdate A S)) ℕ

/-- No value is ahead of the updates that were heard of. -/
def NotAhead (id : A → S) (us : List (CounterUpdate A S)) (s : Finset ℕ) (key : S)
    (pn : PNCounter S) : Prop :=
  ∀ isIncrement i, (side isIncrement pn).count i ≤ nodeTotal id (known s us) isIncrement key i

variable [DecidableEq A] {id : A → S} {c : CountedNet A S}

omit [DecidableEq A] in
theorem closed_notAhead (id : A → S) (us : List (CounterUpdate A S)) (s : Finset ℕ) :
    Closed (NotAhead id us s) :=
  closed_upper id (known s us)

theorem side_nodeID (h : CausalNetwork.Reachable (countedRules id) [] c) (a : A) (key : S)
    (isIncrement : Bool) :
    (side isIncrement ((c.net.ledger a).valueOr (.new (id a)) key)).nodeID = id a := by
  have howned := h.network.1.owned (fun pn : PNCounter S => (pn.inc.nodeID, pn.dec.nodeID))
    (fun _ _ => rfl) a key
  cases isIncrement
  · exact congrArg Prod.snd howned
  · exact congrArg Prod.fst howned

omit [DecidableEq A] [Inhabited S] in
theorem notAhead_valueOr (h : CausalNetwork.Known (NotAhead id) c) (a : A) (key : S) :
    NotAhead id c.net.ghost (c.past a) key ((c.net.ledger a).valueOr (.new (id a)) key) :=
  (h.ledger a).valueOr fun _ _ => by simp

theorem notAhead_step {c' : CountedNet A S}
    (hr : CausalNetwork.Reachable (countedRules id) [] c)
    (h : CausalNetwork.Known (NotAhead id) c) (hs : CausalNetwork.Step (countedRules id) c c') :
    CausalNetwork.Known (NotAhead id) c' := by
  refine h.step (closed_notAhead id) (fun _ _ _ _ => ?_) ?_ ?_ ?_ hs
  · exact fun isIncrement i => by simp [countedRules, counterRules]
  · intro us s s' key pn hsub hpn isIncrement i
    exact (hpn isIncrement i).trans
      (nodeTotal_le_of_sublist id (known_mono hsub us) isIncrement key i)
  · intro s key pn hpn isIncrement i
    refine (hpn isIncrement i).trans (nodeTotal_le_of_sublist id ?_ isIncrement key i)
    cases hs with
    | write a k f g n he =>
      obtain ⟨⟨value, ⟨-, rfl⟩ | ⟨-, rfl⟩⟩, -⟩ := he <;> exact known_sublist_cons s _ _
    | note g hn => exact hn.elim
    | _ => exact .refl _
  · rintro a key f g n ⟨hw, rfl⟩ isIncrement i
    obtain ⟨u, rfl, rfl, rfl, hcount⟩ := count_side_delta hw (side_nodeID hr a key)
    refine (hcount isIncrement i).trans_le ?_
    split_ifs with hi
    · obtain ⟨rfl, hinc⟩ := hi
      rw [known_insert_length, nodeTotal_cons, if_pos ⟨rfl, rfl, hinc⟩]
      have hown := notAhead_valueOr h u.store u.key isIncrement (id u.store)
      have hsub := nodeTotal_le_of_sublist id
        (known_mono (Finset.subset_insert c.net.ghost.length (c.past u.store)) c.net.ghost)
        isIncrement u.key (id u.store)
      exact (Nat.mod_le _ _).trans (by omega)
    · exact Nat.zero_le _

theorem notAhead_of_reachable (h : CausalNetwork.Reachable (countedRules id) [] c) :
    CausalNetwork.Known (NotAhead id) c :=
  h.invariant (.init _ _) fun _ _ hr hi hs => notAhead_step hr hi hs

theorem accounts_step {c' : CountedNet A S} (hid : Function.Injective id)
    (hr : CausalNetwork.Reachable (countedRules id) [] c)
    (hs : CausalNetwork.Step (countedRules id) c c')
    (hfit : ∀ isIncrement key i, nodeTotal id c'.net.ghost isIncrement key i < 2 ^ 64)
    (h : (∀ isIncrement key i, nodeTotal id c.net.ghost isIncrement key i < 2 ^ 64) →
      Numbered (Accounts id) c.log c.net.ghost) : Numbered (Accounts id) c'.log c'.net.ghost := by
  cases hs with
  | write a key f g n he =>
    obtain ⟨hw, rfl⟩ := he
    obtain ⟨u, rfl, rfl, rfl, hcount⟩ := count_side_delta hw (side_nodeID hr a key)
    have hold : ∀ isIncrement key i, nodeTotal id c.net.ghost isIncrement key i < 2 ^ 64 :=
      fun isIncrement key i =>
        (nodeTotal_le_of_sublist id (List.sublist_cons_self _ _) isIncrement key i).trans_lt
          (hfit isIncrement key i)
    -- the writer has counted its own updates, and the amount does not make them overflow
    have htotals := totals_of_reachable hid hr.network.1
    have hown := htotals.owner hold u.store u.isIncrement u.key
    have hupper : (side u.isIncrement ((c.net.ledger u.store).valueOr (.new (id u.store))
        u.key)).count (id u.store) ≤
          nodeTotal id c.net.ghost u.isIncrement u.key (id u.store) :=
      (htotals.upper.ledger u.store).valueOr (by simp) u.isIncrement (id u.store)
    have hdelta := hcount u.isIncrement (id u.store)
    have hlt : nodeTotal id (u :: c.net.ghost) u.isIncrement u.key (id u.store) < 2 ^ 64 :=
      hfit u.isIncrement u.key (id u.store)
    refine ⟨rfl, ⟨rfl, ?_⟩, h hold⟩
    rw [nodeTotal_cons, if_pos ⟨rfl, rfl, rfl⟩] at hlt ⊢
    rw [if_pos ⟨rfl, rfl⟩, Nat.mod_eq_of_lt (by omega)] at hdelta
    exact le_of_le_of_eq (by omega) hdelta.symm
  | note g hn => exact hn.elim
  | delta a b => exact h hfit
  | merge env s payload _ _ => exact h hfit
  | ack r _ => exact h hfit

theorem accounts_of_reachable (hid : Function.Injective id)
    (h : CausalNetwork.Reachable (countedRules id) [] c)
    (hfit : ∀ isIncrement key i, nodeTotal id c.net.ghost isIncrement key i < 2 ^ 64) :
    Numbered (Accounts id) c.log c.net.ghost :=
  h.invariant (I := fun c => (∀ isIncrement key i, nodeTotal id c.net.ghost isIncrement key i <
    2 ^ 64) → Numbered (Accounts id) c.log c.net.ghost) (fun _ => trivial)
    (fun _ _ hr hi hs hfit => accounts_step hid hr hs hfit hi) hfit

/-- Every store counts for every node exactly the updates it has heard of. -/
theorem count_eq_known (hid : Function.Injective id)
    (h : CausalNetwork.Reachable (countedRules id) [] c)
    (hfit : ∀ isIncrement key i, nodeTotal id c.net.ghost isIncrement key i < 2 ^ 64) (a : A)
    (isIncrement : Bool) (key i : S) :
    (side isIncrement ((c.net.ledger a).valueOr (.new (id a)) key)).count i =
      nodeTotal id (known (c.past a) c.net.ghost) isIncrement key i := by
  refine le_antisymm ?_ ?_
  · exact notAhead_valueOr (notAhead_of_reachable h) a key isIncrement i
  · refine nodeTotal_known_le (accounts_of_reachable hid h hfit) ?_
    rintro x hx hmem rfl
    obtain ⟨v, hv, hle⟩ := (h.heard (fresh_counter_le id)).past a x hx hmem
    rw [Ledger.valueOr_of_some _ hv]
    exact (le_iff_side _ _).mp hle isIncrement i

/-- A store has a counter exactly if it has heard of an update of its key. -/
theorem exists_counter_iff (hid : Function.Injective id)
    (h : CausalNetwork.Reachable (countedRules id) [] c)
    (hfit : ∀ isIncrement key i, nodeTotal id c.net.ghost isIncrement key i < 2 ^ 64) (a : A)
    (key : S) : (∃ pn, (c.net.ledger a).state.lookup key = some pn) ↔
      ∃ u ∈ known (c.past a) c.net.ghost, u.key = key := by
  obtain ⟨hknown, hlog⟩ := (accounts_of_reachable hid h hfit).mem_known (c.past a)
  rw [h.exists_value_iff (fresh_counter_le id)]
  constructor
  · rintro ⟨x, hx, hmem, rfl⟩
    obtain ⟨u, hu, -, hkey, -⟩ := hlog x hx hmem
    exact ⟨u, hu, hkey.symm⟩
  · rintro ⟨u, hu, rfl⟩
    obtain ⟨x, hx, hmem, -, hkey, -⟩ := hknown u hu
    exact ⟨x, hx, hmem, hkey⟩

end Commute.Server
