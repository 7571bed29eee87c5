import Commute.Server.CounterPasts
import Commute.Server.RegisterAgreement

/-!
# A register shows the latest write its store has heard of

The entry that a store shows for a key is a write the store has heard of, or the zero
entry, and no write it has heard of is later. Which of several writes with one stamp is
shown is left open; a writer that uses a timestamp twice leaves that to the order in which
its stores hear of the writes.
-/
namespace Commute.Server

open Crdt Gossip

variable {A S T R : Type} [LinearOrder S] [Inhabited S] [Instant T] [Inhabited R]

/-- The writes of registers, numbered in their order. -/
def stampedRules (id : A → S) :
    CausalRules A S (LWWRegister S T R) (List (S × LWWEntry S T R)) ℕ where
  toRules := registerRules id
  names ws n := n < ws.length
  event net a key f g n := (registerRules id).write net a key f g ∧ n = net.ghost.length
  event_write h := h.1
  event_fresh h := by
    rw [h.2]
    exact lt_irrefl _
  event_names := by
    rintro net a key f g n ⟨⟨value, now, -, rfl⟩, rfl⟩
    exact ⟨Nat.lt_succ_self _, fun m hm => Nat.lt_succ_of_lt hm⟩
  note_names h := h.elim

abbrev StampedNet (A S T R : Type) :=
  CausalNetwork A S (LWWRegister S T R) (List (S × LWWEntry S T R)) ℕ

/-- The entry of a value is the zero entry or a write that was heard of. -/
def FromKnown (ws : List (S × LWWEntry S T R)) (s : Finset ℕ) (key : S)
    (lww : LWWRegister S T R) : Prop :=
  lww.entry = default ∨ (key, lww.entry) ∈ known s ws

/-- The delta of a write carries the entry that was written. -/
def Enters (d : S × LWWRegister S T R) (w : S × LWWEntry S T R)
    (_ : List (S × LWWEntry S T R)) : Prop :=
  d.1 = w.1 ∧ d.2.entry = w.2

variable [LinearOrder T] [LinearInstant T]

omit [Inhabited S] [Inhabited R] in
theorem merge_entry_or (a b : LWWRegister S T R) :
    (a.merge b).entry = a.entry ∨ (a.merge b).entry = b.entry := by
  rw [LWWRegister.merge_entry]
  split_ifs
  · exact Or.inr rfl
  · exact Or.inl rfl

theorem closed_fromKnown (ws : List (S × LWWEntry S T R)) (s : Finset ℕ) :
    Closed (FromKnown ws s) where
  merge {key a b} ha hb := by
    change FromKnown ws s key (a.merge b)
    unfold FromKnown
    rcases merge_entry_or a b with h | h <;> rw [h]
    · exact ha
    · exact hb
  decoded {key a} ha := by
    change FromKnown ws s key a.decoded
    unfold FromKnown
    rw [LWWRegister.decoded_entry]
    exact ha
  shared _ ha _ := ha

variable [DecidableEq A] {id : A → S} {c c' : StampedNet A S T R}

theorem fromKnown_step (hr : CausalNetwork.Reachable (stampedRules id) [] c)
    (h : CausalNetwork.Known FromKnown c) (hs : CausalNetwork.Step (stampedRules id) c c') :
    CausalNetwork.Known FromKnown c' := by
  refine h.step closed_fromKnown (fun _ _ _ _ => Or.inl rfl) ?_ ?_ ?_ hs
  · exact fun ws s s' key lww hsub hlww => hlww.imp_right fun he => (known_mono hsub ws).mem he
  · intro s key lww hlww
    refine hlww.imp_right fun he => ?_
    cases hs with
    | write a k f g n hevent =>
      obtain ⟨⟨value, now, -, rfl⟩, -⟩ := hevent
      exact (known_sublist_cons s _ _).mem he
    | note g hn => exact hn.elim
    | _ => exact he
  · rintro a key f g n ⟨⟨value, now, rfl, rfl⟩, rfl⟩
    refine Or.inr ?_
    have hentry : (LWWRegister.set value now ((c.net.ledger a).valueOr
        ((stampedRules id).fresh a) key)).entry = ⟨id a, now, value⟩ :=
      set_entry hr.network.1 a key value now
    rw [hentry, known_insert_length]
    exact List.mem_cons_self

theorem fromKnown_of_reachable (h : CausalNetwork.Reachable (stampedRules id) [] c) :
    CausalNetwork.Known FromKnown c :=
  h.invariant (.init _ _) fun _ _ hr hi hs => fromKnown_step hr hi hs

omit [LinearOrder T] [LinearInstant T] in
theorem enters_of_reachable (h : CausalNetwork.Reachable (stampedRules id) [] c) :
    Numbered Enters c.log c.net.ghost := by
  refine h.invariant (I := fun c => Numbered Enters c.log c.net.ghost) trivial
    fun c c' hr hi hs => ?_
  cases hs with
  | write a key f g n hevent =>
    obtain ⟨⟨value, now, rfl, rfl⟩, rfl⟩ := hevent
    exact ⟨rfl, ⟨rfl, set_entry hr.network.1 a key value now⟩, hi⟩
  | note g hn => exact hn.elim
  | _ => exact hi

/-- No write that a store has heard of is later than the entry it shows. -/
theorem stamp_le_of_known (h : CausalNetwork.Reachable (stampedRules id) [] c) {a : A} {key : S}
    {e : LWWEntry S T R} (he : (key, e) ∈ known (c.past a) c.net.ghost) :
    ∃ lww, (c.net.ledger a).state.lookup key = some lww ∧ e.stamp ≤ lww.entry.stamp := by
  obtain ⟨x, hx, hmem, -, rfl, rfl⟩ := ((enters_of_reachable h).mem_known _).1 _ he
  obtain ⟨lww, hlww, hle⟩ := (h.heard (fresh_register_le id)).past a x hx hmem
  exact ⟨lww, hlww, (LWWRegister.le_iff _ _).mp hle⟩

theorem exists_register_iff (h : CausalNetwork.Reachable (stampedRules id) [] c) (a : A)
    (key : S) : (∃ lww, (c.net.ledger a).state.lookup key = some lww) ↔
      ∃ e, (key, e) ∈ known (c.past a) c.net.ghost := by
  rw [h.exists_value_iff (fresh_register_le id)]
  constructor
  · rintro ⟨x, hx, hmem, rfl⟩
    obtain ⟨⟨k, e⟩, hw, -, rfl, rfl⟩ := ((enters_of_reachable h).mem_known _).2 x hx hmem
    exact ⟨_, hw⟩
  · rintro ⟨e, he⟩
    obtain ⟨x, hx, hmem, -, hkey, -⟩ := ((enters_of_reachable h).mem_known _).1 _ he
    exact ⟨x, hx, hmem, hkey⟩

end Commute.Server
