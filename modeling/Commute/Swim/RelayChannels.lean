import Commute.Swim.AckRouting

/-!
# Sends on relay channels

The table never holds a closed channel, however often a key is registered again:
a relay deletes its key when it closes its channel, and a channel is registered
under one key only. But `Listen` sends after it has released the lock, and the
relay may close the channel in between.
-/
namespace Commute.Swim.Routing

variable {A : Type} {s : Routing A} {a : Action A}

/-- A relay does not close its channel while `Listen` is about to send on it. -/
def Unheld : Action A → Routing A → Prop
  | .cleanup c, s => s.listen.map Prod.fst ≠ some (.relay c)
  | _, _ => True

instance : (a : Action A) → (s : Routing A) → Decidable (Unheld a s)
  | .cleanup _, _ => inferInstanceAs (Decidable (_ ≠ _))
  | .pingReq _ _, _ | .pinged _ _, _ | .timeout _, _ | .consume _, _ | .ack _ _ _, _
  | .deliver, _ | .probeStart _ _, _ | .probeConsume, _ | .probeEnd, _ => .isTrue trivial

/-- The channel `Listen` is about to send on is open. -/
structure HoldsOpen (s : Routing A) : Prop where
  routed : Routed s
  isOpen : ∀ (c : ℕ) (ack : Ack) (r : Relay A), s.listen = some (.relay c, ack) →
    s.relays[c]? = some r → r.phase ≠ .done
  running : s.panicked = false

theorem HoldsOpen.init : HoldsOpen (init : Routing A) :=
  ⟨.init, by simp [Routing.init], rfl⟩

theorem HoldsOpen.exec (h : HoldsOpen s) (ha : Unheld a s) : HoldsOpen (exec a s) := by
  refine ⟨h.routed.exec a, fun c ack r' hheld hr' => ?_, ?_⟩
  · rcases listen_exec hheld with hl | ⟨_, _, _, rfl, -, ⟨hdest, -⟩ | ⟨c', hdest, hlookup⟩⟩
    · obtain ⟨r, hr, -⟩ := h.routed.held c ack hl
      obtain ⟨r₀, hr₀, hstep⟩ := exists_relay_exec (a := a) hr
      obtain rfl := Option.some.inj (hr'.symm.trans hr₀)
      refine hstep.not_done (h.isOpen c ack r hl hr) ?_
      rintro rfl
      exact ha (by rw [hl]; rfl)
    · cases hdest
    · cases hdest
      obtain ⟨r, hr, -, hphase⟩ := h.routed.registered _ c hlookup
      obtain ⟨r₀, hr₀, hstep⟩ := exists_relay_exec hr
      obtain rfl := Option.some.inj (hr'.symm.trans hr₀)
      exact hstep.not_done hphase (by rintro ⟨⟩)
  · rw [← Bool.not_eq_true]
    intro hpanic
    rcases panicked_exec hpanic with hpanic | ⟨-, c, ack, hl, hdone⟩
    · rw [h.running] at hpanic
      cases hpanic
    · obtain ⟨r, hr, hphase⟩ := Option.map_eq_some_iff.mp hdone
      exact h.isOpen c ack r hl hr hphase

/-- In every run in which no relay closes its channel between the lookup and the send of
`Listen`, no send is on a closed channel. -/
theorem panicked_eq_false {as : List (Action A)}
    (h : ((machine A).restrict Unheld).Legal init as) :
    ((machine A).after init as).panicked = false := by
  have hopen := h.invariant (I := HoldsOpen) .init fun a s hs ha => hs.exec ha.2
  rw [Machine.after_restrict] at hopen
  exact hopen.running

/-- A relay for the requester `1` of a ping of `t` in period 7, up to its ack being looked up. -/
def heldAck : List (Action ℕ) :=
  [.pingReq ⟨[116], 7⟩ 1, .pinged 0 true, .ack [116] 7 []]

theorem panicked_heldAck :
    ((machine ℕ).after init (heldAck ++ [.deliver, .consume 0, .cleanup 0])).panicked = false :=
  panicked_eq_false (by decide)

/-- The relay times out after the lookup and closes its channel before the send. -/
theorem panicked_closedChannel :
    (machine ℕ).Legal init (heldAck ++ [.timeout 0, .cleanup 0, .deliver]) ∧
      ((machine ℕ).after init (heldAck ++ [.timeout 0, .cleanup 0, .deliver])).panicked = true := by
  decide

end Commute.Swim.Routing
