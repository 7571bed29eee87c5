import Commute.Foundation.FiniteMap
import Commute.Foundation.Machine
import Commute.Swim.Message

/-!
# Routing of acks

A ping-req makes `Listen` register a channel under the target and the period, and
start a goroutine that pings the target, waits on the channel for the ack, sends
a relay ack to the requester, closes the channel and deletes the key. `Listen`
looks up the channel of an ack under the lock and sends on it after unlocking;
acks without a registered channel go to the probe loop.

A relay and its channel are one record, and the place of a relay in the list is
the identity of its channel. The buffers hold one ack, and a send to a full one
drops the ack. A send on a closed channel kills the process.
-/
namespace Commute.Swim

/-- The target of a relayed ping and the period of its initiator. -/
structure RelayKey where
  target : Bytes
  period : UInt64
deriving DecidableEq

structure Ack where
  period : UInt64
  addr : Bytes
deriving DecidableEq

def Ack.key (a : Ack) : RelayKey := ⟨a.addr, a.period⟩

/-- The `Ack` that `Listen` makes of an ack message. A relay ack carries the target of the
probe, so that it counts as an ack from the target. -/
def ackOf (src : Bytes) (period : UInt64) (target : Bytes) : Ack :=
  ⟨period, if target ≠ [] then target else src⟩

/-- Where a relay goroutine is; it closes its channel when it is done. -/
inductive RelayPhase where
  | pinging
  | waiting
  | leaving
  | done
deriving DecidableEq

structure Relay (A : Type) where
  key : RelayKey
  requester : A
  phase : RelayPhase
  buffer : Option Ack

def Relay.Pending {A : Type} (r : Relay A) : Prop := r.phase = .pinging ∨ r.phase = .waiting

instance {A : Type} (r : Relay A) : Decidable r.Pending := inferInstanceAs (Decidable (_ ∨ _))

theorem Relay.Pending.ne_done {A : Type} {r : Relay A} (h : r.Pending) : r.phase ≠ .done := by
  rcases h with h | h <;> rw [h] <;> exact nofun

theorem Relay.Pending.ne_leaving {A : Type} {r : Relay A} (h : r.Pending) :
    r.phase ≠ .leaving := by
  rcases h with h | h <;> rw [h] <;> exact nofun

/-- The channel of the probe loop, or of a relay. -/
inductive AckChan where
  | probe
  | relay (c : ℕ)
deriving DecidableEq

/-- `listen` is the send for which `Listen` has looked up the channel, `probe` the probe that
waits for its ack. -/
structure Routing (A : Type) where
  relayAcks : FMap RelayKey ℕ
  relays : List (Relay A)
  acks : Option Ack
  listen : Option (AckChan × Ack)
  probe : Option RelayKey
  period : UInt64
  panicked : Bool

namespace Routing

variable {A : Type}

def init : Routing A := ⟨∅, [], none, none, none, 0, false⟩

def update (c : ℕ) (f : Relay A → Relay A) (s : Routing A) : Routing A :=
  { s with relays := s.relays.modify c f }

inductive Action (A : Type) where
  | pingReq (key : RelayKey) (requester : A)
  | pinged (c : ℕ) (ok : Bool)
  | timeout (c : ℕ)
  | consume (c : ℕ)
  | cleanup (c : ℕ)
  | ack (src : Bytes) (period : UInt64) (target : Bytes)
  | deliver
  | probeStart (peer : Bytes) (ok : Bool)
  | probeConsume
  | probeEnd

def phase (c : ℕ) (s : Routing A) : Option RelayPhase := (s.relays[c]?).map Relay.phase

def enabled : Action A → Routing A → Prop
  | .pingReq _ _, s => ¬ s.panicked ∧ s.listen = none
  | .pinged c _, s => ¬ s.panicked ∧ s.phase c = some .pinging
  | .timeout c, s => ¬ s.panicked ∧ s.phase c = some .waiting
  | .consume c, s =>
    ¬ s.panicked ∧ s.phase c = some .waiting ∧ (s.relays[c]?.bind Relay.buffer).isSome
  | .cleanup c, s => ¬ s.panicked ∧ s.phase c = some .leaving
  | .ack _ _ _, s => ¬ s.panicked ∧ s.listen = none
  | .deliver, s => ¬ s.panicked ∧ s.listen.isSome
  | .probeStart _ _, s => ¬ s.panicked ∧ s.probe = none
  | .probeConsume, s => ¬ s.panicked ∧ s.probe.isSome ∧ s.acks.isSome
  | .probeEnd, s => ¬ s.panicked ∧ s.probe.isSome

/-- A ping-req without a target is ignored. -/
def pingReq (key : RelayKey) (requester : A) (s : Routing A) : Routing A :=
  if key.target = [] then s
  else
    { s with
      relayAcks := s.relayAcks.insert key s.relays.length
      relays := s.relays ++ [⟨key, requester, .pinging, none⟩] }

/-- The relay takes an ack from its channel, and leaves if it is the one it waits for. -/
def consume (c : ℕ) : Routing A → Routing A :=
  update c fun r =>
    { r with
      buffer := none
      phase := if r.buffer.any fun a => a.key = r.key then .leaving else r.phase }

/-- The deferred call of a relay: close the channel and delete the key. -/
def cleanup (c : ℕ) (s : Routing A) : Routing A :=
  match s.relays[c]? with
  | none => s
  | some r => { s with relayAcks := s.relayAcks.erase r.key }.update c ({ · with phase := .done })

def ack (a : Ack) (s : Routing A) : Routing A :=
  match s.relayAcks.lookup a.key with
  | none => { s with listen := some (.probe, a) }
  | some c => { s with listen := some (.relay c, a) }

def deliver (s : Routing A) : Routing A :=
  match s.listen with
  | none => s
  | some (.probe, a) => { s with acks := s.acks.or (some a), listen := none }
  | some (.relay c, a) =>
    if s.phase c = some .done then { s with panicked := true }
    else { s with listen := none }.update c fun r => { r with buffer := r.buffer.or (some a) }

/-- The probe loop takes an ack, and waits for the end of the period if it is the one it
waits for. -/
def probeConsume (s : Routing A) : Routing A :=
  { s with
    acks := none
    probe := if s.acks.map Ack.key = s.probe then none else s.probe }

def exec : Action A → Routing A → Routing A
  | .pingReq key requester, s => s.pingReq key requester
  | .pinged c ok, s => s.update c ({ · with phase := if ok then .waiting else .leaving })
  | .timeout c, s => s.update c ({ · with phase := .leaving })
  | .consume c, s => s.consume c
  | .cleanup c, s => s.cleanup c
  | .ack src period target, s => s.ack (ackOf src period target)
  | .deliver, s => s.deliver
  | .probeStart peer ok, s =>
    { s with period := s.period + 1, probe := if ok then some ⟨peer, s.period + 1⟩ else none }
  | .probeConsume, s => s.probeConsume
  | .probeEnd, s => { s with probe := none }

def machine (A : Type) : Machine (Routing A) (Action A) := ⟨enabled, exec⟩

instance : (a : Action A) → (s : Routing A) → Decidable ((machine A).enabled a s)
  | .pingReq _ _, _ | .pinged _ _, _ | .timeout _, _ | .consume _, _ | .cleanup _, _
  | .ack _ _ _, _ | .deliver, _ | .probeStart _ _, _ | .probeConsume, _ | .probeEnd, _ =>
    inferInstanceAs (Decidable (_ ∧ _))

section Inversion

variable {s : Routing A} {a : Action A} {c j : ℕ} {r r' : Relay A}

/-- What an action does to the relay at a place that was taken before. -/
inductive RelayStep (a : Action A) (s : Routing A) (j : ℕ) (r : Relay A) : Relay A → Prop
  | same (hcleanup : a ≠ .cleanup j)
      (hdeliver : a = .deliver → r.phase = .done ∨ ∀ ack, s.listen ≠ some (.relay j, ack)) :
      RelayStep a s j r r
  | pinged (ok : Bool) (ha : a = .pinged j ok) :
      RelayStep a s j r { r with phase := if ok then .waiting else .leaving }
  | timeout (ha : a = .timeout j) : RelayStep a s j r { r with phase := .leaving }
  | consume (ha : a = .consume j) : RelayStep a s j r
      { r with
        buffer := none
        phase := if r.buffer.any fun ack => ack.key = r.key then .leaving else r.phase }
  | cleanup (ha : a = .cleanup j) : RelayStep a s j r { r with phase := .done }
  | deliver (ack : Ack) (ha : a = .deliver) (hl : s.listen = some (.relay j, ack)) :
      RelayStep a s j r { r with buffer := r.buffer.or (some ack) }

theorem phase_eq (h : s.relays[c]? = some r) : s.phase c = some r.phase := by
  rw [phase, h]
  rfl

theorem RelayStep.key_eq (h : RelayStep a s j r r') :
    r'.key = r.key ∧ r'.requester = r.requester := by
  cases h <;> exact ⟨rfl, rfl⟩

theorem RelayStep.not_done (h : RelayStep a s j r r')
    (hr : r.phase ≠ .done) (ha : a ≠ .cleanup j) : r'.phase ≠ .done := by
  cases h with
  | same => exact hr
  | pinged ok => cases ok <;> exact RelayPhase.noConfusion
  | timeout => exact RelayPhase.noConfusion
  | consume =>
    dsimp only
    split_ifs
    · exact RelayPhase.noConfusion
    · exact hr
  | cleanup h => exact absurd h ha
  | deliver => exact hr

theorem getElem?_update {f : Relay A → Relay A} (h : (s.update c f).relays[j]? = some r') :
    ∃ r, s.relays[j]? = some r ∧ (c ≠ j ∧ r' = r ∨ c = j ∧ r' = f r) := by
  rw [update, List.getElem?_modify] at h
  obtain ⟨r, hr, rfl⟩ := Option.map_eq_some_iff.mp h
  by_cases hcj : c = j
  · exact ⟨r, hr, Or.inr ⟨hcj, if_pos hcj⟩⟩
  · exact ⟨r, hr, Or.inl ⟨hcj, if_neg hcj⟩⟩

theorem RelayStep.quiet (hcleanup : a ≠ .cleanup j) (hdeliver : a ≠ .deliver) :
    RelayStep a s j r r :=
  .same hcleanup fun h => absurd h hdeliver

/-- Whatever is at a place of the list was put there by a ping-req, or was there before. -/
theorem relay_exec (h : (exec a s).relays[j]? = some r') :
    (∃ key requester, a = .pingReq key requester ∧ key.target ≠ [] ∧ j = s.relays.length ∧
      r' = ⟨key, requester, .pinging, none⟩) ∨
    ∃ r, s.relays[j]? = some r ∧ RelayStep a s j r r' := by
  cases a with
  | pingReq key requester =>
    simp only [exec, pingReq] at h
    split_ifs at h with htarget
    · exact Or.inr ⟨r', h, .quiet nofun nofun⟩
    · rcases Nat.lt_or_ge j s.relays.length with hj | hj
      · rw [List.getElem?_append_left hj] at h
        exact Or.inr ⟨r', h, .quiet nofun nofun⟩
      · rw [List.getElem?_append_right hj, List.getElem?_singleton] at h
        split_ifs at h with hlast
        exact Or.inl ⟨key, requester, rfl, htarget, by omega, (Option.some.inj h).symm⟩
  | pinged c ok =>
    obtain ⟨r, hr, ⟨-, rfl⟩ | ⟨rfl, rfl⟩⟩ := getElem?_update h
    · exact Or.inr ⟨r', hr, .quiet nofun nofun⟩
    · exact Or.inr ⟨r, hr, .pinged ok rfl⟩
  | timeout c =>
    obtain ⟨r, hr, ⟨-, rfl⟩ | ⟨rfl, rfl⟩⟩ := getElem?_update h
    · exact Or.inr ⟨r', hr, .quiet nofun nofun⟩
    · exact Or.inr ⟨r, hr, .timeout rfl⟩
  | consume c =>
    obtain ⟨r, hr, ⟨-, rfl⟩ | ⟨rfl, rfl⟩⟩ := getElem?_update h
    · exact Or.inr ⟨r', hr, .quiet nofun nofun⟩
    · exact Or.inr ⟨r, hr, .consume rfl⟩
  | cleanup c =>
    simp only [exec, cleanup] at h
    split at h
    · next hnone =>
      refine Or.inr ⟨r', h, .quiet ?_ nofun⟩
      rintro ⟨⟩
      rw [hnone] at h
      cases h
    · obtain ⟨r, hr, ⟨hcj, rfl⟩ | ⟨rfl, rfl⟩⟩ := getElem?_update h
      · exact Or.inr ⟨r', hr, .quiet (fun h => hcj (Action.cleanup.inj h)) nofun⟩
      · exact Or.inr ⟨r, hr, .cleanup rfl⟩
  | ack src period target =>
    simp only [exec, ack] at h
    split at h <;> exact Or.inr ⟨r', h, .quiet nofun nofun⟩
  | deliver =>
    simp only [exec, deliver] at h
    split at h
    · next hl => exact Or.inr ⟨r', h, .same nofun fun _ => Or.inr fun _ => by simp [hl]⟩
    · next hl => exact Or.inr ⟨r', h, .same nofun fun _ => Or.inr fun _ => by simp [hl]⟩
    · next c ack hl =>
      split_ifs at h with hdone
      · refine Or.inr ⟨r', h, .same nofun fun _ => ?_⟩
        by_cases hcj : c = j
        · left
          simpa [phase, hcj, h] using hdone
        · right
          intro ack'
          simp [hl, hcj]
      · obtain ⟨r, hr, ⟨hcj, rfl⟩ | ⟨rfl, rfl⟩⟩ := getElem?_update h
        · exact Or.inr ⟨r', hr, .same nofun fun _ => Or.inr fun _ => by simp [hl, hcj]⟩
        · exact Or.inr ⟨r, hr, .deliver ack rfl hl⟩
  | _ => exact Or.inr ⟨r', h, .quiet nofun nofun⟩

theorem length_relays_exec : s.relays.length ≤ (exec a s).relays.length := by
  cases a with
  | pingReq key requester =>
    simp only [exec, pingReq]
    split_ifs <;> simp
  | cleanup c =>
    simp only [exec, cleanup]
    split <;> simp [update]
  | ack src period target =>
    simp only [exec, ack]
    split <;> exact Nat.le_refl _
  | deliver =>
    simp only [exec, deliver]
    split
    · exact Nat.le_refl _
    · exact Nat.le_refl _
    · split_ifs <;> simp [update]
  | pinged c ok => simp [exec, update]
  | timeout c => simp [exec, update]
  | consume c => simp [exec, consume, update]
  | _ => exact Nat.le_refl _

theorem exists_relay_exec (h : s.relays[j]? = some r) :
    ∃ r', (exec a s).relays[j]? = some r' ∧ RelayStep a s j r r' := by
  have hj : j < s.relays.length := (List.getElem?_eq_some_iff.mp h).1
  have hj' : j < (exec a s).relays.length := Nat.lt_of_lt_of_le hj length_relays_exec
  have hr' := List.getElem?_eq_getElem hj'
  rcases relay_exec hr' with ⟨_, _, -, -, rfl, -⟩ | ⟨r₀, hr₀, hstep⟩
  · exact absurd hj (Nat.lt_irrefl _)
  · obtain rfl := Option.some.inj (h.symm.trans hr₀)
    exact ⟨_, hr', hstep⟩

theorem relayAcks_exec (a : Action A) (s : Routing A) :
    (∃ key requester, a = .pingReq key requester) ∨ (∃ i, a = .cleanup i) ∨
      (∀ i, a ≠ .cleanup i) ∧ (exec a s).relayAcks = s.relayAcks := by
  cases a with
  | pingReq key requester => exact Or.inl ⟨key, requester, rfl⟩
  | cleanup i => exact Or.inr (Or.inl ⟨i, rfl⟩)
  | ack src period target =>
    refine Or.inr (Or.inr ⟨nofun, ?_⟩)
    simp only [exec, ack]
    split <;> rfl
  | deliver =>
    refine Or.inr (Or.inr ⟨nofun, ?_⟩)
    simp only [exec, deliver]
    split
    · rfl
    · rfl
    · split_ifs <;> rfl
  | _ => exact Or.inr (Or.inr ⟨nofun, rfl⟩)

theorem listen_exec_eq (a : Action A) (s : Routing A) :
    (∃ src period target, a = .ack src period target) ∨ a = .deliver ∨
      (exec a s).listen = s.listen := by
  cases a with
  | ack src period target => exact Or.inl ⟨src, period, target, rfl⟩
  | deliver => exact Or.inr (Or.inl rfl)
  | pingReq key requester =>
    right; right
    simp only [exec, pingReq]
    split_ifs <;> rfl
  | cleanup i =>
    right; right
    simp only [exec, cleanup]
    split <;> rfl
  | _ => exact Or.inr (Or.inr rfl)

/-- A key in the table was put there by a ping-req, or was there before and is not the key
of a relay that cleaned up. -/
theorem lookup_exec {key : RelayKey} (h : (exec a s).relayAcks.lookup key = some c) :
    (∃ requester, a = .pingReq key requester ∧ c = s.relays.length ∧
      (exec a s).relays[c]? = some ⟨key, requester, .pinging, none⟩) ∨
    s.relayAcks.lookup key = some c ∧
      ∀ j r, a = .cleanup j → s.relays[j]? = some r → r.key ≠ key := by
  rcases relayAcks_exec a s with ⟨key', requester, rfl⟩ | ⟨i, rfl⟩ | ⟨hother, hsame⟩
  · simp only [exec, pingReq] at h ⊢
    split_ifs at h ⊢ with htarget
    · exact Or.inr ⟨h, by simp⟩
    · rw [FMap.lookup_insert_eq] at h
      split_ifs at h with hkey
      · obtain rfl := Option.some.inj h
        rw [hkey]
        exact Or.inl ⟨requester, rfl, rfl, List.getElem?_concat_length⟩
      · exact Or.inr ⟨h, by simp⟩
  · simp only [exec, cleanup] at h
    split at h
    · next hnone =>
      refine Or.inr ⟨h, ?_⟩
      rintro j r ⟨⟩ hr
      rw [hnone] at hr
      cases hr
    · next r hr =>
      have hkey : key ≠ r.key := by
        rintro rfl
        rw [update, AList.lookup_erase] at h
        cases h
      refine Or.inr ⟨by rwa [update, AList.lookup_erase_ne hkey] at h, ?_⟩
      rintro j r' ⟨⟩ hr'
      obtain rfl := Option.some.inj (hr.symm.trans hr')
      exact hkey.symm
  · exact Or.inr ⟨hsame ▸ h, fun j _ ha => absurd ha (hother j)⟩

/-- A key stays in the table until it is registered again or a relay with that key cleans
up. -/
theorem lookup_exec_of_some {key : RelayKey} (h : s.relayAcks.lookup key = some c) :
    (exec a s).relayAcks.lookup key = some c ∨ (∃ requester, a = .pingReq key requester) ∨
      ∃ j r, a = .cleanup j ∧ s.relays[j]? = some r ∧ r.key = key := by
  rcases relayAcks_exec a s with ⟨key', requester, rfl⟩ | ⟨i, rfl⟩ | ⟨-, hsame⟩
  · by_cases hkey : key = key'
    · exact Or.inr (Or.inl ⟨requester, by rw [hkey]⟩)
    · left
      simp only [exec, pingReq]
      split_ifs
      · exact h
      · rwa [AList.lookup_insert_ne hkey]
  · simp only [exec, cleanup]
    cases hr : s.relays[i]? with
    | none => exact Or.inl h
    | some r =>
      by_cases hkey : key = r.key
      · exact Or.inr (Or.inr ⟨i, r, rfl, hr, hkey.symm⟩)
      · left
        exact (AList.lookup_erase_ne hkey).trans h
  · left
    rwa [hsame]

/-- What `Listen` is about to send was looked up in this step or before. -/
theorem listen_exec {dest : AckChan} {ack : Ack} (h : (exec a s).listen = some (dest, ack)) :
    s.listen = some (dest, ack) ∨ ∃ src period target, a = .ack src period target ∧
      ack = ackOf src period target ∧
      (dest = .probe ∧ s.relayAcks.lookup ack.key = none ∨
        ∃ c, dest = .relay c ∧ s.relayAcks.lookup ack.key = some c) := by
  rcases listen_exec_eq a s with ⟨src, period, target, rfl⟩ | rfl | hsame
  · simp only [exec, Routing.ack] at h
    split at h
    · next hnone =>
      obtain ⟨rfl, rfl⟩ := Prod.mk.inj (Option.some.inj h)
      exact Or.inr ⟨src, period, target, rfl, rfl, Or.inl ⟨rfl, hnone⟩⟩
    · next c hsome =>
      obtain ⟨rfl, rfl⟩ := Prod.mk.inj (Option.some.inj h)
      exact Or.inr ⟨src, period, target, rfl, rfl, Or.inr ⟨c, rfl, hsome⟩⟩
  · simp only [exec, deliver] at h
    split at h
    · exact Or.inl h
    · cases h
    · split_ifs at h
      · exact Or.inl h
      · cases h
  · left
    rwa [hsame] at h

theorem listen_exec_of_some {dest : AckChan} {ack : Ack} (h : s.listen = some (dest, ack))
    (hen : enabled a s) (ha : a ≠ .deliver) : (exec a s).listen = some (dest, ack) := by
  rcases listen_exec_eq a s with ⟨src, period, target, rfl⟩ | rfl | hsame
  · rw [hen.2] at h
    cases h
  · exact absurd rfl ha
  · rwa [hsame]

theorem probe_exec_eq (a : Action A) (s : Routing A) :
    (∃ peer ok, a = .probeStart peer ok) ∨ a = .probeConsume ∨ a = .probeEnd ∨
      (exec a s).probe = s.probe := by
  cases a with
  | probeStart peer ok => exact Or.inl ⟨peer, ok, rfl⟩
  | probeConsume => exact Or.inr (Or.inl rfl)
  | probeEnd => exact Or.inr (Or.inr (Or.inl rfl))
  | pingReq key requester =>
    right; right; right
    simp only [exec, pingReq]
    split_ifs <;> rfl
  | cleanup i =>
    right; right; right
    simp only [exec, cleanup]
    split <;> rfl
  | ack src period target =>
    right; right; right
    simp only [exec, ack]
    split <;> rfl
  | deliver =>
    right; right; right
    simp only [exec, deliver]
    split
    · rfl
    · rfl
    · split_ifs <;> rfl
  | _ => exact Or.inr (Or.inr (Or.inr rfl))

theorem probe_exec {key : RelayKey} (h : (exec a s).probe = some key) :
    s.probe = some key ∨ ∃ ok, a = .probeStart key.target ok := by
  rcases probe_exec_eq a s with ⟨peer, ok, rfl⟩ | rfl | rfl | hsame
  · simp only [exec] at h
    split_ifs at h
    obtain rfl := Option.some.inj h
    exact Or.inr ⟨ok, rfl⟩
  · simp only [exec, probeConsume] at h
    split_ifs at h
    exact Or.inl h
  · cases h
  · exact Or.inl (hsame ▸ h)

theorem panicked_exec (h : (exec a s).panicked = true) : s.panicked = true ∨
    a = .deliver ∧ ∃ c ack, s.listen = some (.relay c, ack) ∧ s.phase c = some .done := by
  cases a with
  | pingReq key requester =>
    simp only [exec, pingReq] at h
    split_ifs at h <;> exact Or.inl h
  | cleanup i =>
    simp only [exec, cleanup] at h
    split at h <;> exact Or.inl h
  | ack src period target =>
    simp only [exec, ack] at h
    split at h <;> exact Or.inl h
  | deliver =>
    simp only [exec, deliver] at h
    split at h
    · exact Or.inl h
    · exact Or.inl h
    · next c ack hl =>
      split_ifs at h with hdone
      · exact Or.inr ⟨rfl, c, ack, hl, hdone⟩
      · exact Or.inl h
  | _ => exact Or.inl h

end Inversion

/-- Acks are where they belong: the table has channels that are open and registered under
their key, and an ack in or on its way to a channel has the key of its relay. -/
structure Routed (s : Routing A) : Prop where
  registered : ∀ key c, s.relayAcks.lookup key = some c →
    ∃ r, s.relays[c]? = some r ∧ r.key = key ∧ r.phase ≠ .done
  buffered : ∀ (c : ℕ) (r : Relay A) (a : Ack), s.relays[c]? = some r → r.buffer = some a →
    a.key = r.key
  held : ∀ c a, s.listen = some (.relay c, a) → ∃ r, s.relays[c]? = some r ∧ a.key = r.key

theorem Routed.init : Routed (init : Routing A) :=
  ⟨by simp [Routing.init], by simp [Routing.init], by simp [Routing.init]⟩

variable {s : Routing A}

theorem Routed.exec (h : Routed s) (a : Action A) : Routed (exec a s) := by
  refine ⟨fun key c hkey => ?_, fun c r' ack hr' hack => ?_, fun c ack hheld => ?_⟩
  · rcases lookup_exec hkey with ⟨requester, -, -, hr⟩ | ⟨hkey, hclean⟩
    · exact ⟨_, hr, rfl, RelayPhase.noConfusion⟩
    · obtain ⟨r, hr, rfl, hphase⟩ := h.registered key c hkey
      obtain ⟨r', hr', hstep⟩ := exists_relay_exec (a := a) hr
      refine ⟨r', hr', hstep.key_eq.1, hstep.not_done hphase ?_⟩
      exact fun ha => hclean c r ha hr rfl
  · rcases relay_exec hr' with ⟨_, _, -, -, -, rfl⟩ | ⟨r, hr, hstep⟩
    · cases hack
    · cases hstep with
      | same => exact h.buffered c _ ack hr hack
      | pinged ok ha => exact h.buffered c r ack hr hack
      | timeout ha => exact h.buffered c r ack hr hack
      | consume ha => cases hack
      | cleanup ha => exact h.buffered c r ack hr hack
      | deliver ack' ha hl =>
        rcases Option.or_eq_some_iff.mp hack with hack | ⟨-, hack⟩
        · exact h.buffered c r ack hr hack
        · obtain ⟨r₀, hr₀, hkey⟩ := h.held c ack' hl
          obtain rfl := Option.some.inj (hr.symm.trans hr₀)
          exact Option.some.inj hack ▸ hkey
  · rcases listen_exec hheld with hheld | ⟨_, _, _, -, -, ⟨hdest, -⟩ | ⟨c', hdest, hlookup⟩⟩
    · obtain ⟨r, hr, hkey⟩ := h.held c ack hheld
      obtain ⟨r', hr', hstep⟩ := exists_relay_exec (a := a) hr
      exact ⟨r', hr', hkey.trans hstep.key_eq.1.symm⟩
    · cases hdest
    · cases hdest
      obtain ⟨r, hr, hkey, -⟩ := h.registered _ c hlookup
      obtain ⟨r', hr', hstep⟩ := exists_relay_exec (a := a) hr
      exact ⟨r', hr', (hstep.key_eq.1.trans hkey).symm⟩

end Routing
end Commute.Swim
