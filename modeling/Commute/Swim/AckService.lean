import Commute.Swim.AckRouting

/-!
# Serving the waiters of an ack

Relays and the node's own probe may wait for acks from one target with one period
number. The table has one channel for the two, whoever asked, so a second ping-req
takes the place of the first one. Where a key is not registered again before its
relay has removed it, and no ack for the own probe goes to a relay that has
finished, every ack serves a waiter that is still waiting.

A waiter starves if no ack is on its way to it. Nothing makes a waiter starve that
did not starve before, and every ack ends the starving of one.
-/
namespace Commute.Swim.Routing

variable {A : Type} {s : Routing A} {a : Action A} {K : RelayKey}

inductive Served (A : Type) where
  | relayAck (c : ℕ) (requester : A) (key : RelayKey)
  | probe (key : RelayKey)
deriving DecidableEq

/-- The relay ack a relay sends, or the ack the probe loop has waited for. -/
def served : Action A → Routing A → List (Served A)
  | .consume c, s =>
    match s.relays[c]? with
    | none => []
    | some r =>
      if r.buffer.any fun a => a.key = r.key then [.relayAck c r.requester r.key] else []
  | .probeConsume, s =>
    match s.probe with
    | none => []
    | some key => if s.acks.map Ack.key = some key then [.probe key] else []
  | _, _ => []

def arrivals (K : RelayKey) : Action A → Routing A → List Ack
  | .ack src period target, _ =>
    if (ackOf src period target).key = K then [ackOf src period target] else []
  | _, _ => []

def waiters (K : RelayKey) (s : Routing A) : ℕ :=
  s.relays.countP (fun r => r.key = K ∧ r.Pending) + if s.probe = some K then 1 else 0

/-- Everyone who waits has consumed what was delivered. -/
def Drained (K : RelayKey) (s : Routing A) : Prop :=
  (∀ r ∈ s.relays, r.key = K → r.Pending → r.buffer = none) ∧ (s.probe = some K → s.acks = none)

instance (K : RelayKey) (s : Routing A) : Decidable (Drained K s) :=
  inferInstanceAs (Decidable (_ ∧ _))

/-- A key is registered only after every relay for it has removed it, and no ack for the
own probe arrives between a relay having finished and its removal of the key. -/
def Exclusive (K : RelayKey) : Action A → Routing A → Prop
  | .pingReq key _, s => key = K → ∀ r ∈ s.relays, r.key = K → r.phase = .done
  | .ack src period target, s => (ackOf src period target).key = K → s.probe = some K →
      ∀ r ∈ s.relays, r.key = K → r.phase ≠ .leaving
  | _, _ => True

/-- Nobody starts or gives up waiting for an ack with this key, and an ack arrives only
when those who wait have consumed what was delivered. -/
def Undisturbed (K : RelayKey) : Action A → Routing A → Prop
  | .pingReq key _, _ => key ≠ K
  | .pinged c ok, s => ok = false → (s.relays[c]?).map Relay.key ≠ some K
  | .timeout c, s => (s.relays[c]?).map Relay.key ≠ some K
  | .probeStart peer ok, s => ok = true → (⟨peer, s.period + 1⟩ : RelayKey) ≠ K
  | .probeEnd, s => s.probe ≠ some K
  | .ack src period target, s => (ackOf src period target).key = K → Drained K s
  | _, _ => True

instance (K : RelayKey) : (a : Action A) → (s : Routing A) → Decidable (Exclusive K a s)
  | .pingReq _ _, _ => inferInstanceAs (Decidable (_ → _))
  | .ack _ _ _, _ => inferInstanceAs (Decidable (_ → _ → _))
  | .pinged _ _, _ | .timeout _, _ | .consume _, _ | .cleanup _, _ | .deliver, _
  | .probeStart _ _, _ | .probeConsume, _ | .probeEnd, _ => .isTrue trivial

instance (K : RelayKey) : (a : Action A) → (s : Routing A) → Decidable (Undisturbed K a s)
  | .pingReq _ _, _ | .timeout _, _ | .probeEnd, _ => inferInstanceAs (Decidable (_ ≠ _))
  | .pinged _ _, _ | .probeStart _ _, _ | .ack _ _ _, _ => inferInstanceAs (Decidable (_ → _))
  | .consume _, _ | .cleanup _, _ | .deliver, _ | .probeConsume, _ => .isTrue trivial

/-- The relay for a key that is not done is registered. -/
def Sole (K : RelayKey) (s : Routing A) : Prop :=
  ∀ (c : ℕ) (r : Relay A), s.relays[c]? = some r → r.key = K → r.phase ≠ .done →
    s.relayAcks.lookup K = some c

theorem RelayStep.not_done_before {c : ℕ} {r r' : Relay A} (h : RelayStep a s c r r')
    (hr : s.relays[c]? = some r) (hen : enabled a s) (hr' : r'.phase ≠ .done) :
    r.phase ≠ .done := by
  intro hdone
  have hphase := phase_eq hr
  rw [hdone] at hphase
  cases h with
  | same => exact hr' hdone
  | pinged ok ha =>
    subst ha
    cases hphase.symm.trans hen.2
  | timeout ha =>
    subst ha
    cases hphase.symm.trans hen.2
  | consume ha =>
    subst ha
    cases hphase.symm.trans hen.2.1
  | cleanup ha =>
    subst ha
    cases hphase.symm.trans hen.2
  | deliver => exact hr' hdone

theorem Sole.exec (h : Sole K s) (hen : enabled a s) (hex : Exclusive K a s) :
    Sole K (exec a s) := by
  intro c r' hr' hkey hphase
  rcases relay_exec hr' with ⟨key, requester, rfl, htarget, rfl, rfl⟩ | ⟨r, hr, hstep⟩
  · subst hkey
    simp only [Routing.exec, pingReq, if_neg htarget]
    exact AList.lookup_insert _
  · have hkey' : r.key = K := hstep.key_eq.1.symm.trans hkey
    have hactive := hstep.not_done_before hr hen hphase
    have hlookup := h c r hr hkey' hactive
    rcases lookup_exec_of_some (a := a) hlookup with
      h' | ⟨requester, rfl⟩ | ⟨j, r₀, rfl, hr₀, hkey₀⟩
    · exact h'
    · exact absurd (hex rfl r (List.mem_of_getElem? hr) hkey') hactive
    · have hleaving : r₀.phase ≠ .done := by
        intro hdone
        have hphase₀ := phase_eq hr₀
        rw [hdone] at hphase₀
        cases hphase₀.symm.trans hen.2
      obtain rfl := Option.some.inj ((h j r₀ hr₀ hkey₀ hleaving).symm.trans hlookup)
      cases hstep with
      | same hcleanup => exact absurd rfl hcleanup
      | cleanup => exact absurd rfl hphase
      | pinged _ ha => cases ha
      | timeout ha => cases ha
      | consume ha => cases ha
      | deliver _ ha => cases ha

/-- A relay waits for an ack with this key, and none is on its way. -/
def RelayStarves (K : RelayKey) (s : Routing A) : Prop :=
  ∃ (c : ℕ) (r : Relay A), s.relays[c]? = some r ∧ r.key = K ∧ r.Pending ∧ r.buffer = none ∧
    ∀ ack, s.listen ≠ some (.relay c, ack)

/-- The probe loop waits for an ack with this key, and none is on its way. An ack that finds
the buffer full is not. -/
def ProbeStarves (K : RelayKey) (s : Routing A) : Prop :=
  s.probe = some K ∧ s.acks.map Ack.key ≠ some K ∧
    (s.acks = none → ∀ ack, s.listen = some (.probe, ack) → ack.key ≠ K)

theorem RelayStarves.of_exec (h : RelayStarves K (exec a s)) (hrouted : Routed s)
    (hen : enabled a s) (hun : Undisturbed K a s) : RelayStarves K s := by
  obtain ⟨c, r', hr', hkey, hpending, hbuffer, hlisten⟩ := h
  rcases relay_exec hr' with ⟨key, requester, rfl, -, -, rfl⟩ | ⟨r, hr, hstep⟩
  · exact absurd hkey hun
  · refine ⟨c, r, hr, hstep.key_eq.1.symm.trans hkey, ?_⟩
    have hphase := phase_eq hr
    cases hstep with
    | same _ hdeliver =>
      refine ⟨hpending, hbuffer, fun ack hack => ?_⟩
      by_cases ha : a = .deliver
      · exact (hdeliver ha).elim hpending.ne_done fun hnot => hnot ack hack
      · exact hlisten ack (listen_exec_of_some hack hen ha)
    | pinged ok ha =>
      subst ha
      have hpinging : r.phase = .pinging := Option.some.inj (hphase.symm.trans hen.2)
      exact ⟨Or.inl hpinging, hbuffer,
        fun ack hack => hlisten ack (listen_exec_of_some hack hen nofun)⟩
    | timeout ha => exact absurd rfl hpending.ne_leaving
    | consume ha =>
      subst ha
      obtain ⟨ack, hack⟩ := Option.isSome_iff_exists.mp hen.2.2
      rw [hr, Option.bind_some] at hack
      simp [hack, hrouted.buffered c r ack hr hack, Relay.Pending] at hpending
    | cleanup ha => exact absurd rfl hpending.ne_done
    | deliver ack ha hl => simp at hbuffer

theorem ProbeStarves.of_exec (h : ProbeStarves K (exec a s)) (hen : enabled a s)
    (hun : Undisturbed K a s) : ProbeStarves K s := by
  cases a with
  | pingReq key requester =>
    simp only [exec, pingReq] at h
    split_ifs at h <;> exact h
  | cleanup c =>
    simp only [exec, cleanup] at h
    split at h <;> exact h
  | pinged c ok => exact h
  | timeout c => exact h
  | consume c => exact h
  | ack src period target =>
    have hidle : s.listen = none := hen.2
    simp only [exec, ack] at h
    split at h <;> exact ⟨h.1, h.2.1, fun _ ack hack => by rw [hidle] at hack; cases hack⟩
  | deliver =>
    simp only [exec, deliver] at h
    split at h
    · exact h
    · next ack hl =>
      obtain ⟨hprobe, hacks, -⟩ := h
      refine ⟨hprobe, fun hK => hacks ?_, fun hnone ack' hack' => ?_⟩
      · obtain ⟨b, hb, hkey⟩ := Option.map_eq_some_iff.mp hK
        simp [hb, hkey]
      · rw [hl] at hack'
        obtain ⟨-, rfl⟩ := Prod.mk.inj (Option.some.inj hack')
        simpa [hnone] using hacks
    · next c ack hl =>
      have hnot : ∀ ack', s.listen ≠ some (.probe, ack') := by simp [hl]
      split_ifs at h <;> exact ⟨h.1, h.2.1, fun _ ack' hack' => absurd hack' (hnot ack')⟩
  | probeStart peer ok =>
    have hprobe : (if ok = true then some (⟨peer, s.period + 1⟩ : RelayKey) else none) = some K :=
      h.1
    split_ifs at hprobe with hok
    exact absurd (Option.some.inj hprobe) (hun hok)
  | probeConsume =>
    have hprobe : (if s.acks.map Ack.key = s.probe then none else s.probe) = some K := h.1
    split_ifs at hprobe with hmatch
    refine ⟨hprobe, hprobe ▸ hmatch, fun hnone => ?_⟩
    have := hen.2.2
    rw [hnone] at this
    cases this
  | probeEnd => cases h.1

/-- After an ack has arrived, no relay starves, and if none did before then the probe loop
does not. -/
theorem starves_ack {src target : Bytes} {period : UInt64}
    (hK : (ackOf src period target).key = K) (hrouted : Routed s) (hsole : Sole K s)
    (hen : enabled (.ack src period target) s) (hex : Exclusive K (.ack src period target) s)
    (hdrained : Drained K s) :
    ¬ RelayStarves K (exec (.ack src period target) s) ∧
      (RelayStarves K s ∨ ¬ ProbeStarves K (exec (.ack src period target) s)) := by
  have hidle : s.listen = none := hen.2
  simp only [exec, ack]
  rw [hK]
  cases hlookup : s.relayAcks.lookup K with
  | none =>
    constructor
    · rintro ⟨c, r, hr, hkey, hpending, -⟩
      have hsome := hsole c r hr hkey hpending.ne_done
      rw [hlookup] at hsome
      cases hsome
    · right
      rintro ⟨hprobe, -, hlisten⟩
      exact hlisten (hdrained.2 hprobe) _ rfl hK
  | some c =>
    constructor
    · rintro ⟨c', r, hr, hkey, hpending, -, hlisten⟩
      obtain rfl := Option.some.inj (hlookup.symm.trans (hsole c' r hr hkey hpending.ne_done))
      exact hlisten _ rfl
    · obtain ⟨r, hr, hkey, hactive⟩ := hrouted.registered K c hlookup
      have hmem := List.mem_of_getElem? hr
      by_cases hpending : r.Pending
      · left
        exact ⟨c, r, hr, hkey, hpending, hdrained.1 r hmem hkey hpending, by simp [hidle]⟩
      · right
        rintro ⟨hprobe, -⟩
        have hleaving : r.phase = .leaving := by
          cases hphase : r.phase <;> simp_all [Relay.Pending]
        exact hex hK hprobe r hmem hkey hleaving

open Classical in
/-- How many waiters starve. -/
noncomputable def starving (K : RelayKey) (s : Routing A) : ℕ :=
  (if RelayStarves K s then 1 else 0) + if ProbeStarves K s then 1 else 0

theorem starving_le_waiters (K : RelayKey) (s : Routing A) : starving K s ≤ waiters K s := by
  refine Nat.add_le_add ?_ ?_
  · split_ifs with h
    · obtain ⟨c, r, hr, hkey, hpending, -⟩ := h
      exact List.countP_pos_iff.mpr ⟨r, List.mem_of_getElem? hr, by simp [hkey, hpending]⟩
    · exact Nat.zero_le _
  · split_ifs with h hprobe
    · exact Nat.le_refl 1
    · exact absurd h.1 hprobe
    · exact Nat.zero_le _
    · exact Nat.le_refl 0

theorem starving_exec (hrouted : Routed s) (hsole : Sole K s) (hen : enabled a s)
    (hex : Exclusive K a s) (hun : Undisturbed K a s) :
    starving K (exec a s) ≤ starving K s - (arrivals K a s).length := by
  have hrelay : RelayStarves K (exec a s) → RelayStarves K s := fun h => h.of_exec hrouted hen hun
  have hprobe : ProbeStarves K (exec a s) → ProbeStarves K s := fun h => h.of_exec hen hun
  have hmono : starving K (exec a s) ≤ starving K s := by
    unfold starving
    split_ifs <;> first | omega | tauto
  cases a with
  | ack src period target =>
    simp only [arrivals]
    split_ifs with hK
    · obtain ⟨hnot, hor⟩ := starves_ack hK hrouted hsole hen hex (hun hK)
      unfold starving
      simp only [List.length_singleton, if_neg hnot]
      rcases hor with hwas | hfed
      · rw [if_pos hwas]
        split_ifs <;> first | omega | tauto
      · rw [if_neg hfed]
        omega
    · exact hmono
  | _ => exact hmono

/-- Over a segment, every arriving ack ends the starving of a waiter. -/
theorem starving_after {as : List (Action A)} {start : Routing A}
    (h : ((machine A).restrict fun a s => Exclusive K a s ∧ Undisturbed K a s).Legal start as)
    (hrouted : Routed start) (hsole : Sole K start) :
    starving K ((machine A).after start as) ≤
      waiters K start - ((machine A).emits (arrivals K) start as).length := by
  have hinv := h.emits_invariant (arrivals K) (o := [])
    (I := fun out s => Routed s ∧ Sole K s ∧ starving K s ≤ waiters K start - out.length)
    ⟨hrouted, hsole, starving_le_waiters K start⟩ ?_
  · rw [Machine.emits_restrict, Machine.after_restrict] at hinv
    exact hinv.2.2
  · rintro a out s ⟨hrouted, hsole, hle⟩ ⟨hen, hex, hun⟩
    refine ⟨hrouted.exec a, hsole.exec hen hex, ?_⟩
    have hstep := starving_exec hrouted hsole hen hex hun
    rw [List.length_append]
    change starving K (exec a s) ≤ _
    omega

/-- A relay with this key that waits or has sent its relay ack. -/
def RelayKept (K : RelayKey) (c : ℕ) (requester : A) (out : List (Served A)) (s : Routing A) :
    Prop :=
  ∃ r, s.relays[c]? = some r ∧ r.key = K ∧ r.requester = requester ∧
    (r.Pending ∨ .relayAck c requester K ∈ out)

theorem RelayKept.exec {c : ℕ} {requester : A} {out : List (Served A)}
    (h : RelayKept K c requester out s) (hen : enabled a s) (hun : Undisturbed K a s) :
    RelayKept K c requester (out ++ served a s) (exec a s) := by
  obtain ⟨r, hr, rfl, rfl, hkept⟩ := h
  obtain ⟨r', hr', hstep⟩ := exists_relay_exec (a := a) hr
  refine ⟨r', hr', hstep.key_eq.1, hstep.key_eq.2, ?_⟩
  rcases hkept with hpending | hserved
  · have hphase := phase_eq hr
    cases hstep with
    | same => exact Or.inl hpending
    | pinged ok ha =>
      subst ha
      cases ok with
      | false => exact absurd (by rw [hr]; rfl) (hun rfl)
      | true => exact Or.inl (Or.inr rfl)
    | timeout ha =>
      subst ha
      exact absurd (by rw [hr]; rfl) hun
    | consume ha =>
      subst ha
      by_cases hmatch : r.buffer.any fun ack => ack.key = r.key
      · right
        simp [served, hr, hmatch]
      · left
        simpa [Relay.Pending, hmatch] using hpending
    | cleanup ha =>
      subst ha
      exact absurd (Option.some.inj (hphase.symm.trans hen.2)) hpending.ne_leaving
    | deliver ack ha hl => exact Or.inl hpending
  · exact Or.inr (List.mem_append_left _ hserved)

/-- The probe loop waits for this key or has got its ack. -/
def ProbeKept (K : RelayKey) (out : List (Served A)) (s : Routing A) : Prop :=
  s.probe = some K ∨ .probe K ∈ out

theorem ProbeKept.exec {out : List (Served A)} (h : ProbeKept K out s) (hen : enabled a s)
    (hun : Undisturbed K a s) : ProbeKept K (out ++ served a s) (exec a s) := by
  rcases h with hprobe | hserved
  · rcases probe_exec_eq a s with ⟨peer, ok, rfl⟩ | rfl | rfl | hsame
    · exact absurd (hprobe.symm.trans hen.2) nofun
    · by_cases hmatch : s.acks.map Ack.key = some K
      · right
        simp [served, hprobe, hmatch]
      · left
        simp [Routing.exec, probeConsume, hprobe, hmatch]
    · exact absurd hprobe hun
    · exact Or.inl (hsame.trans hprobe)
  · exact Or.inr (List.mem_append_left _ hserved)

theorem routed_sole {before : List (Action A)}
    (h : ((machine A).restrict (Exclusive K)).Legal init before) :
    Routed ((machine A).after init before) ∧ Sole K ((machine A).after init before) := by
  have hinv := h.invariant (I := fun s => Routed s ∧ Sole K s) ⟨.init, by simp [Sole, init]⟩
    fun a s hs ha => ⟨hs.1.exec a, hs.2.exec ha.1 ha.2⟩
  rwa [Machine.after_restrict] at hinv

/-- In every run in which the key is used exclusively: if as many acks for the key arrive as
there are waiters, none of which gives up, and each waiter has consumed what was delivered
before the next ack and at the end, then every requester has been sent a relay ack and the
probe loop has received its ack. -/
theorem served_of_arrivals {before as : List (Action A)}
    (hbefore : ((machine A).restrict (Exclusive K)).Legal init before)
    (has : ((machine A).restrict fun a s => Exclusive K a s ∧ Undisturbed K a s).Legal
      ((machine A).after init before) as)
    (hacks : waiters K ((machine A).after init before) ≤
      ((machine A).emits (arrivals K) ((machine A).after init before) as).length)
    (hdrained : Drained K ((machine A).after init (before ++ as)))
    (hidle : ((machine A).after init (before ++ as)).listen = none) :
    (∀ (c : ℕ) (r : Relay A), ((machine A).after init before).relays[c]? = some r →
      r.key = K → r.Pending → .relayAck c r.requester K ∈
        (machine A).emits served ((machine A).after init before) as) ∧
    (((machine A).after init before).probe = some K →
      .probe K ∈ (machine A).emits served ((machine A).after init before) as) := by
  obtain ⟨hrouted, hsole⟩ := routed_sole hbefore
  rw [Machine.after_append] at hdrained hidle
  generalize (machine A).after init before = start at *
  have hstarving : starving K ((machine A).after start as) = 0 := by
    have := starving_after has hrouted hsole
    omega
  constructor
  · intro c r hr hkey hpending
    have hkept := has.emits_invariant served (o := [])
      (I := RelayKept K c r.requester) ⟨r, hr, hkey, rfl, Or.inl hpending⟩
      fun a out s hs ha => hs.exec ha.1 ha.2.2
    rw [Machine.emits_restrict, Machine.after_restrict, List.nil_append] at hkept
    obtain ⟨r', hr', hkey', -, hpending' | hserved⟩ := hkept
    · have hempty := hdrained.1 r' (List.mem_of_getElem? hr') hkey' hpending'
      have hstarves : RelayStarves K ((machine A).after start as) :=
        ⟨c, r', hr', hkey', hpending', hempty, by simp [hidle]⟩
      rw [starving, if_pos hstarves] at hstarving
      omega
    · exact hserved
  · intro hprobe
    have hkept := has.emits_invariant served (o := []) (I := ProbeKept K)
      (Or.inl hprobe) fun a out s hs ha => hs.exec ha.1 ha.2.2
    rw [Machine.emits_restrict, Machine.after_restrict, List.nil_append] at hkept
    rcases hkept with hprobe' | hserved
    · have hempty := hdrained.2 hprobe'
      have hstarves : ProbeStarves K ((machine A).after start as) :=
        ⟨hprobe', by simp [hempty], by simp [hidle]⟩
      rw [starving, if_pos hstarves] at hstarving
      omega
    · exact hserved

/-- The first period of the node, and the same number in a ping-req for the peer `t`. -/
def firstPeriod : RelayKey := ⟨[116], 1⟩

/-- The requester `1` waits for an ack from `t`, and so does the node's own probe. -/
def relayAndProbe : List (Action ℕ) :=
  [.pingReq firstPeriod 1, .pinged 0 true, .probeStart [116] true]

def twoRequesters : List (Action ℕ) :=
  [.pingReq firstPeriod 1, .pinged 0 true, .pingReq firstPeriod 2, .pinged 1 true]

theorem served_relayAndProbe :
    let acks := [.ack [116] 1 [], .deliver, .consume 0, .cleanup 0, .ack [116] 1 [], .deliver,
      .probeConsume]
    .relayAck 0 1 firstPeriod ∈
        (machine ℕ).emits served ((machine ℕ).after init relayAndProbe) acks ∧
      .probe firstPeriod ∈
        (machine ℕ).emits served ((machine ℕ).after init relayAndProbe) acks := by
  intro acks
  have h := @served_of_arrivals ℕ firstPeriod relayAndProbe acks (by decide) (by decide)
    (by decide) (by decide) (by decide)
  exact ⟨h.1 0 ⟨firstPeriod, 1, .waiting, none⟩ rfl rfl (by decide), h.2 rfl⟩

/-- Two acks arrive for two waiters that do not give up, and one of them is not served: the
first of two requesters, whose channel was replaced in the table, or the probe loop, whose
ack went to a relay that had finished and not yet removed its key. -/
theorem not_served_overwritten :
    (let acks := [.ack [116] 1 [], .deliver, .consume 1, .cleanup 1, .ack [116] 1 [], .deliver]
      let start := (machine ℕ).after init twoRequesters
      (machine ℕ).Legal init twoRequesters ∧ waiters firstPeriod start = 2 ∧
      ((machine ℕ).restrict (Undisturbed firstPeriod)).Legal start acks ∧
      ((machine ℕ).emits (arrivals firstPeriod) start acks).length = 2 ∧
      Drained firstPeriod ((machine ℕ).after start acks) ∧
      ((machine ℕ).after start acks).listen = none ∧
      (machine ℕ).emits served start acks = [.relayAck 1 2 firstPeriod]) ∧
    (let acks := [.ack [116] 1 [], .deliver, .consume 0, .ack [116] 1 [], .deliver, .cleanup 0]
      let start := (machine ℕ).after init relayAndProbe
      (machine ℕ).Legal init relayAndProbe ∧ waiters firstPeriod start = 2 ∧
      ((machine ℕ).restrict (Undisturbed firstPeriod)).Legal start acks ∧
      ((machine ℕ).emits (arrivals firstPeriod) start acks).length = 2 ∧
      Drained firstPeriod ((machine ℕ).after start acks) ∧
      ((machine ℕ).after start acks).listen = none ∧
      (machine ℕ).emits served start acks = [.relayAck 0 1 firstPeriod]) := by
  decide

end Commute.Swim.Routing
