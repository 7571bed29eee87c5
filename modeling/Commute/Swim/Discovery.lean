import Commute.Swim.Group
import Mathlib.Data.Fintype.Option

/-!
# Discovery through a seed

A member pushes its list to a seed and pulls the list of the seed. As long as nobody is
found dead, lists only grow, so a member that pulls after everybody has pushed ends up
with the whole group.
-/
namespace Commute.Swim

namespace Peers

variable {self : Bytes} {p : Peers}

theorem deadPeers_joinEntry (self : Bytes) (draw : ℕ → ℕ) (st : Peers × List Peer) (jp : JoinPeer) :
    (joinEntry self draw st jp).1.deadPeers = st.1.deadPeers := by
  rcases joinEntry_cases self draw st.1 st.2 jp with heq | ⟨-, -, -, heq⟩ <;> rw [heq]

theorem addrs_joinEntry (self : Bytes) (draw : ℕ → ℕ) (st : Peers × List Peer) (jp : JoinPeer)
    {x : Bytes} (hx : x ∈ st.1.addrs) : x ∈ (joinEntry self draw st jp).1.addrs := by
  rcases joinEntry_cases self draw st.1 st.2 jp with heq | ⟨-, -, -, heq⟩
  · rwa [heq]
  · rw [heq, addrs, ((swap_perm _ _ _).map _).mem_iff, List.map_append]
    exact List.mem_append_left _ hx

theorem mem_addrs_joinEntry (draw : ℕ → ℕ) (st : Peers × List Peer) {jp : JoinPeer}
    (hself : jp.udpAddr ≠ self) (halive : ¬ st.1.Dead jp.udpAddr) :
    jp.udpAddr ∈ (joinEntry self draw st jp).1.addrs := by
  have hlookup : ¬ (st.1.deadPeers.lookup jp.udpAddr).isSome = true := halive
  unfold joinEntry
  rw [if_neg hself, if_neg hlookup]
  split_ifs with hany
  · simpa [addrs] using hany
  · rw [addrs, ((swap_perm _ _ _).map _).mem_iff, List.map_append]
    exact List.mem_append_right _ List.mem_cons_self

/-- Every entry of a join body is in the list afterwards, unless it is the node itself or
known to be dead. -/
theorem mem_addrs_join (draw : ℕ → ℕ) {body : JoinBody} {jp : JoinPeer} (hjp : jp ∈ body.peers)
    (hself : jp.udpAddr ≠ self) (halive : ¬ p.Dead jp.udpAddr) :
    jp.udpAddr ∈ (p.join self draw body).1.addrs := by
  have hkeep : ∀ (peers : List JoinPeer) (st : Peers × List Peer), jp.udpAddr ∈ st.1.addrs →
      jp.udpAddr ∈ (peers.foldl (joinEntry self draw) st).1.addrs := by
    intro peers
    induction peers with
    | nil => exact fun _ => id
    | cons jp' peers ih => exact fun st h => ih _ (addrs_joinEntry self draw st jp' h)
  have hloop : ∀ (peers : List JoinPeer) (st : Peers × List Peer), jp ∈ peers →
      ¬ st.1.Dead jp.udpAddr → jp.udpAddr ∈ (peers.foldl (joinEntry self draw) st).1.addrs := by
    intro peers
    induction peers with
    | nil => exact fun st h => absurd h List.not_mem_nil
    | cons jp' peers ih =>
      intro st hmem hdead
      rw [List.foldl_cons]
      rcases List.mem_cons.mp hmem with rfl | hmem
      · exact hkeep peers _ (mem_addrs_joinEntry draw st hself hdead)
      · refine ih _ hmem ?_
        unfold Dead at hdead ⊢
        rwa [deadPeers_joinEntry]
  exact hloop body.peers _ hjp (not_dead_erase halive)

theorem addrs_join (draw : ℕ → ℕ) (body : JoinBody) {x : Bytes} (hx : x ∈ p.addrs) :
    x ∈ (p.join self draw body).1.addrs :=
  ((joined_join self draw body p).mem_addrs x).mpr (Or.inl hx)

end Peers

namespace Node

variable {σ : Type} {crc : Bytes → UInt32} {m : Settings} {notify : Peer → EventKind → σ → σ}
  {n : Node σ} {L : Lore}

theorem Sound.addrs_advance (h : n.member.Sound L) (halive : ∀ x, ¬ L.dead x) {t : Task}
    (ht : t ∈ n.member.tasks) {x : Bytes} (hx : x ∈ n.member.peers.addrs) :
    x ∈ (n.member.advance t).peers.addrs := by
  have hstage : t.stage ≠ .delete := by
    intro hstage
    have hholds : L.Holds t.current.event := h.carried.tasks t ht _ List.mem_cons_self
    unfold Lore.Holds at hholds
    rw [h.deleting t ht hstage] at hholds
    exact halive _ hholds
  unfold Peers.addrs at hx ⊢
  rwa [Member.peers_advance hstage]

theorem Sound.addrs_exec (h : Sound L m.udpAddr n) (halive : ∀ x, ¬ L.dead x) {a : Action}
    (hguard : guard a n) {x : Bytes} (hx : x ∈ n.list.addrs) :
    x ∈ (Node.exec crc m notify a n).list.addrs := by
  have hstep : MemberStep m notify a n (Node.exec crc m notify a n) := memberStep_exec a
  cases hstep with
  | same _ hlist => rwa [hlist]
  | act b hb _ hlist =>
    rw [hlist]
    cases b with
    | join draw body => exact Peers.addrs_join draw body hx
    | advance t =>
      obtain rfl := hb rfl
      exact addrs_advance h.member halive hguard.2 hx
    | fanOut => exact (congrArg Peers.addrs (peers_fanOut n.member)).symm ▸ hx
    | declareDead | cancel | deliver => exact hx
  | probe draw _ _ p _ hnext _ hlist =>
    obtain ⟨_, peers, cursor, hnext', hperm⟩ := PeerList.nextProbe_eq_ok draw n.list
    cases hnext.symm.trans hnext'
    rw [hlist]
    exact (hperm.map Peer.udpAddr).mem_iff.mpr hx

end Node

namespace Group

variable {ι σ : Type} [DecidableEq ι] {crc : Bytes → UInt32} {site : ι → Site}
  {notify : Peer → EventKind → σ → σ} {start : ι → σ} {as bs : List (Action ι)} {x : Bytes}

def listed (crc : Bytes → UInt32) (site : ι → Site) (notify : Peer → EventKind → σ → σ)
    (start : ι → σ) (as : List (Action ι)) (i : ι) : List Bytes :=
  (((machine crc site notify).after (init start) as).node i).list.addrs

theorem unanswered_append (h : Unanswered crc site notify start as x) (bs : List (Action ι)) :
    Unanswered crc site notify start (as ++ bs) x := by
  obtain ⟨before, after, j, period, rfl, hprobe⟩ := h
  exact ⟨before, after ++ bs, j, period, by simp, hprobe⟩

theorem listed_append (hsites : ∀ i, (site i).WellFormed)
    (h : (machine crc site notify).Legal (init start) (as ++ bs))
    (halive : ∀ x, ¬ Unanswered crc site notify start (as ++ bs) x) (i : ι)
    (hx : x ∈ listed crc site notify start as i) :
    x ∈ listed crc site notify start (as ++ bs) i := by
  induction bs using List.reverseRecOn with
  | nil => simpa using hx
  | append_singleton bs a ih =>
    rw [← List.append_assoc] at h halive ⊢
    obtain ⟨hbs, ha⟩ := Machine.legal_append.mp h
    have halive' : ∀ x, ¬ Unanswered crc site notify start (as ++ bs) x :=
      fun x hx => halive x (unanswered_append hx [a])
    have hkept := ih hbs halive'
    have hsound := (sound_after hsites hbs).node i
    unfold listed at hkept ⊢
    rw [Machine.after_append]
    cases a with
    | act j a =>
      simp only [machine, Machine.after_cons, Machine.after_nil, exec]
      by_cases hij : i = j
      · subst hij
        rw [Function.update_self]
        exact hsound.addrs_exec halive' ha.1.1.2 hkept
      · rwa [Function.update_of_ne hij]
    | asJoinBody j => exact hkept

/-- A member that reads a join body lists its entries, as long as nobody is found dead. -/
theorem listed_of_join (hsites : ∀ i, (site i).WellFormed) {i : ι} {draw : ℕ → ℕ} {body : JoinBody}
    (h : (machine crc site notify).Legal (init start)
      (as ++ .act i (.member (.join draw body)) :: bs))
    (halive : ∀ x, ¬ Unanswered crc site notify start
      (as ++ .act i (.member (.join draw body)) :: bs) x)
    (hx : x ∈ body.peers.map JoinPeer.udpAddr) (hself : x ≠ (site i).addr) :
    x ∈ listed crc site notify start (as ++ .act i (.member (.join draw body)) :: bs) i := by
  obtain ⟨jp, hjp, rfl⟩ := List.mem_map.mp hx
  rw [List.append_cons] at h halive ⊢
  refine listed_append hsites h halive i ?_
  have hbefore := (Machine.legal_append.mp (Machine.legal_append.mp h).1).1
  have hsound := (sound_after hsites hbefore).node i
  have hdead : ¬ (((machine crc site notify).after (init start) as).node i).member.peers.Dead
      jp.udpAddr := fun hdead => by
    have hfound := hsound.member.dead _ hdead
    rw [List.append_assoc] at halive
    exact halive _ (unanswered_append hfound _)
  unfold listed
  rw [Machine.after_append]
  simp only [machine, Machine.after_cons, Machine.after_nil, exec, Function.update_self]
  exact Peers.mem_addrs_join draw hjp hself hdead

/-- The seed `s` has read the address of every other member from some body. -/
def Pushed (site : ι → Site) (s : ι) (as : List (Action ι)) : Prop :=
  ∀ j, j ≠ s → ∃ draw body, Action.act s (.member (.join draw body)) ∈ as ∧
    (site j).addr ∈ body.peers.map JoinPeer.udpAddr

/-- If nobody is found dead, then a member that pulls the list of a seed to which everybody has
pushed lists exactly the other members from then on. -/
theorem discovered_of_seed (hsites : ∀ i, (site i).WellFormed)
    (hinj : Function.Injective fun i => (site i).addr) {before between after : List (Action ι)}
    {s i : ι} {draw : ℕ → ℕ} {body : JoinBody}
    (h : (machine crc site notify).Legal (init start)
      (before ++ between ++ .act i (.member (.join draw body)) :: after))
    (halive : ∀ x, ¬ Unanswered crc site notify start
      (before ++ between ++ .act i (.member (.join draw body)) :: after) x)
    (hpushed : Pushed site s before)
    (hpulled : body = (((machine crc site notify).after (init start)
      before).node s).member.peers.asJoinBody (site s).addr (site s).appPort) (q : Peer) :
    q ∈ (((machine crc site notify).after (init start) (before ++ between ++
      .act i (.member (.join draw body)) :: after)).node i).member.peers.peers ↔
      ∃ j, j ≠ i ∧ q = (site j).peer := by
  refine ⟨exists_site_of_listed hsites h i, ?_⟩
  rintro ⟨j, hji, rfl⟩
  -- the seed lists every other member when it answers
  have hbefore : (machine crc site notify).Legal (init start) before :=
    (Machine.legal_append.mp (Machine.legal_append.mp h).1).1
  have halive' : ∀ x, ¬ Unanswered crc site notify start before x := fun x hx => by
    rw [List.append_assoc] at halive
    exact halive x (unanswered_append hx _)
  have hentry : (site j).addr ∈ body.peers.map JoinPeer.udpAddr := by
    have hentries : body.peers.map JoinPeer.udpAddr =
        listed crc site notify start before s ++ [(site s).addr] := by
      rw [hpulled]
      simp [Peers.asJoinBody, listed, Peers.addrs, Node.list, Function.comp_def]
    rw [hentries, List.mem_append, List.mem_singleton]
    by_cases hjs : j = s
    · exact Or.inr (congrArg (fun i => (site i).addr) hjs)
    · left
      obtain ⟨draw', body', haction, haddr⟩ := hpushed j hjs
      obtain ⟨pre, post, rfl⟩ := List.append_of_mem haction
      exact listed_of_join hsites hbefore halive' haddr fun heq => hjs (hinj heq)
  have hlisted := listed_of_join hsites h halive hentry fun heq => hji (hinj heq)
  obtain ⟨q, hq, haddr⟩ := List.mem_map.mp hlisted
  obtain ⟨k, -, rfl⟩ := exists_site_of_listed hsites h i hq
  obtain rfl := hinj haddr
  exact hq

/-- The members `a:1`, which is the seed, `b:1` and `c:1`. -/
def trio : Option Bool → Site
  | none => ⟨Node.soleSettings [97], 1⟩
  | some false => ⟨Node.soleSettings [98], 1⟩
  | some true => ⟨Node.soleSettings [99], 1⟩

/-- The list of the seed after `b:1` and `c:1` have pushed theirs. -/
def seedBody : JoinBody :=
  ⟨[97, 58, 49], [⟨[98, 58, 49], 1⟩, ⟨[99, 58, 49], 1⟩, ⟨[97, 58, 49], 1⟩]⟩

def pushes : List (Action (Option Bool)) :=
  [.asJoinBody (some false),
    .act none (.member (.join Nat.pred ⟨[98, 58, 49], [⟨[98, 58, 49], 1⟩]⟩)),
    .asJoinBody (some true),
    .act none (.member (.join Nat.pred ⟨[99, 58, 49], [⟨[99, 58, 49], 1⟩]⟩))]

def pulls : List (Action (Option Bool)) :=
  pushes ++ [.asJoinBody none] ++ .act (some false) (.member (.join Nat.pred seedBody)) :: []

theorem discovered_trio : (trio (some true)).peer ∈ (((machine crc32 trio fun _ _ => id).after
    (init fun _ => ()) pulls).node (some false)).member.peers.peers := by
  have hrun : (machine crc32 trio fun _ _ => id).Legal (init fun _ => ()) pulls := by
    decide +kernel
  have hsites : ∀ i, (trio i).WellFormed := by
    unfold Site.WellFormed
    decide +kernel
  have hinj : Function.Injective fun i => (trio i).addr := by decide +kernel
  have hpushed : Pushed trio none pushes := by
    intro j hj
    match j with
    | none => exact absurd rfl hj
    | some false => exact ⟨_, _, List.mem_of_getElem? (i := 1) rfl, by decide +kernel⟩
    | some true => exact ⟨_, _, List.mem_of_getElem? (i := 3) rfl, by decide +kernel⟩
  refine (discovered_of_seed hsites hinj hrun ?_ hpushed (by decide +kernel) _).mpr
    ⟨some true, by decide, rfl⟩
  rintro x ⟨before, after, j, period, heq, -⟩
  have hmem : Action.act j .periodEnd ∈ pulls := by
    rw [pulls, heq]
    simp
  simp [pulls, pushes] at hmem

end Group
end Commute.Swim
