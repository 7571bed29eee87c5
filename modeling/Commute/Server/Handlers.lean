import Commute.Server.RawStore

/-!
# The handlers of the client API

What a client sends to a store and what it is answered. A context travels as the base64
text of its JSON, so a client that hands on a text it has been given hands on the context
that `GetSet` returned, whatever the order of its entries. A request that is refused has
not changed the store, also where `postSet` has made its writes before it answers that
there is no such set.

The body of a request has been read into the type of the handler, or it is `none` if
there is no body or it cannot be read. The keys are those of the path.
-/
namespace Commute.Server

open Crdt Gossip Json

/-- How the document of a context is written into a string and read from one. -/
structure ContextText (C : Type) where
  encode : Json → C
  decode : C → Option Json
  decode_encode : ∀ j, decode (encode j) = some j

structure CounterRequest where
  increment : UInt64
  decrement : UInt64

structure SetBody (C : Type) where
  add : List (List Char)
  remove : List (List Char)
  contexts : FMap ByteString C

/-- A request of a client. A register is set at the time `now`. -/
inductive ApiRequest (C T : Type) where
  | getCounters (key : ByteString)
  | postCounters (key : ByteString) (body : Option CounterRequest)
  | getRegister (key : ByteString)
  | putRegister (key : ByteString) (body : Option RawMessage) (now : T)
  | getSet (key : ByteString)
  | postSet (key : ByteString) (body : Option (SetBody C))

/-- The status, and the body if the status is 200; the contexts of a set are of type `X`. -/
inductive Reply (X : Type) where
  | badRequest
  | notFound
  | ok
  | counter (value : Int64)
  | register (value : RawMessage)
  | set (values : List ByteString) (contexts : FMap ByteString X)

section Contexts

variable {C : Type} (text : ContextText C)

def contextDocument (vv : VV64 ByteString) : Json := ofMap (fun n => .nat n.toNat) vv

def encodeContexts (vvs : FMap ByteString (VV64 ByteString)) : FMap ByteString C :=
  vvs.mapVals fun _ vv => text.encode (contextDocument vv)

def decodeContext (raw : C) : Except UnmarshalError (VV64 ByteString) :=
  (text.decode raw).elim (.error .mismatch) fun j => (map (uint64 0) none j).map (·.getD ∅)

def decodeContexts (contexts : FMap ByteString C) :
    Except UnmarshalError (FMap ByteString (VV64 ByteString)) :=
  FMap.upsertAllM (fun _ _ raw => decodeContext text raw) contexts ∅

def Reply.encode : Reply (VV64 ByteString) → Reply C
  | badRequest => .badRequest
  | notFound => .notFound
  | ok => .ok
  | counter value => .counter value
  | register value => .register value
  | set values vvs => .set values (encodeContexts text vvs)

end Contexts

namespace Handler

variable {A C T : Type} (text : ContextText C)

def getCounters (key : ByteString) (st : RawStore A T) : Reply (VV64 ByteString) :=
  if (st.getCounter key).2 then .counter (st.getCounter key).1 else .notFound

def postCounters (key : ByteString) :
    Option CounterRequest → RawStore A T → Except Trap (Reply (VV64 ByteString) × RawStore A T)
  | none, st => .ok (.badRequest, st)
  | some body, st =>
    if (0 < body.increment ∧ 0 < body.decrement) ∨ (body.increment = 0 ∧ body.decrement = 0) then
      .ok (.badRequest, st)
    else if 0 < body.increment then
      (st.incrementCounter key body.increment).map fun st => (.ok, st)
    else (st.decrementCounter key body.decrement).map fun st => (.ok, st)

def getRegister (key : ByteString) (st : RawStore A T) : Reply (VV64 ByteString) :=
  if (st.getRegister key).2 then .register (st.getRegister key).1 else .notFound

/-- A body without a value has the value `none`. -/
def putRegister [TimeText T] (key : ByteString) (now : T) :
    Option RawMessage → RawStore A T → Except Trap (Reply (VV64 ByteString) × RawStore A T)
  | none, st => .ok (.badRequest, st)
  | some none, st => .ok (.badRequest, st)
  | some (some value), st => (st.setRegister key value now).map fun st => (.ok, st)

/-- Also the end of `postSet`. -/
def getSet (key : ByteString) (st : RawStore A T) : Except Trap (Reply (VV64 ByteString)) :=
  (st.getSet key).map fun r => if r.2.2 then .set r.1 r.2.1 else .notFound

/-- Removes run before adds. An element without a context has the empty one. -/
def writeSet (key : ByteString) (body : SetBody C) (vvs : FMap ByteString (VV64 ByteString))
    (st : RawStore A T) : Except Trap (Reply (VV64 ByteString) × RawStore A T) := do
  let st ← body.remove.foldlM (fun st v =>
    st.removeSet key (decodeString v) ((vvs.lookup (decodeString v)).getD ∅)) st
  let st ← body.add.foldlM (fun st v =>
    st.addSet key (decodeString v) ((vvs.lookup (decodeString v)).getD ∅)) st
  let reply ← getSet key st
  .ok (reply, st)

def postSet (key : ByteString) :
    Option (SetBody C) → RawStore A T → Except Trap (Reply (VV64 ByteString) × RawStore A T)
  | none, st => .ok (.badRequest, st)
  | some body, st =>
    if body.add.isEmpty ∧ body.remove.isEmpty then .ok (.badRequest, st)
    else (decodeContexts text body.contexts).toOption.elim (.ok (.badRequest, st)) fun vvs =>
      writeSet key body vvs st

end Handler

def Reply.Refused {X : Type} (reply : Reply X) : Prop := reply = .badRequest ∨ reply = .notFound

theorem Reply.refused_encode {C : Type} (text : ContextText C) {reply : Reply (VV64 ByteString)} :
    (reply.encode text).Refused ↔ reply.Refused := by
  cases reply <;> simp [Reply.encode, Reply.Refused]

section Refused

variable {A C T : Type} {st st' : RawStore A T} {key value : ByteString} {vv : VV64 ByteString}

theorem joinM_isSome {l l' : Ledger A ByteString (RawORSet ByteString ByteString)}
    {fresh d : RawORSet ByteString ByteString} (h : l.joinM fresh key d = .ok l') :
    (l'.state.lookup key).isSome := by
  obtain ⟨v, -, rfl⟩ := Fault.map_eq_ok.mp h
  change ((l.state.insert key v).lookup key).isSome
  rw [AList.lookup_insert]
  rfl

theorem RawStore.addSet_isSome (h : st.addSet key value vv = .ok st') :
    (st'.sets.state.lookup key).isSome := by
  obtain ⟨sets, hsets, rfl⟩ := Fault.map_eq_ok.mp h
  obtain ⟨d, -, hjoin⟩ := Fault.bind_eq_ok.mp hsets
  exact joinM_isSome hjoin

/-- A removal from a set that does not exist does nothing, and no removal makes a set vanish. -/
theorem RawStore.removeSet_cases (h : st.removeSet key value vv = .ok st') :
    st' = st ∨ (st'.sets.state.lookup key).isSome := by
  unfold RawStore.removeSet at h
  cases hs : st.sets.state.lookup key with
  | none =>
    rw [hs] at h
    exact Or.inl (Except.ok.inj h).symm
  | some set =>
    right
    rw [hs] at h
    obtain ⟨d, -, h⟩ := Fault.bind_eq_ok.mp h
    split_ifs at h
    · rw [← Except.ok.inj h, hs]
      rfl
    · obtain ⟨sets, hjoin, rfl⟩ := Fault.map_eq_ok.mp h
      exact joinM_isSome hjoin

theorem RawStore.foldlM_eq_self {f : RawStore A T → List Char → Except Trap (RawStore A T)}
    (hf : ∀ {st st' v}, f st v = .ok st' → st' = st ∨ (st'.sets.state.lookup key).isSome)
    {vs : List (List Char)} (h : vs.foldlM f st = .ok st')
    (hnone : st'.sets.state.lookup key = none) : st' = st := by
  induction vs generalizing st with
  | nil => exact (Except.ok.inj h).symm
  | cons v vs ih =>
    rw [List.foldlM_cons] at h
    obtain ⟨st₁, hst₁, h⟩ := Fault.bind_eq_ok.mp h
    obtain rfl := ih h
    rcases hf hst₁ with heq | hsome
    · exact heq
    · rw [hnone] at hsome
      cases hsome

/-- `GetSet` finds the set, or there is none and no context is returned. -/
theorem RawStore.getSet_cases {r : List ByteString × FMap ByteString (VV64 ByteString) × Bool}
    (h : st.getSet key = .ok r) :
    r.2.2 = true ∨ (st.sets.state.lookup key = none ∧ r.2.1 = ∅) := by
  unfold RawStore.getSet at h
  cases hs : st.sets.state.lookup key with
  | none =>
    rw [hs] at h
    rw [← Except.ok.inj h]
    exact Or.inr ⟨rfl, rfl⟩
  | some set =>
    rw [hs] at h
    obtain ⟨values, -, h⟩ := Fault.bind_eq_ok.mp h
    obtain ⟨vvs, -, h⟩ := Fault.bind_eq_ok.mp h
    rw [← Except.ok.inj h]
    exact Or.inl rfl

theorem Handler.getSet_refused {reply : Reply (VV64 ByteString)}
    (h : Handler.getSet key st = .ok reply) (hreply : reply.Refused) :
    st.sets.state.lookup key = none := by
  obtain ⟨r, hr, rfl⟩ := Fault.map_eq_ok.mp h
  rcases RawStore.getSet_cases hr with hfound | ⟨hnone, -⟩
  · rw [if_pos hfound] at hreply
    rcases hreply with hreply | hreply <;> cases hreply
  · exact hnone

theorem Handler.writeSet_refused {body : SetBody C} {vvs : FMap ByteString (VV64 ByteString)}
    {reply : Reply (VV64 ByteString)} (h : Handler.writeSet key body vvs st = .ok (reply, st'))
    (hreply : reply.Refused) : st' = st := by
  obtain ⟨st₁, hremove, h⟩ := Fault.bind_eq_ok.mp h
  obtain ⟨st₂, hadd, h⟩ := Fault.bind_eq_ok.mp h
  obtain ⟨reply', hread, h⟩ := Fault.bind_eq_ok.mp h
  obtain ⟨rfl, rfl⟩ := Prod.mk.inj (Except.ok.inj h)
  have hnone := Handler.getSet_refused hread hreply
  obtain rfl := RawStore.foldlM_eq_self (fun hst => Or.inr (RawStore.addSet_isSome hst)) hadd hnone
  exact RawStore.foldlM_eq_self (fun hst => RawStore.removeSet_cases hst) hremove hnone

end Refused

namespace ApiRequest

variable {A C T : Type}

def key : ApiRequest C T → ByteString
  | getCounters key => key
  | postCounters key _ => key
  | getRegister key => key
  | putRegister key _ _ => key
  | getSet key => key
  | postSet key _ => key

variable [TimeText T] (text : ContextText C)

/-- What the handler of a request does when there is a key. -/
def serveKey : ApiRequest C T → RawStore A T →
    Except Trap (Reply (VV64 ByteString) × RawStore A T)
  | getCounters key, st => .ok (Handler.getCounters key st, st)
  | postCounters key body, st => Handler.postCounters key body st
  | getRegister key, st => .ok (Handler.getRegister key st, st)
  | putRegister key body now, st => Handler.putRegister key now body st
  | getSet key, st => (Handler.getSet key st).map fun reply => (reply, st)
  | postSet key body, st => Handler.postSet text key body st

def serve (r : ApiRequest C T) (st : RawStore A T) :
    Except Trap (Reply (VV64 ByteString) × RawStore A T) :=
  if r.key = .of [] then .ok (.badRequest, st) else r.serveKey text st

/-- A request that is refused changes nothing. -/
theorem serve_refused {r : ApiRequest C T} {st st' : RawStore A T}
    {reply : Reply (VV64 ByteString)} (h : r.serve text st = .ok (reply, st'))
    (hreply : reply.Refused) : st' = st := by
  have hwrite : ∀ {x : Except Trap (RawStore A T)},
      x.map (fun st => ((.ok : Reply (VV64 ByteString)), st)) = .ok (reply, st') → st' = st := by
    intro x hx
    obtain ⟨_, -, hst⟩ := Fault.map_eq_ok.mp hx
    obtain ⟨rfl, -⟩ := Prod.mk.inj hst
    rcases hreply with hreply | hreply <;> cases hreply
  have hidle : ∀ {reply₀ : Reply (VV64 ByteString)},
      (.ok (reply₀, st) : Except Trap _) = .ok (reply, st') → st' = st :=
    fun hst => (Prod.mk.inj (Except.ok.inj hst)).2.symm
  unfold serve at h
  split_ifs at h
  · exact hidle h
  cases r with
  | getCounters key => exact hidle h
  | getRegister key => exact hidle h
  | postCounters key body =>
    cases body with
    | none => exact hidle h
    | some body =>
      simp only [serveKey, Handler.postCounters] at h
      split_ifs at h
      · exact hidle h
      · exact hwrite h
      · exact hwrite h
  | putRegister key body now =>
    rcases body with _ | _ | value
    · exact hidle h
    · exact hidle h
    · simp only [serveKey, Handler.putRegister] at h
      exact hwrite h
  | getSet key =>
    simp only [serveKey] at h
    obtain ⟨_, -, hst⟩ := Fault.map_eq_ok.mp h
    exact (Prod.mk.inj hst).2.symm
  | postSet key body =>
    cases body with
    | none => exact hidle h
    | some body =>
      simp only [serveKey, Handler.postSet] at h
      split_ifs at h
      · exact hidle h
      cases hvvs : decodeContexts text body.contexts with
      | error e =>
        rw [hvvs] at h
        exact hidle h
      | ok vvs =>
        rw [hvvs] at h
        exact Handler.writeSet_refused h hreply

end ApiRequest

end Commute.Server
