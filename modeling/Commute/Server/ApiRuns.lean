import Commute.Server.Handlers
import Commute.Server.RawRefinement

/-!
# Clusters with clients of the API

`calls` lists the calls of the store that a request makes, so a run of requests is a run of
calls and everything known about those holds of it. What is left for a client to do is to
hand on contexts only as the texts that the same store returned.
-/
namespace Commute.Server

open Crdt Gossip Json

namespace ApiRequest

variable {A C T : Type} (text : ContextText C)

/-- The calls of the store that a request with a key makes at `a`. -/
def callsKey (a : A) : ApiRequest C T → List (RawCall A T)
  | postCounters key (some body) =>
    if (0 < body.increment ∧ 0 < body.decrement) ∨ (body.increment = 0 ∧ body.decrement = 0) then []
    else if 0 < body.increment then [.incrementCounter a key body.increment]
    else [.decrementCounter a key body.decrement]
  | putRegister key (some (some value)) now => [.setRegister a key value now]
  | getSet key => [.getSet a key]
  | postSet key (some body) =>
    if body.add.isEmpty ∧ body.remove.isEmpty then []
    else (decodeContexts text body.contexts).toOption.elim [] fun vvs =>
      body.remove.map (fun v => .removeSet a key v ((vvs.lookup (decodeString v)).getD ∅)) ++
        (body.add.map (fun v => .addSet a key v ((vvs.lookup (decodeString v)).getD ∅)) ++
          [.getSet a key])
  | _ => []

def calls (a : A) (r : ApiRequest C T) : List (RawCall A T) :=
  if r.key = .of [] then [] else r.callsKey text a

end ApiRequest

namespace RawCluster

variable {A C T : Type}

def note (a : A) (key : ByteString) : Reply (VV64 ByteString) → RawCluster A T → RawCluster A T
  | .set _ vvs, w => w.read a key vvs
  | _, w => w

/-- A client's request at the store `a`, and what it is answered. -/
def handle [TimeText T] [DecidableEq A] (text : ContextText C) (a : A) (r : ApiRequest C T)
    (w : RawCluster A T) : Except Trap (Reply C × RawCluster A T) :=
  (r.serve text (w.store a)).map fun p => (p.1.encode text, note a r.key p.1 (w.put a p.2))

section Calls

variable {a : A} {w : RawCluster A T}

theorem note_of_refused {key : ByteString} {reply : Reply (VV64 ByteString)}
    (h : reply.Refused) : note a key reply w = w := by
  rcases h with rfl | rfl <;> rfl

variable [DecidableEq A]

theorem store_put (st : RawStore A T) : (w.put a st).store a = st := Function.update_self _ _ _

theorem put_self : w.put a (w.store a) = w := by
  unfold RawCluster.put
  rw [Function.update_eq_self]

variable [TimeText T]

/-- A request that is answered with 400 or 404 leaves the cluster as it was. -/
theorem handle_refused {text : ContextText C} {a : A} {r : ApiRequest C T} {w u : RawCluster A T}
    {reply : Reply C} (h : handle text a r w = .ok (reply, u)) (hreply : reply.Refused) :
    u = w := by
  obtain ⟨p, hp, hreply'⟩ := Fault.map_eq_ok.mp h
  obtain ⟨rfl, rfl⟩ := Prod.mk.inj hreply'
  have hrefused : p.1.Refused := (Reply.refused_encode text).mp hreply
  rw [ApiRequest.serve_refused text hp hrefused, put_self, note_of_refused hrefused]

def jsonText : ContextText Json := ⟨id, some, fun _ => rfl⟩

/-- `postSet` answers 404 after it has removed from a set that does not exist. -/
theorem handle_refused_missing :
    handle jsonText true (.postSet keyK (some ⟨[], ["x".toList], ∅⟩))
      (RawCluster.init pairID : RawCluster Bool ℕ) = .ok (.notFound, RawCluster.init pairID) := by
  have hreply : (handle jsonText true (.postSet keyK (some ⟨[], ["x".toList], ∅⟩))
      (RawCluster.init pairID : RawCluster Bool ℕ)).map Prod.fst = .ok .notFound := rfl
  obtain ⟨⟨reply, u⟩, hu, rfl⟩ := Fault.map_eq_ok.mp hreply
  rw [hu, handle_refused hu (Or.inr rfl)]

end Calls

section Runs

/-- A step of a cluster: a request that is served at once, or a single call of a store. Gossip
consists of single calls, and so does a request that others interrupt. -/
inductive ApiCall (A C T : Type) where
  | request (a : A) (r : ApiRequest C T)
  | single (k : RawCall A T)

/-- Every text of a context is one that the same store has returned for the same element. -/
def Echoes (text : ContextText C) (a : A) : ApiRequest C T → RawCluster A T → Prop
  | .postSet key (some body), w => ∀ v raw, body.contexts.lookup v = some raw →
    ∃ vv, (a, vv) ∈ w.contexts (key, v) ∧ raw = text.encode (contextDocument vv)
  | _, _ => True

variable [TimeText T] [DecidableEq A] (text : ContextText C)

/-- A key that is not valid UTF-8 does not survive gossip. -/
def Allowed : ApiCall A C T → RawCluster A T → Prop
  | .request a r, w => Valid r.key ∧ Echoes text a r w
  | .single k, w => Enabled k w ∧ Ordinary k w

def apiStep : ApiCall A C T → RawCluster A T → Except Trap (RawCluster A T)
  | .request a r, w => (handle text a r w).map Prod.snd
  | .single k, w => call k w

/-- Requests and single calls one after the other, until a store panics. -/
def apiMachine : Machine (Except Trap (RawCluster A T)) (ApiCall A C T) where
  enabled k s := ∀ w, s = .ok w → Allowed text k w
  exec k s := s >>= apiStep text k

def ApiCall.calls : ApiCall A C T → List (RawCall A T)
  | request a r => r.calls text a
  | single k => [k]

variable {text} {w u : RawCluster A T}

section Scripts

/-- Remove an element with the text of the context that was returned last. -/
def echoRemove (key : ByteString) (value : List Char) (w : RawCluster A T) :
    List (ApiCall A Json T) :=
  (w.contexts (key, decodeString value)).head?.elim [] fun c =>
    [.request c.1 (.postSet key (some ⟨[], [value],
      (∅ : FMap ByteString Json).insert (decodeString value) (contextDocument c.2)⟩))]

end Scripts

/-- A client that adds an element, and removes it with the text it is then given; the set is
sent to the other store in between. -/
def visitParts : List (RawCluster Bool ℕ → List (ApiCall Bool Json ℕ)) :=
  [fun _ => [.request true (.postCounters keyK (some ⟨5, 0⟩))],
    fun _ => [.request false (.postCounters keyK (some ⟨0, 2⟩))],
    fun _ => [.request true (.putRegister keyK (some (some (.bool true))) 7)],
    fun _ => [.request true (.postSet keyK (some ⟨["x".toList, "y".toList], [], ∅⟩))],
    fun w => (send true false w).map .single, fun w => (deliver w).map .single,
    echoRemove keyK "x".toList,
    fun w => (send true false w).map .single, fun w => (deliver w).map .single]

def visit : List (ApiCall Bool Json ℕ) :=
  (apiMachine jsonText).script (visitParts.map unlessPanic) (.ok (RawCluster.init pairID))

end Runs

end RawCluster
end Commute.Server
