import Commute.Foundation.Json
import Commute.Swim.PeerList

/-!
# Join bodies and their JSON

`Bootstrap` posts the member list of a node to a seed, and `JoinHandler` answers with
the list of the seed; both lists are made by `asJoinBody`, which adds the node itself,
and travel as JSON.
-/
namespace Commute.Swim

open Json

/-- The member list and the node itself. -/
def Peers.asJoinBody (self : Bytes) (appPort : UInt16) (p : Peers) : JoinBody :=
  ⟨self, p.peers.map (fun q => ⟨q.udpAddr, q.httpPort⟩) ++ [⟨self, appPort⟩]⟩

theorem Peers.peers_asJoinBody (self : Bytes) (appPort : UInt16) (p : Peers) :
    (p.asJoinBody self appPort).peers.map JoinPeer.peer = p.peers ++ [⟨self, appPort⟩] := by
  simp only [asJoinBody, List.map_append, List.map_map, List.map_cons, List.map_nil]
  exact congrArg (· ++ _) (List.map_id p.peers)

def marshalAddr (addr : Bytes) : Json := .str (encodeString (.of addr))

def unmarshalAddr (old : Bytes) (j : Json) : Except UnmarshalError Bytes := string (.of old) j

def unmarshalPort (old : UInt16) : Decoder UInt16
  | .null => .ok old
  | .nat n => if n < 2 ^ 16 then .ok (.ofNat n) else .error .mismatch
  | _ => .error .mismatch

namespace JoinPeer

def marshalJSON (jp : JoinPeer) : Json :=
  .obj [("udpAddr".toList, marshalAddr jp.udpAddr), ("httpPort".toList, .nat jp.httpPort.toNat)]

def zero : JoinPeer := ⟨[], 0⟩

def field (key : List Char) (j : Json) (jp : JoinPeer) : Except UnmarshalError JoinPeer :=
  if named "udpAddr" key then (unmarshalAddr jp.udpAddr j).map ({ jp with udpAddr := · })
  else if named "httpPort" key then (unmarshalPort jp.httpPort j).map ({ jp with httpPort := · })
  else .ok jp

def unmarshalJSON (old : JoinPeer) : Decoder JoinPeer := struct field old

end JoinPeer

namespace JoinBody

structure Reading where
  src : Bytes
  peers : Slice JoinPeer

def marshalJSON (body : JoinBody) : Json :=
  .obj [("src".toList, marshalAddr body.src),
    ("peers".toList, .ofList JoinPeer.marshalJSON body.peers)]

def Reading.field (key : List Char) (j : Json) (r : Reading) : Except UnmarshalError Reading :=
  if named "src" key then (unmarshalAddr r.src j).map ({ r with src := · })
  else if named "peers" key then
    (slice JoinPeer.unmarshalJSON .zero r.peers j).map ({ r with peers := · })
  else .ok r

def unmarshalJSON : Decoder JoinBody := fun j =>
  (struct Reading.field ⟨[], .nil⟩ j).map fun r => ⟨r.src, r.peers.toList⟩

end JoinBody

section RoundTrip

abbrev ValidAddr (addr : Bytes) : Prop := Json.Valid (.of addr)

theorem unmarshalAddr_marshalAddr (old : Bytes) {addr : Bytes} (h : ValidAddr addr) :
    unmarshalAddr old (marshalAddr addr) = .ok addr :=
  congrArg Except.ok h.decode_encode

theorem unmarshalPort_nat (old port : UInt16) :
    unmarshalPort old (.nat port.toNat) = .ok port := by
  unfold unmarshalPort
  dsimp only
  rw [if_pos port.toNat_lt, UInt16.ofNat_toNat]

theorem struct_cons {σ : Type} (field : List Char → Json → σ → Except UnmarshalError σ) (old : σ)
    (e : List Char × Json) (members : List (List Char × Json)) :
    struct field old (.obj (e :: members)) =
      field e.1 e.2 old >>= fun v => struct field v (.obj members) := rfl

theorem map_ok_bind {ε α β γ : Type} (f : α → β) (a : α) (g : β → Except ε γ) :
    (Except.map f (.ok a) >>= g) = g (f a) := rfl

theorem JoinPeer.field_udpAddr (j : Json) (jp : JoinPeer) : field "udpAddr".toList j jp =
    (unmarshalAddr jp.udpAddr j).map ({ jp with udpAddr := · }) :=
  if_pos (by decide)

theorem JoinPeer.field_httpPort (j : Json) (jp : JoinPeer) : field "httpPort".toList j jp =
    (unmarshalPort jp.httpPort j).map ({ jp with httpPort := · }) :=
  (if_neg (by decide)).trans (if_pos (by decide))

theorem JoinPeer.unmarshalJSON_marshalJSON (old : JoinPeer) {jp : JoinPeer}
    (h : ValidAddr jp.udpAddr) : unmarshalJSON old jp.marshalJSON = .ok jp := by
  unfold unmarshalJSON marshalJSON
  rw [struct_cons, field_udpAddr, unmarshalAddr_marshalAddr _ h, map_ok_bind, struct_cons,
    field_httpPort, unmarshalPort_nat, map_ok_bind]
  rfl

theorem JoinBody.Reading.field_src (j : Json) (r : Reading) : field "src".toList j r =
    (unmarshalAddr r.src j).map ({ r with src := · }) :=
  if_pos (by decide)

theorem JoinBody.Reading.field_peers (j : Json) (r : Reading) :
    field "peers".toList j r =
      (slice JoinPeer.unmarshalJSON .zero r.peers j).map ({ r with peers := · }) :=
  (if_neg (by decide)).trans (if_pos (by decide))

/-- A body whose addresses are valid UTF-8 is read as it was written. -/
theorem JoinBody.unmarshalJSON_marshalJSON {body : JoinBody} (hsrc : ValidAddr body.src)
    (hpeers : ∀ jp ∈ body.peers, ValidAddr jp.udpAddr) :
    unmarshalJSON body.marshalJSON = .ok body := by
  have hread : ∀ jp ∈ body.peers, ∀ old, JoinPeer.unmarshalJSON old jp.marshalJSON = .ok jp :=
    fun jp hjp old => JoinPeer.unmarshalJSON_marshalJSON old (hpeers jp hjp)
  unfold unmarshalJSON marshalJSON
  rw [struct_cons, Reading.field_src, unmarshalAddr_marshalAddr _ hsrc, map_ok_bind, struct_cons,
    Reading.field_peers, slice_ofList hread, map_ok_bind]
  change Except.ok (⟨body.src, body.peers.take body.peers.length⟩ : JoinBody) = _
  rw [List.take_length]

end RoundTrip
end Commute.Swim
