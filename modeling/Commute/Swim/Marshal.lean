import Commute.Foundation.Buffer
import Commute.Swim.Message
import Mathlib.Algebra.Group.Nat.Defs
import Mathlib.Data.List.Induction

/-!
# Writing a SWIM message

`MarshalBinary` allocates the bytes of a message and fills them from left to
right, at offsets it adds up from the lengths of the source, the target and the
nodes. Lengths are written as single bytes, so a length of 256 or more is
written modulo 256. `marshalBinary_eq` says what ends up in the buffer: the
payload and its checksum.
-/
namespace Commute.Swim

open Fault

def MessageKind.toByte : MessageKind → UInt8
  | .ping => 0
  | .ack => 1
  | .pingReq => 2

def EventKind.toByte : EventKind → UInt8
  | .dead => 0
  | .alive => 1

theorem MessageKind.ofByte_eq_some {b : UInt8} {kind : MessageKind} :
    ofByte b = some kind ↔ b = kind.toByte := by
  unfold ofByte
  split_ifs with h0 h1 h2 <;> cases kind <;> simp_all [toByte]

theorem EventKind.ofByte_eq_some {b : UInt8} {kind : EventKind} :
    ofByte b = some kind ↔ b = kind.toByte := by
  unfold ofByte
  split_ifs with h0 h1 <;> cases kind <;> simp_all [toByte]

/-- The last `width` base 256 digits of a number, the most significant one first. -/
def bigEndianBytes : ℕ → ℕ → Bytes
  | 0, _ => []
  | width + 1, n => bigEndianBytes width (n / 256) ++ [UInt8.ofNat n]

@[simp] theorem length_bigEndianBytes (width n : ℕ) : (bigEndianBytes width n).length = width := by
  induction width generalizing n with
  | zero => rfl
  | succ width ih => rw [bigEndianBytes, List.length_append, ih, List.length_singleton]

theorem bigEndian_concat (bytes : Bytes) (b : UInt8) :
    bigEndian (bytes ++ [b]) = bigEndian bytes * 256 + b.toNat := by
  simp [bigEndian]

theorem bigEndian_bigEndianBytes {width n : ℕ} (h : n < 256 ^ width) :
    bigEndian (bigEndianBytes width n) = n := by
  induction width generalizing n with
  | zero =>
    rw [Nat.pow_zero, Nat.lt_one_iff] at h
    rw [h]
    rfl
  | succ width ih =>
    rw [Nat.pow_succ] at h
    rw [bigEndianBytes, bigEndian_concat, ih (Nat.div_lt_of_lt_mul (by omega)),
      UInt8.toNat_ofNat']
    omega

theorem bigEndianBytes_bigEndian (bytes : Bytes) :
    bigEndianBytes bytes.length (bigEndian bytes) = bytes := by
  induction bytes using List.reverseRecOn with
  | nil => rfl
  | append_singleton bytes b ih =>
    have hb := b.toNat_lt
    rw [List.length_append, List.length_singleton, bigEndianBytes, bigEndian_concat]
    have hdiv : (bigEndian bytes * 256 + b.toNat) / 256 = bigEndian bytes := by omega
    have hmod : UInt8.ofNat (bigEndian bytes * 256 + b.toNat) = b := by
      apply UInt8.toNat_inj.mp
      rw [UInt8.toNat_ofNat']
      omega
    rw [hdiv, ih, hmod]

theorem bigEndian_lt (bytes : Bytes) : bigEndian bytes < 256 ^ bytes.length := by
  induction bytes using List.reverseRecOn with
  | nil => decide
  | append_singleton bytes b ih =>
    have hb := b.toNat_lt
    rw [bigEndian_concat, List.length_append, List.length_singleton, Nat.pow_succ]
    omega

/-- The calls `PutUint64` and `PutUint32` on a slice of that many bytes. -/
def putUint (b : Bytes) (lo width n : ℕ) : Except Fault Bytes :=
  if lo + width ≤ b.length then copyAt b lo (bigEndianBytes width n) else .error .panic

/-- `NewMessage`, which panics for an empty source or a long target. -/
def newMessage (kind : MessageKind) (src : Bytes) (period : UInt64) (target : Bytes) :
    Except Fault Message :=
  if src = [] then .error .panic
  else if maxTargetSize < target.length then .error .panic
  else .ok ⟨messageVersion, kind, src, period, target, []⟩

/-- The loop over the events of a message; `events` is the offset of the slice that is
still to be written. -/
def marshalEvents : List Event → Bytes → ℕ → Except Fault Bytes
  | [], b, _ => .ok b
  | e :: rest, b, events => do
    let b ← store b events e.kind.toByte
    let b ← store b (events + 1) (UInt8.ofNat e.node.length)
    let b ← copyAt b (events + eventHeaderSize) e.node
    let events ← offset b (events + (eventHeaderSize + e.node.length))
    marshalEvents rest b events

def eventBytes (events : List Event) : ℕ :=
  events.foldl (fun n e => n + e.node.length) (events.length * eventHeaderSize)

variable (crc : Bytes → UInt32)

def Message.marshalBinary (m : Message) : Except Fault Bytes := do
  let b := List.replicate
    (minMessageSize + m.src.length + m.target.length + eventBytes m.events) 0
  let b ← store b 0 messageVersion
  let b ← store b 1 (UInt8.ofNat m.src.length)
  let b ← copyAt b 2 m.src
  let s := 2 + m.src.length
  let b ← store b s m.kind.toByte
  let b ← putUint b (s + 1) 8 m.period.toNat
  let b ← store b (s + 9) (UInt8.ofNat m.target.length)
  let b ← copyAt b (s + 10) m.target
  let events ← offset b (s + 10 + m.target.length)
  let b ← store b events (UInt8.ofNat m.events.length)
  let events ← offset b (events + 1)
  let b ← marshalEvents m.events b events
  let body ← slice b 0 (b.length - 4)
  putUint b (b.length - 4) 4 (crc body).toNat

def Event.payload (e : Event) : Bytes :=
  e.kind.toByte :: UInt8.ofNat e.node.length :: e.node

/-- The fields of a message in wire order, without the checksum. -/
def Message.payload (m : Message) : Bytes :=
  [messageVersion, UInt8.ofNat m.src.length] ++ m.src ++ [m.kind.toByte] ++
    bigEndianBytes 8 m.period.toNat ++ [UInt8.ofNat m.target.length] ++ m.target ++
    [UInt8.ofNat m.events.length] ++ m.events.flatMap Event.payload

theorem Event.length_payload (e : Event) :
    e.payload.length = eventHeaderSize + e.node.length := by
  simp only [payload, List.length_cons, eventHeaderSize]
  omega

theorem eventBytes_eq (events : List Event) :
    eventBytes events = (events.flatMap Event.payload).length := by
  have hfold : ∀ n, events.foldl (fun n e => n + e.node.length) (n + events.length * 2) =
      n + (events.flatMap Event.payload).length := by
    induction events with
    | nil => simp
    | cons e events ih =>
      intro n
      rw [List.foldl_cons, List.flatMap_cons, List.length_append, e.length_payload, eventHeaderSize,
        ← Nat.add_assoc n, ← ih, List.length_cons]
      congr 1
      omega
  simpa [eventBytes, eventHeaderSize] using hfold 0

theorem putUint_frontier {w : Bytes} {i width n k : ℕ} (h : i = w.length) :
    putUint (w ++ List.replicate (width + k) 0) i width n =
      .ok (w ++ bigEndianBytes width n ++ List.replicate k 0) := by
  have hroom : i + width ≤ (w ++ List.replicate (width + k) (0 : UInt8)).length := by
    rw [List.length_append, List.length_replicate]
    omega
  rw [putUint, if_pos hroom]
  exact copyAt_frontier h (by rw [length_bigEndianBytes])

/-- The loop writes the events one after the other and keeps the room behind them. -/
theorem marshalEvents_eq (events : List Event) {w : Bytes} {i : ℕ} (h : i = w.length) (k : ℕ) :
    marshalEvents events (w ++ List.replicate (eventBytes events + k) 0) i =
      .ok (w ++ events.flatMap Event.payload ++ List.replicate k 0) := by
  induction events generalizing w i with
  | nil => simp [marshalEvents, eventBytes]
  | cons e events ih =>
    have hsize : eventBytes (e :: events) + k =
        e.node.length + (eventBytes events + k) + 1 + 1 := by
      rw [eventBytes_eq, eventBytes_eq, List.flatMap_cons, List.length_append, e.length_payload,
        eventHeaderSize]
      omega
    have hnext : i + (eventHeaderSize + e.node.length) =
        (w ++ [e.kind.toByte] ++ [UInt8.ofNat e.node.length] ++ e.node).length := by
      simp only [List.length_append, List.length_singleton, eventHeaderSize]
      omega
    rw [marshalEvents, hsize, store_frontier h, ok_bind, store_frontier (by simp [h]), ok_bind,
      copyAt_frontier (by simp [h, eventHeaderSize]) rfl, ok_bind, offset_frontier hnext, ok_bind,
      ih hnext]
    simp [Event.payload]

namespace Message

theorem length_payload (m : Message) : m.payload.length + 4 =
    minMessageSize + m.src.length + m.target.length + eventBytes m.events := by
  rw [eventBytes_eq, minMessageSize]
  simp only [payload, List.length_append, List.length_cons, List.length_nil,
    length_bigEndianBytes]
  omega

/-- The encoder never panics, and its buffer holds the payload and the checksum. -/
theorem marshalBinary_eq (m : Message) : marshalBinary crc m =
    .ok (m.payload ++ bigEndianBytes 4 (crc m.payload).toNat) := by
  have hsize : minMessageSize + m.src.length + m.target.length + eventBytes m.events =
      m.src.length + (8 + (m.target.length + (eventBytes m.events + 4 + 1) + 1) + 1) + 1 + 1 := by
    rw [minMessageSize]
    omega
  unfold marshalBinary
  dsimp only
  rw [hsize, ← List.nil_append (List.replicate _ _)]
  rw [store_frontier (by simp), ok_bind, store_frontier (by simp), ok_bind,
    copyAt_frontier (by simp) rfl, ok_bind]
  rw [store_frontier (by simp; omega), ok_bind, putUint_frontier (by simp; omega), ok_bind]
  rw [store_frontier (by simp; omega), ok_bind, copyAt_frontier (by simp; omega) rfl, ok_bind]
  rw [offset_frontier (by simp; omega), ok_bind, store_frontier (by simp; omega), ok_bind]
  rw [offset_frontier (by simp; omega), ok_bind, marshalEvents_eq _ (by simp; omega), ok_bind]
  have hpayload : [] ++ [messageVersion] ++ [UInt8.ofNat m.src.length] ++ m.src ++
      [m.kind.toByte] ++ bigEndianBytes 8 m.period.toNat ++ [UInt8.ofNat m.target.length] ++
      m.target ++ [UInt8.ofNat m.events.length] ++ m.events.flatMap Event.payload = m.payload := by
    simp [payload]
  rw [hpayload, List.length_append, List.length_replicate, Nat.add_sub_cancel,
    slice_zero (by simp), List.take_left, ok_bind]
  exact (putUint_frontier (k := 0) rfl).trans (by rw [List.replicate_zero, List.append_nil])

end Message
end Commute.Swim
