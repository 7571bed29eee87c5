import Commute.Foundation.Checked
import Mathlib.Logic.Function.Iterate

/-!
# Reading a SWIM message

`UnmarshalBinary` reads a message from the bytes of a packet. Three length bytes
and an event count, all chosen by the sender, move everything after them, and
each length is checked against a different rest of the packet. The checksum
algorithm is a parameter; `crc32` is the one the code uses.

Strings are byte strings. Every slice in this code ends at or before the length
of what it is taken from, so spare capacity of a packet buffer is never read.
-/
namespace Commute.Swim

open Fault

abbrev Bytes := List UInt8

inductive MessageKind where
  | ping
  | ack
  | pingReq
deriving DecidableEq

def MessageKind.ofByte (b : UInt8) : Option MessageKind :=
  if b = 0 then some .ping
  else if b = 1 then some .ack
  else if b = 2 then some .pingReq
  else none

inductive EventKind where
  | dead
  | alive
deriving DecidableEq

def EventKind.ofByte (b : UInt8) : Option EventKind :=
  if b = 0 then some .dead
  else if b = 1 then some .alive
  else none

/-- A membership change in the SWIM group. -/
structure Event where
  kind : EventKind
  node : Bytes
deriving DecidableEq

structure Message where
  version : UInt8
  kind : MessageKind
  src : Bytes
  period : UInt64
  target : Bytes
  events : List Event
deriving DecidableEq

def messageVersion : UInt8 := 1

/-- The fixed header without a source or a target, and the checksum. -/
def minMessageSize : ℕ := 17

/-- The longest IPv6 address with a port. -/
def maxTargetSize : ℕ := 47

def eventHeaderSize : ℕ := 2

/-- One bit of the reflected IEEE polynomial. -/
def crcBit (crc : UInt32) : UInt32 :=
  if crc &&& 1 = 1 then (crc >>> 1) ^^^ 0xEDB88320 else crc >>> 1

def crcByte (crc : UInt32) (b : UInt8) : UInt32 := crcBit^[8] (crc ^^^ b.toUInt32)

/-- The checksum `crc32.NewIEEE` computes. -/
def crc32 (data : Bytes) : UInt32 := data.foldl crcByte 0xFFFFFFFF ^^^ 0xFFFFFFFF

def bigEndian (bytes : Bytes) : ℕ := bytes.foldl (fun n b => n * 256 + b.toNat) 0

def unmarshalString (field : String) (stringLen : ℕ) (input : Bytes) : Except Fault Bytes :=
  if stringLen = 0 then .ok []
  else if input.length < stringLen then
    .error (.error s!"{field} length mismatch: header claims {stringLen} bytes, got {input.length}")
  else if maxTargetSize < stringLen then
    .error (.error s!"{field} length {stringLen} exceeds maximum of {maxTargetSize}")
  else slice input 0 stringLen

/-- Read one event; the number says how many bytes it takes. -/
def Event.unmarshalBinary (data : Bytes) : Except Fault (ℕ × Event) := do
  failIf (data.length < eventHeaderSize)
    s!"event too short: need at least {eventHeaderSize} bytes for header, got {data.length}"
  let kind ← index data 0
  match EventKind.ofByte kind with
  | none => .error (.error s!"unknown event kind: {kind}")
  | some kind => do
    let nodeLen ← index data 1
    let input ← slice data 2 data.length
    let node ← unmarshalString "node" nodeLen.toNat input
    .ok (eventHeaderSize + node.length, ⟨kind, node⟩)

def unmarshalEvents : ℕ → Bytes → Except Fault (List Event)
  | 0, _ => .ok []
  | eventCount + 1, eventsInput => do
    let (n, e) ← Event.unmarshalBinary eventsInput
    let rest ← slice eventsInput n eventsInput.length
    let events ← unmarshalEvents eventCount rest
    .ok (e :: events)

variable (crc : Bytes → UInt32)

/-- The local part of `UnmarshalBinary`, which does not touch the receiver. -/
def Message.decode (data : Bytes) : Except Fault Message := do
  failIf (data.length < minMessageSize)
    s!"message too short: need at least {minMessageSize} bytes for header, got {data.length}"
  let body ← slice data 0 (data.length - 4)
  let checksum ← slice data (data.length - 4) data.length
  failIf (bigEndian checksum ≠ (crc body).toNat) "checksum mismatch: message is corrupted"
  let version ← index data 0
  failIf (version ≠ messageVersion)
    s!"unsupported message version: want {messageVersion}, got {version}"
  let srcLen ← index data 1
  failIf (srcLen.toNat = 0) "src is required"
  let input ← slice data 2 data.length
  let src ← unmarshalString "src" srcLen.toNat input
  let s := 2 + srcLen.toNat
  failIf (data.length - 4 < s + 11) "message too short: src too long for remaining header"
  let kind ← index data s
  match MessageKind.ofByte kind with
  | none => .error (.error s!"unknown message kind: {kind}")
  | some kind => do
    let period ← slice data (s + 1) (s + 9)
    let targetLen ← index data (s + 9)
    let input ← slice data (s + 10) data.length
    let target ← unmarshalString "target" targetLen.toNat input
    let eventsInput ← slice data (s + 11 + targetLen.toNat) (data.length - 4)
    let eventCount ← index data (s + 10 + targetLen.toNat)
    let events ← unmarshalEvents eventCount.toNat eventsInput
    .ok ⟨version, kind, src, UInt64.ofNat (bigEndian period), target, events⟩

/-- The result of the call and the receiver afterwards, which is assigned only after
everything has been read. -/
def Message.unmarshalBinary (data : Bytes) (m : Message) : Except Fault Unit × Message :=
  match decode crc data with
  | .error e => (.error e, m)
  | .ok decoded => (.ok (), decoded)

end Commute.Swim
