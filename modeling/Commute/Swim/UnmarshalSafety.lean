import Commute.Swim.Message

/-!
# When `UnmarshalBinary` panics

The target's length is checked against a rest of the packet that includes the
event count and the checksum, so a target may reach into these last five bytes;
the slice of the events then starts after its end. `decode_panics_iff` says that
this is the only way to panic.
-/
namespace Commute.Swim

open Fault

theorem unmarshalString_eq (field : String) (stringLen : ℕ) (input : Bytes)
    (h : stringLen ≤ input.length) (h' : stringLen ≤ maxTargetSize) :
    unmarshalString field stringLen input = .ok (input.take stringLen) := by
  unfold unmarshalString
  split_ifs with h0 h1 h2
  · rw [h0, List.take_zero]
  · omega
  · omega
  · exact slice_zero h

theorem unmarshalString_not_panics (field : String) (stringLen : ℕ) (input : Bytes) :
    ¬ Panics (unmarshalString field stringLen input) := by
  unfold unmarshalString
  split_ifs with h0 h1 h2
  · exact not_panics_ok _
  · exact not_panics_error _
  · exact not_panics_error _
  · rw [slice_zero (Nat.le_of_not_lt h1)]
    exact not_panics_ok _

theorem unmarshalString_ok {field : String} {stringLen : ℕ} {input s : Bytes}
    (h : unmarshalString field stringLen input = .ok s) :
    stringLen ≤ input.length ∧ stringLen ≤ maxTargetSize ∧ s = input.take stringLen := by
  unfold unmarshalString at h
  split_ifs at h with h0 h1 h2
  · subst h0
    exact ⟨Nat.zero_le _, Nat.zero_le _, (Except.ok.inj h).symm⟩
  · rw [slice_zero (Nat.le_of_not_lt h1)] at h
    exact ⟨Nat.le_of_not_lt h1, Nat.le_of_not_lt h2, (Except.ok.inj h).symm⟩

/-- Reading a string fails with an error exactly if a length check does. -/
theorem panics_unmarshalString_bind {β : Type} (field : String) (stringLen : ℕ) (input : Bytes)
    (f : Bytes → Except Fault β) : Panics (unmarshalString field stringLen input >>= f) ↔
      stringLen ≤ input.length ∧ stringLen ≤ maxTargetSize ∧
        Panics (f (input.take stringLen)) := by
  rw [panics_bind, or_iff_right (unmarshalString_not_panics field stringLen input)]
  constructor
  · rintro ⟨s, hs, hp⟩
    obtain ⟨hlen, hmax, rfl⟩ := unmarshalString_ok hs
    exact ⟨hlen, hmax, hp⟩
  · rintro ⟨hlen, hmax, hp⟩
    exact ⟨_, unmarshalString_eq field stringLen input hlen hmax, hp⟩

theorem Event.unmarshalBinary_not_panics (data : Bytes) :
    ¬ Panics (Event.unmarshalBinary data) := by
  unfold Event.unmarshalBinary
  rw [panics_failIf_bind]
  rintro ⟨hlen, hp⟩
  have hlen : 2 ≤ data.length := Nat.le_of_not_lt hlen
  rw [index_of_lt (by omega) 0, ok_bind] at hp
  split at hp
  · exact not_panics_error _ hp
  · rw [index_of_lt (by omega) 0, ok_bind, slice_from (by omega), ok_bind,
      panics_unmarshalString_bind] at hp
    exact not_panics_ok _ hp.2.2

theorem Event.unmarshalBinary_le {data : Bytes} {n : ℕ} {e : Event}
    (h : Event.unmarshalBinary data = .ok (n, e)) : n ≤ data.length := by
  unfold Event.unmarshalBinary at h
  obtain ⟨hlen, h⟩ := failIf_bind_eq_ok.mp h
  have hlen : 2 ≤ data.length := Nat.le_of_not_lt hlen
  rw [index_of_lt (by omega) 0, ok_bind] at h
  split at h
  · cases h
  · rw [index_of_lt (by omega) 0, ok_bind, slice_from (by omega), ok_bind] at h
    obtain ⟨node, hnode, h⟩ := bind_eq_ok.mp h
    obtain ⟨hle, -, rfl⟩ := unmarshalString_ok hnode
    obtain ⟨rfl, -⟩ := Prod.mk.inj (Except.ok.inj h)
    rw [List.length_drop] at hle
    rw [List.length_take, List.length_drop, eventHeaderSize]
    omega

theorem unmarshalEvents_not_panics (eventCount : ℕ) (eventsInput : Bytes) :
    ¬ Panics (unmarshalEvents eventCount eventsInput) := by
  induction eventCount generalizing eventsInput with
  | zero => exact not_panics_ok _
  | succ eventCount ih =>
    unfold unmarshalEvents
    refine not_panics_bind (Event.unmarshalBinary_not_panics eventsInput) ?_
    rintro ⟨n, e⟩ hevent
    dsimp only
    rw [slice_from (Event.unmarshalBinary_le hevent), ok_bind]
    exact not_panics_bind (ih _) fun _ _ => not_panics_ok _

def srcLen (data : Bytes) : ℕ := (data.getD 1 0).toNat

def targetLen (data : Bytes) : ℕ := (data.getD (2 + srcLen data + 9) 0).toNat

/-- A packet with a valid checksum, version, source and kind whose target reaches into
its last five bytes, but not beyond its end. -/
def TargetOverrun (crc : Bytes → UInt32) (data : Bytes) : Prop :=
  minMessageSize ≤ data.length ∧
    bigEndian (data.drop (data.length - 4)) = (crc (data.take (data.length - 4))).toNat ∧
    data.getD 0 0 = messageVersion ∧
    1 ≤ srcLen data ∧ srcLen data ≤ maxTargetSize ∧ srcLen data + 17 ≤ data.length ∧
    (MessageKind.ofByte (data.getD (2 + srcLen data) 0)).isSome ∧
    targetLen data ≤ maxTargetSize ∧ srcLen data + targetLen data + 12 ≤ data.length ∧
    data.length < srcLen data + targetLen data + 17

namespace Message

variable (crc : Bytes → UInt32)

/-- Once the target is read, the only thing that can go wrong is the slice of the events. -/
theorem panics_events {β : Type} {data : Bytes} {lo : ℕ} (f : List Event → Except Fault β)
    (hf : ∀ events, ¬ Panics (f events)) (hlen : 4 ≤ data.length) :
    Panics (do
      let eventsInput ← slice data (lo + 1) (data.length - 4)
      let eventCount ← index data lo
      let events ← unmarshalEvents eventCount.toNat eventsInput
      f events) ↔ data.length < lo + 5 := by
  rw [panics_slice_bind]
  · omega
  · intro h _
    rw [index_of_lt (by omega) 0, ok_bind]
    exact not_panics_bind (unmarshalEvents_not_panics _ _) fun events _ => hf events

theorem decode_panics_iff (data : Bytes) : Panics (decode crc data) ↔ TargetOverrun crc data := by
  unfold decode TargetOverrun
  rw [panics_failIf_bind, Nat.not_lt]
  refine and_congr_right fun hlen => ?_
  have hlen : 17 ≤ data.length := hlen
  rw [slice_zero (Nat.sub_le _ _), slice_from (Nat.sub_le _ _), ok_bind, ok_bind,
    panics_failIf_bind, not_not]
  refine and_congr_right fun _ => ?_
  rw [index_of_lt (by omega) 0, ok_bind, panics_failIf_bind, not_not]
  refine and_congr_right fun _ => ?_
  rw [index_of_lt (by omega) 0, ok_bind, panics_failIf_bind, slice_from (by omega), ok_bind,
    panics_unmarshalString_bind, panics_failIf_bind, List.length_drop]
  have hsrc : (data.getD 1 0).toNat = srcLen data := rfl
  rw [hsrc, Nat.not_lt]
  by_cases hfit : srcLen data + 17 ≤ data.length
  · rw [index_of_lt (by omega) 0, ok_bind]
    cases MessageKind.ofByte (data.getD (2 + srcLen data) 0) with
    | none => simp [not_panics_error]
    | some kind =>
      dsimp only
      rw [slice, if_pos (by omega), ok_bind, index_of_lt (by omega) 0, ok_bind,
        slice_from (by omega), ok_bind, panics_unmarshalString_bind, List.length_drop]
      have htarget : (data.getD (2 + srcLen data + 9) 0).toNat = targetLen data := rfl
      have harrange : 2 + srcLen data + 11 + targetLen data =
          2 + srcLen data + 10 + targetLen data + 1 := by omega
      rw [htarget, harrange, panics_events _ (fun _ => not_panics_ok _) (by omega)]
      constructor
      · rintro ⟨h1, -, h2, -, h3, h4, h5⟩
        exact ⟨by omega, h2, hfit, rfl, h4, by omega, by omega⟩
      · rintro ⟨h1, h2, -, -, h4, h5, h6⟩
        exact ⟨by omega, by omega, h2, by omega, by omega, h4, by omega⟩
  · constructor
    · rintro ⟨-, -, -, h, -⟩
      omega
    · rintro ⟨-, -, h, -⟩
      exact absurd h hfit

/-- `UnmarshalBinary` returns an error and leaves the receiver alone, or succeeds, exactly
if the target does not reach into the last five bytes of an otherwise valid packet. -/
theorem unmarshalBinary_safe_iff (data : Bytes) (m : Message) :
    ((∃ text, unmarshalBinary crc data m = (.error (.error text), m)) ∨
      (unmarshalBinary crc data m).1 = .ok ()) ↔ ¬ TargetOverrun crc data := by
  rw [← decode_panics_iff]
  unfold unmarshalBinary Panics
  cases decode crc data with
  | ok decoded => simp
  | error e => cases e <;> simp

/-- A ping from `a` with a target of one byte, the event count, which leaves no byte for
the events before the checksum. -/
def overrunPacket : Bytes := [1, 1, 97, 0, 0, 0, 0, 0, 0, 0, 0, 0, 1, 0, 59, 206, 80, 18]

theorem unmarshalBinary_overrunPacket :
    (unmarshalBinary crc32 overrunPacket ⟨1, .ping, [97], 0, [], []⟩).1 = .error .panic := by
  decide +kernel

end Message
end Commute.Swim
