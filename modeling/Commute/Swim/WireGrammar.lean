import Commute.Swim.Marshal
import Commute.Swim.UnmarshalSafety

/-!
# The wire grammar of a SWIM message

Reader and writer compute their offsets independently. Here the reader is
characterised by what it accepts: `decode` returns a message exactly if the
message is valid and the packet is its payload, any further bytes, and the
checksum of both. Reading back what was written is the case without further
bytes.
-/
namespace Commute.Swim

open Fault

/-- The messages that fit the wire format. The kinds are valid by their type. -/
structure Message.Valid (m : Message) : Prop where
  version : m.version = messageVersion
  src_pos : 1 ≤ m.src.length
  src_le : m.src.length ≤ maxTargetSize
  target_le : m.target.length ≤ maxTargetSize
  events_le : m.events.length ≤ 255
  node_le : ∀ e ∈ m.events, e.node.length ≤ maxTargetSize

theorem lengthByte_eq {b : UInt8} {n : ℕ} (h : b.toNat = n) : b = UInt8.ofNat n := by
  rw [← h, UInt8.ofNat_toNat]

theorem toNat_lengthByte {n : ℕ} (h : n ≤ 255) : (UInt8.ofNat n).toNat = n := by
  rw [UInt8.toNat_ofNat']
  omega

theorem unmarshalString_eq_ok {field : String} {stringLen : ℕ} {input s : Bytes} :
    unmarshalString field stringLen input = .ok s ↔
      stringLen = s.length ∧ s.length ≤ maxTargetSize ∧ ∃ rest, input = s ++ rest := by
  constructor
  · intro h
    obtain ⟨hlen, hmax, rfl⟩ := unmarshalString_ok h
    rw [List.length_take_of_le hlen]
    exact ⟨rfl, hmax, input.drop stringLen, (List.take_append_drop _ _).symm⟩
  · rintro ⟨rfl, hmax, rest, rfl⟩
    rw [unmarshalString_eq field _ _ (by simp) hmax, List.take_left]

theorem Event.unmarshalBinary_eq_ok {data : Bytes} {n : ℕ} {e : Event} :
    Event.unmarshalBinary data = .ok (n, e) ↔
      n = e.payload.length ∧ e.node.length ≤ maxTargetSize ∧ ∃ rest, data = e.payload ++ rest := by
  unfold Event.unmarshalBinary
  rw [failIf_bind_eq_ok]
  constructor
  · rintro ⟨-, h⟩
    obtain ⟨kind, hkind, h⟩ := bind_eq_ok.mp h
    split at h
    · cases h
    · next kind' hkind' =>
      obtain ⟨nodeLen, hnodeLen, h⟩ := bind_eq_ok.mp h
      obtain ⟨input, hinput, h⟩ := bind_eq_ok.mp h
      obtain ⟨node, hnode, h⟩ := bind_eq_ok.mp h
      obtain ⟨rfl, rfl⟩ := Prod.mk.inj (Except.ok.inj h)
      obtain ⟨hlen, hmax, rest, rfl⟩ := unmarshalString_eq_ok.mp hnode
      have hdata := (index_eq_ok.mp hkind).trans (congrArg _ (index_eq_ok.mp hnodeLen))
      rw [List.drop_zero, (slice_eq_ok hinput).1, List.drop_length, List.append_nil] at hdata
      refine ⟨(Event.length_payload ⟨kind', node⟩).symm, hmax, rest, ?_⟩
      rw [hdata, EventKind.ofByte_eq_some.mp hkind', lengthByte_eq hlen]
      rfl
  · rintro ⟨rfl, hmax, rest, rfl⟩
    have hmax' : e.node.length ≤ 255 := Nat.le_trans hmax (by decide)
    refine ⟨by simp [Event.payload, eventHeaderSize], ?_⟩
    rw [index_of_drop rfl, ok_bind, EventKind.ofByte_eq_some.mpr rfl]
    dsimp only
    rw [index_of_drop rfl, ok_bind, slice_from (by simp [Event.payload]), ok_bind,
      toNat_lengthByte hmax']
    have hdrop : (e.payload ++ rest).drop 2 = e.node ++ rest := rfl
    rw [unmarshalString_eq_ok.mpr ⟨rfl, hmax, rest, hdrop⟩, ok_bind, Event.length_payload]

/-- The loop reads as many events as the count says and ignores what follows them. -/
theorem unmarshalEvents_eq_ok {eventCount : ℕ} {eventsInput : Bytes} {events : List Event} :
    unmarshalEvents eventCount eventsInput = .ok events ↔
      eventCount = events.length ∧ (∀ e ∈ events, e.node.length ≤ maxTargetSize) ∧
        ∃ rest, eventsInput = events.flatMap Event.payload ++ rest := by
  induction eventCount generalizing eventsInput events with
  | zero =>
    simp only [unmarshalEvents, Except.ok.injEq]
    constructor
    · rintro rfl
      exact ⟨rfl, by simp, eventsInput, rfl⟩
    · rintro ⟨hlen, -⟩
      exact (List.eq_nil_of_length_eq_zero hlen.symm).symm
  | succ eventCount ih =>
    rw [unmarshalEvents, bind_eq_ok]
    constructor
    · rintro ⟨⟨n, e⟩, he, h⟩
      obtain ⟨input, hinput, h⟩ := bind_eq_ok.mp h
      obtain ⟨events', hevents, h⟩ := bind_eq_ok.mp h
      cases h
      obtain ⟨rfl, hmax, rest, rfl⟩ := Event.unmarshalBinary_eq_ok.mp he
      rw [slice_from (by simp)] at hinput
      obtain rfl := Except.ok.inj hinput
      obtain ⟨rfl, hnode, rest', hrest⟩ := ih.mp hevents
      rw [List.drop_left] at hrest
      refine ⟨rfl, List.forall_mem_cons.mpr ⟨hmax, hnode⟩, rest', ?_⟩
      rw [hrest, List.flatMap_cons, List.append_assoc]
    · rintro ⟨hlen, hnode, rest, rfl⟩
      cases events with
      | nil => cases hlen
      | cons e events =>
        obtain ⟨hmax, hnode⟩ := List.forall_mem_cons.mp hnode
        rw [List.flatMap_cons, List.append_assoc]
        refine ⟨(_, e), Event.unmarshalBinary_eq_ok.mpr ⟨rfl, hmax, _, rfl⟩, ?_⟩
        dsimp only
        rw [slice_from (by simp), ok_bind, List.drop_left,
          ih.mpr ⟨Nat.succ.inj hlen, hnode, rest, rfl⟩, ok_bind]

theorem bigEndianBytes_period {period : Bytes} (h : period.length = 8) :
    bigEndianBytes 8 (UInt64.ofNat (bigEndian period)).toNat = period := by
  have hlt := bigEndian_lt period
  rw [h] at hlt
  rw [UInt64.toNat_ofNat_of_lt' hlt, ← h, bigEndianBytes_bigEndian]

namespace Message

variable (crc : Bytes → UInt32)

/-- The bytes a valid message, any further bytes and the checksum of both form. -/
def wire (m : Message) (junk : Bytes) : Bytes :=
  m.payload ++ junk ++ bigEndianBytes 4 (crc (m.payload ++ junk)).toNat

theorem payload_append (m : Message) (rest : Bytes) : m.payload ++ rest =
    messageVersion :: UInt8.ofNat m.src.length :: (m.src ++ m.kind.toByte ::
      (bigEndianBytes 8 m.period.toNat ++ UInt8.ofNat m.target.length :: (m.target ++
        UInt8.ofNat m.events.length :: (m.events.flatMap Event.payload ++ rest)))) := by
  simp [payload]

theorem eq_wire {data body tail junk : Bytes} {m : Message} (hdata : data = body ++ tail)
    (hparse : data = m.payload ++ junk ++ tail) (htail : tail.length = 4)
    (hcrc : bigEndian tail = (crc body).toNat) : data = m.wire crc junk := by
  have hbody : body = m.payload ++ junk := List.append_cancel_right (hdata.symm.trans hparse)
  have hsum : bigEndianBytes 4 (crc (m.payload ++ junk)).toNat = tail := by
    rw [← hbody, ← hcrc, ← htail, bigEndianBytes_bigEndian]
  rw [wire, hsum, hparse]

theorem wire_of_decode {data : Bytes} {m : Message} (h : decode crc data = .ok m) :
    m.Valid ∧ ∃ junk, data = m.wire crc junk := by
  unfold decode at h
  simp only [↓failIf_bind_eq_ok, bind_eq_ok] at h
  obtain ⟨hlen, body, hbody, tail, htail, hcrc, version, hversion, hsupported, srcLen, hsrcLen,
    hpos, input, hinput, src, hsrc, -, kind, hkind, h⟩ := h
  split at h
  · cases h
  next kind' hkind' =>
  simp only [bind_eq_ok] at h
  obtain ⟨period, hperiod, targetLen, htargetLen, input', hinput', target, htarget, eventsInput,
    heventsInput, eventCount, heventCount, events, hevents, ⟨⟩⟩ := h
  obtain ⟨hsrcEq, hsrcMax, rest, rfl⟩ := unmarshalString_eq_ok.mp hsrc
  obtain ⟨htargetEq, htargetMax, rest', rfl⟩ := unmarshalString_eq_ok.mp htarget
  obtain ⟨hcount, hnode, junk, rfl⟩ := unmarshalEvents_eq_ok.mp hevents
  rw [hsrcEq] at hkind hperiod htargetLen hinput' heventsInput heventCount
  rw [htargetEq] at heventsInput heventCount
  have hwhole := (slice_eq_ok hbody).1
  have hinput := (slice_eq_ok hinput).1
  have hinput' := (slice_eq_ok hinput').1
  obtain ⟨htail, htailLen⟩ := slice_eq_ok htail
  obtain ⟨hperiod, hperiodLen⟩ := slice_eq_ok hperiod
  have heventsInput := (slice_eq_ok heventsInput).1
  rw [List.drop_length, List.append_nil] at hinput hinput' htail
  rw [List.drop_zero] at hwhole
  rw [htail] at hwhole heventsInput
  have hcountLe : events.length ≤ 255 := by
    rw [← hcount]
    exact Nat.le_of_lt_succ eventCount.toNat_lt
  have hsrcPos : 1 ≤ src.length := by omega
  have hlen : 17 ≤ data.length := Nat.le_of_not_lt hlen
  refine ⟨⟨not_not.mp hsupported, hsrcPos, hsrcMax, htargetMax, hcountLe, hnode⟩, junk, ?_⟩
  refine eq_wire crc hwhole ?_ (by omega) (not_not.mp hcrc)
  have hafter : data.drop (2 + src.length + 11 + target.length) =
      data.drop (2 + src.length + 10 + target.length + 1) := by
    congr 1
    omega
  have hdata : data = version :: srcLen :: (src ++ kind :: (period ++ targetLen :: (target ++
      eventCount :: (events.flatMap Event.payload ++ junk ++ tail)))) := by
    rw [← heventsInput, hafter, ← index_eq_ok.mp heventCount, drop_block hinput', ← hinput',
      ← index_eq_ok.mp htargetLen, ← hperiod, ← index_eq_ok.mp hkind, drop_block hinput, ← hinput,
      ← index_eq_ok.mp hsrcLen, ← index_eq_ok.mp hversion, List.drop_zero]
  rw [hdata, not_not.mp hsupported, lengthByte_eq hsrcEq, lengthByte_eq htargetEq,
    lengthByte_eq hcount, MessageKind.ofByte_eq_some.mp hkind', List.append_assoc,
    List.append_assoc, payload_append, bigEndianBytes_period (by omega)]

theorem decode_of_eq {data junk tail : Bytes} {m : Message} (h : m.Valid)
    (hdata : data = m.payload ++ junk ++ tail) (htail : tail.length = 4)
    (hcrc : bigEndian tail = (crc (m.payload ++ junk)).toNat) : decode crc data = .ok m := by
  have hpayload := m.length_payload
  have hlen : data.length = m.payload.length + junk.length + 4 := by
    rw [hdata, List.length_append, List.length_append, htail]
  have hsrcMax : m.src.length ≤ 255 := Nat.le_trans h.src_le (by decide)
  have htargetMax : m.target.length ≤ 255 := Nat.le_trans h.target_le (by decide)
  have hsrcPos := h.src_pos
  unfold minMessageSize at hpayload
  -- What the buffer holds from each offset on.
  have hwhole : data.drop 0 = m.payload ++ junk ++ tail := hdata
  have h0 : data.drop 0 = _ := hwhole.trans ((List.append_assoc ..).trans (payload_append m _))
  have h1 := drop_elem h0
  have h2 := drop_elem h1
  have hs := drop_block h2
  have hs1 := drop_elem hs
  have hs9 := drop_block hs1
  rw [length_bigEndianBytes] at hs9
  have hs10 := drop_elem hs9
  have hcount := drop_block hs10
  have hevents := drop_elem hcount
  have hlast := drop_block hwhole
  have hstart : 0 + (m.payload ++ junk).length = data.length - 4 := by
    rw [List.length_append]
    omega
  rw [hstart] at hlast
  unfold decode
  refine failIf_bind_eq_ok.mpr ⟨by unfold minMessageSize; omega, ?_⟩
  rw [slice_of_drop hwhole (Nat.zero_le _) hstart.symm, ok_bind,
    slice_from (Nat.sub_le _ _), ok_bind, hlast]
  refine failIf_bind_eq_ok.mpr ⟨not_not.mpr hcrc, ?_⟩
  rw [index_of_drop h0, ok_bind]
  refine failIf_bind_eq_ok.mpr ⟨not_not.mpr rfl, ?_⟩
  rw [index_of_drop h1, ok_bind, toNat_lengthByte hsrcMax]
  refine failIf_bind_eq_ok.mpr ⟨by omega, ?_⟩
  rw [slice_from (by omega), ok_bind, unmarshalString_eq_ok.mpr ⟨rfl, h.src_le, _, h2⟩, ok_bind]
  refine failIf_bind_eq_ok.mpr ⟨by omega, ?_⟩
  rw [index_of_drop hs, ok_bind, MessageKind.ofByte_eq_some.mpr rfl]
  dsimp only
  rw [slice_of_drop hs1 (by omega) (by simp), ok_bind, index_of_drop hs9, ok_bind,
    slice_from (by omega), ok_bind, toNat_lengthByte htargetMax,
    unmarshalString_eq_ok.mpr ⟨rfl, h.target_le, _, hs10⟩, ok_bind]
  have hafter : 2 + m.src.length + 11 + m.target.length =
      2 + m.src.length + 1 + 8 + 1 + m.target.length + 1 := by omega
  have hbodyLen := congrArg List.length hevents
  rw [← List.append_assoc] at hevents
  simp only [List.length_drop, List.length_append, htail] at hbodyLen
  rw [hafter, slice_of_drop hevents (by omega) (by rw [List.length_append]; omega), ok_bind,
    index_of_drop hcount, ok_bind, toNat_lengthByte h.events_le,
    unmarshalEvents_eq_ok.mpr ⟨rfl, h.node_le, junk, rfl⟩, ok_bind,
    bigEndian_bigEndianBytes m.period.toNat_lt, UInt64.ofNat_toNat, ← h.version]

theorem decode_wire {m : Message} (h : m.Valid) (junk : Bytes) :
    decode crc (m.wire crc junk) = .ok m :=
  decode_of_eq crc h rfl (length_bigEndianBytes _ _) (bigEndian_bigEndianBytes (UInt32.toNat_lt _))

theorem unmarshalBinary_eq_ok {data : Bytes} {received m : Message} :
    unmarshalBinary crc data received = (.ok (), m) ↔ decode crc data = .ok m := by
  unfold unmarshalBinary
  cases decode crc data <;> simp

/-- `UnmarshalBinary` accepts exactly what `MarshalBinary` writes for a valid message, with
any bytes between payload and checksum, and reads back what was written. -/
theorem unmarshalBinary_wireGrammar (data : Bytes) (received m : Message) :
    (unmarshalBinary crc data received = (.ok (), m) ↔
      m.Valid ∧ ∃ packet payload junk, marshalBinary crc m = .ok packet ∧
        payload = packet.take (packet.length - 4) ∧
        data = payload ++ junk ++ bigEndianBytes 4 (crc (payload ++ junk)).toNat) ∧
    (m.Valid → ∃ packet, marshalBinary crc m = .ok packet ∧
      unmarshalBinary crc packet received = (.ok (), m)) := by
  have hpacket := marshalBinary_eq crc m
  have hpayload : m.payload = (m.payload ++ bigEndianBytes 4 (crc m.payload).toNat).take
      ((m.payload ++ bigEndianBytes 4 (crc m.payload).toNat).length - 4) := by
    rw [List.length_append, length_bigEndianBytes, Nat.add_sub_cancel, List.take_left]
  refine ⟨?_, fun h => ⟨_, hpacket, ?_⟩⟩
  · rw [unmarshalBinary_eq_ok]
    constructor
    · intro h
      obtain ⟨hvalid, junk, hdata⟩ := wire_of_decode crc h
      exact ⟨hvalid, _, m.payload, junk, hpacket, hpayload, hdata⟩
    · rintro ⟨hvalid, packet, payload, junk, hmarshal, rfl, rfl⟩
      obtain rfl := Except.ok.inj (hpacket.symm.trans hmarshal)
      rw [← hpayload]
      exact decode_wire crc hvalid junk
  · rw [unmarshalBinary_eq_ok]
    simpa [wire] using decode_wire crc h []

/-- An ack from `a` that says that `b` is dead. -/
def deadNotice : Message := ⟨1, .ack, [97], 3, [], [⟨.dead, [98]⟩]⟩

theorem unmarshalBinary_deadNotice : deadNotice.Valid ∧
    ∃ packet, marshalBinary crc32 deadNotice = .ok packet ∧
      unmarshalBinary crc32 packet deadNotice = (.ok (), deadNotice) :=
  have hvalid : deadNotice.Valid :=
    ⟨rfl, by decide, by decide, by decide, by decide, by decide⟩
  ⟨hvalid, (unmarshalBinary_wireGrammar crc32 [] deadNotice deadNotice).2 hvalid⟩

end Message
end Commute.Swim
