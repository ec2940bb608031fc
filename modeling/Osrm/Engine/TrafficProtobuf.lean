import Osrm.Protozero.Pbf

/-!
# Traffic packets on the wire

`encodeTrafficBatch` writes each packet as a submessage of six fields, `parseTrafficBatch`
reads the submessages one after another and hands each packet with coordinates to a
consumer. Floating point fields are their bit patterns, which is what `add_fixed` and
`get_fixed` copy. Parsing what was encoded gives the consumer every packet once and in order
(`parseTrafficBatch_encodeTrafficBatch`).
-/

namespace Osrm.TrafficProto

open List

open Protozero Protozero.PbfReader

variable (reader : PbfReader)

structure TrafficPacketMsg where
  userId : BitVec 64 := 0#64
  latitude : BitVec 64 := 0#64
  longitude : BitVec 64 := 0#64
  speedKmh : BitVec 32 := 0#32
  bearingDeg : BitVec 32 := 0#32
  timestampMs : BitVec 64 := 0#64
  deriving DecidableEq, Repr

inductive TrafficPacketField
  | userId
  | latitude
  | longitude
  | speedKmh
  | bearingDeg
  | timestampMs
  deriving DecidableEq, Repr

def TrafficPacketField.tag : TrafficPacketField → BitVec 32
  | .userId => 1#32
  | .latitude => 2#32
  | .longitude => 3#32
  | .speedKmh => 4#32
  | .bearingDeg => 5#32
  | .timestampMs => 6#32

def packetsTag : BitVec 32 := 1#32

def TrafficPacketField.ofTag (tag : BitVec 32) : Option TrafficPacketField :=
  [TrafficPacketField.userId, .latitude, .longitude, .speedKmh, .bearingDeg, .timestampMs].find? (·.tag = tag)

/-- A reader's result with what to do with its value; the state stays as it is when the reader throws. -/
def reading {α σ : Type} (result : Except Exception (α × PbfReader)) (st : σ) (use : α → σ) : σ × Except Exception PbfReader :=
  match result with
  | .ok (value, reader) => (use value, .ok reader)
  | .error e => (st, .error e)

/-- The body of the loop of `parseTrafficPacket`, on the packet and `has_coords`. -/
def parseField (st : TrafficPacketMsg × Bool) : (TrafficPacketMsg × Bool) × Except Exception PbfReader :=
  match TrafficPacketField.ofTag reader.tag with
  | some .userId => reading reader.getVarint st fun value => ({ st.1 with userId := value }, st.2)
  | some .latitude => reading reader.getDouble st fun value => ({ st.1 with latitude := value }, true)
  | some .longitude => reading reader.getDouble st fun value => ({ st.1 with longitude := value }, true)
  | some .speedKmh => reading reader.getFloat st fun value => ({ st.1 with speedKmh := value }, st.2)
  | some .bearingDeg => reading reader.getFloat st fun value => ({ st.1 with bearingDeg := value }, st.2)
  | some .timestampMs => reading reader.getVarint st fun value => ({ st.1 with timestampMs := value }, st.2)
  | none => (st, reader.skip)

/-- `parseTrafficPacket`: the packet and whether it has coordinates. -/
def parseTrafficPacket : Except Exception (TrafficPacketMsg × Bool) :=
  match forFields parseField reader.data.length reader ({}, false) with
  | (st, .ok ()) => .ok st
  | (_, .error e) => .error e

/-- The body of the loop of `parseTrafficBatch`, on the packets that the consumer was called with and `parsed`. -/
def parsePacket (st : List TrafficPacketMsg × ℕ) :
    (List TrafficPacketMsg × ℕ) × Except Exception PbfReader :=
  if reader.tag ≠ packetsTag then (st, reader.skip)
  else
    match reader.getMessage with
    | .error e => (st, .error e)
    | .ok (packetReader, reader) =>
      match parseTrafficPacket packetReader with
      | .error e => (st, .error e)
      | .ok (packet, hasCoords) => (if hasCoords then (st.1 ++ [packet], st.2 + 1) else st, .ok reader)

/-- `parseTrafficBatch`: the packets that the consumer was called with, and the number that is returned. -/
def parseTrafficBatch (data : List Byte) : List TrafficPacketMsg × ℕ :=
  match forFields parsePacket data.length (ofData data) ([], 0) with
  | (st, .ok ()) => st
  | (st, .error _) => (st.1, 0)

def encodeTrafficPacket (packet : TrafficPacketMsg) : List Byte :=
  let buffer := addTaggedVarint [] TrafficPacketField.userId.tag packet.userId
  let buffer := addDouble buffer TrafficPacketField.latitude.tag packet.latitude
  let buffer := addDouble buffer TrafficPacketField.longitude.tag packet.longitude
  let buffer := addFloat buffer TrafficPacketField.speedKmh.tag packet.speedKmh
  let buffer := addFloat buffer TrafficPacketField.bearingDeg.tag packet.bearingDeg
  addTaggedVarint buffer TrafficPacketField.timestampMs.tag packet.timestampMs

def encodeTrafficBatch (packets : List TrafficPacketMsg) : List Byte :=
  packets.foldl (fun buffer packet => addBytes buffer packetsTag (encodeTrafficPacket packet)) []

section Enough

variable {reader rest : PbfReader}

theorem length_reading {α σ : Type} {result : Except Exception (α × PbfReader)} {st : σ} {use : α → σ}
    (each : ∀ value rest, result = .ok (value, rest) → rest.data.length ≤ reader.data.length)
    (read : (reading result st use).2 = .ok rest) : rest.data.length ≤ reader.data.length := by
  unfold reading at read
  split at read
  · cases read
    exact each _ _ rfl
  · cases read

theorem length_parseField {st : TrafficPacketMsg × Bool} (read : (parseField reader st).2 = .ok rest) :
    rest.data.length ≤ reader.data.length := by
  unfold parseField at read
  split at read
  · exact length_reading (fun _ _ result => (length_getVarint result).le) read
  · exact length_reading (fun _ _ result => length_getFixed result) read
  · exact length_reading (fun _ _ result => length_getFixed result) read
  · exact length_reading (fun _ _ result => length_getFixed result) read
  · exact length_reading (fun _ _ result => length_getFixed result) read
  · exact length_reading (fun _ _ result => (length_getVarint result).le) read
  · exact length_skip read

theorem length_parsePacket {st : List TrafficPacketMsg × ℕ} (read : (parsePacket reader st).2 = .ok rest) :
    rest.data.length ≤ reader.data.length := by
  unfold parsePacket at read
  split_ifs at read
  · exact length_skip read
  · split at read
    · cases read
    · next message =>
      split at read
      · cases read
      · cases read
        exact length_getMessage message

/-- The number of bytes bounds neither loop: more steps give the same on any data. -/
theorem parse_enough (extra : ℕ) :
    (∀ reader st, forFields parseField (reader.data.length + extra) reader st = forFields parseField reader.data.length reader st) ∧
      ∀ data st, forFields parsePacket (data.length + extra) (ofData data) st = forFields parsePacket data.length (ofData data) st :=
  ⟨fun reader st => forFields_enough (fun _ _ _ => length_parseField) extra _ reader st le_rfl,
    fun data st => forFields_enough (fun _ _ _ => length_parsePacket) extra _ (ofData data) st le_rfl⟩

end Enough

section Fields

theorem validTag (field : TrafficPacketField) : ValidTag field.tag := by
  cases field <;> exact ⟨by decide, by decide, by decide⟩

section Reading

variable {σ : Type} {st : σ} {rest : List Byte} {type : WireType} {tag : BitVec 32}
  {use : BitVec 64 → σ} {value : BitVec 64}

theorem reading_varint :
    reading (getVarint ⟨varintBytes value ++ rest, type, tag⟩) st use = (use value, .ok ⟨rest, type, tag⟩) := by
  rw [getVarint_varintBytes rfl]
  rfl

theorem reading_fixed {k : ℕ} {value : BitVec (8 * k)} {use : BitVec (8 * k) → σ} :
    reading (getFixed ⟨littleEndianBytes k value.toNat ++ rest, type, tag⟩ k) st use = (use value, .ok ⟨rest, type, tag⟩) := by
  rw [getFixed_littleEndianBytes rfl]
  rfl

end Reading

variable (packet : TrafficPacketMsg)

def TrafficPacketField.wireType : TrafficPacketField → WireType
  | .userId | .timestampMs => .varint
  | .latitude | .longitude => .fixed64
  | .speedKmh | .bearingDeg => .fixed32

/-- The bytes of a field after its header. -/
def payload : TrafficPacketField → List Byte
  | .userId => varintBytes packet.userId
  | .latitude => littleEndianBytes 8 packet.latitude.toNat
  | .longitude => littleEndianBytes 8 packet.longitude.toNat
  | .speedKmh => littleEndianBytes 4 packet.speedKmh.toNat
  | .bearingDeg => littleEndianBytes 4 packet.bearingDeg.toNat
  | .timestampMs => varintBytes packet.timestampMs

/-- What reading a field of `packet` does. -/
def store (st : TrafficPacketMsg × Bool) : TrafficPacketField → TrafficPacketMsg × Bool
  | .userId => ({ st.1 with userId := packet.userId }, st.2)
  | .latitude => ({ st.1 with latitude := packet.latitude }, true)
  | .longitude => ({ st.1 with longitude := packet.longitude }, true)
  | .speedKmh => ({ st.1 with speedKmh := packet.speedKmh }, st.2)
  | .bearingDeg => ({ st.1 with bearingDeg := packet.bearingDeg }, st.2)
  | .timestampMs => ({ st.1 with timestampMs := packet.timestampMs }, st.2)

def fieldBytes (field : TrafficPacketField) : List Byte :=
  addField field.tag field.wireType ++ payload packet field

theorem parseField_payload (field : TrafficPacketField) (rest : List Byte)
    (st : TrafficPacketMsg × Bool) : parseField ⟨payload packet field ++ rest, field.wireType, field.tag⟩ st =
      (store packet st field, .ok ⟨rest, field.wireType, field.tag⟩) := by
  unfold parseField
  cases field with
  | userId => exact reading_varint
  | latitude => exact reading_fixed
  | longitude => exact reading_fixed
  | speedKmh => exact reading_fixed
  | bearingDeg => exact reading_fixed
  | timestampMs => exact reading_varint

/-- The loop reads fields of a packet in any order and number. -/
theorem forFields_fieldBytes (extra : ℕ) (fields : List TrafficPacketField) :
    ∀ (reader : PbfReader) (st : TrafficPacketMsg × Bool), reader.data = fields.flatMap (fieldBytes packet) →
      forFields parseField (fields.length + extra) reader st = (fields.foldl (store packet) st, .ok ()) := by
  induction fields with
  | nil =>
    intro reader st data
    rw [forFields_nil _ data]
    rfl
  | cons field fields ih =>
    intro reader st data
    have header : reader.data = addField field.tag field.wireType ++
        (payload packet field ++ fields.flatMap (fieldBytes packet)) := by
      rw [data, flatMap_cons, fieldBytes, append_assoc]
    have known : field.wireType ≠ .unknown := by cases field <;> decide
    rw [length_cons, Nat.add_right_comm, forFields_field (next_addField (validTag field) known header)
      (parseField_payload packet field _ st)]
    exact ih _ _ rfl

/-- The fields in the order in which they are written. -/
def fieldOrder : List TrafficPacketField := [.userId, .latitude, .longitude, .speedKmh, .bearingDeg, .timestampMs]

theorem encodeTrafficPacket_eq :
    encodeTrafficPacket packet = fieldOrder.flatMap (fieldBytes packet) := by
  simp [encodeTrafficPacket, addTaggedVarint, addDouble, addFloat, fieldOrder, fieldBytes, payload, TrafficPacketField.wireType]

/-- `parseTrafficPacket` reads what `encodeTrafficBatch` writes for a packet. -/
theorem parseTrafficPacket_encode :
    parseTrafficPacket (ofData (encodeTrafficPacket packet)) = .ok (packet, true) := by
  have enough : fieldOrder.length ≤ (encodeTrafficPacket packet).length := by
    have fixed : 8 ≤ (payload packet .latitude).length := (length_littleEndianBytes 8 _).ge
    simp only [encodeTrafficPacket_eq, fieldOrder, fieldBytes, flatMap_cons, flatMap_nil, length_append,
      length_cons, length_nil]
    omega
  have read := forFields_fieldBytes packet ((encodeTrafficPacket packet).length - fieldOrder.length) fieldOrder
    (ofData (encodeTrafficPacket packet)) ({}, false) (encodeTrafficPacket_eq packet)
  rw [Nat.add_sub_cancel' enough] at read
  change (match forFields parseField (encodeTrafficPacket packet).length (ofData (encodeTrafficPacket packet)) ({}, false) with
    | (st, .ok ()) => Except.ok st
    | (_, .error e) => .error e) = _
  rw [read]
  rfl

/-- The submessage of a packet is short. -/
theorem length_encodeTrafficPacket : (encodeTrafficPacket packet).length < 2 ^ 32 := by
  have header : ∀ field : TrafficPacketField, (addField field.tag field.wireType).length ≤ 10 := fun _ => length_varintBytes _
  have varint : ∀ value, (varintBytes value).length ≤ 10 := length_varintBytes
  have short : ∀ field, (fieldBytes packet field).length ≤ 20 := by
    intro field
    rw [fieldBytes, length_append]
    have := header field
    have : (payload packet field).length ≤ 10 := by
      cases field with
      | userId => exact varint _
      | timestampMs => exact varint _
      | latitude => exact (length_littleEndianBytes 8 _).le.trans (by decide)
      | longitude => exact (length_littleEndianBytes 8 _).le.trans (by decide)
      | speedKmh => exact (length_littleEndianBytes 4 _).le.trans (by decide)
      | bearingDeg => exact (length_littleEndianBytes 4 _).le.trans (by decide)
    omega
  have := short .userId
  have := short .latitude
  have := short .longitude
  have := short .speedKmh
  have := short .bearingDeg
  have := short .timestampMs
  simp only [encodeTrafficPacket_eq, fieldOrder, flatMap_cons, flatMap_nil, length_append, length_nil]
  omega

end Fields

section Batch

/-- A packet as it is written in a batch. -/
def packetBytes (packet : TrafficPacketMsg) : List Byte := addBytes [] packetsTag (encodeTrafficPacket packet)

variable (packets : List TrafficPacketMsg)

theorem encodeTrafficBatch_eq : encodeTrafficBatch packets = packets.flatMap packetBytes := by
  have appends : ∀ (packets : List TrafficPacketMsg) (buffer : List Byte),
      packets.foldl (fun buffer packet => addBytes buffer packetsTag (encodeTrafficPacket packet)) buffer =
        buffer ++ packets.flatMap packetBytes := by
    intro packets
    induction packets with
    | nil => exact fun buffer => (append_nil buffer).symm
    | cons packet packets ih =>
      intro buffer
      rw [foldl_cons, ih, flatMap_cons, packetBytes]
      simp [addBytes]
  rw [encodeTrafficBatch, appends, nil_append]

/-- The loop over a batch hands the packets to the consumer one after another. -/
theorem forFields_packetBytes (extra : ℕ) (packets : List TrafficPacketMsg) :
    ∀ (reader : PbfReader) (consumed : List TrafficPacketMsg) (parsed : ℕ), reader.data = packets.flatMap packetBytes →
      forFields parsePacket (packets.length + extra) reader (consumed, parsed) =
        ((consumed ++ packets, parsed + packets.length), .ok ()) := by
  induction packets with
  | nil =>
    intro reader consumed parsed data
    rw [forFields_nil _ data, append_nil]
    rfl
  | cons packet packets ih =>
    intro reader consumed parsed data
    have header : reader.data = addField packetsTag .lengthDelimited ++
        (varintBytes ((BitVec.ofNat 32 (encodeTrafficPacket packet).length).setWidth 64) ++ encodeTrafficPacket packet ++
          packets.flatMap packetBytes) := by
      rw [data, flatMap_cons, packetBytes, addBytes]
      simp
    have valid : ValidTag packetsTag := ⟨by decide, by decide, by decide⟩
    have body : parsePacket ⟨varintBytes ((BitVec.ofNat 32 (encodeTrafficPacket packet).length).setWidth 64) ++
        encodeTrafficPacket packet ++ packets.flatMap packetBytes, .lengthDelimited, packetsTag⟩ (consumed, parsed) =
        ((consumed ++ [packet], parsed + 1), .ok ⟨packets.flatMap packetBytes, .lengthDelimited, packetsTag⟩) := by
      unfold parsePacket
      rw [getMessage_addBytes (length_encodeTrafficPacket packet) rfl]
      simp [parseTrafficPacket_encode]
    rw [length_cons, Nat.add_right_comm, forFields_field (next_addField valid (by decide) header) body, ih _ _ _ rfl,
      append_assoc, Nat.add_assoc, Nat.add_comm 1]
    rfl

theorem length_le_encodeTrafficBatch : packets.length ≤ (encodeTrafficBatch packets).length := by
  rw [encodeTrafficBatch_eq]
  induction packets with
  | nil => exact Nat.zero_le _
  | cons packet packets ih =>
    have filled : packetBytes packet ≠ [] := by
      rw [packetBytes, addBytes, append_assoc]
      exact append_ne_nil_of_left_ne_nil (varintBytes_ne_nil _) _
    have := length_pos_iff.2 filled
    rw [flatMap_cons, length_append, length_cons]
    omega

/-- **Decoding a traffic batch undoes encoding**: the consumer is called once per packet, in order and with the same
fields, and the number of packets is returned. -/
theorem parseTrafficBatch_encodeTrafficBatch :
    parseTrafficBatch (encodeTrafficBatch packets) = (packets, packets.length) := by
  have enough := length_le_encodeTrafficBatch packets
  have read := forFields_packetBytes ((encodeTrafficBatch packets).length - packets.length) packets
    (ofData (encodeTrafficBatch packets)) [] 0 (encodeTrafficBatch_eq packets)
  rw [Nat.add_sub_cancel' enough] at read
  rw [parseTrafficBatch, read, nil_append, Nat.zero_add]

end Batch

end Osrm.TrafficProto
