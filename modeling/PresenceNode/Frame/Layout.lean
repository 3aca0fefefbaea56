import PresenceNode.Frame.Encode

/-!
# The documented layout of a frame

A reader of the layout that `frame.h` documents: a header of 16 bytes, records
of 24, and a checksum of two, all little-endian.  It knows the layout only, not
the encoders, and it reads back what they write.
-/

namespace PresenceNode.Frame

open Library LittleEndian

def readRecord (bytes : List UInt8) : Option SntlRecord := do
  let seq ← read32 bytes 0
  let ts ← read32 bytes 4
  let headcount ← bytes[8]?
  let occS ← bytes[9]?
  let dwellS ← read16 bytes 10
  let flags ← bytes[12]?
  let batt ← bytes[13]?
  let pm25 ← read16 bytes 14
  let pm10 ← read16 bytes 16
  let temp ← read16 bytes 18
  let rh ← read16 bytes 20
  let voc ← read16 bytes 22
  some { seq, ts, headcount, occS, dwellS, flags, batt, pm25, pm10,
         temp := temp.toInt16, rh := rh.toInt16, voc := voc.toInt16 }

def readRecords (bytes : List UInt8) : Nat → Option (List SntlRecord)
  | 0 => some []
  | count + 1 => do
      let record ← readRecord (bytes.take 24)
      let rest ← readRecords (bytes.drop 24) count
      some (record :: rest)

structure Contents where
  magic : List UInt8
  version : UInt8
  recordSize : UInt8
  recordCount : UInt16
  deviceId : List UInt8
  records : List SntlRecord
  crc : UInt16

def readFrame (bytes : List UInt8) : Option Contents := do
  let version ← bytes[4]?
  let recordSize ← bytes[5]?
  let recordCount ← read16 bytes 6
  let records ← readRecords (bytes.drop 16) recordCount.toNat
  let crc ← read16 bytes (16 + 24 * recordCount.toNat)
  some { magic := bytes.take 4, version, recordSize, recordCount,
         deviceId := (bytes.drop 8).take 8, records, crc }

theorem readRecord_encode (record : SntlRecord) :
    readRecord (sntlEncodeRecord record) = some record := by
  have words : readRecord (sntlEncodeRecord record) = some
      { record with
        seq := join32 record.seq.toUInt8 (record.seq >>> 8).toUInt8 (record.seq >>> 16).toUInt8
          (record.seq >>> 24).toUInt8
        ts := join32 record.ts.toUInt8 (record.ts >>> 8).toUInt8 (record.ts >>> 16).toUInt8
          (record.ts >>> 24).toUInt8
        dwellS := join16 record.dwellS.toUInt8 (record.dwellS >>> 8).toUInt8
        pm25 := join16 record.pm25.toUInt8 (record.pm25 >>> 8).toUInt8
        pm10 := join16 record.pm10.toUInt8 (record.pm10 >>> 8).toUInt8
        temp := (join16 record.temp.toUInt16.toUInt8 (record.temp.toUInt16 >>> 8).toUInt8).toInt16
        rh := (join16 record.rh.toUInt16.toUInt8 (record.rh.toUInt16 >>> 8).toUInt8).toInt16
        voc := (join16 record.voc.toUInt16.toUInt8 (record.voc.toUInt16 >>> 8).toUInt8).toInt16 } :=
    rfl
  rw [words]
  simp only [join32_bytes, join16_bytes, Int16.toInt16_toUInt16]

theorem readRecords_encode (records : List SntlRecord) (after : List UInt8) :
    readRecords ((records.map sntlEncodeRecord).flatten ++ after) records.length =
      some records := by
  induction records with
  | nil => rfl
  | cons record rest ih =>
      have first :
          (sntlEncodeRecord record ++ ((rest.map sntlEncodeRecord).flatten ++ after)).take 24 =
          sntlEncodeRecord record := List.take_left' rfl
      have others :
          (sntlEncodeRecord record ++ ((rest.map sntlEncodeRecord).flatten ++ after)).drop 24 =
          (rest.map sntlEncodeRecord).flatten ++ after := List.drop_left' rfl
      rw [List.map_cons, List.flatten_cons, List.append_assoc, List.length_cons, readRecords,
        first, others, readRecord_encode, ih]
      rfl

/-- The frame in one piece: header, records, and the checksum of everything before it. -/
def wholeFrame (header : List UInt8) (records : List SntlRecord) : List UInt8 :=
  let body := header ++ (records.map sntlEncodeRecord).flatten
  body ++ bytes16 (sntlCrc16 0xFFFF body)

theorem records_length (records : List SntlRecord) :
    (records.map sntlEncodeRecord).flatten.length = 24 * records.length := by
  induction records with
  | nil => rfl
  | cons record rest ih =>
      rw [List.map_cons, List.flatten_cons, List.length_append, ih, sntlEncodeRecord_length,
        List.length_cons, sntlRecordSize]
      omega

theorem header_fields {count : UInt16} {deviceId header : List UInt8}
    (encoded : sntlEncodeHeader count deviceId = some header) :
    ∃ field, deviceIdField deviceId sntlDeviceIdLen = some field ∧
      header = sntlMagic ++ [sntlVersion, 24, count.toUInt8, (count >>> 8).toUInt8] ++ field := by
  obtain ⟨field, found, rfl⟩ := Option.map_eq_some_iff.mp encoded
  exact ⟨field, found, by rw [low_byte]⟩

theorem readFrame_whole {count : UInt16} {deviceId header field : List UInt8}
    {records : List SntlRecord} (encoded : sntlEncodeHeader count deviceId = some header)
    (named : deviceIdField deviceId sntlDeviceIdLen = some field) (width : field.length = 8)
    (total : records.length = count.toNat) :
    (wholeFrame header records).length = sntlFrameSize count ∧
      readFrame (wholeFrame header records) = some
        { magic := sntlMagic, version := sntlVersion, recordSize := 24, recordCount := count,
          deviceId := field, records := records,
          crc := sntlCrc16 0xFFFF ((wholeFrame header records).take (sntlFrameSize count - 2)) } := by
  obtain ⟨found, same, whole⟩ := header_fields encoded
  cases named.symm.trans same
  have size : sntlFrameSize count = 16 + 24 * count.toNat + 2 := by
    rw [sntlFrameSize, sntlHeaderSize, sntlRecordSize, sntlCrcSize, Nat.mul_comm]
  have headerLength : header.length = 16 := by
    simp [whole, sntlMagic, width]
  let body := header ++ (records.map sntlEncodeRecord).flatten
  have bodyLength : body.length = 16 + 24 * count.toNat := by
    rw [List.length_append, headerLength, records_length, total]
  have split : wholeFrame header records = body ++ bytes16 (sntlCrc16 0xFFFF body) := rfl
  have crcInput : (wholeFrame header records).take (sntlFrameSize count - 2) = body := by
    rw [split, size, List.take_left' (by omega)]
  have crc : read16 (wholeFrame header records) (16 + 24 * count.toNat) =
      some (sntlCrc16 0xFFFF body) := by
    have found := read16_bytes body [] (sntlCrc16 0xFFFF body)
    rwa [List.append_nil, bodyLength] at found
  have recordsRead : readRecords ((wholeFrame header records).drop 16) count.toNat =
      some records := by
    rw [split, List.append_assoc, List.drop_left' headerLength, ← total]
    exact readRecords_encode records _
  refine ⟨by rw [split, List.length_append, bodyLength, bytes16_length, size], ?_⟩
  rw [crcInput]
  -- What is left to read stands in the header.
  have countRead : read16 (wholeFrame header records) 6 = some count := by
    have joined : read16 (wholeFrame header records) 6 =
        some (join16 count.toUInt8 (count >>> 8).toUInt8) := by
      rw [whole]
      rfl
    rw [joined, join16_bytes]
  have id : ((wholeFrame header records).drop 8).take 8 = field := by
    rw [whole]
    change (field ++ _ ++ _).take 8 = field
    rw [List.append_assoc, List.take_left' width]
  have fixed : (wholeFrame header records).take 4 = sntlMagic ∧
      (wholeFrame header records)[4]? = some sntlVersion ∧
      (wholeFrame header records)[5]? = some 24 := by
    rw [whole]
    exact ⟨rfl, rfl, rfl⟩
  simp only [readFrame, fixed, countRead, recordsRead, crc, id, Option.bind_eq_bind,
    Option.bind_some]

end PresenceNode.Frame
