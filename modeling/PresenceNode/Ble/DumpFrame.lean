import PresenceNode.Ble.Dump
import PresenceNode.Frame.Layout
import PresenceNode.Library.Chunking

/-!
# A dump is the documented frame, cut into chunks

`dump_run` never holds its frame.  Its state is that of a chunker whose items
are the header, the records and the checksum, so its payloads are the chunks
of the frame, and their lengths are those of the chunks.
-/

namespace PresenceNode.Ble

open Library PresenceNode.Frame Chunking LittleEndian

def accepts (env : DumpEnv) (index : Nat) : Bool := notifyChunk (env.attempts index) == some true

theorem accepts_iff {env : DumpEnv} {index : Nat} :
    accepts env index = true ↔ notifyChunk (env.attempts index) = some true := beq_iff_eq

/-- The fields of a running dump that has sent some chunks and holds one. -/
structure Holds (s : DumpState) (sent : List (List UInt8)) (held : List UInt8) : Prop where
  calls : s.calls = sent
  contents : Buffer.held s.buf s.fill.toNat = held
  fill : s.fill.toNat = held.length
  crc : s.crc = sntlCrc16 0xFFFF (sent.flatten ++ held)

theorem Holds.bound {s : DumpState} {sent : List (List UInt8)} {held : List UInt8}
    (holds : Holds s sent held) : held.length ≤ dumpBufSize := by
  have length := congrArg List.length holds.contents
  rw [Buffer.held_length, holds.fill] at length
  omega

def Matches : DumpFlow → Chunker UInt8 → Prop
  | .running s, .opened sent held => Holds s sent held
  | .returned calls, .closed sent => calls = sent
  | _, _ => False

theorem Matches.calls {flow : DumpFlow} {chunker : Chunker UInt8}
    (matched : Matches flow chunker) : flow.calls = chunker.sent := by
  cases flow with
  | running s =>
      cases chunker with
      | opened sent held => exact Holds.calls matched
      | closed sent => cases matched
  | returned calls =>
      cases chunker with
      | opened sent held => cases matched
      | closed sent => exact matched

/-! ## One operation at a time -/

theorem notifyBuf_send (env : DumpEnv) {s : DumpState} {sent : List (List UInt8)}
    {held : List UInt8} (calls : s.calls = sent)
    (contents : Buffer.held s.buf s.fill.toNat = held) (inside : s.fill.toNat ≤ dumpBufSize) :
    notifyBuf env s = some (if accepts env sent.length then
      .running { s with calls := sent ++ [held] } else .returned (sent ++ [held])) := by
  simp only [notifyBuf, if_pos inside, calls, contents, accepts_iff]
  split <;> rfl

theorem flushFor_makeRoom (env : DumpEnv) {s : DumpState} {sent : List (List UInt8)}
    {held : List UInt8} (holds : Holds s sent held) (chunk : UInt16) (size : Nat) :
    ∃ flow, flushFor env chunk size s = some flow ∧
      Matches flow (makeRoom (accepts env) chunk.toNat size (.opened sent held)) := by
  simp only [flushFor, makeRoom, holds.fill]
  by_cases full : chunk.toNat < held.length + size
  · have inside : s.fill.toNat ≤ dumpBufSize := by
      rw [holds.fill]
      exact holds.bound
    rw [if_pos full, if_pos full, notifyBuf_send env holds.calls holds.contents inside]
    simp only [send]
    split
    · refine ⟨_, rfl, rfl, rfl, rfl, ?_⟩
      change s.crc = _
      rw [holds.crc]
      simp
    · exact ⟨_, rfl, rfl⟩
  · rw [if_neg full, if_neg full]
    exact ⟨_, rfl, holds⟩

/-- A record that fits into the buffer is appended, and the checksum follows. -/
theorem putRecord_push {s : DumpState} {sent : List (List UInt8)} {held : List UInt8}
    (holds : Holds s sent held) (record : SntlRecord)
    (room : held.length + sntlRecordSize ≤ dumpBufSize) :
    ∃ next, putRecord record s = some (.running next) ∧
      Holds next sent (held ++ sntlEncodeRecord record) := by
  have inside : s.fill.toNat + (sntlEncodeRecord record).length ≤ dumpBufSize := by
    rw [holds.fill]
    exact room
  obtain ⟨buf, stored⟩ := Buffer.storeAll_defined s.buf inside
  have window : Buffer.window buf s.fill.toNat sntlRecordSize = sntlEncodeRecord record :=
    Buffer.window_storeAll inside stored
  have appended := Buffer.held_storeAll stored
  have fill : (s.fill + 24).toNat = held.length + 24 := by
    rw [UInt16.toNat_add, holds.fill]
    have size : held.length + 24 ≤ 244 := room
    exact Nat.mod_eq_of_lt (by change held.length + 24 < 2 ^ 16; omega)
  rw [putRecord, stored]
  refine ⟨_, rfl, holds.calls, ?_, ?_, ?_⟩
  · change Buffer.held buf (s.fill + 24).toNat = _
    rw [fill, ← holds.fill, ← holds.contents]
    exact appended
  · change (s.fill + 24).toNat = _
    rw [fill, List.length_append]
    rfl
  · change sntlCrc16 s.crc (Buffer.window buf s.fill.toNat sntlRecordSize) = _
    rw [window, holds.crc, ← sntlCrc16_append, List.append_assoc]

def dumpedRecords (env : DumpEnv) : UInt32 → Nat → List SntlRecord
  | _, 0 => []
  | seq, left + 1 => dumpedRecord env seq :: dumpedRecords env (seq + 1) left

theorem dumpedRecords_eq (env : DumpEnv) (seq : UInt32) (count : Nat) :
    dumpedRecords env seq count =
      (List.range count).map fun index => dumpedRecord env (seq + UInt32.ofNat index) := by
  induction count generalizing seq with
  | zero => rfl
  | succ count ih =>
      rw [dumpedRecords, ih, List.range_succ_eq_map, List.map_cons, List.map_map]
      have shift : ∀ index : Nat, seq + 1 + UInt32.ofNat index = seq + UInt32.ofNat (index + 1) := by
        intro index
        rw [UInt32.ofNat_add, UInt32.add_assoc, UInt32.add_comm 1]
        rfl
      simp [Function.comp_def, shift]

theorem dumpRecords_appendAll (env : DumpEnv) {s : DumpState} {sent : List (List UInt8)}
    {held : List UInt8} {chunk : UInt16} (limit : chunk.toNat ≤ dumpBufSize)
    (holds : Holds s sent held) (seq : UInt32) (left : Nat) :
    ∃ flow, dumpRecords env chunk seq left s = some flow ∧
      Matches flow (appendAll (accepts env) chunk.toNat (.opened sent held)
        ((dumpedRecords env seq left).map sntlEncodeRecord)) := by
  induction left generalizing seq s sent held with
  | zero => exact ⟨_, rfl, holds⟩
  | succ left ih =>
      obtain ⟨flow, flushed, matched⟩ := flushFor_makeRoom env holds chunk sntlRecordSize
      rw [dumpRecords, flushed, Option.bind_some, dumpedRecords, List.map_cons]
      change ∃ flow, _ ∧ Matches flow (appendAll (accepts env) chunk.toNat
        (push (sntlEncodeRecord (dumpedRecord env seq))
          (makeRoom (accepts env) chunk.toNat sntlRecordSize (.opened sent held))) _)
      cases flow with
      | returned calls =>
          cases room : makeRoom (accepts env) chunk.toNat sntlRecordSize (.opened sent held) with
          | opened sent held => rw [room] at matched; cases matched
          | closed sent =>
              rw [room] at matched
              exact ⟨_, rfl, by rw [push, appendAll_closed]; exact matched⟩
      | running s =>
          cases room : makeRoom (accepts env) chunk.toNat sntlRecordSize (.opened sent held) with
          | closed sent => rw [room] at matched; cases matched
          | opened sent held =>
              rw [room] at matched
              have size : sntlRecordSize ≤ dumpBufSize := by decide
              have bound := (makeRoom_opened room).2
              obtain ⟨next, put, holdsNext⟩ :=
                putRecord_push matched (dumpedRecord env seq) (by omega)
              obtain ⟨final, ran, matchedFinal⟩ := ih holdsNext (seq + 1)
              refine ⟨final, ?_, matchedFinal⟩
              rw [DumpFlow.andThen, put]
              exact ran

theorem dumpCrc_send (env : DumpEnv) {s : DumpState} {sent : List (List UInt8)}
    {held : List UInt8} {chunk : UInt16} (limit : chunk.toNat ≤ dumpBufSize)
    (holds : Holds s sent held) :
    ∃ flow, dumpCrc env chunk s = some flow ∧ flow.calls =
      (send (accepts env) (append (accepts env) chunk.toNat (.opened sent held)
        (bytes16 (sntlCrc16 0xFFFF (sent.flatten ++ held))))).sent := by
  obtain ⟨flow, flushed, matched⟩ := flushFor_makeRoom env holds chunk sntlCrcSize
  rw [dumpCrc, flushed, Option.bind_some, append, bytes16_length]
  change ∃ flow, _ ∧ DumpFlow.calls flow = (send (accepts env) (push _
    (makeRoom (accepts env) chunk.toNat sntlCrcSize (.opened sent held)))).sent
  cases flow with
  | returned calls =>
      cases room : makeRoom (accepts env) chunk.toNat sntlCrcSize (.opened sent held) with
      | opened sent held => rw [room] at matched; cases matched
      | closed sent =>
          rw [room] at matched
          exact ⟨_, rfl, matched⟩
  | running s =>
      cases room : makeRoom (accepts env) chunk.toNat sntlCrcSize (.opened sent held) with
      | closed sent => rw [room] at matched; cases matched
      | opened sentNext heldNext =>
          rw [room] at matched
          obtain ⟨text, bound⟩ := makeRoom_opened room
          have capacity : dumpBufSize = 244 := rfl
          have two : sntlCrcSize = 2 := rfl
          have fill := matched.fill
          have fillNext : (s.fill + 1).toNat = s.fill.toNat + 1 := by
            rw [UInt16.toNat_add]
            exact Nat.mod_eq_of_lt (by change s.fill.toNat + 1 < 2 ^ 16; omega)
          have fillLast : (s.fill + 1 + 1).toNat = s.fill.toNat + 1 + 1 := by
            rw [UInt16.toNat_add, fillNext]
            exact Nat.mod_eq_of_lt (by change s.fill.toNat + 1 + 1 < 2 ^ 16; omega)
          obtain ⟨low, storedLow⟩ := Buffer.store_defined s.buf (s.crc &&& 0xFF).toUInt8
            (show s.fill.toNat < dumpBufSize by omega)
          obtain ⟨high, storedHigh⟩ := Buffer.store_defined low (s.crc >>> 8).toUInt8
            (show s.fill.toNat + 1 < dumpBufSize by omega)
          let last := heldNext ++ bytes16 (sntlCrc16 0xFFFF (sent.flatten ++ held))
          have contents : Buffer.held high (s.fill + 1 + 1).toNat = last := by
            rw [fillLast, Buffer.held_store storedHigh, Buffer.held_store storedLow,
              matched.contents, low_byte, matched.crc, text, List.append_assoc]
            rfl
          let finished : DumpState := { s with buf := high, fill := s.fill + 1 + 1 }
          have inside : finished.fill.toNat ≤ dumpBufSize := by
            change (s.fill + 1 + 1).toNat ≤ _
            omega
          have sending : notifyBuf env finished = some (if accepts env sentNext.length then
              .running { finished with calls := sentNext ++ [last] }
              else .returned (sentNext ++ [last])) :=
            notifyBuf_send env matched.calls contents inside
          refine ⟨_, (by
            rw [DumpFlow.andThen, storedLow, Option.bind_some, fillNext, storedHigh,
              Option.bind_some]
            exact sending), ?_⟩
          simp only [push, send]
          split <;> rfl

/-! ## The whole dump -/

def dumpItems (header : List UInt8) (records : List SntlRecord) : List (List UInt8) :=
  records.map sntlEncodeRecord ++
    [bytes16 (sntlCrc16 0xFFFF (header ++ (records.map sntlEncodeRecord).flatten))]

theorem dumpItems_text (header : List UInt8) (records : List SntlRecord) :
    header ++ (dumpItems header records).flatten = wholeFrame header records := by
  simp [dumpItems, wholeFrame]

def paddedId (env : DumpEnv) : List UInt8 :=
  ((env.deviceId.toList.takeWhile (· ≠ 0)).take sntlDeviceIdLen).rightpad sntlDeviceIdLen 0

theorem paddedId_length (env : DumpEnv) : (paddedId env).length = sntlDeviceIdLen := by
  rw [paddedId, List.length_rightpad]
  exact Nat.max_eq_left (List.length_take_le _ _)

/-- The id has a byte for each place of the field, so the field is always defined. -/
theorem deviceIdField_defined (env : DumpEnv) :
    deviceIdField env.deviceId.toList sntlDeviceIdLen = some (paddedId env) :=
  deviceIdField_eq (by rw [Vector.length_toList]; decide)

theorem dumpRun_send (env : DumpEnv) {firstSeq start : UInt32} {count : UInt16}
    (range : sntlDumpRange firstSeq env.oldest env.next = (count, start))
    (buf : Vector UInt8 dumpBufSize) :
    ∃ header, sntlEncodeHeader count env.deviceId.toList = some header ∧
      header.length = sntlHeaderSize ∧
      dumpRun env firstSeq buf = some (send (accepts env)
        (appendAll (accepts env) (dumpChunk env.mtu).toNat (.opened [] header)
          (dumpItems header (dumpedRecords env start count.toNat)))).sent := by
  obtain ⟨stop, _⟩ := sntlDumpRange_stop range
  obtain ⟨header, encoded⟩ : ∃ header, sntlEncodeHeader count env.deviceId.toList = some header :=
    ⟨_, by rw [sntlEncodeHeader, deviceIdField_defined]; rfl⟩
  have length : header.length = sntlHeaderSize := by
    obtain ⟨field, named, whole⟩ := header_fields encoded
    cases (deviceIdField_defined env).symm.trans named
    simp [whole, sntlMagic, paddedId_length, sntlDeviceIdLen, sntlHeaderSize]
  have inside : 0 + header.length ≤ dumpBufSize := by
    rw [length]
    decide
  obtain ⟨filled, stored⟩ := Buffer.storeAll_defined buf inside
  have contents : Buffer.held filled 16 = header := by
    have appended := Buffer.held_storeAll stored
    rw [length] at appended
    exact appended
  have holds : Holds ⟨filled, 16, sntlCrc16 0xFFFF (Buffer.held filled 16), []⟩ [] header :=
    ⟨rfl, contents, length.symm, by rw [contents]; rfl⟩
  obtain ⟨flow, ran, matched⟩ :=
    dumpRecords_appendAll env (dumpChunk_le env.mtu) holds start count.toNat
  have follows := (Follows.start (accepts env) header).appendAll (dumpChunk env.mtu).toNat
    ((dumpedRecords env start count.toNat).map sntlEncodeRecord)
  refine ⟨header, encoded, length, ?_⟩
  simp only [dumpRun, range, encoded, stored, Option.bind_some, stop, Nat.add_sub_cancel_left, ran,
    dumpItems, appendAll_concat]
  cases flow with
  | returned calls =>
      cases chunker : appendAll (accepts env) (dumpChunk env.mtu).toNat (.opened [] header)
          ((dumpedRecords env start count.toNat).map sntlEncodeRecord) with
      | opened sent held => rw [chunker] at matched; cases matched
      | closed sent =>
          rw [chunker] at matched
          exact congrArg some matched
  | running s =>
      cases chunker : appendAll (accepts env) (dumpChunk env.mtu).toNat (.opened [] header)
          ((dumpedRecords env start count.toNat).map sntlEncodeRecord) with
      | closed sent => rw [chunker] at matched; cases matched
      | opened sent held =>
          rw [chunker] at matched follows
          obtain ⟨last, finished, calls⟩ := dumpCrc_send env (dumpChunk_le env.mtu) matched
          rw [follows.1] at calls
          simp only [DumpFlow.andThen, finished, Option.map_some, calls]

theorem dumpedRecord_found {env : DumpEnv} {seq : UInt32} {record : SntlRecord}
    (found : env.storeGet seq = some record) : dumpedRecord env seq = record := by
  rw [dumpedRecord, found, Option.getD_some]

theorem dumpedRecord_missing {env : DumpEnv} {seq : UInt32} (missing : env.storeGet seq = none) :
    dumpedRecord env seq = recycledRecord seq := by
  rw [dumpedRecord, missing, Option.getD_none]

theorem dumpedRecords_getElem? (env : DumpEnv) (start : UInt32) {count index : Nat}
    (inside : index < count) :
    (dumpedRecords env start count)[index]? =
      some (dumpedRecord env (start + UInt32.ofNat index)) := by
  rw [dumpedRecords_eq, List.getElem?_map, List.getElem?_range inside, Option.map_some]

/--
The payloads are the documented frame of `count` records from `start` on, or
begin it and end with the call that failed: nothing follows a failed call, and
no store leaves the buffer.  Each record is the one that `store_get` found, or
the placeholder of its seq where it found none.
-/
theorem dumpRun_streams_frame (env : DumpEnv) (firstSeq : UInt32)
    (buf : Vector UInt8 dumpBufSize) :
    ∃ count start calls frame records,
      sntlDumpRange firstSeq env.oldest env.next = (count, start) ∧
      dumpRun env firstSeq buf = some calls ∧
      frame.length = sntlFrameSize count ∧
      readFrame frame = some
        { magic := sntlMagic, version := sntlVersion, recordSize := 24, recordCount := count,
          deviceId := paddedId env, records := records,
          crc := sntlCrc16 0xFFFF (frame.take (sntlFrameSize count - 2)) } ∧
      records.length = count.toNat ∧
      (∀ index < count.toNat, ∀ record,
        env.storeGet (start + UInt32.ofNat index) = some record →
          records[index]? = some record) ∧
      (∀ index < count.toNat, env.storeGet (start + UInt32.ofNat index) = none →
        records[index]? = some (recycledRecord (start + UInt32.ofNat index))) ∧
      ((∀ index < calls.length, notifyChunk (env.attempts index) = some true) →
        calls.flatten = frame) ∧
      calls.flatten <+: frame ∧
      ∀ index, index + 1 < calls.length → notifyChunk (env.attempts index) = some true := by
  obtain ⟨count, start, range⟩ :
      ∃ count start, sntlDumpRange firstSeq env.oldest env.next = (count, start) := ⟨_, _, rfl⟩
  obtain ⟨header, encoded, length, sent⟩ := dumpRun_send env range buf
  have recordCount : (dumpedRecords env start count.toNat).length = count.toNat := by
    simp [dumpedRecords_eq]
  obtain ⟨size, contents⟩ := readFrame_whole encoded (deviceIdField_defined env)
    (paddedId_length env) recordCount
  have follows := (Follows.start (accepts env) header).appendAll (dumpChunk env.mtu).toNat
    (dumpItems header (dumpedRecords env start count.toNat))
  rw [dumpItems_text] at follows
  obtain ⟨begins, earlier, whole⟩ := follows.finished
  simp only [accepts_iff] at earlier whole
  refine ⟨count, start, _, _, _, range, sent, size, contents, recordCount, ?_, ?_, whole, begins,
    earlier⟩
  · intro index inside record found
    rw [dumpedRecords_getElem? env start inside, dumpedRecord_found found]
  · intro index inside missing
    rw [dumpedRecords_getElem? env start inside, dumpedRecord_missing missing]

/-- A record below freezing, with every signed field negative. -/
def frostRecord : SntlRecord where
  seq := 7
  ts := 3600
  headcount := 2
  occS := 30
  dwellS := 90
  flags := sntlFlagRtcUnset
  batt := 0
  pm25 := 65535
  pm10 := 12
  temp := -41
  rh := -1
  voc := -32768

/-- That record and a recycled one to dump, every call accepted. -/
def frostLink : DumpEnv where
  oldest := 7
  next := 9
  mtu := 65
  deviceId := #v[0x36, 0x38, 0x41, 0x31, 0x42, 0x32, 0x43, 0x33, 0]
  storeGet := fun seq => if seq = 7 then some frostRecord else none
  attempts := fun _ => [⟨.noMemory, true⟩, ⟨.accepted, true⟩]

theorem dumpRun_streams_frame_frost :
    ∃ calls contents, dumpRun frostLink 0 (Vector.replicate dumpBufSize 0) = some calls ∧
      readFrame calls.flatten = some contents ∧
      contents.records = [frostRecord, recycledRecord 8] ∧
      contents.crc = sntlCrc16 0xFFFF (calls.flatten.take 64) := by
  obtain ⟨count, start, calls, frame, records, range, ran, _, contents, length, found, missing,
    whole, _⟩ := dumpRun_streams_frame frostLink 0 (Vector.replicate dumpBufSize 0)
  have here : sntlDumpRange 0 frostLink.oldest frostLink.next = (2, 7) := by decide
  cases here.symm.trans range
  have accepted : ∀ index < calls.length,
      notifyChunk (frostLink.attempts index) = some true := fun _ _ => rfl
  have first := found 0 (by decide) frostRecord rfl
  have second := missing 1 (by decide) rfl
  have both : records = [frostRecord, recycledRecord 8] := by
    refine List.ext_getElem? fun index => ?_
    rcases index with _ | _ | index
    · exact first
    · exact second
    · rw [List.getElem?_eq_none (by rw [length]; change 2 ≤ _; omega)]
      rfl
  cases both
  refine ⟨calls, _, ran, by rw [whole accepted]; exact contents, rfl, ?_⟩
  rw [whole accepted]
  rfl

/-! ## The lengths of the payloads -/

theorem dumpItems_sizes (header : List UInt8) (records : List SntlRecord) :
    ∀ item ∈ dumpItems header records, 1 ≤ item.length ∧ item.length ≤ sntlRecordSize := by
  intro item member
  rcases List.mem_append.mp member with record | crc
  · obtain ⟨source, _, rfl⟩ := List.mem_map.mp record
    exact ⟨by rw [sntlEncodeRecord_length]; decide, Nat.le_refl _⟩
  · rw [List.mem_singleton.mp crc, bytes16_length]
    decide

/-- With the smallest MTU or a larger one, the chunk is within what the link carries. -/
theorem dumpChunk_le_link {mtu : UInt16} (minimum : 23 ≤ mtu.toNat) :
    (dumpChunk mtu).toNat ≤ mtu.toNat - 3 := by
  rw [dumpChunk_toNat, if_pos (by omega)]
  exact Nat.min_le_right _ _

/--
Every payload fits the link exactly when a record does, or none is sent: a
record of 24 bytes is never split, so below an MTU of 27 the first record goes
out in a payload that is too long, unless the header has already been refused.
-/
theorem dumpRun_fits_iff (env : DumpEnv) (firstSeq : UInt32) (buf : Vector UInt8 dumpBufSize)
    (minimum : 23 ≤ env.mtu.toNat) :
    ∃ calls, dumpRun env firstSeq buf = some calls ∧
      ((∀ payload ∈ calls, 1 ≤ payload.length ∧ payload.length ≤ env.mtu.toNat - 3) ↔
        27 ≤ env.mtu.toNat ∨ env.next.toNat ≤ max firstSeq.toNat env.oldest.toNat ∨
          notifyChunk (env.attempts 0) ≠ some true) := by
  obtain ⟨count, start, range⟩ :
      ∃ count start, sntlDumpRange firstSeq env.oldest env.next = (count, start) := ⟨_, _, rfl⟩
  obtain ⟨header, _, length, sent⟩ := dumpRun_send env range buf
  have link := dumpChunk_le_link minimum
  have sixteen : sntlHeaderSize = 16 := rfl
  have twentyFour : sntlRecordSize = 24 := rfl
  have opened : Within (env.mtu.toNat - 3) (.opened [] header) := ⟨nofun, by omega, by omega⟩
  refine ⟨_, sent, ?_⟩
  by_cases large : 27 ≤ env.mtu.toNat
  · refine iff_of_true ?_ (.inl large)
    refine (opened.appendAll (accepts env) link ?_).sent_bound (accepts env)
    intro item member
    have bounds := dumpItems_sizes _ _ item member
    omega
  · rcases sntlDumpRange_cases firstSeq env.oldest env.next with
      ⟨nothing, empty⟩ | ⟨_, first, found, later, size, positive⟩
    · refine iff_of_true ?_ (.inr (.inl nothing))
      cases range.symm.trans empty
      refine (opened.appendAll (accepts env) link ?_).sent_bound (accepts env)
      intro item member
      rw [List.mem_singleton.mp member, bytes16_length]
      omega
    · cases range.symm.trans found
      obtain ⟨left, more⟩ : ∃ left, count.toNat = left + 1 := ⟨count.toNat - 1, by omega⟩
      have record := sntlEncodeRecord_length (dumpedRecord env start)
      have sizes := dumpItems_sizes header (dumpedRecords env start (left + 1))
      have nonempty : ¬ env.next.toNat ≤ max firstSeq.toNat env.oldest.toNat := by omega
      rw [more]
      -- The first record is the item that is too long for a chunk.
      calc _ ↔ ¬ accepts env 0 = true :=
            oversized_bound_iff (accepts env) link opened.2 (by omega)
              fun item member => (sizes item (List.mem_cons_of_mem _ member)).1
        _ ↔ notifyChunk (env.attempts 0) ≠ some true := not_congr accepts_iff
        _ ↔ _ := by simp only [large, nonempty, false_or]

def smallestLink : DumpEnv where
  oldest := 0
  next := 1
  mtu := 23
  deviceId := Vector.replicate 9 0
  storeGet := fun _ => none
  attempts := fun _ => [⟨.accepted, true⟩]

theorem smallestLink_lengths :
    (dumpRun smallestLink 0 (Vector.replicate dumpBufSize 0)).map
      (fun calls => calls.map List.length) = some [16, 24, 2] := by decide +kernel

def narrowLink : DumpEnv := { smallestLink with mtu := 27 }

theorem dumpRun_fits_iff_smallest :
    (∃ calls, dumpRun smallestLink 0 (Vector.replicate dumpBufSize 0) = some calls ∧
      calls.map List.length = [16, 24, 2] ∧
      ((∀ payload ∈ calls, 1 ≤ payload.length ∧
          payload.length ≤ smallestLink.mtu.toNat - 3) ↔
        27 ≤ smallestLink.mtu.toNat ∨
          smallestLink.next.toNat ≤ max (0 : UInt32).toNat smallestLink.oldest.toNat ∨
          notifyChunk (smallestLink.attempts 0) ≠ some true)) ∧
    ∃ calls, dumpRun narrowLink 0 (Vector.replicate dumpBufSize 0) = some calls ∧
      calls.map List.length = [16, 24, 2] ∧
      ∀ payload ∈ calls, 1 ≤ payload.length ∧ payload.length ≤ 24 := by
  constructor
  · obtain ⟨calls, ran, fits⟩ :=
      dumpRun_fits_iff smallestLink 0 (Vector.replicate dumpBufSize 0) (by decide)
    have lengths := smallestLink_lengths
    rw [ran] at lengths
    exact ⟨calls, ran, Option.some.inj lengths, fits⟩
  · obtain ⟨calls, ran, fits⟩ :=
      dumpRun_fits_iff narrowLink 0 (Vector.replicate dumpBufSize 0) (by decide)
    have lengths : (dumpRun narrowLink 0 (Vector.replicate dumpBufSize 0)).map
        (fun calls => calls.map List.length) = some [16, 24, 2] := by decide +kernel
    rw [ran] at lengths
    exact ⟨calls, ran, Option.some.inj lengths, fits.mpr (.inl (by decide))⟩

/-- The record of that dump is a payload of 24 bytes, where 20 fit. -/
theorem dumpRun_overruns_smallest :
    ¬ ∀ (env : DumpEnv) (firstSeq : UInt32) (buf : Vector UInt8 dumpBufSize)
      (calls : List (List UInt8)), 23 ≤ env.mtu.toNat → dumpRun env firstSeq buf = some calls →
      ∀ payload ∈ calls, 1 ≤ payload.length ∧ payload.length ≤ env.mtu.toNat - 3 := by
  intro claim
  obtain ⟨calls, ran, sizes⟩ := Option.map_eq_some_iff.mp smallestLink_lengths
  have record : 24 ∈ calls.map List.length := by
    rw [sizes]
    decide
  obtain ⟨payload, member, length⟩ := List.mem_map.mp record
  have bound := (claim smallestLink 0 _ calls (by decide) ran payload member).2
  rw [length] at bound
  exact absurd bound (by decide)

end PresenceNode.Ble
