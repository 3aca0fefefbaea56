import PresenceNode.Frame.Encode
import PresenceNode.Library.Buffer

/-!
# The dump of `ble.c`

`dumpRun` is `dump_run` with the payloads that it passes to `notify_chunk` as
its result, the last one included when `notify_chunk` fails.  A store into
`buf` or a read of it outside its bounds is undefined.
-/

namespace PresenceNode.Ble

open Library PresenceNode.Frame

/-- What `bt_gatt_notify` answers: 0, `-ENOMEM`, or another negative error. -/
inductive Notified where
  | accepted
  | noMemory
  | refused

/-- One turn in `notify_chunk`: the answer, and whether `current_conn` is set after the pause. -/
structure Attempt where
  answer : Notified
  connected : Bool

/-- `notify_chunk`: whether it returns 0 or a negative error, and nothing while it retries. -/
def notifyChunk : List Attempt → Option Bool
  | [] => none
  | attempt :: rest =>
      match attempt.answer with
      | .accepted => some true
      | .refused => some false
      | .noMemory => if attempt.connected then notifyChunk rest else some false

/-- What `dump_run` asks of the store and of the link; `attempts` answers each call in turn. -/
structure DumpEnv where
  oldest : UInt32
  next : UInt32
  mtu : UInt16
  deviceId : Vector UInt8 9
  storeGet : UInt32 → Option SntlRecord
  attempts : Nat → List Attempt

def dumpBufSize : Nat := 244

structure DumpState where
  buf : Vector UInt8 dumpBufSize
  fill : UInt16
  crc : UInt16
  calls : List (List UInt8)

inductive DumpFlow where
  | running (s : DumpState)
  | returned (calls : List (List UInt8))

def DumpFlow.andThen (flow : DumpFlow) (rest : DumpState → Option DumpFlow) : Option DumpFlow :=
  match flow with
  | .running s => rest s
  | .returned calls => some (.returned calls)

def DumpFlow.calls : DumpFlow → List (List UInt8)
  | .running s => s.calls
  | .returned calls => calls

def dumpChunk (mtu : UInt16) : UInt16 :=
  let chunk := if mtu > 3 then mtu - 3 else 20
  if chunk.toNat > dumpBufSize then 244 else chunk

def recycledRecord (seq : UInt32) : SntlRecord where
  seq := seq
  ts := 0
  headcount := 0
  occS := 0
  dwellS := 0
  flags := sntlFlagSensorFault ||| sntlFlagAqFault
  batt := 0
  pm25 := sntlAqUnknownU
  pm10 := sntlAqUnknownU
  temp := sntlAqUnknownS
  rh := sntlAqUnknownS
  voc := sntlAqUnknownS

def dumpedRecord (env : DumpEnv) (seq : UInt32) : SntlRecord :=
  (env.storeGet seq).getD (recycledRecord seq)

/-- `notify_chunk(conn, buf, fill)`, and the return when it fails. -/
def notifyBuf (env : DumpEnv) (s : DumpState) : Option DumpFlow :=
  if s.fill.toNat ≤ dumpBufSize then
    let calls := s.calls ++ [Buffer.held s.buf s.fill.toNat]
    if notifyChunk (env.attempts s.calls.length) = some true then
      some (.running { s with calls := calls })
    else some (.returned calls)
  else none

/-- Flush the chunk unless `size` more bytes fit into it. -/
def flushFor (env : DumpEnv) (chunk : UInt16) (size : Nat) (s : DumpState) : Option DumpFlow :=
  if s.fill.toNat + size > chunk.toNat then
    (notifyBuf env s).bind fun flow => flow.andThen fun s => some (.running { s with fill := 0 })
  else some (.running s)

/-- `sntl_encode_record(buf + fill, &rec)` with the checksum and the fill brought up to date. -/
def putRecord (record : SntlRecord) (s : DumpState) : Option DumpFlow :=
  (Buffer.storeAll s.buf s.fill.toNat (sntlEncodeRecord record)).map fun buf =>
    .running { s with
      buf := buf
      crc := sntlCrc16 s.crc (Buffer.window buf s.fill.toNat sntlRecordSize)
      fill := s.fill + 24 }

def dumpRecords (env : DumpEnv) (chunk : UInt16) : UInt32 → Nat → DumpState → Option DumpFlow
  | _, 0, s => some (.running s)
  | seq, left + 1, s =>
      (flushFor env chunk sntlRecordSize s).bind fun flow =>
        flow.andThen fun s =>
          (putRecord (dumpedRecord env seq) s).bind fun flow =>
            flow.andThen fun s => dumpRecords env chunk (seq + 1) left s

def dumpCrc (env : DumpEnv) (chunk : UInt16) (s : DumpState) : Option DumpFlow :=
  (flushFor env chunk sntlCrcSize s).bind fun flow =>
    flow.andThen fun s =>
      (Buffer.store s.buf s.fill.toNat (s.crc &&& 0xFF).toUInt8).bind fun buf =>
        (Buffer.store buf (s.fill + 1).toNat (s.crc >>> 8).toUInt8).bind fun buf =>
          notifyBuf env { s with buf := buf, fill := s.fill + 1 + 1 }

/-- `dump_run`, with whatever `buf` holds at first; the loop runs while `seq < start + count`. -/
def dumpRun (env : DumpEnv) (firstSeq : UInt32) (buf : Vector UInt8 dumpBufSize) :
    Option (List (List UInt8)) :=
  let (count, start) := sntlDumpRange firstSeq env.oldest env.next
  let chunk := dumpChunk env.mtu
  (sntlEncodeHeader count env.deviceId.toList).bind fun header =>
    (Buffer.storeAll buf 0 header).bind fun buf =>
      let s : DumpState :=
        { buf := buf, fill := 16, crc := sntlCrc16 0xFFFF (Buffer.held buf 16), calls := [] }
      let stop := start + count.toUInt32
      (dumpRecords env chunk start (stop.toNat - start.toNat) s).bind fun flow =>
        (flow.andThen (dumpCrc env chunk)).map DumpFlow.calls

theorem dumpChunk_toNat (mtu : UInt16) :
    (dumpChunk mtu).toNat = min 244 (if 3 < mtu.toNat then mtu.toNat - 3 else 20) := by
  have large : mtu > 3 ↔ 3 < mtu.toNat := UInt16.lt_iff_toNat_lt
  simp only [dumpChunk, dumpBufSize, large]
  split
  · next order =>
      have value : (mtu - 3).toNat = mtu.toNat - 3 :=
        UInt16.toNat_sub_of_le _ _ (UInt16.le_iff_toNat_le.mpr (Nat.le_of_lt order))
      rw [value]
      split
      · next above =>
          change 244 = _
          omega
      · next fits =>
          rw [value]
          omega
  · rfl

theorem dumpChunk_le (mtu : UInt16) : (dumpChunk mtu).toNat ≤ dumpBufSize := by
  rw [dumpChunk_toNat]
  exact Nat.min_le_left _ _

end PresenceNode.Ble
