import Mathlib.Logic.Function.Iterate
import PresenceNode.Library.LittleEndian

/-!
# The wire frame of `frame.c`

Each encoder is the list of bytes that it writes, from index 0 of its output.
The device id is read as the array that `ble.c` passes.
-/

namespace PresenceNode.Frame

open Library

def sntlRecordSize : Nat := 24

def sntlHeaderSize : Nat := 16

def sntlCrcSize : Nat := 2

def sntlDeviceIdLen : Nat := 8

/-- `SNTL_MAGIC`, without the terminating zero. -/
def sntlMagic : List UInt8 := [0x53, 0x4E, 0x54, 0x4C]

def sntlVersion : UInt8 := 3

def sntlAqUnknownU : UInt16 := 0xFFFF

def sntlAqUnknownS : Int16 := 0x7FFF

def sntlCmdDump : UInt8 := 0x01

def sntlCmdLen : Nat := 5

def sntlFlagSensorFault : UInt8 := 0x01

def sntlFlagRtcUnset : UInt8 := 0x04

def sntlFlagNoTracker : UInt8 := 0x20

def sntlFlagAqFault : UInt8 := 0x40

structure SntlRecord where
  seq : UInt32
  ts : UInt32
  headcount : UInt8
  occS : UInt8
  dwellS : UInt16
  flags : UInt8
  batt : UInt8
  pm25 : UInt16
  pm10 : UInt16
  temp : Int16
  rh : Int16
  voc : Int16
  deriving DecidableEq

/-! ## Checksum -/

/-- The inner loop of `sntl_crc16`, once. -/
def crcBit (crc : UInt16) : UInt16 :=
  if crc &&& 0x8000 ≠ 0 then (crc <<< 1) ^^^ 0x1021 else crc <<< 1

/-- The outer loop of `sntl_crc16`, once. -/
def crcByte (crc : UInt16) (byte : UInt8) : UInt16 :=
  crcBit^[8] (crc ^^^ (byte.toUInt16 <<< 8))

def sntlCrc16 (seed : UInt16) (data : List UInt8) : UInt16 := data.foldl crcByte seed

/-- Checksums chain: the checksum of the first part is the seed of the second. -/
theorem sntlCrc16_append (seed : UInt16) (first second : List UInt8) :
    sntlCrc16 seed (first ++ second) = sntlCrc16 (sntlCrc16 seed first) second :=
  List.foldl_append

example : sntlCrc16 0xFFFF [0x31, 0x32, 0x33, 0x34, 0x35, 0x36, 0x37, 0x38, 0x39] = 0x29B1 := by
  decide +kernel

/-! ## Encoders -/

/--
The device id field: at most `left` characters up to the terminating zero,
over zeros.  Undefined when the array ends before either.
-/
def deviceIdField : List UInt8 → Nat → Option (List UInt8)
  | _, 0 => some []
  | [], _ + 1 => none
  | character :: rest, left + 1 =>
      if character = 0 then some (List.replicate (left + 1) 0)
      else (deviceIdField rest left).map (character :: ·)

def sntlEncodeHeader (recordCount : UInt16) (deviceId : List UInt8) : Option (List UInt8) :=
  (deviceIdField deviceId sntlDeviceIdLen).map fun field =>
    sntlMagic ++ [sntlVersion, 24, (recordCount &&& 0xFF).toUInt8, (recordCount >>> 8).toUInt8] ++
      field

def sntlEncodeRecord (record : SntlRecord) : List UInt8 :=
  [record.seq.toUInt8, (record.seq >>> 8).toUInt8, (record.seq >>> 16).toUInt8,
    (record.seq >>> 24).toUInt8,
    record.ts.toUInt8, (record.ts >>> 8).toUInt8, (record.ts >>> 16).toUInt8,
    (record.ts >>> 24).toUInt8,
    record.headcount, record.occS,
    record.dwellS.toUInt8, (record.dwellS >>> 8).toUInt8,
    record.flags, record.batt,
    record.pm25.toUInt8, (record.pm25 >>> 8).toUInt8,
    record.pm10.toUInt8, (record.pm10 >>> 8).toUInt8,
    record.temp.toUInt16.toUInt8, (record.temp.toUInt16 >>> 8).toUInt8,
    record.rh.toUInt16.toUInt8, (record.rh.toUInt16 >>> 8).toUInt8,
    record.voc.toUInt16.toUInt8, (record.voc.toUInt16 >>> 8).toUInt8]

def sntlFrameSize (recordCount : UInt16) : Nat :=
  sntlHeaderSize + recordCount.toNat * sntlRecordSize + sntlCrcSize

@[simp] theorem sntlEncodeRecord_length (record : SntlRecord) :
    (sntlEncodeRecord record).length = sntlRecordSize := rfl

/-- The field is the string up to its zero, cut or padded to the width of the field. -/
theorem deviceIdField_eq {deviceId : List UInt8} {left : Nat} (long : left ≤ deviceId.length) :
    deviceIdField deviceId left =
      some (((deviceId.takeWhile (· ≠ 0)).take left).rightpad left 0) := by
  induction left generalizing deviceId with
  | zero => simp [deviceIdField, List.rightpad]
  | succ left ih =>
      cases deviceId with
      | nil => cases long
      | cons character rest =>
          unfold deviceIdField
          split
          · next zero => simp [zero, List.rightpad]
          · next nonzero =>
              rw [ih (Nat.le_of_succ_le_succ long)]
              simp [nonzero, List.rightpad]

/-! ## Commands -/

/-- `sntl_parse_cmd`: the `*first_seq` of a command that it accepts. -/
def sntlParseCmd (buf : List UInt8) : Option UInt32 :=
  if buf.length ≠ sntlCmdLen ∨ buf[0]? ≠ some sntlCmdDump then none
  else LittleEndian.read32 buf 1

/-- A command is one byte and a request in four, the least of them first. -/
theorem sntlParseCmd_eq_some {buf : List UInt8} {firstSeq : UInt32} :
    sntlParseCmd buf = some firstSeq ↔ ∃ b1 b2 b3 b4, buf = [sntlCmdDump, b1, b2, b3, b4] ∧
      firstSeq.toNat = b1.toNat + b2.toNat * 2 ^ 8 + b3.toNat * 2 ^ 16 + b4.toNat * 2 ^ 24 := by
  constructor
  · intro parsed
    unfold sntlParseCmd at parsed
    split at parsed
    · cases parsed
    · next formed =>
        obtain ⟨length, command⟩ := not_or.mp formed
        cases buf with
        | nil => exact absurd (not_not.mp command) (by simp)
        | cons first rest =>
            obtain ⟨b1, b2, b3, b4, rfl⟩ :=
              List.length_eq_four.mp (Nat.succ.inj (not_not.mp length))
            cases not_not.mp command
            cases parsed
            exact ⟨b1, b2, b3, b4, rfl, LittleEndian.join32_toNat b1 b2 b3 b4⟩
  · rintro ⟨b1, b2, b3, b4, rfl, value⟩
    have same : LittleEndian.join32 b1 b2 b3 b4 = firstSeq :=
      UInt32.toNat_inj.mp ((LittleEndian.join32_toNat b1 b2 b3 b4).trans value.symm)
    rw [← same]
    rfl

example : sntlParseCmd [0x01, 42, 0, 0, 0] = some 42 := by decide

/-! ## Range of a dump -/

/-- The count and the start that `sntl_dump_range` answers with. -/
def sntlDumpRange (firstSeq oldestSeq nextSeq : UInt32) : UInt16 × UInt32 :=
  let start := if firstSeq > oldestSeq then firstSeq else oldestSeq
  if start ≥ nextSeq then (0, nextSeq)
  else
    let count := nextSeq - start
    let count := if count > 0xFFFF then 0xFFFF else count
    (count.toUInt16, start)

theorem toNat_larger (first second : UInt32) :
    (if first > second then first else second).toNat = max first.toNat second.toNat := by
  simp only [gt_iff_lt, UInt32.lt_iff_toNat_lt]
  split
  · next higher => exact (Nat.max_eq_left (Nat.le_of_lt higher)).symm
  · next lower => exact (Nat.max_eq_right (Nat.le_of_not_lt lower)).symm

/-- Nothing to send, or a range that begins at the later of the two bounds and stays below `next`. -/
theorem sntlDumpRange_cases (firstSeq oldestSeq nextSeq : UInt32) :
    (nextSeq.toNat ≤ max firstSeq.toNat oldestSeq.toNat ∧
      sntlDumpRange firstSeq oldestSeq nextSeq = (0, nextSeq)) ∨
    ∃ count start, sntlDumpRange firstSeq oldestSeq nextSeq = (count, start) ∧
      start.toNat = max firstSeq.toNat oldestSeq.toNat ∧
      count.toNat = min (nextSeq.toNat - start.toNat) 65535 ∧ 0 < count.toNat := by
  have later := toNat_larger firstSeq oldestSeq
  simp only [sntlDumpRange]
  generalize (if firstSeq > oldestSeq then firstSeq else oldestSeq) = start at later ⊢
  by_cases empty : start ≥ nextSeq
  · have order : nextSeq.toNat ≤ start.toNat := UInt32.le_iff_toNat_le.mp empty
    exact .inl ⟨by omega, if_pos empty⟩
  · have order : start.toNat < nextSeq.toNat :=
      Nat.lt_of_not_le fun less => empty (UInt32.le_iff_toNat_le.mpr less)
    have difference : (nextSeq - start).toNat = nextSeq.toNat - start.toNat :=
      UInt32.toNat_sub_of_le _ _ (UInt32.le_iff_toNat_le.mpr (Nat.le_of_lt order))
    have count : (if nextSeq - start > 0xFFFF then 0xFFFF else nextSeq - start).toUInt16.toNat =
        min (nextSeq.toNat - start.toNat) 65535 := by
      rw [UInt32.toNat_toUInt16]
      split
      · next greater =>
          have many : 65535 < (nextSeq - start).toNat := UInt32.lt_iff_toNat_lt.mp greater
          change 65535 % 2 ^ 16 = _
          omega
      · next fewer =>
          have few : ¬ 65535 < (nextSeq - start).toNat :=
            fun less => fewer (UInt32.lt_iff_toNat_lt.mpr less)
          omega
    exact .inr ⟨_, start, if_neg empty, later, count, by omega⟩

/-- The end of the range does not wrap, and it is not beyond `next`. -/
theorem sntlDumpRange_stop {firstSeq oldestSeq nextSeq start : UInt32} {count : UInt16}
    (range : sntlDumpRange firstSeq oldestSeq nextSeq = (count, start)) :
    (start + count.toUInt32).toNat = start.toNat + count.toNat ∧
      start.toNat + count.toNat ≤ nextSeq.toNat := by
  have bound : start.toNat + count.toNat ≤ nextSeq.toNat := by
    rcases sntlDumpRange_cases firstSeq oldestSeq nextSeq with
      ⟨_, empty⟩ | ⟨_, first, found, _, size, positive⟩
    · rw [empty] at range
      cases range
      exact Nat.le_refl _
    · rw [found] at range
      cases range
      omega
  have limit := nextSeq.toNat_lt
  refine ⟨?_, bound⟩
  rw [UInt32.toNat_add, UInt16.toNat_toUInt32]
  exact Nat.mod_eq_of_lt (by omega)

end PresenceNode.Frame
