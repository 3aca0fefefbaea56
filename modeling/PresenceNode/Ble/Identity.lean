import PresenceNode.Ble.Transfer
import PresenceNode.Library.Hexadecimal

/-!
# The name of the board

`device_id_init` prints the last three bytes of the factory id behind a prefix.
The same eight characters are the name in the scan response and the device id
of every frame, and they tell two boards apart exactly when those bytes do.
-/

namespace PresenceNode.Ble

open Library PresenceNode.Frame

def bleIdPrefix : List UInt8 := [0x50, 0x52]

/-- The result of `hwinfo_get_device_id`, at most `sizeof(hw)`, and `hw` after it. -/
structure HwInfo where
  n : Int
  hw : Vector UInt8 8
  most : n ≤ 8

def HwInfo.tail (info : HwInfo) : UInt32 :=
  if short : info.n < 3 then 0
  else
    have bound := info.most
    have first : info.n.toNat - 3 < 8 := by omega
    have second : info.n.toNat - 2 < 8 := by omega
    have third : info.n.toNat - 1 < 8 := by omega
    (info.hw[info.n.toNat - 3].toUInt32 <<< 16) ||| (info.hw[info.n.toNat - 2].toUInt32 <<< 8) |||
      info.hw[info.n.toNat - 1].toUInt32

/-- `snprintf` into the zeroed `device_id`: as much as fits before the terminating zero. -/
def deviceIdPrinted (text : List UInt8) : Vector UInt8 9 :=
  Vector.ofFn fun index => (text.take sntlDeviceIdLen)[index.val]?.getD 0

def deviceIdInit (info : HwInfo) : Vector UInt8 9 :=
  deviceIdPrinted (bleIdPrefix ++ Hexadecimal.printed 6 (info.tail &&& 0xFFFFFF).toNat)

/-- The data of `BT_DATA_NAME_COMPLETE` in the scan response. -/
def scanName (info : HwInfo) : List UInt8 := (deviceIdInit info).toList.take sntlDeviceIdLen

def HwInfo.serial (info : HwInfo) : Nat :=
  if info.n < 3 then 0
  else
    (info.hw[info.n.toNat - 3]?.getD 0).toNat * 2 ^ 16 +
      (info.hw[info.n.toNat - 2]?.getD 0).toNat * 2 ^ 8 + (info.hw[info.n.toNat - 1]?.getD 0).toNat

def Download.on (download : Download) (info : HwInfo) : Download :=
  { download with env := { download.env with deviceId := deviceIdInit info } }

theorem HwInfo.serial_lt (info : HwInfo) : info.serial < 16 ^ 6 := by
  have byte (value : UInt8) : value.toNat < 256 := value.toNat_lt
  have high := byte (info.hw[info.n.toNat - 3]?.getD 0)
  have middle := byte (info.hw[info.n.toNat - 2]?.getD 0)
  have low := byte (info.hw[info.n.toNat - 1]?.getD 0)
  rw [serial]
  split <;> omega

theorem HwInfo.tail_toNat (info : HwInfo) : info.tail.toNat = info.serial := by
  rw [tail, serial]
  split
  · rfl
  · next long =>
      have bound := info.most
      have first : info.n.toNat - 3 < 8 := by omega
      have second : info.n.toNat - 2 < 8 := by omega
      have third : info.n.toNat - 1 < 8 := by omega
      rw [Vector.getElem?_eq_getElem first, Vector.getElem?_eq_getElem second,
        Vector.getElem?_eq_getElem third]
      simp only [Option.getD_some]
      generalize info.hw[info.n.toNat - 3] = high
      generalize info.hw[info.n.toNat - 2] = middle
      generalize info.hw[info.n.toNat - 1] = low
      have joined : (high.toUInt32 <<< 16) ||| (middle.toUInt32 <<< 8) ||| low.toUInt32 =
          LittleEndian.join32 low middle high 0 := by
        rw [LittleEndian.join32, UInt32.or_comm, UInt32.or_comm (high.toUInt32 <<< 16),
          ← UInt32.or_assoc]
        exact (UInt32.or_zero).symm
      rw [joined, LittleEndian.join32_toNat]
      change low.toNat + middle.toNat * 2 ^ 8 + high.toNat * 2 ^ 16 + 0 * 2 ^ 24 = _
      omega

/-- The mask changes nothing: three bytes have no more bits. -/
theorem HwInfo.tail_masked (info : HwInfo) : (info.tail &&& 0xFFFFFF).toNat = info.serial := by
  have mask : info.tail.toNat &&& 16777215 = info.tail.toNat % 2 ^ 24 :=
    Nat.and_two_pow_sub_one_eq_mod _ 24
  have bound := info.serial_lt
  rw [UInt32.toNat_and]
  change info.tail.toNat &&& 16777215 = _
  rw [mask, info.tail_toNat]
  exact Nat.mod_eq_of_lt bound

def HwInfo.name (info : HwInfo) : List UInt8 := bleIdPrefix ++ Hexadecimal.printed 6 info.serial

theorem HwInfo.name_length (info : HwInfo) : info.name.length = sntlDeviceIdLen := by
  rw [name, List.length_append, Hexadecimal.printed_length info.serial_lt]
  rfl

theorem HwInfo.name_nonzero (info : HwInfo) : ∀ character ∈ info.name, character ≠ 0 := by
  intro character member
  rcases List.mem_append.mp member with front | number
  · simp only [bleIdPrefix, List.mem_cons, List.not_mem_nil, or_false] at front
    rcases front with rfl | rfl <;> decide
  · exact Hexadecimal.printed_nonzero 6 info.serial character number

/-- The name fills `device_id` up to its terminating zero. -/
theorem deviceIdInit_toList (info : HwInfo) : (deviceIdInit info).toList = info.name ++ [0] := by
  have width := info.name_length
  have cutOff : info.name.take sntlDeviceIdLen = info.name :=
    List.take_of_length_le (Nat.le_of_eq width)
  have shown : deviceIdInit info = deviceIdPrinted info.name := by
    rw [deviceIdInit, info.tail_masked]
    rfl
  rw [shown]
  apply List.ext_getElem?
  intro index
  rw [deviceIdPrinted, cutOff]
  by_cases inside : index < 9
  · simp only [Vector.getElem?_toList, Vector.getElem?_ofFn, inside, dite_true]
    by_cases early : index < sntlDeviceIdLen
    · rw [List.getElem?_append_left (by omega), List.getElem?_eq_getElem (by omega)]
      rfl
    · have last : index = sntlDeviceIdLen := by
        have eight : sntlDeviceIdLen = 8 := rfl
        omega
      rw [last, ← width, List.getElem?_concat_length, List.getElem?_eq_none (Nat.le_refl _)]
      rfl
  · have long : (info.name ++ [0]).length ≤ index := by
      rw [List.length_append, width]
      exact Nat.le_of_not_lt inside
    rw [List.getElem?_eq_none long, Vector.getElem?_toList,
      Vector.getElem?_eq_none (Nat.le_of_not_lt inside)]

theorem scanName_eq (info : HwInfo) : scanName info = info.name := by
  rw [scanName, deviceIdInit_toList, List.take_left' info.name_length]

/-- The field of the header has the whole name. -/
theorem paddedId_on (download : Download) (info : HwInfo) :
    paddedId (download.on info).env = info.name := by
  have text : (download.on info).env.deviceId.toList = info.name ++ [0] := deviceIdInit_toList info
  have upToZero : (info.name ++ [0]).takeWhile (· ≠ 0) = info.name := by
    rw [List.takeWhile_append_of_pos fun character member =>
      decide_eq_true (info.name_nonzero character member)]
    exact List.append_nil _
  rw [paddedId, text, upToZero, List.take_of_length_le (Nat.le_of_eq info.name_length),
    List.rightpad, info.name_length, Nat.sub_self]
  exact List.append_nil _

/-- Two boards have one name exactly when the last three bytes of their factory ids agree. -/
theorem HwInfo.name_eq_iff (info other : HwInfo) :
    other.name = info.name ↔ other.serial = info.serial := by
  constructor
  · intro same
    have digits := List.append_cancel_left same
    have read := congrArg Hexadecimal.read digits
    rwa [Hexadecimal.read_printed, Hexadecimal.read_printed, Option.some.injEq] at read
  · intro same
    rw [name, name, same]

/--
Every frame of a board carries the name that the board is advertised under,
whole and without a terminating zero: the prefix, and six digits that read back
as the last three bytes of its factory id.  No other board has that name unless
those bytes agree.
-/
theorem frames_name_board (info : HwInfo) (download : Download) :
    ∃ payloads frame contents, (download.on info).sent = some payloads ∧
      payloads.flatten <+: frame ∧
      ((download.on info).Accepted → payloads.flatten = frame) ∧
      readFrame frame = some contents ∧ contents.deviceId = scanName info ∧
      contents.deviceId.take 2 = bleIdPrefix ∧
      Hexadecimal.read (contents.deviceId.drop 2) = some info.serial ∧
      ∀ other : HwInfo, contents.deviceId = scanName other ↔ other.serial = info.serial := by
  obtain ⟨payloads, frame, contents, sent, begins, all, _, _, read, named, _⟩ :=
    (download.on info).sends_contents
  rw [paddedId_on] at named
  have front : bleIdPrefix.length = 2 := rfl
  refine ⟨payloads, frame, contents, sent, begins, all, read, ?_, ?_, ?_, fun other => ?_⟩
  · rw [scanName_eq, named]
  · rw [named, HwInfo.name, List.take_left' front]
  · rw [named, HwInfo.name, List.drop_left' front, Hexadecimal.read_printed]
  · rw [scanName_eq, named, eq_comm]
    exact info.name_eq_iff other

end PresenceNode.Ble
