import PresenceNode.Host.BringUp
import PresenceNode.Host.Split
import PresenceNode.Library.Occurrences
import PresenceNode.Tlv.Decode
import PresenceNode.Tlv.Refinement

/-!
# The frames that the host counts

`report` of `radar.py` takes no stream apart: it counts the magic words in what
`drain` has read, and prints the words behind the first one.  So it never
counts less than the frames that the firmware would make of the same bytes,
and counts them exactly if no magic word is anywhere else.
-/

namespace PresenceNode.Host

open Library Library.Deframer Library.Pattern Tlv

def drain (turns : Turns) : List UInt8 := received turns

/-- `version`, `totalPacketLen`, `platform` and `frameNumber`, as `report` prints them. -/
structure Printed where
  ver : UInt32
  plen : UInt32
  plat : UInt32
  frame : UInt32
  deriving DecidableEq

/-- The size, the count, and the words behind the first magic word, if there is one. -/
structure Report where
  size : Nat
  frames : Nat
  printed : Option Printed
  deriving DecidableEq

def unpackFrom (buf : List UInt8) (off : Nat) : Option Printed := do
  let ver ← rdU32 buf off
  let plen ← rdU32 buf (off + 4)
  let plat ← rdU32 buf (off + 8)
  let frame ← rdU32 buf (off + 12)
  some { ver, plen, plat, frame }

/-- `report`, and nothing where it raises.  The time that has elapsed is left out. -/
def report (buf : List UInt8) : Option Report := do
  let frames := count magic buf
  if frames = 0 then some ⟨buf.length, 0, none⟩
  else
    let off := (← find magic buf) + magic.length
    some ⟨buf.length, frames, some (← unpackFrom buf off)⟩

/-- A drain that ends within the first header raises. -/
example : report (9 :: magic ++ [0, 0, 0, 0]) = none := by decide

def Report.rc (report : Report) : Nat := if report.frames = 0 then 1 else 0

theorem unpackFrom_defined {buf : List UInt8} {off : Nat} (inside : off + 16 ≤ buf.length) :
    ∃ printed, unpackFrom buf off = some printed := by
  have word : ∀ offset ≤ 12, ∃ one, rdU32 buf (off + offset) = some one := fun offset early =>
    LittleEndian.read32_defined (by omega)
  obtain ⟨ver, readVer⟩ := word 0 (by decide)
  obtain ⟨plen, readPlen⟩ := word 4 (by decide)
  obtain ⟨plat, readPlat⟩ := word 8 (by decide)
  obtain ⟨frame, readFrame⟩ := word 12 (by decide)
  rw [Nat.add_zero] at readVer
  exact ⟨⟨ver, plen, plat, frame⟩, by
    simp only [unpackFrom, readVer, readPlen, readPlat, readFrame]; rfl⟩

theorem unpackFrom_inside (before : List UInt8) {frame : List UInt8} (after : List UInt8)
    {off : Nat} (inside : off + 16 ≤ frame.length) :
    unpackFrom (before ++ frame ++ after) (before.length + off) = unpackFrom frame off := by
  have word : ∀ offset, offset + 4 ≤ frame.length →
      rdU32 (before ++ frame ++ after) (before.length + offset) = rdU32 frame offset := by
    intro offset early
    rw [rdU32, ← LittleEndian.read32_drop, List.append_assoc, List.drop_left,
      LittleEndian.read32_append _ _ early]
    rfl
  simp only [unpackFrom, Nat.add_assoc, word off (by omega), word (off + 4) (by omega),
    word (off + 8) (by omega), word (off + 12) (by omega)]

theorem unpackFrom_header {frame : List UInt8} {header : TlvHeader}
    (read : tlvHeaderGet frame = some header) :
    unpackFrom frame magic.length =
      some ⟨header.version, header.totalLen, header.platform, header.frameNo⟩ := by
  simp only [tlvHeaderGet, Option.bind_eq_bind, Option.bind_eq_some_iff] at read
  obtain ⟨version, readVersion, total, readTotal, platform, readPlatform, number, readNumber,
    _, _, _, _, _, _, _, _, same⟩ := read
  cases same
  have eight : magic.length = 8 := rfl
  simp only [unpackFrom, eight, readVersion, readTotal, readPlatform, readNumber]
  rfl

/-! ## The count -/

theorem count_magic_eq_zero_iff {buf : List UInt8} : count magic buf = 0 ↔ ¬ magic <:+: buf :=
  count_eq_zero_iff (by decide) (by decide)

/-- Where there is a magic word, `report` prints the four words behind the first one. -/
theorem report_first {buf : List UInt8} {first : Nat} (found : FirstAt magic buf first) :
    report buf = (unpackFrom buf (first + magic.length)).map fun printed =>
      ⟨buf.length, count magic buf, some printed⟩ := by
  have counted : count magic buf ≠ 0 := fun none =>
    count_magic_eq_zero_iff.mp none (infix_of_occursAt found.1)
  obtain ⟨index, search⟩ : ∃ index, find magic buf = some index := by
    cases search : find magic buf with
    | none => exact absurd (infix_of_occursAt found.1) (find_eq_none.mp search)
    | some index => exact ⟨index, rfl⟩
  obtain rfl := (firstAt_of_find search).unique found
  simp only [report, if_neg counted, search, Option.bind_eq_bind, Option.bind_some]
  cases unpackFrom buf (index + magic.length) <;> rfl

/--
Whatever is read and in whatever pieces, the host counts no less than the
frames that the firmware makes of the same bytes, and as many exactly if each
magic word begins one of them.  If there is such a frame, then `report` does
not raise and returns 0, and with an exact count it prints the header of the
first one.
-/
theorem report_counts (r : TlvReasm) (turns : Turns) :
    ∃ final outputs, reassembler.run (tlvReset r) (drain turns) = some (final, outputs) ∧
      (delivered outputs).length ≤ count magic (drain turns) ∧
      ((delivered outputs).length = count magic (drain turns) ↔
        ∀ position, OccursAt magic (drain turns) position → Begins outputs position) ∧
      ∀ frame others, delivered outputs = frame :: others →
        ∃ made printed header, report (drain turns) = some made ∧ made.rc = 0 ∧
          made.frames = count magic (drain turns) ∧ made.printed = some printed ∧
          tlvHeaderGet frame = some header ∧
          (made.frames = (delivered outputs).length → printed =
            ⟨header.version, header.totalLen, header.platform, header.frameNo⟩) := by
  obtain ⟨final, phase, outputs, concrete, ran, _⟩ :=
    reassembler_run_defined (represents_reset r) (drain turns)
  have account := accounts ran
  refine ⟨final, outputs, concrete, account.delivered_le_count, account.delivered_eq_count_iff, ?_⟩
  intro frame others delivers
  obtain ⟨index, found, _⟩ := delivered_first delivers
  have valid := validFrame_iff.mpr (account.frames index frame found).1
  obtain ⟨header, read, _⟩ := tlvHeaderGet_defined valid
  have least : 40 ≤ frame.length := valid.least
  obtain ⟨_, _, _, ends⟩ := account.stands found
  obtain ⟨first, _, here⟩ := firstAt_of_occursAt (account.occursAt ⟨index, frame, found, ends⟩)
  obtain ⟨before, after, whole, behind, start⟩ := account.first_stands here delivers
  have counted : count magic (drain turns) ≠ 0 := fun none =>
    count_magic_eq_zero_iff.mp none (infix_of_occursAt here.1)
  obtain ⟨printed, unpacked⟩ := @unpackFrom_defined (drain turns) (first + magic.length) (by
    rw [whole, List.length_append, List.length_append]
    change first + 8 + 16 ≤ _
    omega)
  have made := report_first here
  rw [unpacked] at made
  refine ⟨_, printed, header, made, if_neg counted, rfl, rfl, read, fun same => ?_⟩
  -- The first magic word begins a frame, which can only be the first.
  have begun := start (account.delivered_eq_count_iff.mp same.symm first here.1)
  rw [begun, whole, unpackFrom_inside before after (show magic.length + 16 ≤ _ by
    change 8 + 16 ≤ _
    omega), unpackFrom_header read] at unpacked
  exact (Option.some.inj unpacked).symm

end PresenceNode.Host
