import PresenceNode.Frame.Encode
import PresenceNode.Library.ShiftRegister

/-!
# The errors that the checksum detects

`sntl_crc16` is a shift register of 16 bits that takes the bits of the data,
the most significant one of each byte first.  Its polynomial `0x1021` is odd
and has three bits.
-/

namespace PresenceNode.Frame

open Library ShiftRegister

def crcPoly : BitVec 16 := 0x1021

/-- The bits of the data, in the order in which the checksum takes them. -/
def bitsOf (data : List UInt8) : List Bool := data.flatMap fun byte => leading byte.toBitVec 8

/-! ## The checksum is a shift register -/

theorem crcBit_toBitVec (crc : UInt16) :
    (crcBit crc).toBitVec = feed crcPoly crc.toBitVec false := by
  have top : crc &&& 0x8000 ≠ 0 ↔ crc.toBitVec.msb = true := by
    have masked : (crc &&& 0x8000).toBitVec =
        if crc.toBitVec.getLsbD 15 then BitVec.twoPow 16 15 else 0#16 :=
      BitVec.and_twoPow crc.toBitVec 15
    rw [ne_eq, ← UInt16.toBitVec_inj, masked, BitVec.msb_eq_getLsbD_last]
    change _ ↔ crc.toBitVec.getLsbD 15 = true
    cases crc.toBitVec.getLsbD 15 <;> decide
  rw [crcBit, feed, Bool.xor_false]
  by_cases high : crc &&& 0x8000 ≠ 0
  · rw [if_pos high, if_pos (top.mp high)]
    rfl
  · rw [if_neg high, if_neg fun set => high (top.mpr set)]
    rfl

theorem crcByte_toBitVec (crc : UInt16) (byte : UInt8) :
    (crcByte crc byte).toBitVec = feedAll crcPoly crc.toBitVec (leading byte.toBitVec 8) := by
  have turns : ∀ n (register : UInt16), (crcBit^[n] register).toBitVec =
      (fun state => feed crcPoly state false)^[n] register.toBitVec := by
    intro n register
    induction n generalizing register with
    | zero => rfl
    | succ n ih =>
        rw [Function.iterate_succ_apply, Function.iterate_succ_apply, ih, crcBit_toBitVec]
  have word : (crc ^^^ byte.toUInt16 <<< 8).toBitVec =
      crc.toBitVec ^^^ (byte.toBitVec.setWidth 16 <<< 8) := rfl
  have gone : (byte.toBitVec.setWidth 16 <<< 8) <<< 8 = 0#16 := by
    rw [← BitVec.shiftLeft_add]
    exact BitVec.shiftLeft_eq_zero (by decide)
  have bits : leading (byte.toBitVec.setWidth 16 <<< 8) 8 = leading byte.toBitVec 8 := by
    apply List.map_congr_left
    intro k member
    rw [BitVec.getMsbD_shiftLeft, BitVec.getMsbD_setWidth]
    simp
  rw [crcByte, turns, word, iterate_feed, bits, gone, BitVec.xor_zero]

theorem sntlCrc16_toBitVec (seed : UInt16) (data : List UInt8) :
    (sntlCrc16 seed data).toBitVec = feedAll crcPoly seed.toBitVec (bitsOf data) := by
  induction data generalizing seed with
  | nil => rfl
  | cons byte rest ih =>
      rw [bitsOf, List.flatMap_cons, feedAll_append, ← crcByte_toBitVec]
      exact ih (crcByte seed byte)

/-! ## Its errors -/

theorem bitsOf_length (data : List UInt8) : (bitsOf data).length = data.length * 8 := by
  induction data with
  | nil => rfl
  | cons byte rest ih =>
      rw [bitsOf, List.flatMap_cons, List.length_append, ← bitsOf, ih, leading_length,
        List.length_cons, Nat.succ_mul, Nat.add_comm]

theorem bitsOf_injective {a b : List UInt8} (same : bitsOf a = bitsOf b) : a = b := by
  have lengths : a.length = b.length := by
    have sizes := congrArg List.length same
    rw [bitsOf_length, bitsOf_length] at sizes
    omega
  induction a generalizing b with
  | nil => exact (List.length_eq_zero_iff.mp lengths.symm).symm
  | cons first rest ih =>
      cases b with
      | nil => cases lengths
      | cons second tail =>
          have split : leading first.toBitVec 8 ++ bitsOf rest =
              leading second.toBitVec 8 ++ bitsOf tail := same
          obtain ⟨heads, tails⟩ := List.append_inj split (by simp)
          have equal : first = second := by
            apply UInt8.toBitVec_inj.mp
            apply BitVec.eq_of_getMsbD_eq
            intro k inside
            exact List.map_inj_left.mp heads k (List.mem_range.mpr inside)
          rw [equal, ih tails (Nat.succ.inj lengths)]

/-- All places at which the bits of the data differ lie within so many consecutive ones. -/
def Burst (width : Nat) (a b : List UInt8) : Prop :=
  ∃ start, ∀ k ∈ differing (bitsOf a) (bitsOf b), start ≤ k ∧ k < start + width

/--
Different data of one length have different checksums under every seed, if
their differences lie within 16 consecutive bits or are odd in number.
-/
theorem sntlCrc16_detects {a b : List UInt8} (lengths : a.length = b.length) (distinct : a ≠ b)
    (error : Burst 16 a b ∨ Odd (differing (bitsOf a) (bitsOf b)).length) (seed : UInt16) :
    sntlCrc16 seed a ≠ sntlCrc16 seed b := by
  have sizes : (bitsOf a).length = (bitsOf b).length := by
    rw [bitsOf_length, bitsOf_length, lengths]
  rw [ne_eq, ← UInt16.toBitVec_inj, sntlCrc16_toBitVec, sntlCrc16_toBitVec]
  rcases error with ⟨start, burst⟩ | many
  · have other : bitsOf a ≠ bitsOf b := fun same => distinct (bitsOf_injective same)
    exact feedAll_burst (by decide) sizes other burst seed.toBitVec
  · exact feedAll_odd (by decide) sizes many seed.toBitVec

theorem sntlCrc16_detects_flip : sntlCrc16 0xFFFF [0x31, 0x32] ≠ sntlCrc16 0xFFFF [0x31, 0x22] :=
  sntlCrc16_detects (by decide) (by decide) (.inl ⟨11, by decide⟩) 0xFFFF

end PresenceNode.Frame
