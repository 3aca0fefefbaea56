import PresenceNode.Tlv.Reasm

/-!
# The TLV decoder of `tlv.c`

A payload is the list of its bytes; a null pointer is `none` inside the option
that stands for a read outside the frame or the payload, or for a walk that
does not end.  A float is the 32-bit word it is read from.
-/

namespace PresenceNode.Tlv

open Library LittleEndian

def tlvTargetList : UInt32 := 308

def tlvEnhancedPresence : UInt32 := 315

def tlvZoneNone : UInt8 := 0

structure TlvTarget where
  tid : UInt32
  x : UInt32
  y : UInt32
  z : UInt32

structure TlvHeader where
  version : UInt32
  totalLen : UInt32
  platform : UInt32
  frameNo : UInt32
  cpuCycles : UInt32
  numDetected : UInt32
  numTlvs : UInt32
  subFrame : UInt32

def tlvHeaderGet (frame : List UInt8) : Option TlvHeader := do
  let version ← rdU32 frame 8
  let totalLen ← rdU32 frame 12
  let platform ← rdU32 frame 16
  let frameNo ← rdU32 frame 20
  let cpuCycles ← rdU32 frame 24
  let numDetected ← rdU32 frame 28
  let numTlvs ← rdU32 frame 32
  let subFrame ← rdU32 frame 36
  some { version, totalLen, platform, frameNo, cpuCycles, numDetected, numTlvs, subFrame }

def tlvWalk (frame : List UInt8) (type total : UInt32) : Nat → UInt32 →
    Option (Option (List UInt8))
  | 0, _ => none
  | turns + 1, off =>
      if off + 8 ≤ total then do
        let t ← rdU32 frame off.toNat
        let ln ← rdU32 frame (off.toNat + 4)
        if ln > total ∨ off + 8 + ln > total then some none
        else if t = type then some (some ((frame.drop (off.toNat + 8)).take ln.toNat))
        else tlvWalk frame type total turns (off + (8 + ln))
      else some none

/-- `tlv_find`: the payload that it points to, with `*len_out` as its length. -/
def tlvFind (frame : List UInt8) (type : UInt32) : Option (Option (List UInt8)) := do
  let total ← rdU32 frame 12
  tlvWalk frame type total (total.toNat + 1) 40

def target3DSize : Nat := 112

def target2DSize : Nat := 76

/-- The `z` of the target at an offset, which only the 3D layout has. -/
def targetZ (payload : List UInt8) (size off : Nat) : Option UInt32 :=
  if size = target3DSize then rdU32 payload (off + 12) else some 0

def targetsLoop (payload : List UInt8) (size : Nat) : Nat → Nat → Option (List TlvTarget)
  | 0, _ => some []
  | left + 1, off =>
      if off + size ≤ payload.length then do
        let tid ← rdU32 payload off
        let x ← rdU32 payload (off + 4)
        let y ← rdU32 payload (off + 8)
        let z ← targetZ payload size off
        let rest ← targetsLoop payload size left (off + size)
        some ({ tid, x, y, z } :: rest)
      else some []

/-- `tlv_targets` on a payload: the entries that it writes. -/
def tlvTargets (payload : List UInt8) (max : Int) : Option (List TlvTarget) :=
  if payload.length = 0 then some []
  else if payload.length % target3DSize = 0 then targetsLoop payload target3DSize max.toNat 0
  else if payload.length % target2DSize = 0 then targetsLoop payload target2DSize max.toNat 0
  else some []

def zoneState (payload : List UInt8) (zone : Nat) : Option UInt8 :=
  let byteIdx := 1 + zone / 4
  if byteIdx < payload.length then
    payload[byteIdx]?.map fun byte => (byte >>> UInt8.ofNat (2 * (zone % 4))) &&& 0x3
  else some 0

/-- `tlv_presence` on a payload: the zone states that it writes. -/
def tlvPresence (payload : List UInt8) (max : Int) : Option (List UInt8) :=
  if payload.length < 2 then some []
  else do
    let zones ← payload[0]?
    let n : Int := zones.toNat
    (List.range (if n > max then max else n).toNat).mapM (zoneState payload)

/-! ## Every frame that is delivered can be decoded -/

theorem header_end {total off : UInt32} (most : total.toNat ≤ tlvMaxFrame)
    (inside : off.toNat ≤ total.toNat) : (off + 8).toNat = off.toNat + 8 := by
  have limit : tlvMaxFrame = 2048 := rfl
  rw [UInt32.toNat_add]
  exact Nat.mod_eq_of_lt (by change off.toNat + 8 < 2 ^ 32; omega)

theorem room_iff {total off : UInt32} (most : total.toNat ≤ tlvMaxFrame)
    (inside : off.toNat ≤ total.toNat) : off + 8 ≤ total ↔ off.toNat + 8 ≤ total.toNat := by
  rw [UInt32.le_iff_toNat_le, header_end most inside]

theorem entry_end {total off ln : UInt32} (most : total.toNat ≤ tlvMaxFrame)
    (room : off.toNat + 8 ≤ total.toNat) (honest : ln.toNat ≤ total.toNat) :
    (off + 8 + ln).toNat = off.toNat + 8 + ln.toNat := by
  have limit : tlvMaxFrame = 2048 := rfl
  rw [UInt32.toNat_add, header_end most (Nat.le_of_add_right_le room)]
  exact Nat.mod_eq_of_lt (by omega)

/-- The two checks of `tlv_find` are together one on the end of the entry. -/
theorem lying_iff {total off ln : UInt32} (most : total.toNat ≤ tlvMaxFrame)
    (room : off.toNat + 8 ≤ total.toNat) :
    ln > total ∨ off + 8 + ln > total ↔ off.toNat + 8 + ln.toNat > total.toNat := by
  rw [gt_iff_lt, gt_iff_lt, UInt32.lt_iff_toNat_lt, UInt32.lt_iff_toNat_lt]
  by_cases honest : ln.toNat ≤ total.toNat
  · rw [entry_end most room honest]
    omega
  · omega

theorem tlvWalk_defined {frame : List UInt8} {total : UInt32} (type : UInt32)
    (whole : total.toNat = frame.length) (most : frame.length ≤ tlvMaxFrame) {turns : Nat}
    {off : UInt32} (inside : off.toNat ≤ frame.length) (left : frame.length - off.toNat < turns) :
    ∃ found, tlvWalk frame type total turns off = some found := by
  rw [← whole] at most
  induction turns generalizing off with
  | zero => exact absurd left (Nat.not_lt_zero _)
  | succ turns ih =>
      unfold tlvWalk
      split
      · next fits =>
          have room := (room_iff most (by omega)).mp fits
          obtain ⟨t, foundType⟩ := LittleEndian.read32_defined
            (show off.toNat + 4 ≤ frame.length by omega)
          obtain ⟨ln, foundLen⟩ := LittleEndian.read32_defined
            (show off.toNat + 4 + 4 ≤ frame.length by omega)
          simp only [rdU32, foundType, foundLen, Option.bind_eq_bind, Option.bind_some]
          split
          · exact ⟨none, rfl⟩
          · next honest =>
              split
              · exact ⟨_, rfl⟩
              · rw [lying_iff most room] at honest
                have next : (off + 8 + ln).toNat = off.toNat + 8 + ln.toNat :=
                  entry_end most room (by omega)
                rw [← UInt32.add_assoc]
                exact ih (by omega) (by omega)
      · exact ⟨none, rfl⟩

/-- A header is read from every frame, and its length is that of the frame. -/
theorem tlvHeaderGet_defined {frame : List UInt8} (valid : ValidFrame frame) :
    ∃ h, tlvHeaderGet frame = some h ∧ h.totalLen.toNat = frame.length := by
  have least := valid.least
  have size : tlvHdrLen = 40 := rfl
  have field : ∀ offset, offset + 4 ≤ 40 → ∃ word, rdU32 frame offset = some word :=
    fun offset inside => LittleEndian.read32_defined (by omega)
  obtain ⟨total, h12, whole⟩ := Option.map_eq_some_iff.mp valid.declares
  obtain ⟨version, h8⟩ := field 8 (by decide)
  obtain ⟨platform, h16⟩ := field 16 (by decide)
  obtain ⟨frameNo, h20⟩ := field 20 (by decide)
  obtain ⟨cpuCycles, h24⟩ := field 24 (by decide)
  obtain ⟨numDetected, h28⟩ := field 28 (by decide)
  obtain ⟨numTlvs, h32⟩ := field 32 (by decide)
  obtain ⟨subFrame, h36⟩ := field 36 (by decide)
  refine ⟨⟨version, total, platform, frameNo, cpuCycles, numDetected, numTlvs, subFrame⟩, ?_, whole⟩
  simp only [tlvHeaderGet, h8, h12, h16, h20, h24, h28, h32, h36, Option.bind_eq_bind,
    Option.bind_some]

theorem tlvFind_defined {frame : List UInt8} (valid : ValidFrame frame) (type : UInt32) :
    ∃ found, tlvFind frame type = some found := by
  obtain ⟨total, read, whole⟩ := Option.map_eq_some_iff.mp valid.declares
  have least := valid.least
  have header : tlvHdrLen = 40 := rfl
  have offset : (40 : UInt32).toNat = 40 := rfl
  obtain ⟨found, walked⟩ := tlvWalk_defined type whole valid.most
    (show (40 : UInt32).toNat ≤ frame.length by omega)
    (show frame.length - (40 : UInt32).toNat < total.toNat + 1 by omega)
  exact ⟨found, by rw [tlvFind, read]; exact walked⟩

theorem targetsLoop_defined {payload : List UInt8} {size : Nat} (wide : 16 ≤ size)
    (left off : Nat) :
    ∃ targets, targetsLoop payload size left off = some targets ∧ targets.length ≤ left := by
  induction left generalizing off with
  | zero => exact ⟨[], rfl, Nat.le_refl _⟩
  | succ left ih =>
      unfold targetsLoop
      split
      · next room =>
          obtain ⟨tid, foundTid⟩ := LittleEndian.read32_defined
            (show off + 4 ≤ payload.length by omega)
          obtain ⟨x, foundX⟩ := LittleEndian.read32_defined
            (show off + 4 + 4 ≤ payload.length by omega)
          obtain ⟨y, foundY⟩ := LittleEndian.read32_defined
            (show off + 8 + 4 ≤ payload.length by omega)
          obtain ⟨z, foundZ⟩ : ∃ z, targetZ payload size off = some z := by
            unfold targetZ
            split
            · exact LittleEndian.read32_defined (show off + 12 + 4 ≤ payload.length by omega)
            · exact ⟨0, rfl⟩
          obtain ⟨rest, foundRest, bound⟩ := ih (off + size)
          refine ⟨{ tid, x, y, z } :: rest, ?_, Nat.succ_le_succ bound⟩
          simp only [rdU32, foundTid, foundX, foundY, foundZ, foundRest, Option.bind_eq_bind,
            Option.bind_some]
      · exact ⟨[], rfl, Nat.zero_le _⟩

/-- No payload makes `tlv_targets` read outside it, or write more than `max` entries. -/
theorem tlvTargets_defined (payload : List UInt8) (max : Int) :
    ∃ targets, tlvTargets payload max = some targets ∧ targets.length ≤ max.toNat := by
  unfold tlvTargets
  split
  · exact ⟨[], rfl, Nat.zero_le _⟩
  · split
    · exact targetsLoop_defined (by decide) _ _
    · split
      · exact targetsLoop_defined (by decide) _ _
      · exact ⟨[], rfl, Nat.zero_le _⟩

theorem zoneState_defined (payload : List UInt8) (zone : Nat) :
    ∃ state, zoneState payload zone = some state := by
  simp only [zoneState]
  split
  · next inside => exact ⟨_, by rw [List.getElem?_eq_getElem inside]; rfl⟩
  · exact ⟨0, rfl⟩

/-- No payload makes `tlv_presence` read outside it. -/
theorem tlvPresence_defined (payload : List UInt8) (max : Int) :
    ∃ zones, tlvPresence payload max = some zones := by
  unfold tlvPresence
  split
  · exact ⟨[], rfl⟩
  · next long =>
      rw [List.getElem?_eq_getElem (show 0 < payload.length by omega)]
      simp only [Option.bind_eq_bind, Option.bind_some]
      have total : ∀ zones : List Nat, ∃ states, zones.mapM (zoneState payload) = some states := by
        intro zones
        induction zones with
        | nil => exact ⟨[], rfl⟩
        | cons zone rest ih =>
            obtain ⟨state, found⟩ := zoneState_defined payload zone
            obtain ⟨states, others⟩ := ih
            exact ⟨state :: states, by simp [found, others]⟩
      exact total _

end PresenceNode.Tlv
