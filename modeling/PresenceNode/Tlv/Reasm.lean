import PresenceNode.Library.Buffer
import PresenceNode.Library.Deframer
import PresenceNode.Library.LittleEndian

/-!
# The streaming reassembler of `tlv.c`

`tlvPush` is `tlv_push`: a store into `buf` or a read of the magic outside its
bounds is undefined, so a defined run is one that stays inside both.  The
radar thread pushes byte after byte and resets the reassembler whenever a push
returned 1; `reassembler` is that loop, and outputs `buf[0..len)` then.
-/

namespace PresenceNode.Tlv

open Library Library.Deframer

def tlvMagicLen : Nat := 8

def tlvHdrLen : Nat := 40

def tlvMaxFrame : Nat := 2048

def tlvMagic : List UInt8 := [2, 1, 4, 3, 6, 5, 8, 7]

/-- `rd_u32`, undefined outside the object that is read. -/
def rdU32 (object : List UInt8) (offset : Nat) : Option UInt32 := LittleEndian.read32 object offset

/-- `struct tlv_reasm`; `matched` is its field `match`. -/
structure TlvReasm where
  buf : Vector UInt8 tlvMaxFrame
  len : UInt32
  want : UInt32
  matched : UInt8

def tlvReset (r : TlvReasm) : TlvReasm := { r with len := 0, want := 0, matched := 0 }

/-- The end of `tlv_push`, once `want` is known. -/
def tlvComplete (r : TlvReasm) : TlvReasm × Bool :=
  if r.len < r.want then (r, false)
  else ({ r with len := r.want, want := 0 }, true)

def tlvPush (r : TlvReasm) (byte : UInt8) : Option (TlvReasm × Bool) :=
  if r.len = 0 then do
    -- hunting for the magic word
    let expected ← tlvMagic[r.matched.toNat]?
    if byte = expected then
      let matched := r.matched + 1
      if matched.toNat = tlvMagicLen then
        let buf ← Buffer.storeAll r.buf 0 tlvMagic
        some ({ buf := buf, len := 8, want := 0, matched := 0 }, false)
      else
        some ({ r with matched := matched }, false)
    else
      some ({ r with matched := if tlvMagic[0]? = some byte then 1 else 0 }, false)
  else do
    let buf ← Buffer.store r.buf r.len.toNat byte
    let r := { r with buf := buf, len := r.len + 1 }
    if r.want = 0 then
      if r.len.toNat < tlvHdrLen then
        some (r, false)
      else
        let want ← rdU32 r.buf.toList 12
        let r := { r with want := want }
        if want.toNat < tlvHdrLen ∨ tlvMaxFrame < want.toNat then
          some (tlvReset r, false)
        else
          some (tlvComplete r)
    else
      some (tlvComplete r)

/-- What `radar_thread` does after a push: a complete frame goes to `on_frame`, then the reset. -/
def deliver (pushed : TlvReasm × Bool) : TlvReasm × Option (List UInt8) :=
  if pushed.2 then (tlvReset pushed.1, some (Buffer.held pushed.1.buf pushed.1.len.toNat))
  else (pushed.1, none)

def feedByte (r : TlvReasm) (byte : UInt8) : Option (TlvReasm × Option (List UInt8)) :=
  (tlvPush r byte).map deliver

def reassembler : Machine TlvReasm UInt8 (Option (List UInt8)) where
  step := feedByte

/-- A frame: magic first, its length field equal to its own length, and that within bounds. -/
structure ValidFrame (frame : List UInt8) : Prop where
  begins : tlvMagic <+: frame
  declares : (rdU32 frame 12).map UInt32.toNat = some frame.length
  least : tlvHdrLen ≤ frame.length
  most : frame.length ≤ tlvMaxFrame

/-! ## The reassembler is a deframer -/

def declaredLen (bytes : List UInt8) : Nat := ((rdU32 bytes 12).map UInt32.toNat).getD 0

def tlvFormat : Format UInt8 where
  sync := tlvMagic
  header := tlvHdrLen
  limit := tlvMaxFrame
  declared := declaredLen
  sync_nodup := by decide
  sync_ne_nil := by decide
  sync_lt_header := by decide
  header_le_limit := by decide
  declared_append := by
    intro bytes more complete
    rw [declaredLen, rdU32, LittleEndian.read32_append bytes more (Nat.le_trans (by decide) complete)]
    rfl

theorem declaredLen_eq {bytes : List UInt8} (complete : tlvHdrLen ≤ bytes.length) :
    (rdU32 bytes 12).map UInt32.toNat = some (declaredLen bytes) := by
  obtain ⟨word, found⟩ := LittleEndian.read32_defined
    (show 12 + 4 ≤ bytes.length from Nat.le_trans (by decide) complete)
  rw [declaredLen, rdU32, found]
  rfl

theorem validFrame_iff {frame : List UInt8} : ValidFrame frame ↔ tlvFormat.Valid frame := by
  constructor
  · rintro ⟨begins, declares, least, most⟩
    refine ⟨begins, least, most, ?_⟩
    rw [declaredLen_eq least] at declares
    exact Option.some.inj declares
  · rintro ⟨begins, least, most, declares⟩
    refine ⟨begins, ?_, least, most⟩
    rw [declaredLen_eq least]
    exact congrArg some declares

/-- The fields of the reassembler while it collects a frame. -/
structure Collects (r : TlvReasm) (bytes : List UInt8) : Prop where
  len : r.len.toNat = bytes.length
  held : Buffer.held r.buf bytes.length = bytes
  want : r.want.toNat = if bytes.length < tlvHdrLen then 0 else declaredLen bytes
  matched : r.matched = 0
  sound : tlvFormat.Sound (.collecting bytes)

/-- The fields of the reassembler in each phase of the deframer. -/
def Represents (r : TlvReasm) : Phase UInt8 → Prop
  | .hunting matched => r.len = 0 ∧ r.want = 0 ∧ r.matched.toNat = matched ∧ matched < tlvMagicLen
  | .collecting bytes => Collects r bytes

theorem represents_reset (r : TlvReasm) : Represents (tlvReset r) (.hunting 0) :=
  ⟨rfl, rfl, rfl, by decide⟩

theorem Represents.sound {r : TlvReasm} {phase : Phase UInt8} (represents : Represents r phase) :
    tlvFormat.Sound phase := by
  cases phase with
  | hunting matched => exact represents.2.2.2
  | collecting bytes => exact Collects.sound represents

namespace Collects

variable {r : TlvReasm} {bytes : List UInt8}

theorem length_lt (collects : Collects r bytes) : bytes.length < tlvMaxFrame := collects.sound.room

theorem magic_le (collects : Collects r bytes) : tlvMagicLen ≤ bytes.length :=
  collects.sound.1.length_le

theorem len_ne_zero (collects : Collects r bytes) : r.len ≠ 0 := by
  intro zero
  have positive := collects.magic_le
  have length := collects.len
  rw [zero] at length
  have minimum : (0 : Nat) < tlvMagicLen := by decide
  change 0 = bytes.length at length
  omega

theorem len_succ (collects : Collects r bytes) : (r.len + 1).toNat = bytes.length + 1 := by
  have bound := collects.length_lt
  have limit : tlvMaxFrame = 2048 := rfl
  rw [UInt32.toNat_add, collects.len]
  exact Nat.mod_eq_of_lt (by change bytes.length + 1 < 2 ^ 32; omega)

/-- Past the header the length field has been read, and it is in bounds. -/
theorem want_past_header (collects : Collects r bytes) (complete : tlvHdrLen ≤ bytes.length) :
    r.want.toNat = declaredLen bytes ∧ tlvHdrLen ≤ declaredLen bytes ∧
      declaredLen bytes ≤ tlvMaxFrame ∧ bytes.length < declaredLen bytes := by
  obtain ⟨least, most, short⟩ := collects.sound.2 complete
  refine ⟨?_, least, most, short⟩
  rw [collects.want, if_neg (by omega)]

end Collects

end PresenceNode.Tlv
