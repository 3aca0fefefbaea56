import PresenceNode.Frame.Layout

/-!
# What the store keeps in flash

The constants of `store.h`, the NVS ids, and the structs of the store as the
bytes that they occupy in flash: little-endian, every field at its natural
alignment and none of them padded.
-/

namespace PresenceNode.Store

open Library LittleEndian PresenceNode.Frame

def storePeriodS : Nat := 30

def storeCapacity : Nat := 24 * 3600 / storePeriodS

def nvsIdMeta : Nat := 1

def nvsIdFormat : Nat := 2

def nvsIdFloor : Nat := 3

def nvsIdRec0 : Nat := 0x100

/-- `NVS_FORMAT`, the size of `struct sntl_record`. -/
def nvsFormat : UInt16 := 24

structure StoreMeta where
  nextSeq : UInt32
  baseSec : UInt32

def recId (seq : UInt32) : Nat := nvsIdRec0 + seq.toNat % storeCapacity

def metaImage (m : StoreMeta) : List UInt8 := bytes32 m.nextSeq ++ bytes32 m.baseSec

def metaOfImage (image : List UInt8) : StoreMeta :=
  { nextSeq := (read32 image 0).getD 0, baseSec := (read32 image 4).getD 0 }

/-- `struct sntl_record` has its fields in the order and at the offsets of the wire record. -/
def recordImage (record : SntlRecord) : List UInt8 := sntlEncodeRecord record

@[simp] theorem metaImage_length (m : StoreMeta) : (metaImage m).length = 8 := rfl

@[simp] theorem metaOfImage_image (m : StoreMeta) : metaOfImage (metaImage m) = m := by
  have next : read32 (metaImage m) 0 = some m.nextSeq := read32_bytes [] (bytes32 m.baseSec) _
  have base : read32 (metaImage m) 4 = some m.baseSec := read32_bytes (bytes32 m.nextSeq) [] _
  rw [metaOfImage, next, base]
  rfl

theorem readRecord_image (record : SntlRecord) : readRecord (recordImage record) = some record :=
  readRecord_encode record

theorem nvsIdRec0_le (seq : UInt32) : nvsIdRec0 ≤ recId seq := Nat.le_add_right _ _

end PresenceNode.Store
