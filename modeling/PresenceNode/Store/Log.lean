import PresenceNode.Library.Ring
import PresenceNode.Store.Device

/-!
# The store as the end of a log

The log holds the records that were appended, and the slots keep its end.
`Stored` says so of the NVS entries and the counter in flash, `Consistent` of
a device with or without power, and both survive every step in which no write
of a boot fails and no counter write fails after its record was written.
-/

namespace PresenceNode.Store

open Library Flash LittleEndian PresenceNode.Frame

def seqOf (record : SntlRecord) : Nat := record.seq.toNat

def entryRecord (entry : List UInt8) : Option SntlRecord :=
  if entry.length ≠ 24 then none else readRecord entry

def slotsOf (nvs : Nvs) (index : Nat) : Option SntlRecord :=
  (nvs (nvsIdRec0 + index)).bind entryRecord

theorem next_toNat {next : UInt32} (bounded : next.toNat + 1 < 2 ^ 32) :
    (next + 1).toNat = next.toNat + 1 := by
  rw [UInt32.toNat_add]
  exact Nat.mod_eq_of_lt bounded

theorem entryRecord_image (record : SntlRecord) :
    entryRecord (recordImage record) = some record := readRecord_image record

/-- The slots keep the end of the log below the counter and above the floor. -/
abbrev Held (log : List SntlRecord) (floor next : UInt32) (nvs : Nvs) : Prop :=
  Ring.Keeps storeCapacity seqOf log floor.toNat next.toNat (slotsOf nvs)

/-! ## Slots -/

theorem readSlot_eq_find (nvs : Nvs) (seq : UInt32) :
    readSlot nvs seq = Ring.find storeCapacity seqOf (slotsOf nvs) seq.toNat := by
  have same (record : SntlRecord) : seqOf record = seq.toNat ↔ record.seq = seq :=
    UInt32.toNat_inj
  simp only [readSlot, Ring.find, slotsOf, recId, same]
  cases nvs (nvsIdRec0 + seq.toNat % storeCapacity) with
  | none => rfl
  | some entry =>
      by_cases size : entry.length = 24
      · cases read : readRecord entry with
        | none => simp [entryRecord, size, read]
        | some record =>
            by_cases found : record.seq = seq <;> simp [entryRecord, size, read, found, Option.filter]
      · simp [entryRecord, size]

theorem slotsOf_put_other {nvs : Nvs} {id : Nat} {entry : List UInt8} (other : id < nvsIdRec0) :
    slotsOf (nvs.put id entry) = slotsOf nvs := by
  funext index
  have apart : nvsIdRec0 + index ≠ id := by omega
  rw [slotsOf, Entries.put_of_ne _ _ apart, slotsOf]

@[simp] theorem slotsOf_withCounter (nvs : Nvs) (m : StoreMeta) :
    slotsOf (withCounter nvs m) = slotsOf nvs := slotsOf_put_other (by decide)

@[simp] theorem slotsOf_withRecord (nvs : Nvs) (record : SntlRecord) :
    slotsOf (withRecord nvs record) =
      Function.update (slotsOf nvs) (seqOf record % storeCapacity) (some record) := by
  funext index
  by_cases same : index = seqOf record % storeCapacity
  · rw [same, Function.update_self, slotsOf, withRecord]
    have here : nvsIdRec0 + seqOf record % storeCapacity = recId record.seq := rfl
    rw [here, Entries.put_self]
    exact entryRecord_image record
  · have apart : nvsIdRec0 + index ≠ recId record.seq :=
      fun equal => same (Nat.add_left_cancel equal)
    rw [Function.update_of_ne same, slotsOf, withRecord, Entries.put_of_ne _ _ apart, slotsOf]

theorem slotsOf_reached (m : StoreMeta) {reached : Nvs}
    (member : reached ∈ [cleared, formatted, floored m, migrated m]) (index : Nat) :
    slotsOf reached index = none := by
  have format : slotsOf formatted = slotsOf cleared := slotsOf_put_other (by decide)
  have floor : slotsOf (floored m) = slotsOf formatted := slotsOf_put_other (by decide)
  have counter : slotsOf (migrated m) = slotsOf (floored m) := slotsOf_put_other (by decide)
  simp only [List.mem_cons, List.not_mem_nil, or_false] at member
  rcases member with rfl | rfl | rfl | rfl
  · rfl
  · rw [format]
    rfl
  · rw [floor, format]
    rfl
  · rw [counter, floor, format]
    rfl

/-! ## Range checks -/

theorem storeOldestSeq_toNat (ram : StoreRam) :
    (storeOldestSeq ram).toNat =
      max ram.floorSeq.toNat (ram.storeMeta.nextSeq.toNat - storeCapacity) := by
  have ring : (if ram.storeMeta.nextSeq > UInt32.ofNat storeCapacity then
      ram.storeMeta.nextSeq - UInt32.ofNat storeCapacity else 0).toNat =
        ram.storeMeta.nextSeq.toNat - storeCapacity := by
    split
    · next wrapped =>
        exact UInt32.toNat_sub_of_le _ _
          (UInt32.le_iff_toNat_le.mpr (Nat.le_of_lt (UInt32.lt_iff_toNat_lt.mp wrapped)))
    · next early =>
        have most : ram.storeMeta.nextSeq.toNat ≤ storeCapacity :=
          Nat.le_of_not_lt fun more => early (UInt32.lt_iff_toNat_lt.mpr more)
        exact (Nat.sub_eq_zero_of_le most).symm
  rw [← ring]
  exact toNat_larger ram.floorSeq _

/-- `store_get` looks into the slot exactly for the numbers that are in the ring. -/
theorem storeGet_eq (ram : StoreRam) (nvs : Nvs) (seq : UInt32) :
    storeGet ram nvs seq =
      if seq.toNat < ram.storeMeta.nextSeq.toNat ∧ ram.floorSeq.toNat ≤ seq.toNat ∧
          ram.storeMeta.nextSeq.toNat ≤ seq.toNat + storeCapacity then
        Ring.find storeCapacity seqOf (slotsOf nvs) seq.toNat
      else none := by
  have oldest := storeOldestSeq_toNat ram
  rw [storeGet, readSlot_eq_find]
  simp only [ge_iff_le, UInt32.le_iff_toNat_le, UInt32.lt_iff_toNat_lt, oldest]
  by_cases inside : seq.toNat < ram.storeMeta.nextSeq.toNat ∧ ram.floorSeq.toNat ≤ seq.toNat ∧
      ram.storeMeta.nextSeq.toNat ≤ seq.toNat + storeCapacity
  · rw [if_pos inside, if_neg (by omega)]
  · rw [if_neg inside, if_pos (by omega)]

/-- What the store answers, against the log of the records that were appended. -/
structure Answers (log : List SntlRecord) (ram : StoreRam) (nvs : Nvs) : Prop where
  below : ∀ record ∈ log, record.seq < storeNextSeq ram
  recent : ∀ seq, (storeNextSeq ram).toNat < seq.toNat + storeCapacity →
    seq < storeNextSeq ram → ram.floorSeq ≤ seq →
    ∃ record ∈ log, record.seq = seq ∧ storeGet ram nvs seq = some record
  oldest : ∀ seq, (storeNextSeq ram).toNat = seq.toNat + storeCapacity → ram.floorSeq ≤ seq →
    ∃ record ∈ log, record.seq = seq ∧
      (storeGet ram nvs seq = some record ∨ storeGet ram nvs seq = none)
  others : ∀ seq, (seq.toNat + storeCapacity < (storeNextSeq ram).toNat ∨
    storeNextSeq ram ≤ seq ∨ seq < ram.floorSeq) → storeGet ram nvs seq = none

theorem Answers.of_held {log : List SntlRecord} {ram : StoreRam} {nvs : Nvs}
    (held : Held log ram.floorSeq ram.storeMeta.nextSeq nvs) : Answers log ram nvs where
  below := fun record member => UInt32.lt_iff_toNat_lt.mpr (held.below record member)
  recent := by
    intro seq near before above
    have order := UInt32.lt_iff_toNat_lt.mp before
    have least := UInt32.le_iff_toNat_le.mp above
    obtain ⟨record, member, number, found⟩ := held.find_recent least order near
    refine ⟨record, member, UInt32.toNat_inj.mp number, ?_⟩
    rw [storeGet_eq, if_pos ⟨order, least, Nat.le_of_lt near⟩]
    exact found
  oldest := by
    intro seq last above
    have positive : 0 < storeCapacity := by decide
    have least := UInt32.le_iff_toNat_le.mp above
    have order : seq.toNat < ram.storeMeta.nextSeq.toNat := by
      have same : ram.storeMeta.nextSeq.toNat = seq.toNat + storeCapacity := last
      omega
    obtain ⟨record, member, number, found⟩ :=
      held.find_oldest least order (Nat.le_of_eq last)
    refine ⟨record, member, UInt32.toNat_inj.mp number, ?_⟩
    rw [storeGet_eq, if_pos ⟨order, least, Nat.le_of_eq last⟩]
    exact found.imp id And.right
  others := by
    intro seq outside
    rw [storeGet_eq, if_neg]
    rintro ⟨before, above, near⟩
    rcases outside with early | late | hidden
    · exact absurd near (Nat.not_le_of_lt early)
    · exact absurd before (Nat.not_lt_of_le (UInt32.le_iff_toNat_le.mp late))
    · exact absurd above (Nat.not_le_of_lt (UInt32.lt_iff_toNat_lt.mp hidden))

theorem storeGet_logged {log : List SntlRecord} {ram : StoreRam} {nvs : Nvs} {seq : UInt32}
    {record : SntlRecord} (held : Held log ram.floorSeq ram.storeMeta.nextSeq nvs)
    (given : storeGet ram nvs seq = some record) : record ∈ log := by
  rw [storeGet_eq] at given
  split at given
  · next inside => exact (held.find_sound inside.2.1 inside.1 inside.2.2 given).1
  · cases given

/-! ## Consistency -/

/-- The entries hold the end of the log under the current format. -/
structure Stored (log : List SntlRecord) (nvs : Nvs) : Prop where
  current : heldFormat nvs = nvsFormat
  held : Held log (heldFloor nvs) (heldMeta nvs).nextSeq nvs

/-- A boot would read back what the statics hold. -/
structure Settled (ram : StoreRam) (nvs : Nvs) : Prop where
  current : heldFormat nvs = nvsFormat
  counter : heldMeta nvs = ram.storeMeta
  floor : heldFloor nvs = ram.floorSeq

def Consistent (log : List SntlRecord) (device : Device) : Prop :=
  match device.ram with
  | none => Foreign device.nvs ∧ log = [] ∨ Stored log device.nvs
  | some ram => Settled ram device.nvs ∧ Held log ram.floorSeq ram.storeMeta.nextSeq device.nvs

end PresenceNode.Store
