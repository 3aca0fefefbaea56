import PresenceNode.Errno
import PresenceNode.Library.Flash
import PresenceNode.Store.Layout

/-!
# The store of `store.c`

The functions of `store.c` as programs over the NVS entries.  The statics are
passed in and returned; after a power cut they are lost.  `nvs_write`,
`nvs_clear` and the calls that only check or mount return zero where they
succeed, since only the sign of their results is looked at.
-/

namespace PresenceNode.Store

open Library Flash LittleEndian PresenceNode.Frame

abbrev Nvs := Entries Nat (List UInt8)

abbrev NvsProg (α : Type) := Prog Nat (List UInt8) α

/-- The statics of `store.c`; `storeMeta` is `meta`. -/
structure StoreRam where
  storeMeta : StoreMeta
  bootOffset : UInt32
  floorSeq : UInt32

def StoreRam.zero : StoreRam := ⟨⟨0, 0⟩, 0, 0⟩

/-- `nvs_read`: its result, and the object that it read into. -/
def nvsRead (id : Nat) (object : List UInt8) : NvsProg (Int × List UInt8) := do
  match ← Flash.read id with
  | none => pure (enoent, object)
  | some entry =>
      pure (entry.length, entry.take object.length ++ object.drop entry.length)

/-- `store_now`, with the uptime in milliseconds. -/
def storeNow (ram : StoreRam) (uptime : Nat) : UInt32 :=
  ram.bootOffset + UInt32.ofNat (uptime / 1000)

/-- `store_init` reads the counter, or starts it at zero. -/
def readMeta (ram : StoreRam) : NvsProg StoreRam := do
  let (n, image) ← nvsRead nvsIdMeta (metaImage ram.storeMeta)
  pure { ram with storeMeta := if n ≠ 8 then ⟨0, 0⟩ else metaOfImage image }

/-- `store_init` reads the record format into a zero. -/
def readFormat : NvsProg UInt16 := do
  let (_, image) ← nvsRead nvsIdFormat (bytes16 0)
  pure ((read16 image 0).getD 0)

def readFloor (ram : StoreRam) : NvsProg StoreRam := do
  let (_, image) ← nvsRead nvsIdFloor (bytes32 ram.floorSeq)
  pure { ram with floorSeq := (read32 image 0).getD 0 }

/-- The branch of `store_init` for a format change, up to its return. -/
def migrate (ram : StoreRam) : NvsProg (StoreRam × Int) := do
  let err ← Flash.clear
  if err ≠ 0 then
    pure (ram, err)
  else
    let err ← Flash.call
    if err ≠ 0 then
      pure (ram, err)
    else
      let ram := { ram with floorSeq := ram.storeMeta.nextSeq }
      if (← Flash.write nvsIdFormat (bytes16 nvsFormat)) < 0 then
        pure (ram, eio)
      else if (← Flash.write nvsIdFloor (bytes32 ram.floorSeq)) < 0 then
        pure (ram, eio)
      else if (← Flash.write nvsIdMeta (metaImage ram.storeMeta)) < 0 then
        pure (ram, eio)
      else
        pure ({ ram with bootOffset := ram.storeMeta.baseSec }, 0)

/-- `store_init`: the statics that it leaves, and its result. -/
def storeInit (ram : StoreRam) : NvsProg (StoreRam × Int) := do
  if (← Flash.call) < 0 then
    pure (ram, enodev)
  else
    let err ← Flash.call
    if err ≠ 0 then
      pure (ram, err)
    else
      let err ← Flash.call
      if err ≠ 0 then
        pure (ram, err)
      else
        let ram ← readMeta ram
        let format ← readFormat
        if format ≠ nvsFormat then
          migrate ram
        else
          let ram ← readFloor ram
          pure ({ ram with bootOffset := ram.storeMeta.baseSec }, 0)

def storeNextSeq (ram : StoreRam) : UInt32 := ram.storeMeta.nextSeq

def storeOldestSeq (ram : StoreRam) : UInt32 :=
  let ring := if ram.storeMeta.nextSeq > UInt32.ofNat storeCapacity then
    ram.storeMeta.nextSeq - UInt32.ofNat storeCapacity else 0
  if ram.floorSeq > ring then ram.floorSeq else ring

/-- What `store_append` puts into `*rec` before it writes it. -/
def stamped (ram : StoreRam) (record : SntlRecord) (uptime : Nat) : SntlRecord :=
  { record with seq := ram.storeMeta.nextSeq, ts := storeNow ram uptime }

/-- The counter after a record has been written. -/
def advanced (ram : StoreRam) (record : SntlRecord) : StoreRam :=
  { ram with storeMeta := ⟨ram.storeMeta.nextSeq + 1, record.ts⟩ }

/-- `store_append`: the statics, the record as stamped, and the result. -/
def storeAppend (ram : StoreRam) (record : SntlRecord) (uptime : Nat) :
    NvsProg (StoreRam × SntlRecord × Int) := do
  let record := stamped ram record uptime
  let err ← Flash.write (recId record.seq) (recordImage record)
  if err < 0 then
    pure (ram, record, err)
  else
    let ram := advanced ram record
    let err ← Flash.write nvsIdMeta (metaImage ram.storeMeta)
    pure (ram, record, if err < 0 then err else 0)

/-- The part of `store_get` under the lock: the record in the slot, if it is that of the seq. -/
def readSlot (nvs : Nvs) (seq : UInt32) : Option SntlRecord := do
  let entry ← nvs (recId seq)
  if entry.length ≠ 24 then none
  else
    let out ← readRecord entry
    if out.seq = seq then some out else none

/-- `store_get`, with nothing for `-ENOENT`. -/
def storeGet (ram : StoreRam) (nvs : Nvs) (seq : UInt32) : Option SntlRecord :=
  if seq ≥ ram.storeMeta.nextSeq ∨ seq < storeOldestSeq ram then none else readSlot nvs seq

/-! ## What a boot reads -/

/-- The counter that a boot reads, zero when the entry is missing or has another size. -/
def heldMeta (nvs : Nvs) : StoreMeta :=
  match nvs nvsIdMeta with
  | some entry => if entry.length = 8 then metaOfImage entry else ⟨0, 0⟩
  | none => ⟨0, 0⟩

def formatOf (entry : List UInt8) : UInt16 :=
  (read16 (entry.take 2 ++ (bytes16 0).drop entry.length) 0).getD 0

/-- The record format that a boot reads, zero when there is none. -/
def heldFormat (nvs : Nvs) : UInt16 :=
  match nvs nvsIdFormat with
  | some entry => formatOf entry
  | none => 0

/-- Records of the current format were never in flash, so no torn clear can bring any back. -/
def Foreign (nvs : Nvs) : Prop := ∀ entry ∈ nvs.history nvsIdFormat, formatOf entry ≠ nvsFormat

instance (nvs : Nvs) : Decidable (Foreign nvs) := inferInstanceAs (Decidable (∀ _ ∈ _, _))

def heldFloor (nvs : Nvs) : UInt32 :=
  match nvs nvsIdFloor with
  | some entry => (read32 (entry.take 4 ++ (bytes32 0).drop entry.length) 0).getD 0
  | none => 0

/-- The statics after a boot that found the current format. -/
def resumed (nvs : Nvs) : StoreRam := ⟨heldMeta nvs, (heldMeta nvs).baseSec, heldFloor nvs⟩

/-- The statics of a migration before its last step. -/
def migrating (m : StoreMeta) : StoreRam := ⟨m, 0, m.nextSeq⟩

/-- The entries of a migration after its clear, and after each of its writes. -/
def cleared : Nvs := .empty

def formatted : Nvs := cleared.put nvsIdFormat (bytes16 nvsFormat)

def floored (m : StoreMeta) : Nvs := formatted.put nvsIdFloor (bytes32 m.nextSeq)

def migrated (m : StoreMeta) : Nvs := (floored m).put nvsIdMeta (metaImage m)

section Preconditions

variable {mayFail : Op Nat → Bool} {cut : Nvs → Prop} {nvs : Nvs}

theorem wp_nvsRead {after : Int × List UInt8 → Nvs → Prop} {id : Nat} {object : List UInt8} :
    wp mayFail after cut (nvsRead id object) nvs ↔
      match nvs id with
      | none => after (enoent, object) nvs
      | some entry =>
          after (entry.length, entry.take object.length ++ object.drop entry.length) nvs := by
  rw [nvsRead, wp_bind, wp_read]
  cases nvs id with
  | none => exact Iff.rfl
  | some entry => exact Iff.rfl

theorem wp_readMeta {after : StoreRam → Nvs → Prop} {ram : StoreRam} :
    wp mayFail after cut (readMeta ram) nvs ↔
      after { ram with storeMeta := heldMeta nvs } nvs := by
  rw [readMeta, wp_bind, wp_nvsRead, heldMeta]
  cases nvs nvsIdMeta with
  | none => exact Iff.rfl
  | some entry =>
      by_cases whole : entry.length = 8
      · have image : entry.take (metaImage ram.storeMeta).length ++
            (metaImage ram.storeMeta).drop entry.length = entry := by
          rw [metaImage_length, List.take_of_length_le (Nat.le_of_eq whole),
            List.drop_of_length_le (by rw [metaImage_length]; omega), List.append_nil]
        have same : (entry.length : Int) = 8 := by omega
        simp only [wp_pure, image]
        rw [if_neg (not_not.mpr same), if_pos whole]
      · have other : ¬ (entry.length : Int) = 8 := by omega
        simp only [wp_pure, ne_eq, other, whole, not_false_eq_true, if_true, if_false]

theorem wp_readFormat {after : UInt16 → Nvs → Prop} :
    wp mayFail after cut readFormat nvs ↔ after (heldFormat nvs) nvs := by
  rw [readFormat, wp_bind, wp_nvsRead, heldFormat]
  cases nvs nvsIdFormat with
  | none => exact Iff.rfl
  | some entry => exact Iff.rfl

theorem wp_readFloor {after : StoreRam → Nvs → Prop} {ram : StoreRam} (zero : ram.floorSeq = 0) :
    wp mayFail after cut (readFloor ram) nvs ↔
      after { ram with floorSeq := heldFloor nvs } nvs := by
  rw [readFloor, wp_bind, wp_nvsRead, heldFloor, zero]
  cases nvs nvsIdFloor with
  | none => exact Iff.rfl
  | some entry => exact Iff.rfl

/-- What a migration can do, from its clear to its last write. -/
theorem wp_migrate {after : StoreRam × Int → Nvs → Prop} (calls : mayFail .call = false)
    (clears : mayFail .clear = false) (m : StoreMeta)
    (torn : ∀ kept, cut (survivors kept nvs)) (cutCleared : cut cleared)
    (cutFormatted : cut formatted) (cutFloored : cut (floored m))
    (failed : ∀ reached ∈ [cleared, formatted, floored m],
      (∃ id, mayFail (.write id) = true) → after (migrating m, eio) reached)
    (finished : after (⟨m, m.baseSec, m.nextSeq⟩, 0) (migrated m)) :
    wp mayFail after cut (migrate ⟨m, 0, 0⟩) nvs := by
  unfold migrate
  simp only [wp_bind, wp_clear, wp_call, wp_write, calls, clears, Bool.false_eq_true,
    IsEmpty.forall_iff, and_true, ne_eq, not_true_eq_false, if_false, Int.lt_irrefl,
    Int.negSucc_lt_zero, if_true, wp_pure]
  exact ⟨torn, cutCleared, cutCleared,
    ⟨cutFormatted,
      ⟨cutFloored, finished, fun allowed _ => failed (floored m) (by simp) ⟨_, allowed⟩⟩,
      fun allowed _ => failed formatted (by simp) ⟨_, allowed⟩⟩,
    fun allowed _ => failed cleared (by simp) ⟨_, allowed⟩⟩

/-- What a boot can do: it resumes under the current format, and migrates otherwise. -/
theorem wp_storeInit {after : StoreRam × Int → Nvs → Prop} (calls : mayFail .call = false)
    (cutBefore : cut nvs)
    (current : heldFormat nvs = nvsFormat → after (resumed nvs, 0) nvs)
    (other : heldFormat nvs ≠ nvsFormat →
      wp mayFail after cut (migrate ⟨heldMeta nvs, 0, 0⟩) nvs) :
    wp mayFail after cut (storeInit StoreRam.zero) nvs := by
  unfold storeInit
  simp only [wp_bind, wp_call, calls, Bool.false_eq_true, IsEmpty.forall_iff, and_true, ne_eq,
    not_true_eq_false, if_false, Int.lt_irrefl, wp_readMeta, wp_readFormat]
  refine ⟨cutBefore, cutBefore, cutBefore, ?_⟩
  by_cases same : heldFormat nvs = nvsFormat
  · rw [if_neg (not_not.mpr same), wp_bind, wp_readFloor rfl]
    exact current same
  · rw [if_pos same]
    exact other same

end Preconditions

end PresenceNode.Store
