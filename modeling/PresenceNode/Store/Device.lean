import PresenceNode.Library.Machine
import PresenceNode.Store.Nvs

/-!
# A device over its boots

A boot starts from zeroed statics and the NVS entries that are left; the main
loop goes on whatever `store_init` returned.  A power cut may fall before any
operation of a boot or of an append, and between them.  Writes may fail;
mounting and clearing, when they are reached, do not.
-/

namespace PresenceNode.Store

open Library Flash LittleEndian PresenceNode.Frame

def writesMayFail : Op Nat → Bool
  | .write _ => true
  | _ => false

/-- The NVS entries, and the statics while there is power. -/
structure Device where
  nvs : Nvs
  ram : Option StoreRam

inductive DeviceEvent where
  | boot (verdicts : List (Verdict Nat))
  | append (record : SntlRecord) (uptime : Nat) (slot counter : Verdict Nat)
  | get (seq : UInt32)
  | cut

inductive DeviceOutput where
  | booted (err : Int)
  | appended (record : SntlRecord) (err : Int)
  | got (result : Option SntlRecord)
  | lost

def powerOn (nvs : Nvs) (verdicts : List (Verdict Nat)) : Device × DeviceOutput :=
  match run writesMayFail (storeInit StoreRam.zero) nvs verdicts with
  | .done (ram, err) nvs _ => (⟨nvs, some ram⟩, .booted err)
  | .cut nvs => (⟨nvs, none⟩, .lost)

def appendOnce (nvs : Nvs) (ram : StoreRam) (record : SntlRecord) (uptime : Nat)
    (slot counter : Verdict Nat) : Device × DeviceOutput :=
  match run writesMayFail (storeAppend ram record uptime) nvs [slot, counter] with
  | .done (ram, record, err) nvs _ => (⟨nvs, some ram⟩, .appended record err)
  | .cut nvs => (⟨nvs, none⟩, .lost)

def deviceMachine : Machine Device DeviceEvent DeviceOutput where
  step device event :=
    match device.ram, event with
    | none, .boot verdicts => some (powerOn device.nvs verdicts)
    | some ram, .append record uptime slot counter =>
        some (appendOnce device.nvs ram record uptime slot counter)
    | some ram, .get seq => some (device, .got (storeGet ram device.nvs seq))
    | some _, .cut => some (⟨device.nvs, none⟩, .lost)
    | _, _ => none

def withRecord (nvs : Nvs) (record : SntlRecord) : Nvs :=
  nvs.put (recId record.seq) (recordImage record)

def withCounter (nvs : Nvs) (m : StoreMeta) : Nvs :=
  nvs.put nvsIdMeta (metaImage m)

/-- What an append of a stamped record does, by the verdicts on its two writes. -/
inductive Appended (nvs : Nvs) (ram : StoreRam) (record : SntlRecord) :
    Verdict Nat → Verdict Nat → Device → DeviceOutput → Prop where
  | unwritten (kept : Nat → Nat → Bool) (counter : Verdict Nat) :
      Appended nvs ram record (.cut kept) counter ⟨nvs, none⟩ .lost
  | refused (code : Nat) (counter : Verdict Nat) :
      Appended nvs ram record (.fail code) counter ⟨nvs, some ram⟩
        (.appended record (Int.negSucc code))
  | torn (kept : Nat → Nat → Bool) :
      Appended nvs ram record .ok (.cut kept) ⟨withRecord nvs record, none⟩ .lost
  | uncounted (code : Nat) :
      Appended nvs ram record .ok (.fail code)
        ⟨withRecord nvs record, some (advanced ram record)⟩ (.appended record (Int.negSucc code))
  | counted :
      Appended nvs ram record .ok .ok
        ⟨withCounter (withRecord nvs record) (advanced ram record).storeMeta,
          some (advanced ram record)⟩ (.appended record 0)

theorem appendOnce_refused (nvs : Nvs) (ram : StoreRam) (record : SntlRecord) (uptime code : Nat)
    (counter : Verdict Nat) :
    appendOnce nvs ram record uptime (.fail code) counter =
      (⟨nvs, some ram⟩, .appended (stamped ram record uptime) (Int.negSucc code)) := by
  have negative : Int.negSucc code < 0 := Int.negSucc_lt_zero code
  simp [appendOnce, storeAppend, run_write_bind, run_pure, Verdict.result, writesMayFail, negative]

theorem appendOnce_uncounted (nvs : Nvs) (ram : StoreRam) (record : SntlRecord)
    (uptime code : Nat) :
    appendOnce nvs ram record uptime .ok (.fail code) =
      (⟨withRecord nvs (stamped ram record uptime),
        some (advanced ram (stamped ram record uptime))⟩,
        .appended (stamped ram record uptime) (Int.negSucc code)) := by
  have negative : Int.negSucc code < 0 := Int.negSucc_lt_zero code
  simp [appendOnce, storeAppend, run_write_bind, run_pure, Verdict.result, writesMayFail, negative,
    withRecord]

theorem appendOnce_spec (nvs : Nvs) (ram : StoreRam) (record : SntlRecord) (uptime : Nat)
    (slot counter : Verdict Nat) :
    Appended nvs ram (stamped ram record uptime) slot counter
      (appendOnce nvs ram record uptime slot counter).1
      (appendOnce nvs ram record uptime slot counter).2 := by
  cases slot with
  | cut kept => exact .unwritten kept counter
  | fail code =>
      rw [appendOnce_refused]
      exact .refused code counter
  | ok =>
      cases counter with
      | cut kept => exact .torn kept
      | fail code =>
          rw [appendOnce_uncounted]
          exact .uncounted code
      | ok => exact .counted

/-! ## Entries that an operation leaves alone -/

theorem heldMeta_put {nvs : Nvs} {id : Nat} {entry : List UInt8} (other : id ≠ nvsIdMeta) :
    heldMeta (nvs.put id entry) = heldMeta nvs := by
  rw [heldMeta, Entries.put_of_ne _ _ other.symm, heldMeta]

theorem heldFormat_put {nvs : Nvs} {id : Nat} {entry : List UInt8} (other : id ≠ nvsIdFormat) :
    heldFormat (nvs.put id entry) = heldFormat nvs := by
  rw [heldFormat, Entries.put_of_ne _ _ other.symm, heldFormat]

theorem heldFloor_put {nvs : Nvs} {id : Nat} {entry : List UInt8} (other : id ≠ nvsIdFloor) :
    heldFloor (nvs.put id entry) = heldFloor nvs := by
  rw [heldFloor, Entries.put_of_ne _ _ other.symm, heldFloor]

theorem recId_ne (seq : UInt32) :
    recId seq ≠ nvsIdMeta ∧ recId seq ≠ nvsIdFormat ∧ recId seq ≠ nvsIdFloor := by
  have least := nvsIdRec0_le seq
  have first : nvsIdRec0 = 256 := rfl
  refine ⟨?_, ?_, ?_⟩ <;> simp only [nvsIdMeta, nvsIdFormat, nvsIdFloor] <;> omega

@[simp] theorem heldMeta_withCounter (nvs : Nvs) (m : StoreMeta) :
    heldMeta (withCounter nvs m) = m := by
  rw [heldMeta, withCounter, Entries.put_self]
  exact (if_pos (metaImage_length m)).trans (metaOfImage_image m)

@[simp] theorem heldFormat_withCounter (nvs : Nvs) (m : StoreMeta) :
    heldFormat (withCounter nvs m) = heldFormat nvs := heldFormat_put (by decide)

@[simp] theorem heldFloor_withCounter (nvs : Nvs) (m : StoreMeta) :
    heldFloor (withCounter nvs m) = heldFloor nvs := heldFloor_put (by decide)

@[simp] theorem heldMeta_withRecord (nvs : Nvs) (record : SntlRecord) :
    heldMeta (withRecord nvs record) = heldMeta nvs := heldMeta_put (recId_ne _).1

@[simp] theorem heldFormat_withRecord (nvs : Nvs) (record : SntlRecord) :
    heldFormat (withRecord nvs record) = heldFormat nvs := heldFormat_put (recId_ne _).2.1

@[simp] theorem heldFloor_withRecord (nvs : Nvs) (record : SntlRecord) :
    heldFloor (withRecord nvs record) = heldFloor nvs := heldFloor_put (recId_ne _).2.2

/-! ## What a migration leaves -/

@[simp] theorem heldFormat_formatted : heldFormat formatted = nvsFormat := by decide

@[simp] theorem heldFormat_floored (m : StoreMeta) : heldFormat (floored m) = nvsFormat :=
  (heldFormat_put (by decide)).trans heldFormat_formatted

@[simp] theorem heldFloor_floored (m : StoreMeta) : heldFloor (floored m) = m.nextSeq := by
  rw [heldFloor, floored, Entries.put_self]
  exact congrArg (fun word => word.getD 0) (read32_bytes [] [] m.nextSeq)

@[simp] theorem heldMeta_migrated (m : StoreMeta) : heldMeta (migrated m) = m :=
  heldMeta_withCounter (floored m) m

@[simp] theorem heldFormat_migrated (m : StoreMeta) : heldFormat (migrated m) = nvsFormat :=
  (heldFormat_withCounter (floored m) m).trans (heldFormat_floored m)

@[simp] theorem heldFloor_migrated (m : StoreMeta) : heldFloor (migrated m) = m.nextSeq :=
  (heldFloor_withCounter (floored m) m).trans (heldFloor_floored m)

/-! ## What a boot can do -/

/-- Where a boot can end, `fallible` when a write of it may have failed. -/
inductive Booted (fallible : Prop) (nvs : Nvs) : StoreRam → Int → Nvs → Prop where
  | resumed (current : heldFormat nvs = nvsFormat) : Booted fallible nvs (resumed nvs) 0 nvs
  | migrated (other : heldFormat nvs ≠ nvsFormat) :
      Booted fallible nvs ⟨heldMeta nvs, (heldMeta nvs).baseSec, (heldMeta nvs).nextSeq⟩ 0
        (migrated (heldMeta nvs))
  | failed (allowed : fallible) (other : heldFormat nvs ≠ nvsFormat) (reached : Nvs)
      (stopped : reached ∈ [cleared, formatted, floored (heldMeta nvs)]) :
      Booted fallible nvs (migrating (heldMeta nvs)) eio reached

/-- What a boot that is cut can leave. -/
inductive Interrupted (nvs : Nvs) : Nvs → Prop where
  | untouched : Interrupted nvs nvs
  | torn (other : heldFormat nvs ≠ nvsFormat) (kept : Nat → Nat → Bool) :
      Interrupted nvs (survivors kept nvs)
  | stopped (other : heldFormat nvs ≠ nvsFormat) (reached : Nvs)
      (member : reached ∈ [cleared, formatted, floored (heldMeta nvs)]) :
      Interrupted nvs reached

theorem Booted.imp {first second : Prop} (weaker : first → second) {nvs reached : Nvs}
    {ram : StoreRam} {err : Int} (booted : Booted first nvs ram err reached) :
    Booted second nvs ram err reached := by
  cases booted with
  | resumed current => exact .resumed current
  | migrated other => exact .migrated other
  | failed allowed other _ stopped => exact .failed (weaker allowed) other reached stopped

theorem storeInit_cases (mayFail : Op Nat → Bool) (calls : mayFail .call = false)
    (clears : mayFail .clear = false) (nvs : Nvs) (verdicts : List (Verdict Nat)) :
    (run mayFail (storeInit StoreRam.zero) nvs verdicts).Satisfies
      (fun result reached =>
        Booted (∃ id, mayFail (.write id) = true) nvs result.1 result.2 reached)
      (Interrupted nvs) := by
  refine run_satisfies (wp_storeInit calls .untouched .resumed fun other => ?_) verdicts
  exact wp_migrate calls clears _ (.torn other) (.stopped other _ (by simp))
    (.stopped other _ (by simp)) (.stopped other _ (by simp))
    (fun reached stopped allowed => .failed allowed other reached stopped) (.migrated other)

/-- A boot ends, and without a failed write it ends well, or the power is cut. -/
theorem powerOn_cases (nvs : Nvs) (verdicts : List (Verdict Nat)) :
    (∃ reached ram err, powerOn nvs verdicts = (⟨reached, some ram⟩, .booted err) ∧
      Booted (∃ code, .fail code ∈ verdicts) nvs ram err reached) ∨
    (∃ reached, powerOn nvs verdicts = (⟨reached, none⟩, .lost) ∧ Interrupted nvs reached) := by
  have ways : (run writesMayFail (storeInit StoreRam.zero) nvs verdicts).Satisfies
      (fun result reached =>
        Booted (∃ code, .fail code ∈ verdicts) nvs result.1 result.2 reached)
      (Interrupted nvs) := by
    by_cases failing : ∃ code, .fail code ∈ verdicts
    · exact (storeInit_cases writesMayFail rfl rfl nvs verdicts).imp
        (fun _ _ => Booted.imp fun _ => failing)
    · rw [run_of_unfailing writesMayFail (not_exists.mp failing)]
      exact (storeInit_cases (fun _ => false) rfl rfl nvs verdicts).imp
        (fun _ _ => Booted.imp fun ⟨_, allowed⟩ => nomatch allowed)
  rw [powerOn]
  cases ended : run writesMayFail (storeInit StoreRam.zero) nvs verdicts with
  | done result reached left =>
      rw [ended] at ways
      exact .inl ⟨reached, result.1, result.2, rfl, ways⟩
  | cut reached =>
      rw [ended] at ways
      exact .inr ⟨reached, rfl, ways⟩

theorem powerOn_undisturbed (nvs : Nvs) :
    ∃ reached ram, powerOn nvs [] = (⟨reached, some ram⟩, .booted 0) ∧
      Booted False nvs ram 0 reached := by
  rcases powerOn_cases nvs [] with ⟨reached, ram, err, ended, way⟩ | ⟨reached, ended, _⟩
  · cases way with
    | resumed current => exact ⟨_, _, ended, .resumed current⟩
    | migrated other => exact ⟨_, _, ended, .migrated other⟩
    | failed allowed => exact absurd allowed (by simp)
  · obtain ⟨result, last, done⟩ := run_nil writesMayFail (storeInit StoreRam.zero) nvs
    rw [powerOn, done] at ended
    cases ended

/-! ## What a step can do -/

inductive DeviceStep : Device → DeviceEvent → Device → DeviceOutput → Prop where
  | booted {nvs reached : Nvs} {verdicts : List (Verdict Nat)} {ram : StoreRam} {err : Int}
      (way : Booted (∃ code, .fail code ∈ verdicts) nvs ram err reached) :
      DeviceStep ⟨nvs, none⟩ (.boot verdicts) ⟨reached, some ram⟩ (.booted err)
  | interrupted {nvs reached : Nvs} {verdicts : List (Verdict Nat)}
      (way : Interrupted nvs reached) :
      DeviceStep ⟨nvs, none⟩ (.boot verdicts) ⟨reached, none⟩ .lost
  | appended {nvs : Nvs} {ram : StoreRam} {record : SntlRecord} {uptime : Nat}
      {slot counter : Verdict Nat} {next : Device} {output : DeviceOutput}
      (way : Appended nvs ram (stamped ram record uptime) slot counter next output) :
      DeviceStep ⟨nvs, some ram⟩ (.append record uptime slot counter) next output
  | got {nvs : Nvs} {ram : StoreRam} (seq : UInt32) :
      DeviceStep ⟨nvs, some ram⟩ (.get seq) ⟨nvs, some ram⟩ (.got (storeGet ram nvs seq))
  | cut {nvs : Nvs} {ram : StoreRam} : DeviceStep ⟨nvs, some ram⟩ .cut ⟨nvs, none⟩ .lost

theorem deviceMachine_step {device next : Device} {event : DeviceEvent} {output : DeviceOutput}
    (stepped : deviceMachine.step device event = some (next, output)) :
    DeviceStep device event next output := by
  obtain ⟨nvs, ram⟩ := device
  cases ram with
  | none =>
      cases event with
      | boot verdicts =>
          have result : powerOn nvs verdicts = (next, output) := Option.some.inj stepped
          rcases powerOn_cases nvs verdicts with
            ⟨reached, ram, err, ended, way⟩ | ⟨reached, ended, way⟩
          · rw [ended] at result
            cases result
            exact .booted way
          · rw [ended] at result
            cases result
            exact .interrupted way
      | _ => cases stepped
  | some ram =>
      cases event with
      | append record uptime slot counter =>
          have result : appendOnce nvs ram record uptime slot counter = (next, output) :=
            Option.some.inj stepped
          have way := appendOnce_spec nvs ram record uptime slot counter
          rw [result] at way
          exact .appended way
      | get seq =>
          cases stepped
          exact .got seq
      | cut =>
          cases stepped
          exact .cut
      | boot verdicts => cases stepped

end PresenceNode.Store
