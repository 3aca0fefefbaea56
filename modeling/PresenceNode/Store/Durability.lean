import PresenceNode.Library.Ledger
import PresenceNode.Store.Recovery

/-!
# Records that were acknowledged

`store_append` may fail at either of its writes, and the power may be cut at
any of them.  A record is acknowledged when its append returned zero: its
counter is in flash then, so no later append takes its number again, whatever
fails after it.  It is read back until an append writes the number a capacity
above, counted or not.  A number that was not acknowledged may be given to
another record after a reset.
-/

namespace PresenceNode.Store

open Library Flash PresenceNode.Frame

def BootsWell : DeviceEvent → Prop
  | .boot verdicts => ¬ ∃ code, .fail code ∈ verdicts
  | _ => True

def slotWritten (device : Device) : DeviceEvent → Option SntlRecord
  | .append record uptime .ok _ => device.ram.map fun ram => stamped ram record uptime
  | _ => none

def writtenOf (device : Device) (events : List DeviceEvent) : List SntlRecord :=
  deviceMachine.gather slotWritten device events

/--
From its own write on only greater numbers are written, and the record is read
until the number a capacity above is among them, unless the floor hides it.
-/
def Lasts (written : List SntlRecord) (ram : StoreRam) (nvs : Nvs) (record : SntlRecord) : Prop :=
  ∃ before after, written = before ++ record :: after ∧
    (∀ later ∈ after, record.seq < later.seq) ∧
    storeGet ram nvs record.seq =
      if record.seq < ram.floorSeq ∨
          ∃ later ∈ after, later.seq.toNat = record.seq.toNat + storeCapacity then none
      else some record

/-! ## Booked entries -/

/-- The slots have what was written, and the log is booked by the counter in flash. -/
structure Booked (log written : List SntlRecord) (floor next : UInt32) (nvs : Nvs) : Prop where
  current : heldFormat nvs = nvsFormat
  hides : heldFloor nvs = floor
  slots : slotsOf nvs = Ring.fillAll storeCapacity seqOf (fun _ => none) written
  ledger : Ring.Ledger seqOf written log floor.toNat (heldMeta nvs).nextSeq.toNat next.toNat

namespace Booked

variable {log written : List SntlRecord} {floor next : UInt32} {nvs : Nvs}

theorem empty (current : heldFormat nvs = nvsFormat) (blank : ∀ index, slotsOf nvs index = none)
    (hidden : (heldMeta nvs).nextSeq.toNat ≤ (heldFloor nvs).toNat) :
    Booked [] [] (heldFloor nvs) (heldMeta nvs).nextSeq nvs where
  current := current
  hides := rfl
  slots := funext blank
  ledger := Ring.Ledger.empty (Nat.le_refl _) hidden

theorem reset (booked : Booked log written floor next nvs) :
    Booked log written (heldFloor nvs) (heldMeta nvs).nextSeq nvs where
  current := booked.current
  hides := rfl
  slots := booked.slots
  ledger := by
    rw [booked.hides]
    exact booked.ledger.back

theorem filled (booked : Booked log written floor next nvs) {record : SntlRecord}
    (number : record.seq = next) (bounded : next.toNat + 1 < 2 ^ 32) :
    Booked log (written ++ [record]) floor (next + 1) (withRecord nvs record) where
  current := (heldFormat_withRecord nvs record).trans booked.current
  hides := (heldFloor_withRecord nvs record).trans booked.hides
  slots := by rw [slotsOf_withRecord, Ring.fillAll_concat, booked.slots]
  ledger := by
    rw [heldMeta_withRecord, next_toNat bounded]
    exact booked.ledger.write (congrArg UInt32.toNat number)

theorem counted (booked : Booked log written floor next nvs) {record : SntlRecord}
    (number : record.seq = next) (bounded : next.toNat + 1 < 2 ^ 32) {baseSec : UInt32} :
    Booked (log ++ [record]) (written ++ [record]) floor (next + 1)
      (withCounter (withRecord nvs record) ⟨next + 1, baseSec⟩) where
  current := (heldFormat_withCounter _ _).trans (booked.filled number bounded).current
  hides := (heldFloor_withCounter _ _).trans (booked.filled number bounded).hides
  slots := (slotsOf_withCounter _ _).trans (booked.filled number bounded).slots
  ledger := by
    rw [heldMeta_withCounter, next_toNat bounded]
    exact booked.ledger.book (congrArg UInt32.toNat number)

variable {ram : StoreRam}

/-- A record below the counter is read until its slot is taken, unless the floor hides it. -/
theorem lasts (booked : Booked log written ram.floorSeq ram.storeMeta.nextSeq nvs)
    {before after : List SntlRecord} {record : SntlRecord}
    (split : written = before ++ record :: after)
    (climbs : Ring.Climbs seqOf record ram.storeMeta.nextSeq.toNat after)
    (below : seqOf record < ram.storeMeta.nextSeq.toNat) : Lasts written ram nvs record := by
  refine ⟨before, after, split,
    fun later inside => UInt32.lt_iff_toNat_lt.mpr (climbs.newer later inside), ?_⟩
  have own : Ring.fillAll storeCapacity seqOf (fun _ => none) (before ++ [record])
      (seqOf record % storeCapacity) = some record := by
    rw [Ring.fillAll_concat, Function.update_self]
  have slots : slotsOf nvs = Ring.fillAll storeCapacity seqOf
      (Ring.fillAll storeCapacity seqOf (fun _ => none) (before ++ [record])) after := by
    rw [booked.slots, ← Ring.fillAll_append, split, List.append_assoc, List.singleton_append]
  rw [storeGet_eq, slots]
  rcases climbs.find_cases own with ⟨found, kept⟩ | ⟨lost, taken⟩
  · have near := climbs.next_le (by decide : 0 < storeCapacity) kept
    have free : ¬ ∃ later ∈ after, later.seq.toNat = record.seq.toNat + storeCapacity :=
      fun ⟨later, inside, same⟩ => kept later inside same
    by_cases hidden : record.seq < ram.floorSeq
    · have under := UInt32.lt_iff_toNat_lt.mp hidden
      rw [if_neg (fun inside => absurd inside.2.1 (Nat.not_le_of_lt under)), if_pos (.inl hidden)]
    · have above := UInt32.le_iff_toNat_le.mp (UInt32.not_lt.mp hidden)
      rw [if_pos ⟨below, above, near⟩, if_neg (not_or.mpr ⟨hidden, free⟩)]
      exact found
  · exact (ite_eq_right_iff.mpr fun _ => lost).trans (if_pos (.inr taken)).symm

theorem acknowledged (booked : Booked log written ram.floorSeq ram.storeMeta.nextSeq nvs)
    {record : SntlRecord} (member : record ∈ log) :
    record.seq < storeNextSeq ram ∧ Lasts written ram nvs record := by
  have below : seqOf record < ram.storeMeta.nextSeq.toNat :=
    Nat.lt_of_lt_of_le (booked.ledger.below record member) booked.ledger.order
  obtain ⟨before, after, split, climbs⟩ := booked.ledger.kept record member
  exact ⟨UInt32.lt_iff_toNat_lt.mpr below, booked.lasts split climbs below⟩

/-- Every number from the floor to the counter has a record of its own. -/
theorem numbered (booked : Booked log written ram.floorSeq ram.storeMeta.nextSeq nvs)
    {seq : UInt32} (above : ram.floorSeq ≤ seq) (below : seq < storeNextSeq ram) :
    ∃ record, record.seq = seq ∧ Lasts written ram nvs record := by
  have before : seq.toNat < ram.storeMeta.nextSeq.toNat := UInt32.lt_iff_toNat_lt.mp below
  obtain ⟨_, record, _, split, same, climbs⟩ :=
    booked.ledger.placed seq.toNat (UInt32.le_iff_toNat_le.mp above) before
  exact ⟨record, UInt32.toNat_inj.mp same, booked.lasts split climbs (same ▸ before)⟩

end Booked

theorem storeGet_outside {ram : StoreRam} (nvs : Nvs) {seq : UInt32}
    (outside : seq < ram.floorSeq ∨ storeNextSeq ram ≤ seq) : storeGet ram nvs seq = none := by
  rw [storeGet_eq, if_neg]
  rintro ⟨before, above, _⟩
  rcases outside with hidden | late
  · exact absurd above (Nat.not_le_of_lt (UInt32.lt_iff_toNat_lt.mp hidden))
  · exact absurd before (Nat.not_lt_of_le (UInt32.le_iff_toNat_le.mp late))

theorem Booked.read {log written : List SntlRecord} {ram : StoreRam} {nvs : Nvs}
    (booked : Booked log written ram.floorSeq ram.storeMeta.nextSeq nvs) {seq : UInt32}
    {record : SntlRecord} (given : storeGet ram nvs seq = some record) :
    record.seq = seq ∧ record ∈ written := by
  have inside : ¬ (seq < ram.floorSeq ∨ storeNextSeq ram ≤ seq) := by
    intro outside
    cases given.symm.trans (storeGet_outside nvs outside)
  obtain ⟨above, below⟩ := not_or.mp inside
  obtain ⟨other, rfl, before, after, split, _, answer⟩ :=
    booked.numbered (UInt32.not_lt.mp above) (UInt32.not_le.mp below)
  rw [given] at answer
  split at answer
  · cases answer
  · cases answer
    exact ⟨rfl, by simp [split]⟩

/-! ## Runs -/

/-- Nothing has been written yet, or the entries are booked. -/
def Durable (log written : List SntlRecord) (device : Device) : Prop :=
  match device.ram with
  | none => (Foreign device.nvs ∧ log = [] ∧ written = []) ∨
      Booked log written (heldFloor device.nvs) (heldMeta device.nvs).nextSeq device.nvs
  | some ram => Booked log written ram.floorSeq ram.storeMeta.nextSeq device.nvs

theorem Durable.booted {log written : List SntlRecord} {nvs reached : Nvs} {ram : StoreRam}
    {err : Int} (durable : Durable log written ⟨nvs, none⟩)
    (booted : Booted False nvs ram err reached) : Durable log written ⟨reached, some ram⟩ := by
  cases booted with
  | resumed current =>
      rcases durable with ⟨foreign, _⟩ | booked
      · exact absurd current foreign.other
      · exact booked
  | migrated other =>
      rcases durable with ⟨_, rfl, rfl⟩ | booked
      · have booked : Booked [] [] (heldFloor (migrated (heldMeta nvs))) _ _ :=
          Booked.empty (heldFormat_migrated (heldMeta nvs))
            (slotsOf_reached (heldMeta nvs) (by simp)) (by simp)
        rwa [heldFloor_migrated, heldMeta_migrated] at booked
      · exact absurd booked.current other
  | failed allowed => exact allowed.elim

theorem Durable.interrupted {log written : List SntlRecord} {nvs reached : Nvs}
    (durable : Durable log written ⟨nvs, none⟩) (interrupted : Interrupted nvs reached) :
    Durable log written ⟨reached, none⟩ := by
  cases interrupted with
  | untouched => exact durable
  | torn other kept =>
      rcases durable with ⟨foreign, empty⟩ | booked
      · exact .inl ⟨foreign.survivors kept, empty⟩
      · exact absurd booked.current other
  | stopped other _ member =>
      rcases durable with ⟨_, rfl, rfl⟩ | booked
      · have blank := slotsOf_reached (heldMeta nvs) (List.mem_append_left [migrated _] member)
        simp only [List.mem_cons, List.not_mem_nil, or_false] at member
        rcases member with rfl | rfl | rfl
        · exact .inl ⟨foreign_cleared, rfl, rfl⟩
        · exact .inr (Booked.empty heldFormat_formatted blank (Nat.zero_le _))
        · exact .inr (Booked.empty (heldFormat_floored _) blank (Nat.zero_le _))
      · exact absurd booked.current other

theorem Durable.appended {log written : List SntlRecord} {nvs : Nvs} {ram : StoreRam}
    (durable : Durable log written ⟨nvs, some ram⟩) {record : SntlRecord} {uptime : Nat}
    {slot counter : Verdict Nat} {next : Device} {output : DeviceOutput}
    (appended : Appended nvs ram (stamped ram record uptime) slot counter next output)
    (bounded : (storeNextSeq ram).toNat + 1 < 2 ^ 32) :
    Durable (log ++ logOf [output])
      (written ++ (slotWritten ⟨nvs, some ram⟩ (.append record uptime slot counter)).toList)
      next := by
  have booked : Booked log written ram.floorSeq ram.storeMeta.nextSeq nvs := durable
  cases appended with
  | unwritten kept =>
      rw [log_quiet log rfl]
      exact .inr (by simpa [slotWritten] using booked.reset)
  | refused code =>
      rw [log_quiet log rfl]
      simpa [slotWritten] using durable
  | torn kept =>
      rw [log_quiet log rfl]
      exact .inr (booked.filled rfl bounded).reset
  | uncounted code =>
      rw [log_quiet log rfl]
      exact booked.filled rfl bounded
  | counted =>
      rw [log_loud log rfl]
      exact booked.counted rfl bounded

theorem Durable.step {log written : List SntlRecord} {device next : Device} {event : DeviceEvent}
    {output : DeviceOutput} (durable : Durable log written device) (boots : BootsWell event)
    (numbered : Numbered device event) (step : DeviceStep device event next output) :
    Durable (log ++ logOf [output]) (written ++ (slotWritten device event).toList) next := by
  cases step with
  | booted way =>
      rw [log_quiet log rfl]
      simpa [slotWritten] using durable.booted (way.imp boots)
  | interrupted way =>
      rw [log_quiet log rfl]
      simpa [slotWritten] using durable.interrupted way
  | appended way => exact durable.appended way (numbered _ rfl)
  | got seq =>
      rw [log_quiet log rfl]
      simpa [slotWritten] using durable
  | cut =>
      rw [log_quiet log rfl]
      exact .inr (by simpa [slotWritten] using Booked.reset durable)

/-- The run rule for devices that start without a record of the current format. -/
theorem deviceMachine_durable {nvs : Nvs} (foreign : Foreign nvs)
    {events : List DeviceEvent} {device : Device} {outputs : List DeviceOutput}
    (boots : deviceMachine.Guarded (fun _ event => BootsWell event) ⟨nvs, none⟩ events)
    (numbered : deviceMachine.Guarded Numbered ⟨nvs, none⟩ events)
    (ran : deviceMachine.run ⟨nvs, none⟩ events = some (device, outputs)) :
    Durable (logOf outputs) (writtenOf ⟨nvs, none⟩ events) device := by
  have preserved : ∀ history outputs device event next output,
      (deviceMachine.run ⟨nvs, none⟩ history = some (device, outputs) ∧
        Durable (logOf outputs) (writtenOf ⟨nvs, none⟩ history) device) →
      BootsWell event ∧ Numbered device event →
      deviceMachine.step device event = some (next, output) →
      deviceMachine.run ⟨nvs, none⟩ (history ++ [event]) = some (next, outputs ++ [output]) ∧
        Durable (logOf (outputs ++ [output])) (writtenOf ⟨nvs, none⟩ (history ++ [event]))
          next := by
    rintro history outputs device event next output ⟨before, durable⟩ ⟨well, fits⟩ stepped
    refine ⟨Machine.run_concat before stepped, ?_⟩
    rw [logOf_append, writtenOf, Machine.gather_concat slotWritten before]
    exact durable.step well fits (deviceMachine_step stepped)
  have start : deviceMachine.run ⟨nvs, none⟩ [] = some (⟨nvs, none⟩, []) ∧
      Durable [] [] ⟨nvs, none⟩ := ⟨rfl, .inl ⟨foreign, rfl, rfl⟩⟩
  exact (Machine.run_invariant preserved start (boots.imp (fun _ _ => And.intro) numbered) ran).2

/--
Whatever appends fail and wherever the power is cut, the records whose append
returned zero have increasing seqs, and each of them is read back until the
seq a capacity above is written.  Every other seq from the floor to the counter
answers for the last record that was written with it, and none outside answers.
-/
theorem acknowledged_records_last (nvs : Nvs) (foreign : Foreign nvs)
    {events : List DeviceEvent} {device : Device} {outputs : List DeviceOutput}
    (boots : deviceMachine.Guarded (fun _ event => BootsWell event) ⟨nvs, none⟩ events)
    (numbered : deviceMachine.Guarded Numbered ⟨nvs, none⟩ events)
    (ran : deviceMachine.run ⟨nvs, none⟩ events = some (device, outputs)) :
    (logOf outputs).Pairwise (fun first second => first.seq < second.seq) ∧
      ∀ ram, device.ram = some ram →
        (∀ record ∈ logOf outputs, record.seq < storeNextSeq ram ∧
          Lasts (writtenOf ⟨nvs, none⟩ events) ram device.nvs record) ∧
        (∀ seq, ram.floorSeq ≤ seq → seq < storeNextSeq ram → ∃ record, record.seq = seq ∧
          Lasts (writtenOf ⟨nvs, none⟩ events) ram device.nvs record) ∧
        ∀ seq, seq < ram.floorSeq ∨ storeNextSeq ram ≤ seq →
          storeGet ram device.nvs seq = none := by
  have durable := deviceMachine_durable foreign boots numbered ran
  obtain ⟨entries, powered⟩ := device
  constructor
  · cases powered with
    | none =>
        rcases durable with ⟨_, empty, _⟩ | booked
        · rw [empty]
          exact List.Pairwise.nil
        · exact booked.ledger.increasing.imp UInt32.lt_iff_toNat_lt.mpr
    | some ram =>
        have booked : Booked _ _ ram.floorSeq ram.storeMeta.nextSeq entries := durable
        exact booked.ledger.increasing.imp UInt32.lt_iff_toNat_lt.mpr
  · intro ram same
    cases same
    have booked : Booked _ _ ram.floorSeq ram.storeMeta.nextSeq entries := durable
    exact ⟨fun record member => booked.acknowledged member,
      fun seq above below => booked.numbered above below,
      fun seq outside => storeGet_outside entries outside⟩

def troubledRun : List DeviceEvent :=
  [.boot [], .append (vacant 1) 30000 .ok (.fail 4), .append (vacant 2) 60000 .ok .ok,
    .append (vacant 3) 90000 (.fail 4) .ok, .append (vacant 4) 120000 .ok (.cut fun _ _ => true),
    .boot [], .append (vacant 5) 500 .ok .ok]

theorem acknowledged_records_last_troubled :
    ∃ device outputs,
      deviceMachine.run ⟨.empty, none⟩ troubledRun = some (device, outputs) ∧
      (logOf outputs).map seqOf = [1, 2] ∧
      (writtenOf ⟨.empty, none⟩ troubledRun).map seqOf = [0, 1, 2, 2] ∧
      ∀ ram, device.ram = some ram → ∀ record ∈ logOf outputs,
        record.seq < storeNextSeq ram ∧
          Lasts (writtenOf ⟨.empty, none⟩ troubledRun) ram device.nvs record := by
  refine ⟨_, _, rfl, rfl, rfl, fun ram powered => ?_⟩
  refine ((acknowledged_records_last .empty (by decide) ?_ ?_ rfl).2 ram powered).1
  · exact Machine.guarded_of_inputs (by simp [troubledRun, BootsWell]) _
  · refine Machine.guarded_cons trivial rfl (Machine.guarded_cons ?_ rfl
      (Machine.guarded_cons ?_ rfl (Machine.guarded_cons ?_ rfl (Machine.guarded_cons ?_ rfl
        (Machine.guarded_cons trivial rfl ⟨?_, fun _ _ _ => trivial⟩)))))
    all_goals
      intro ram powered
      cases powered
      decide

end PresenceNode.Store
