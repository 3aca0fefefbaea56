import PresenceNode.Store.Recovery

/-!
# Seqs across a format migration

A migration must neither lose the counter nor forget that the seqs below it
are erased.  It keeps the counter in RAM only, from its clear to its last
write, and it counts as finished from its first write on.  A later boot still
goes on where the older firmware stopped if the counter that it finds is not
an older one, and, under the new format, if it finds the floor or a ring that
lies above it.
-/

namespace PresenceNode.Store

open Library Flash LittleEndian PresenceNode.Frame

/-- The boot finds a counter that is high enough, and a floor or a ring that lies above it. -/
structure Intact (least : Nat) (nvs : Nvs) : Prop where
  counter : least ≤ (heldMeta nvs).nextSeq.toNat
  range : heldFormat nvs = nvsFormat →
    least ≤ (heldFloor nvs).toNat ∨ least + storeCapacity ≤ (heldMeta nvs).nextSeq.toNat

structure RamAhead (least : Nat) (ram : StoreRam) : Prop where
  counter : least ≤ ram.storeMeta.nextSeq.toNat
  range : least ≤ ram.floorSeq.toNat ∨ least + storeCapacity ≤ ram.storeMeta.nextSeq.toNat

/-- Every boot finds what it needs, and the counter does not reach 2 ^ 32. -/
def Careful (least : Nat) (device : Device) : DeviceEvent → Prop
  | .boot _ => Intact least device.nvs
  | event => Numbered device event

/-- No append is numbered below, and nothing below is in the range of the store. -/
def SeqKept (least : Nat) (device : Device) (outputs : List DeviceOutput) : Prop :=
  (∀ record err, .appended record err ∈ outputs → least ≤ record.seq.toNat) ∧
    ∀ ram, device.ram = some ram → least ≤ (storeOldestSeq ram).toNat

theorem Intact.older {nvs : Nvs} (other : heldFormat nvs ≠ nvsFormat) :
    Intact (heldMeta nvs).nextSeq.toNat nvs where
  counter := Nat.le_refl _
  range := fun current => absurd current other

/-! ## Statics -/

/-- A boot that finds what it needs goes on where the counter was. -/
theorem RamAhead.booted {least : Nat} {fallible : Prop} {nvs reached : Nvs} {ram : StoreRam}
    {err : Int} (intact : Intact least nvs) (booted : Booted fallible nvs ram err reached) :
    RamAhead least ram := by
  have high := intact.counter
  cases booted with
  | resumed current => exact ⟨high, intact.range current⟩
  | migrated other => exact ⟨high, .inl high⟩
  | failed _ other reached stopped => exact ⟨high, .inl high⟩

theorem RamAhead.counted {least : Nat} {ram : StoreRam} (ramAhead : RamAhead least ram)
    (bounded : (storeNextSeq ram).toNat + 1 < 2 ^ 32) (record : SntlRecord) :
    RamAhead least (advanced ram record) := by
  have sum : (advanced ram record).storeMeta.nextSeq.toNat = ram.storeMeta.nextSeq.toNat + 1 :=
    next_toNat bounded
  constructor
  · rw [sum]
    exact Nat.le_succ_of_le ramAhead.counter
  · rw [sum]
    exact ramAhead.range.imp id Nat.le_succ_of_le

theorem RamAhead.oldest {least : Nat} {ram : StoreRam} (ramAhead : RamAhead least ram) :
    least ≤ (storeOldestSeq ram).toNat := by
  rw [storeOldestSeq_toNat]
  rcases ramAhead.range with floor | ring
  · exact Nat.le_trans floor (Nat.le_max_left _ _)
  · exact Nat.le_trans (Nat.le_sub_of_add_le ring) (Nat.le_max_right _ _)

def DeviceAhead (least : Nat) (device : Device) : Prop :=
  ∀ ram, device.ram = some ram → RamAhead least ram

theorem DeviceAhead.off (least : Nat) (nvs : Nvs) : DeviceAhead least ⟨nvs, none⟩ := by
  intro ram powered
  cases powered

theorem DeviceAhead.on {least : Nat} {ram : StoreRam} (ahead : RamAhead least ram) (nvs : Nvs) :
    DeviceAhead least ⟨nvs, some ram⟩ := by
  intro other powered
  cases powered
  exact ahead

theorem RamAhead.appended {least : Nat} {nvs : Nvs} {ram : StoreRam}
    (ahead : RamAhead least ram) {record : SntlRecord} {slot counter : Verdict Nat}
    {next : Device} {output : DeviceOutput}
    (appended : Appended nvs ram record slot counter next output)
    (bounded : (storeNextSeq ram).toNat + 1 < 2 ^ 32) : DeviceAhead least next := by
  cases appended with
  | unwritten kept => exact DeviceAhead.off least _
  | refused code => exact DeviceAhead.on ahead _
  | torn kept => exact DeviceAhead.off least _
  | uncounted code => exact DeviceAhead.on (ahead.counted bounded record) _
  | counted => exact DeviceAhead.on (ahead.counted bounded record) _

/-- One step stays ahead, and numbers no record below. -/
theorem DeviceAhead.step {least : Nat} {device next : Device} {event : DeviceEvent}
    {output : DeviceOutput} (ahead : DeviceAhead least device)
    (careful : Careful least device event) (step : DeviceStep device event next output) :
    DeviceAhead least next ∧
      ∀ record err, output = .appended record err → least ≤ record.seq.toNat := by
  cases step with
  | booted way =>
      exact ⟨DeviceAhead.on (RamAhead.booted careful way) _, fun _ _ same => nomatch same⟩
  | interrupted way => exact ⟨DeviceAhead.off least _, fun _ _ same => nomatch same⟩
  | got seq => exact ⟨ahead, fun _ _ same => nomatch same⟩
  | cut => exact ⟨DeviceAhead.off least _, fun _ _ same => nomatch same⟩
  | appended way =>
      have before := ahead _ rfl
      refine ⟨before.appended way (careful _ rfl), ?_⟩
      rintro record err rfl
      cases way with
      | _ => exact before.counter

theorem deviceMachine_ahead {least : Nat} {nvs : Nvs} {events : List DeviceEvent}
    {device : Device} {outputs : List DeviceOutput}
    (careful : deviceMachine.Guarded (Careful least) ⟨nvs, none⟩ events)
    (ran : deviceMachine.run ⟨nvs, none⟩ events = some (device, outputs)) :
    SeqKept least device outputs := by
  have preserved : ∀ (_ : List DeviceEvent) outputs device event next output,
      (DeviceAhead least device ∧
        ∀ record err, .appended record err ∈ outputs → least ≤ record.seq.toNat) →
      Careful least device event → deviceMachine.step device event = some (next, output) →
      DeviceAhead least next ∧
        ∀ record err, .appended record err ∈ outputs ++ [output] → least ≤ record.seq.toNat := by
    rintro _ outputs device event next output ⟨ahead, numbers⟩ guard stepped
    obtain ⟨after, numbered⟩ := ahead.step guard (deviceMachine_step stepped)
    refine ⟨after, fun record err member => ?_⟩
    rcases List.mem_append.mp member with earlier | last
    · exact numbers record err earlier
    · exact numbered record err (List.mem_singleton.mp last).symm
  have start : DeviceAhead least ⟨nvs, none⟩ ∧
      ∀ record err, .appended record err ∈ ([] : List DeviceOutput) → least ≤ record.seq.toNat :=
    ⟨DeviceAhead.off least nvs, by simp⟩
  obtain ⟨ahead, numbers⟩ := Machine.run_invariant preserved start careful ran
  exact ⟨numbers, fun ram powered => (ahead ram powered).oldest⟩

/-! ## Entries -/

/-- The new format is there with all that a boot needs, and the statics are not below it. -/
structure Through (least : Nat) (device : Device) : Prop where
  current : heldFormat device.nvs = nvsFormat
  intact : Intact least device.nvs
  powered : ∀ ram, device.ram = some ram →
    (heldMeta device.nvs).nextSeq.toNat ≤ ram.storeMeta.nextSeq.toNat

theorem Intact.filled {least : Nat} {nvs : Nvs} (intact : Intact least nvs)
    (record : SntlRecord) : Intact least (withRecord nvs record) := by
  constructor
  · rw [heldMeta_withRecord]
    exact intact.counter
  · rw [heldFormat_withRecord, heldFloor_withRecord, heldMeta_withRecord]
    exact intact.range

theorem Intact.counted {least : Nat} {nvs : Nvs} (intact : Intact least nvs) {m : StoreMeta}
    (higher : (heldMeta nvs).nextSeq.toNat ≤ m.nextSeq.toNat) :
    Intact least (withCounter nvs m) := by
  constructor
  · rw [heldMeta_withCounter]
    exact Nat.le_trans intact.counter higher
  · rw [heldFormat_withCounter, heldFloor_withCounter, heldMeta_withCounter]
    exact fun current => (intact.range current).imp id fun ring => Nat.le_trans ring higher

theorem Through.off {least : Nat} {nvs : Nvs} (current : heldFormat nvs = nvsFormat)
    (intact : Intact least nvs) : Through least ⟨nvs, none⟩ where
  current := current
  intact := intact
  powered := by
    intro ram powered
    cases powered

theorem Through.on {least : Nat} {nvs : Nvs} {ram : StoreRam}
    (current : heldFormat nvs = nvsFormat) (intact : Intact least nvs)
    (level : (heldMeta nvs).nextSeq.toNat ≤ ram.storeMeta.nextSeq.toNat) :
    Through least ⟨nvs, some ram⟩ where
  current := current
  intact := intact
  powered := by
    intro other powered
    cases powered
    exact level

theorem Through.appended {least : Nat} {nvs : Nvs} {ram : StoreRam}
    (through : Through least ⟨nvs, some ram⟩) {record : SntlRecord} {slot counter : Verdict Nat}
    {next : Device} {output : DeviceOutput}
    (appended : Appended nvs ram record slot counter next output)
    (bounded : (storeNextSeq ram).toNat + 1 < 2 ^ 32) : Through least next := by
  have current : heldFormat (withRecord nvs record) = nvsFormat :=
    (heldFormat_withRecord nvs record).trans through.current
  have filled : Intact least (withRecord nvs record) := through.intact.filled record
  have level : (heldMeta (withRecord nvs record)).nextSeq.toNat ≤
      (advanced ram record).storeMeta.nextSeq.toNat := by
    have sum : (advanced ram record).storeMeta.nextSeq.toNat = ram.storeMeta.nextSeq.toNat + 1 :=
      next_toNat bounded
    rw [heldMeta_withRecord, sum]
    exact Nat.le_succ_of_le (through.powered ram rfl)
  cases appended with
  | unwritten kept => exact Through.off through.current through.intact
  | refused code => exact through
  | torn kept => exact Through.off current filled
  | uncounted code => exact Through.on current filled level
  | counted =>
      refine Through.on ((heldFormat_withCounter _ _).trans current) (filled.counted level) ?_
      rw [heldMeta_withCounter]

theorem Through.step {least : Nat} {device next : Device} {event : DeviceEvent}
    {output : DeviceOutput} (through : Through least device) (numbered : Numbered device event)
    (step : DeviceStep device event next output) : Through least next := by
  cases step with
  | booted way =>
      cases way with
      | resumed current => exact Through.on current through.intact (Nat.le_refl _)
      | migrated other => exact absurd through.current other
      | failed _ other => exact absurd through.current other
  | interrupted way =>
      cases way with
      | untouched => exact through
      | torn other => exact absurd through.current other
      | stopped other => exact absurd through.current other
  | appended way => exact through.appended way (numbered _ rfl)
  | got seq => exact through
  | cut => exact Through.off through.current through.intact

/-- Once the migration is through, no later boot misses anything. -/
theorem Through.careful {least : Nat} {device : Device} {events : List DeviceEvent}
    (through : Through least device) (numbered : deviceMachine.Guarded Numbered device events) :
    deviceMachine.Guarded (Careful least) device events := by
  induction events generalizing device with
  | nil => trivial
  | cons event rest ih =>
      obtain ⟨met, after⟩ := numbered
      refine ⟨?_, fun next output stepped =>
        ih (through.step met (deviceMachine_step stepped)) (after next output stepped)⟩
      cases event with
      | boot verdicts => exact through.intact
      | _ => exact met

/-! ## Runs -/

/-- A boot that misses what it needs is at most one append away from the harm. -/
theorem not_intact_harms {least : Nat} {nvs : Nvs} (missing : ¬ Intact least nvs) :
    ∃ events device outputs, deviceMachine.run ⟨nvs, none⟩ events = some (device, outputs) ∧
      ¬ SeqKept least device outputs := by
  obtain ⟨reached, ram, ended, way⟩ := powerOn_undisturbed nvs
  have booted : deviceMachine.run ⟨nvs, none⟩ [.boot []] =
      some (⟨reached, some ram⟩, [.booted 0]) :=
    Machine.run_cons (congrArg some ended) rfl
  by_cases high : least ≤ (heldMeta nvs).nextSeq.toNat
  · -- the range of the store starts too low
    refine ⟨_, _, _, booted, fun kept => ?_⟩
    have oldest := kept.2 ram rfl
    rw [storeOldestSeq_toNat] at oldest
    cases way with
    | resumed current =>
        have floor : (resumed nvs).floorSeq = heldFloor nvs := rfl
        have counter : (resumed nvs).storeMeta.nextSeq = (heldMeta nvs).nextSeq := rfl
        refine missing ⟨high, fun _ => ?_⟩
        rw [floor, counter] at oldest
        omega
    | migrated other => exact missing ⟨high, fun current => absurd current other⟩
  · -- the next append is numbered too low
    have counter : ram.storeMeta = heldMeta nvs := by
      cases way with
      | resumed _ => rfl
      | migrated _ => rfl
    have appended : deviceMachine.step ⟨reached, some ram⟩ (.append (vacant 0) 0 .ok .ok) = some
        (⟨withCounter (withRecord reached (stamped ram (vacant 0) 0))
          (advanced ram (stamped ram (vacant 0) 0)).storeMeta,
          some (advanced ram (stamped ram (vacant 0) 0))⟩,
          .appended (stamped ram (vacant 0) 0) 0) := rfl
    refine ⟨_, _, _, Machine.run_concat booted appended, fun kept => high ?_⟩
    rw [← counter]
    exact kept.1 (stamped ram (vacant 0) 0) 0 (by simp)

/--
While every boot finds what it needs, no append and no range falls below the
counter that the older firmware left.  A boot that does not find it leads on to
one that does, and from the first boot that finds it under the new format on
every later one does too.
-/
theorem migration_keeps_seqs (nvs : Nvs) {events : List DeviceEvent} {device : Device}
    {outputs : List DeviceOutput}
    (careful : deviceMachine.Guarded (Careful (heldMeta nvs).nextSeq.toNat) ⟨nvs, none⟩ events)
    (ran : deviceMachine.run ⟨nvs, none⟩ events = some (device, outputs)) :
    SeqKept (heldMeta nvs).nextSeq.toNat device outputs ∧
      (device.ram = none → ¬ Intact (heldMeta nvs).nextSeq.toNat device.nvs →
        ∃ later final more, deviceMachine.run device later = some (final, more) ∧
          ¬ SeqKept (heldMeta nvs).nextSeq.toNat final more) ∧
      (device.ram = none → heldFormat device.nvs = nvsFormat →
        Intact (heldMeta nvs).nextSeq.toNat device.nvs →
        ∀ later, deviceMachine.Guarded Numbered device later →
          deviceMachine.Guarded (Careful (heldMeta nvs).nextSeq.toNat) device later) := by
  obtain ⟨entries, ram⟩ := device
  refine ⟨deviceMachine_ahead careful ran, fun off missing => ?_, fun off current intact => ?_⟩
  · cases off
    exact not_intact_harms missing
  · cases off
    exact fun _ => (Through.off current intact).careful

/-- An older firmware with records of 16 bytes stopped at seq 5, one append after seq 4. -/
def olderNvs : Nvs :=
  ((Entries.empty.put nvsIdFormat (bytes16 16)).put nvsIdMeta (metaImage ⟨4, 120⟩)).put nvsIdMeta
    (metaImage ⟨5, 150⟩)

/-- The clear of the first boot is cut when it has erased nothing but the format. -/
def migrationRun : List DeviceEvent :=
  [.boot [.ok, .ok, .ok, .cut fun id _ => id ≠ nvsIdFormat], .boot [],
    .append (vacant 1) 30000 .ok .ok, .cut, .boot []]

theorem migrationRun_careful :
    deviceMachine.Guarded (Careful (heldMeta olderNvs).nextSeq.toNat) ⟨olderNvs, none⟩
      migrationRun := by
  refine Machine.guarded_cons (Intact.older (by decide)) rfl
    (Machine.guarded_cons ⟨by decide, fun current => ?_⟩ rfl
      (Machine.guarded_cons ?_ rfl
        (Machine.guarded_cons trivial rfl
          ⟨⟨by decide, fun _ => .inl (by decide)⟩, fun _ _ _ => trivial⟩)))
  · exact absurd current (by decide)
  · intro ram powered
    cases powered
    decide

theorem migration_keeps_seqs_torn :
    ∃ device outputs, deviceMachine.run ⟨olderNvs, none⟩ migrationRun = some (device, outputs) ∧
      outputs.length = 5 ∧ (heldMeta olderNvs).nextSeq.toNat = 5 ∧ SeqKept 5 device outputs :=
  ⟨_, _, rfl, rfl, rfl, (migration_keeps_seqs olderNvs migrationRun_careful rfl).1⟩

/-- The power is cut at the mount after the clear, before the counter is written again. -/
def lostRun : List DeviceEvent :=
  [.boot [.ok, .ok, .ok, .ok, .cut fun _ _ => true], .boot [],
    .append (vacant 1) 30000 .ok .ok]

/-- The clear is cut when it has erased the format and the newest counter. -/
def staleRun : List DeviceEvent :=
  [.boot [.ok, .ok, .ok, .cut fun id age => id = nvsIdMeta ∧ age = 1], .boot [],
    .append (vacant 1) 30000 .ok .ok]

/-- Without the counter the seqs start at 0 again, with an older one they repeat from there. -/
theorem migration_loses_seqs :
    heldFormat olderNvs ≠ nvsFormat ∧ (heldMeta olderNvs).nextSeq.toNat = 5 ∧
      (∃ device outputs, deviceMachine.run ⟨olderNvs, none⟩ lostRun = some (device, outputs) ∧
        outputs = [.lost, .booted 0, .appended { vacant 1 with ts := 30 } 0] ∧
        ¬ SeqKept 5 device outputs) ∧
      (∃ device outputs, deviceMachine.run ⟨olderNvs, none⟩ staleRun = some (device, outputs) ∧
        outputs = [.lost, .booted 0, .appended { vacant 1 with seq := 4, ts := 150 } 0] ∧
        ¬ SeqKept 5 device outputs) := by
  refine ⟨by decide, rfl, ⟨_, [.lost, .booted 0, .appended { vacant 1 with ts := 30 } 0], rfl, rfl,
    fun kept => ?_⟩, ⟨_, [.lost, .booted 0, .appended { vacant 1 with seq := 4, ts := 150 } 0], rfl,
    rfl, fun kept => ?_⟩⟩
  · exact absurd (kept.1 { vacant 1 with ts := 30 } 0 (by simp)) (by decide)
  · exact absurd (kept.1 { vacant 1 with seq := 4, ts := 150 } 0 (by simp)) (by decide)

end PresenceNode.Store
