import PresenceNode.Store.Log

/-!
# Runs of the device refine the log

The log of a run is made of the appends that it reported as successful.  Power
cuts between any two writes leave the device consistent with that log, so
after every run the store answers for the end of the log, and nothing else was
ever given to a reader.
-/

namespace PresenceNode.Store

open Library Flash PresenceNode.Frame

def DeviceOutput.logged : DeviceOutput → Option SntlRecord
  | .appended record err => if err = 0 then some record else none
  | _ => none

/-- The record that a step gave to somebody: to its appender or to a reader. -/
def DeviceOutput.given : DeviceOutput → Option SntlRecord
  | .got result => result
  | output => output.logged

def logOf (outputs : List DeviceOutput) : List SntlRecord := outputs.filterMap DeviceOutput.logged

def givenOf (outputs : List DeviceOutput) : List SntlRecord := outputs.filterMap DeviceOutput.given

theorem logOf_append (first second : List DeviceOutput) :
    logOf (first ++ second) = logOf first ++ logOf second := List.filterMap_append

theorem log_quiet (log : List SntlRecord) {output : DeviceOutput} (quiet : output.logged = none) :
    log ++ logOf [output] = log := by
  simp [logOf, quiet]

theorem log_loud (log : List SntlRecord) {output : DeviceOutput} {record : SntlRecord}
    (loud : output.logged = some record) : log ++ logOf [output] = log ++ [record] := by
  simp [logOf, loud]

def Unfailing : DeviceEvent → Prop
  | .boot verdicts => ¬ ∃ code, .fail code ∈ verdicts
  | .append _ _ slot counter => ¬ ∃ code, .fail code ∈ [slot, counter]
  | _ => True

/-- No write of a boot fails, and the counter is written whenever its record was. -/
def Recorded : DeviceEvent → Prop
  | .boot verdicts => ¬ ∃ code, .fail code ∈ verdicts
  | .append _ _ slot counter => ¬ ∃ code, slot = .ok ∧ counter = .fail code
  | _ => True

def Numbered (device : Device) : DeviceEvent → Prop
  | .append .. => ∀ ram, device.ram = some ram → (storeNextSeq ram).toNat + 1 < 2 ^ 32
  | _ => True

theorem Unfailing.recorded {event : DeviceEvent} (unfailing : Unfailing event) :
    Recorded event := by
  cases event with
  | append record uptime slot counter =>
      rintro ⟨code, _, rfl⟩
      exact unfailing ⟨code, by simp⟩
  | _ => exact unfailing

/-! ## Boots -/

theorem Foreign.other {nvs : Nvs} (foreign : Foreign nvs) : heldFormat nvs ≠ nvsFormat := by
  rw [heldFormat]
  cases found : nvs nvsIdFormat with
  | none => decide
  | some entry => exact foreign entry (List.mem_of_head? found)

theorem Foreign.survivors {nvs : Nvs} (foreign : Foreign nvs) (kept : Nat → Nat → Bool) :
    Foreign (survivors kept nvs) :=
  fun entry member => foreign entry ((keep_sublist _ _).subset member)

theorem foreign_cleared : Foreign cleared := by decide

/-- A boot without a failed write leaves in flash what it leaves in the statics. -/
theorem Booted.settled {nvs reached : Nvs} {ram : StoreRam} {err : Int}
    (booted : Booted False nvs ram err reached) : Settled ram reached := by
  cases booted with
  | resumed current => exact ⟨current, rfl, rfl⟩
  | migrated other => exact ⟨heldFormat_migrated _, heldMeta_migrated _, heldFloor_migrated _⟩
  | failed allowed => exact allowed.elim

/-- A boot without a failed write leaves the device consistent with the log so far. -/
theorem Consistent.booted {log : List SntlRecord} {nvs reached : Nvs} {ram : StoreRam} {err : Int}
    (consistent : Consistent log ⟨nvs, none⟩) (booted : Booted False nvs ram err reached) :
    Consistent log ⟨reached, some ram⟩ := by
  refine ⟨booted.settled, ?_⟩
  cases booted with
  | resumed current =>
      rcases consistent with ⟨foreign, _⟩ | stored
      · exact absurd current foreign.other
      · exact stored.held
  | migrated other =>
      rcases consistent with ⟨_, rfl⟩ | stored
      · exact Ring.Keeps.empty (Nat.le_refl _) _
      · exact absurd stored.current other
  | failed allowed => exact allowed.elim

theorem Consistent.interrupted {log : List SntlRecord} {nvs reached : Nvs}
    (consistent : Consistent log ⟨nvs, none⟩) (interrupted : Interrupted nvs reached) :
    Consistent log ⟨reached, none⟩ := by
  cases interrupted with
  | untouched => exact consistent
  | torn other kept =>
      rcases consistent with ⟨foreign, empty⟩ | stored
      · exact .inl ⟨foreign.survivors kept, empty⟩
      · exact absurd stored.current other
  | stopped other _ member =>
      rcases consistent with ⟨_, rfl⟩ | stored
      · simp only [List.mem_cons, List.not_mem_nil, or_false] at member
        rcases member with rfl | rfl | rfl
        · exact .inl ⟨foreign_cleared, rfl⟩
        · exact .inr ⟨heldFormat_formatted, Ring.Keeps.empty (Nat.le_refl _) _⟩
        · exact .inr ⟨heldFormat_floored _, Ring.Keeps.empty (Nat.zero_le _) _⟩
      · exact absurd stored.current other

/-! ## Appends -/

theorem Settled.stored {log : List SntlRecord} {ram : StoreRam} {nvs : Nvs}
    (settled : Settled ram nvs) (held : Held log ram.floorSeq ram.storeMeta.nextSeq nvs) :
    Stored log nvs := by
  refine ⟨settled.current, ?_⟩
  rw [settled.floor, settled.counter]
  exact held

theorem Settled.filled {ram : StoreRam} {nvs : Nvs} (settled : Settled ram nvs)
    (record : SntlRecord) : Settled ram (withRecord nvs record) where
  current := (heldFormat_withRecord nvs record).trans settled.current
  counter := (heldMeta_withRecord nvs record).trans settled.counter
  floor := (heldFloor_withRecord nvs record).trans settled.floor

theorem Settled.counted {ram : StoreRam} {nvs : Nvs} (settled : Settled ram nvs)
    (record : SntlRecord) :
    Settled (advanced ram record) (withCounter nvs (advanced ram record).storeMeta) where
  current := (heldFormat_withCounter nvs _).trans settled.current
  counter := heldMeta_withCounter nvs _
  floor := (heldFloor_withCounter nvs _).trans settled.floor

theorem Held.filled {log : List SntlRecord} {floor next : UInt32} {nvs : Nvs}
    (held : Held log floor next nvs) {record : SntlRecord} (number : record.seq = next) :
    Held log floor next (withRecord nvs record) := by
  have here : seqOf record = next.toNat := congrArg UInt32.toNat number
  rw [Held, slotsOf_withRecord, here]
  exact held.fill here

theorem Held.counted {log : List SntlRecord} {floor next : UInt32} {nvs : Nvs}
    (held : Held log floor next nvs) {record : SntlRecord} (number : record.seq = next)
    (bounded : next.toNat + 1 < 2 ^ 32) :
    Held (log ++ [record]) floor (next + 1) (withRecord nvs record) := by
  have here : seqOf record = next.toNat := congrArg UInt32.toNat number
  have counted := (held.filled number).count here (by
    rw [slotsOf_withRecord, here, Function.update_self])
  rw [Held, next_toNat bounded]
  exact counted

theorem Consistent.appended {log : List SntlRecord} {nvs : Nvs} {ram : StoreRam}
    (consistent : Consistent log ⟨nvs, some ram⟩) {record : SntlRecord}
    {slot counter : Verdict Nat} {next : Device} {output : DeviceOutput}
    (appended : Appended nvs ram record slot counter next output)
    (number : record.seq = storeNextSeq ram)
    (recorded : ¬ ∃ code, slot = .ok ∧ counter = .fail code)
    (bounded : (storeNextSeq ram).toNat + 1 < 2 ^ 32) :
    Consistent (log ++ logOf [output]) next := by
  obtain ⟨settled, held⟩ := consistent
  cases appended with
  | unwritten kept =>
      rw [log_quiet log rfl]
      exact .inr (settled.stored held)
  | refused code =>
      rw [log_quiet log rfl]
      exact ⟨settled, held⟩
  | torn kept =>
      rw [log_quiet log rfl]
      exact .inr ((settled.filled record).stored (held.filled number))
  | uncounted code => exact absurd ⟨code, rfl, rfl⟩ recorded
  | counted =>
      rw [log_loud log rfl]
      refine ⟨(settled.filled record).counted record, ?_⟩
      have counted := held.counted number bounded
      rw [Held, ← slotsOf_withCounter] at counted
      exact counted

/-! ## Runs -/

structure Faithful (outputs : List DeviceOutput) (device : Device) : Prop where
  consistent : Consistent (logOf outputs) device
  given : ∀ record ∈ givenOf outputs, record ∈ logOf outputs

theorem Faithful.start {nvs : Nvs} (foreign : Foreign nvs) : Faithful [] ⟨nvs, none⟩ where
  consistent := Or.inl ⟨foreign, rfl⟩
  given := by simp [givenOf]

theorem Consistent.step {log : List SntlRecord} {device next : Device} {event : DeviceEvent}
    {output : DeviceOutput} (consistent : Consistent log device) (recorded : Recorded event)
    (numbered : Numbered device event) (step : DeviceStep device event next output) :
    Consistent (log ++ logOf [output]) next := by
  cases step with
  | booted way =>
      rw [log_quiet log rfl]
      exact consistent.booted (way.imp recorded)
  | interrupted way =>
      rw [log_quiet log rfl]
      exact consistent.interrupted way
  | appended way => exact consistent.appended way rfl recorded (numbered _ rfl)
  | got seq =>
      rw [log_quiet log rfl]
      exact consistent
  | cut =>
      rw [log_quiet log rfl]
      exact .inr (consistent.1.stored consistent.2)

/-- What a step gives is in the log already, or goes into it. -/
theorem Consistent.given {log : List SntlRecord} {device next : Device} {event : DeviceEvent}
    {output : DeviceOutput} (consistent : Consistent log device)
    (step : DeviceStep device event next output) {record : SntlRecord}
    (given : output.given = some record) : record ∈ log ∨ output.logged = some record := by
  cases step with
  | got seq => exact .inl (storeGet_logged consistent.2 given)
  | appended way => cases way <;> exact .inr given
  | _ => exact .inr given

/-- One step keeps the device consistent with the log, and gives nothing that is not in it. -/
theorem Faithful.step {outputs : List DeviceOutput} {device next : Device} {event : DeviceEvent}
    {output : DeviceOutput} (faithful : Faithful outputs device) (recorded : Recorded event)
    (numbered : Numbered device event)
    (stepped : deviceMachine.step device event = some (next, output)) :
    Faithful (outputs ++ [output]) next := by
  have step := deviceMachine_step stepped
  constructor
  · rw [logOf_append]
    exact faithful.consistent.step recorded numbered step
  · intro record member
    rw [logOf_append]
    rw [givenOf, List.filterMap_append] at member
    rcases List.mem_append.mp member with earlier | last
    · exact List.mem_append_left _ (faithful.given record earlier)
    · obtain ⟨_, only, given⟩ := List.mem_filterMap.mp last
      rw [List.mem_singleton.mp only] at given
      rcases faithful.consistent.given step given with old | new
      · exact List.mem_append_left _ old
      · exact List.mem_append_right _
          (List.mem_filterMap.mpr ⟨output, List.mem_singleton_self output, new⟩)

/-- The run rule for devices that start without a record of the current format. -/
theorem deviceMachine_faithful {nvs : Nvs} (foreign : Foreign nvs)
    {events : List DeviceEvent} {device : Device} {outputs : List DeviceOutput}
    (recorded : deviceMachine.Guarded (fun _ event => Recorded event) ⟨nvs, none⟩ events)
    (numbered : deviceMachine.Guarded Numbered ⟨nvs, none⟩ events)
    (ran : deviceMachine.run ⟨nvs, none⟩ events = some (device, outputs)) :
    Faithful outputs device := by
  have preserved : ∀ (_ : List DeviceEvent) outputs device event next output,
      Faithful outputs device → Recorded event ∧ Numbered device event →
      deviceMachine.step device event = some (next, output) →
      Faithful (outputs ++ [output]) next :=
    fun _ _ _ _ _ _ faithful guard stepped => faithful.step guard.1 guard.2 stepped
  exact Machine.run_invariant preserved (Faithful.start foreign)
    (recorded.imp (fun _ _ => And.intro) numbered) ran

theorem Consistent.increasing {log : List SntlRecord} {device : Device}
    (consistent : Consistent log device) :
    log.Pairwise fun first second => seqOf first < seqOf second := by
  obtain ⟨nvs, ram⟩ := device
  cases ram with
  | none =>
      rcases consistent with ⟨_, rfl⟩ | stored
      · exact List.Pairwise.nil
      · exact stored.held.increasing
  | some ram => exact consistent.2.increasing

theorem Faithful.given_unique {outputs : List DeviceOutput} {device : Device}
    (faithful : Faithful outputs device) {first second : SntlRecord}
    (one : first ∈ givenOf outputs) (two : second ∈ givenOf outputs)
    (same : first.seq = second.seq) : first = second :=
  Ring.eq_of_increasing faithful.consistent.increasing (faithful.given first one)
    (faithful.given second two) (congrArg UInt32.toNat same)

/--
The store refines an append-only log across power cuts: the seqs of the log
increase, no seq is ever given to two records, and whenever there is power the
store answers for the end of the log.
-/
theorem store_refines_log (nvs : Nvs) (foreign : Foreign nvs)
    {events : List DeviceEvent} {device : Device} {outputs : List DeviceOutput}
    (unfailing : deviceMachine.Guarded (fun _ event => Unfailing event) ⟨nvs, none⟩ events)
    (numbered : deviceMachine.Guarded Numbered ⟨nvs, none⟩ events)
    (ran : deviceMachine.run ⟨nvs, none⟩ events = some (device, outputs)) :
    (logOf outputs).Pairwise (fun first second => first.seq < second.seq) ∧
      (∀ first ∈ givenOf outputs, ∀ second ∈ givenOf outputs,
        first.seq = second.seq → first = second) ∧
      ∀ ram, device.ram = some ram → Answers (logOf outputs) ram device.nvs := by
  have faithful := deviceMachine_faithful foreign
    (unfailing.imp (fun _ _ atomic _ => atomic.recorded) numbered) numbered ran
  refine ⟨?_, fun first one second two => faithful.given_unique one two, ?_⟩
  · exact faithful.consistent.increasing.imp UInt32.lt_iff_toNat_lt.mpr
  · intro ram powered
    obtain ⟨entries, held⟩ := device
    cases powered
    exact Answers.of_held faithful.consistent.2

/-- A record as the sensors leave it, before `store_append` numbers it. -/
def vacant (headcount : UInt8) : SntlRecord where
  seq := 0
  ts := 0
  headcount := headcount
  occS := 0
  dwellS := 0
  flags := 0
  batt := 0
  pm25 := 0
  pm10 := 0
  temp := 0
  rh := 0
  voc := 0

def tornRun : List DeviceEvent :=
  [.boot [], .append (vacant 1) 30000 .ok .ok, .append (vacant 2) 60000 .ok (.cut fun _ _ => true),
    .boot [], .append (vacant 3) 500 .ok .ok, .get 1]

theorem tornRun_numbered : deviceMachine.Guarded Numbered ⟨.empty, none⟩ tornRun := by
  refine Machine.guarded_cons trivial rfl (Machine.guarded_cons ?_ rfl (Machine.guarded_cons ?_ rfl
    (Machine.guarded_cons trivial rfl (Machine.guarded_cons ?_ rfl
      ⟨trivial, fun _ _ _ => trivial⟩))))
  all_goals
    intro ram powered
    cases powered
    decide

theorem store_refines_log_torn :
    ∃ device outputs, deviceMachine.run ⟨.empty, none⟩ tornRun = some (device, outputs) ∧
      (logOf outputs).length = 2 ∧
      (∀ first ∈ givenOf outputs, ∀ second ∈ givenOf outputs,
        first.seq = second.seq → first = second) ∧
      ∀ ram, device.ram = some ram → Answers (logOf outputs) ram device.nvs := by
  refine ⟨_, _, rfl, rfl, ?_⟩
  exact (store_refines_log .empty (by decide)
    (Machine.guarded_of_inputs (by simp [Unfailing, tornRun]) _) tornRun_numbered rfl).2

end PresenceNode.Store
