import PresenceNode.Store.Recovery

/-!
# Appends that return an error

An append that fails is clean when the store answers as before, now and after
a reboot.  `store_append` counts the record before it writes the counter, so
an append whose record is written and whose counter is not stays visible until
the reboot that takes it back.  As long as this does not happen, every append
that fails is clean, and no seq is given twice.
-/

namespace PresenceNode.Store

open Library Flash PresenceNode.Frame

/-- The store answers as another one: the same counter, and the same records below it. -/
def SameAnswers (ram : StoreRam) (nvs : Nvs) (otherRam : StoreRam) (otherNvs : Nvs) : Prop :=
  storeNextSeq otherRam = storeNextSeq ram ∧
    ∀ seq < storeNextSeq ram, storeGet otherRam otherNvs seq = storeGet ram nvs seq

/-- If the append returns a negative value, it has changed no answer of the store. -/
def FailsClean (nvs : Nvs) (ram : StoreRam) (record : SntlRecord) (uptime : Nat)
    (slot counter : Verdict Nat) : Prop :=
  ∀ reached next written err,
    appendOnce nvs ram record uptime slot counter =
      (⟨reached, some next⟩, .appended written err) →
    err < 0 →
    SameAnswers ram nvs next reached ∧
      ∀ verdicts rebooted reboot result,
        powerOn reached verdicts = (⟨rebooted, some reboot⟩, .booted result) →
        SameAnswers ram nvs reboot rebooted

theorem storeGet_congr {ram otherRam : StoreRam} (nvs : Nvs) (seq : UInt32)
    (counter : otherRam.storeMeta.nextSeq = ram.storeMeta.nextSeq)
    (floor : otherRam.floorSeq = ram.floorSeq) :
    storeGet otherRam nvs seq = storeGet ram nvs seq := by
  rw [storeGet_eq, storeGet_eq, counter, floor]

theorem Settled.reboot {ram reboot : StoreRam} {nvs rebooted : Nvs} (settled : Settled ram nvs)
    {verdicts : List (Verdict Nat)} {result : Int}
    (booted : powerOn nvs verdicts = (⟨rebooted, some reboot⟩, .booted result)) :
    SameAnswers ram nvs reboot rebooted := by
  rcases powerOn_cases nvs verdicts with ⟨_, _, _, ended, way⟩ | ⟨_, ended, _⟩
  · rw [booted] at ended
    cases ended
    cases way with
    | resumed current =>
        have counter : (heldMeta nvs).nextSeq = ram.storeMeta.nextSeq :=
          congrArg StoreMeta.nextSeq settled.counter
        exact ⟨counter, fun seq _ => storeGet_congr nvs seq counter settled.floor⟩
    | migrated other => exact absurd settled.current other
    | failed _ other => exact absurd settled.current other
  · rw [booted] at ended
    cases ended

def SettledDevice (device : Device) : Prop := ∀ ram, device.ram = some ram → Settled ram device.nvs

theorem SettledDevice.step {device next : Device} {event : DeviceEvent} {output : DeviceOutput}
    (settled : SettledDevice device) (recorded : Recorded event)
    (step : DeviceStep device event next output) : SettledDevice next := by
  intro ram powered
  cases step with
  | booted way =>
      cases powered
      exact (way.imp recorded).settled
  | appended way =>
      have before := settled _ rfl
      cases way with
      | refused code =>
          cases powered
          exact before
      | uncounted code => exact absurd ⟨code, rfl, rfl⟩ recorded
      | counted =>
          cases powered
          exact (before.filled _).counted _
      | _ => cases powered
  | got seq => exact settled ram powered
  | _ => cases powered

theorem deviceMachine_settled {nvs : Nvs} {events : List DeviceEvent} {device : Device}
    {outputs : List DeviceOutput}
    (recorded : deviceMachine.Guarded (fun _ event => Recorded event) ⟨nvs, none⟩ events)
    (ran : deviceMachine.run ⟨nvs, none⟩ events = some (device, outputs)) :
    SettledDevice device := by
  have preserved : ∀ (_ : List DeviceEvent) (_ : List DeviceOutput) device event next output,
      SettledDevice device → Recorded event →
      deviceMachine.step device event = some (next, output) → SettledDevice next :=
    fun _ _ _ _ _ _ settled guard stepped => settled.step guard (deviceMachine_step stepped)
  have start : SettledDevice ⟨nvs, none⟩ := by
    intro ram powered
    cases powered
  exact Machine.run_invariant preserved start recorded ran

/-- An append of a settled store fails clean, unless its record is written and not counted. -/
theorem Settled.failsClean_iff {ram : StoreRam} {nvs : Nvs} (settled : Settled ram nvs)
    (record : SntlRecord) (uptime : Nat) (slot counter : Verdict Nat) :
    FailsClean nvs ram record uptime slot counter ↔
      ¬ ∃ code, slot = .ok ∧ counter = .fail code := by
  have way := appendOnce_spec nvs ram record uptime slot counter
  constructor
  · rintro clean ⟨code, rfl, rfl⟩
    obtain ⟨⟨counted, _⟩, _⟩ := clean (withRecord nvs (stamped ram record uptime))
      (advanced ram (stamped ram record uptime)) (stamped ram record uptime) (Int.negSucc code)
      (appendOnce_uncounted nvs ram record uptime code) (Int.negSucc_lt_zero code)
    have same : storeNextSeq ram + 1 = storeNextSeq ram := counted
    exact absurd same (by simp)
  · intro recorded reached next written err ended negative
    rw [ended] at way
    cases way with
    | refused code =>
        exact ⟨⟨rfl, fun _ _ => rfl⟩, fun _ _ _ _ booted => settled.reboot booted⟩
    | uncounted code => exact absurd ⟨code, rfl, rfl⟩ recorded
    | counted => exact absurd negative (Int.lt_irrefl 0)

/--
As long as no counter write fails after its record was written, an append that
fails is clean exactly when this does not happen in it either, and no seq is
given to two records.
-/
theorem append_fails_clean_iff (nvs : Nvs) {events : List DeviceEvent} {device : Device}
    {outputs : List DeviceOutput}
    (recorded : deviceMachine.Guarded (fun _ event => Recorded event) ⟨nvs, none⟩ events)
    (ran : deviceMachine.run ⟨nvs, none⟩ events = some (device, outputs)) :
    (∀ ram, device.ram = some ram → ∀ record uptime slot counter,
      (FailsClean device.nvs ram record uptime slot counter ↔
        ¬ ∃ code, slot = .ok ∧ counter = .fail code)) ∧
    (Foreign nvs → deviceMachine.Guarded Numbered ⟨nvs, none⟩ events →
      ∀ first ∈ givenOf outputs, ∀ second ∈ givenOf outputs,
        first.seq = second.seq → first = second) := by
  refine ⟨fun ram powered => (deviceMachine_settled recorded ran ram powered).failsClean_iff, ?_⟩
  intro foreign numbered first one second two
  exact (deviceMachine_faithful foreign recorded numbered ran).given_unique one two

def settledRun : List DeviceEvent := [.boot [], .append (vacant 1) 30000 .ok .ok]

theorem append_fails_clean_iff_refused :
    ∃ device outputs, deviceMachine.run ⟨.empty, none⟩ settledRun = some (device, outputs) ∧
      ∃ ram, device.ram = some ram ∧
        (FailsClean device.nvs ram (vacant 2) 60000 (.fail 4) .ok ↔
          ¬ ∃ code, (.fail 4 : Verdict Nat) = .ok ∧ (.ok : Verdict Nat) = .fail code) := by
  refine ⟨_, _, rfl, _, rfl, ?_⟩
  have recorded : ∀ event ∈ settledRun, Recorded event := by simp [settledRun, Recorded]
  exact (append_fails_clean_iff .empty (Machine.guarded_of_inputs recorded _) rfl).1
    _ rfl _ _ _ _

def reusedRun : List DeviceEvent :=
  [.boot [], .append (vacant 1) 30000 .ok (.fail 4), .get 0, .cut, .boot [],
    .append (vacant 2) 30000 .ok .ok]

theorem append_fails_dirty :
    (∃ device, deviceMachine.run ⟨.empty, none⟩ reusedRun = some (device,
      [.booted 0, .appended { vacant 1 with ts := 30 } (-5),
        .got (some { vacant 1 with ts := 30 }), .lost, .booted 0,
        .appended { vacant 2 with ts := 30 } 0])) ∧
      ∃ nvs ram, deviceMachine.run ⟨.empty, none⟩ [.boot []] =
          some (⟨nvs, some ram⟩, [.booted 0]) ∧
        ¬ FailsClean nvs ram (vacant 1) 30000 .ok (.fail 4) := by
  refine ⟨⟨_, rfl⟩, _, _, rfl, ?_⟩
  intro clean
  have changed := (clean _ _ _ _ (appendOnce_uncounted _ _ _ _ 4) (by decide)).1.1
  exact absurd changed (by decide)

end PresenceNode.Store
