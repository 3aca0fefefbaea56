import PresenceNode.Ble.Transfer
import PresenceNode.Main.Account
import PresenceNode.Store.Durability

/-!
# Where the records of a dump come from

From the sensors to the app: the bytes that a dump sends are a frame, or the
beginning of one, whose records are placeholders or records of the node, each
of which recounts one window of the radar and the air sensor.  The reads of the
dump fall between any steps of the node, the power may be cut, and the writes
of the appends may fail.
-/

namespace PresenceNode.Main

open Library Flash PresenceNode.Frame Radar Sen5x Store Ble

def Endurable (device : Device) (event : DeviceEvent) : Prop :=
  BootsWell event ∧ Numbered device event

def Endured (s : Node) (event : NodeEvent) : Prop :=
  ∀ other, deviceEvent s event = some other → Endurable s.device other

theorem Undamaged.endured {s : Node} {event : NodeEvent} (undamaged : Undamaged s event) :
    Endured s event := by
  intro other given
  obtain ⟨recorded, numbered⟩ := undamaged other given
  refine ⟨?_, numbered⟩
  cases other with
  | boot verdicts => exact recorded
  | _ => trivial

def nodeWritten (s : Node) (event : NodeEvent) : Option SntlRecord :=
  (deviceEvent s event).bind (slotWritten s.device)

/-- An append of the node wrote the record, and was handed what the steps before it make of it. -/
def ComesFrom (events : List NodeEvent) (record : SntlRecord) : Prop :=
  ∃ before uptime counter after handed, events = before ++ .append uptime .ok counter :: after ∧
    Recounts before handed ∧ record = { handed with seq := record.seq, ts := record.ts }

/-- What a dump is given of the store, reads of the run were given. -/
def ReadIn (events : List NodeEvent) (outputs : List (Option DeviceOutput)) (env : DumpEnv) :
    Prop :=
  ∀ seq record, env.storeGet seq = some record → ∃ index : Nat,
    events[index]? = some (.get seq) ∧ outputs[index]? = some (some (.got (some record)))

theorem ComesFrom.more {events : List NodeEvent} {record : SntlRecord}
    (origin : ComesFrom events record) (later : List NodeEvent) :
    ComesFrom (events ++ later) record := by
  obtain ⟨before, uptime, counter, after, handed, rfl, recounts, same⟩ := origin
  exact ⟨before, uptime, counter, after ++ later, handed, by simp, recounts, same⟩

theorem nodeWritten_eq_some {s : Node} {event : NodeEvent} {record : SntlRecord}
    (written : nodeWritten s event = some record) :
    ∃ ram handed uptime counter, s.device.ram = some ram ∧ s.main = .append handed ∧
      event = .append uptime .ok counter ∧ record = stamped ram handed uptime := by
  obtain ⟨other, given, made⟩ := Option.bind_eq_some_iff.mp written
  cases event with
  | append uptime slot counter =>
      simp only [deviceEvent] at given
      split at given
      · next handed here =>
          cases given
          cases slot with
          | ok =>
              obtain ⟨ram, lit, same⟩ := Option.map_eq_some_iff.mp made
              exact ⟨ram, handed, uptime, counter, lit, here, rfl, same.symm⟩
          | _ => cases made
      · cases given
  | boot | get | cut =>
      -- These steps are the device's too, and none of them writes a slot.
      cases given
      cases made
  | startAir | poll | frame | takeRadar | takeAir => cases given

theorem NodeStep.got {s next : Node} {seq : UInt32} {output : Option DeviceOutput}
    (step : NodeStep s (.get seq) next output) :
    ∃ ram, s.device.ram = some ram ∧ output = some (.got (storeGet ram s.device.nvs seq)) := by
  cases step with
  | get _ lit => exact ⟨_, lit, rfl⟩

section Runs

variable {nvs : Nvs} {events : List NodeEvent} {final : Node}
  {outputs : List (Option DeviceOutput)}

theorem node_durable (foreign : Foreign nvs)
    (endured : node.Guarded Endured (Node.off nvs) events)
    (ran : node.run (Node.off nvs) events = some (final, outputs)) :
    Store.Durable (logOf (outputs.filterMap id)) (node.gather nodeWritten (Node.off nvs) events)
      final.device := by
  have passes : ∀ s event deviceStep, Endured s event → deviceEvent s event = some deviceStep →
      Endurable s.device deviceStep :=
    fun _ _ deviceStep met given => met deviceStep given
  obtain ⟨ranDevice, met, gathered⟩ :=
    node_contains.run_gather passes slotWritten endured ran
  have durable := deviceMachine_durable foreign (met.imp (fun _ _ both _ => both.1) met)
    (met.imp (fun _ _ both _ => both.2) met) ranDevice
  rwa [writtenOf, show (⟨nvs, none⟩ : Device) = (Node.off nvs).device from rfl, gathered]
    at durable

/-- Whatever the store gives in a run comes from an append of the node. -/
theorem read_comesFrom (foreign : Foreign nvs)
    (regular : ∀ history, history <+: events → Regular history)
    (endured : node.Guarded Endured (Node.off nvs) events)
    (ran : node.run (Node.off nvs) events = some (final, outputs)) {ram : StoreRam}
    (powered : final.device.ram = some ram) {seq : UInt32} {record : SntlRecord}
    (given : storeGet ram final.device.nvs seq = some record) :
    record.seq = seq ∧ ComesFrom events record := by
  have durable := node_durable foreign endured ran
  rw [Store.Durable, powered] at durable
  obtain ⟨number, written⟩ := Booked.read durable given
  refine ⟨number, ?_⟩
  obtain ⟨before, event, after, middle, made, rfl, ranBefore, put⟩ := Machine.mem_gather written
  obtain ⟨held, handed, uptime, counter, lit, here, rfl, same⟩ := nodeWritten_eq_some put
  have kept := node_kept (fun history inside => regular history
    (inside.trans (List.prefix_append before _))) ranBefore
  have reached := kept.reached (by simp [lit])
  rw [here] at reached
  refine ⟨before, uptime, counter, after, handed, rfl, reached.2.2, ?_⟩
  rw [same]
  rfl

/-- What a dump is given of the store comes from an append of the node. -/
theorem ReadIn.comesFrom {env : DumpEnv} (reads : ReadIn events outputs env)
    (foreign : Foreign nvs)
    (regular : ∀ history, history <+: events → Regular history)
    (endured : node.Guarded Endured (Node.off nvs) events)
    (ran : node.run (Node.off nvs) events = some (final, outputs)) {seq : UInt32}
    {record : SntlRecord} (answer : env.storeGet seq = some record) :
    record.seq = seq ∧ ComesFrom events record := by
  obtain ⟨index, asked, got⟩ := reads seq record answer
  obtain ⟨event, middle, next, here, ranBefore, stepped⟩ := Machine.run_getElem? ran got
  cases asked.symm.trans here
  obtain ⟨ram, powered, made⟩ := (node_step stepped).got
  have given : storeGet ram middle.device.nvs seq = some record :=
    (DeviceOutput.got.inj (Option.some.inj made)).symm
  have whole := List.take_append_drop index events
  rw [← whole] at regular endured
  obtain ⟨number, origin⟩ := read_comesFrom foreign
    (fun history inside => regular history (inside.trans (List.prefix_append _ _)))
    endured.append_left ranBefore powered given
  refine ⟨number, ?_⟩
  rw [← whole]
  exact origin.more _

/--
The records that the app decodes from a dump of the node are numbered one after
the other, and each of them is the placeholder of a number that the store did
not answer for, or it recounts the one window of each sensor that ended before
an append of the node.
-/
theorem dumped_records_recount (foreign : Foreign nvs)
    (regular : ∀ history, history <+: events → Regular history)
    (endured : node.Guarded Endured (Node.off nvs) events)
    (ran : node.run (Node.off nvs) events = some (final, outputs)) (download : Download)
    (reads : ReadIn events outputs download.env) :
    ∃ payloads frame records, download.sent = some payloads ∧ payloads.flatten <+: frame ∧
      (download.Accepted → payloads.flatten = frame) ∧ receiveFrame frame = some records ∧
      records.length = download.range.1.toNat ∧
      ∀ (index : Nat) record, records[index]? = some record →
        record.seq = download.range.2 + UInt32.ofNat index ∧
        (download.env.storeGet record.seq = none ∧ record = recycledRecord record.seq ∨
          download.env.storeGet record.seq = some record ∧ ComesFrom events record) := by
  obtain ⟨payloads, frame, sent, begins, all, _, _, received⟩ := download.sends
  have listed : download.records = (List.range download.range.1.toNat).map fun index =>
      dumpedRecord download.env (download.range.2 + UInt32.ofNat index) := dumpedRecords_eq _ _ _
  refine ⟨payloads, frame, download.records, sent, begins, all, received, ?_, ?_⟩
  · rw [listed, List.length_map, List.length_range]
  · intro index record found
    rw [listed, List.getElem?_map] at found
    obtain ⟨_, here, dumped⟩ := Option.map_eq_some_iff.mp found
    obtain ⟨_, rfl⟩ := List.getElem?_eq_some_iff.mp here
    rw [List.getElem_range, dumpedRecord] at dumped
    generalize download.range.2 + UInt32.ofNat index = seq at dumped ⊢
    cases answer : download.env.storeGet seq with
    | none =>
        rw [answer, Option.getD_none] at dumped
        subst dumped
        exact ⟨rfl, .inl ⟨answer, rfl⟩⟩
    | some held =>
        rw [answer, Option.getD_some] at dumped
        subst dumped
        obtain ⟨number, origin⟩ := reads.comesFrom foreign regular endured ran answer
        exact ⟨number, .inr ⟨number.symm ▸ answer, origin⟩⟩

end Runs

def lastRead (run : Option (Node × List (Option DeviceOutput))) : Option SntlRecord := do
  match (← run).2.getLast? with
  | some (some (.got result)) => result
  | _ => none

theorem lastRead_eq_some {final : Node} {outputs : List (Option DeviceOutput)}
    {record : SntlRecord} (read : lastRead (some (final, outputs)) = some record) :
    outputs.getLast? = some (some (.got (some record))) := by
  simp only [lastRead, Option.bind_eq_bind, Option.bind_some] at read
  split at read
  · next last => rw [last, read]
  · cases read

def firstDownload : Download where
  env := { smallestLink with
    next := 2
    storeGet := fun seq =>
      if seq = 0 then lastRead (node.run (Node.off .empty) firstWindow) else none }
  firstSeq := 0
  buf := Vector.replicate dumpBufSize 0

theorem dumped_records_recount_firstWindow :
    ∃ payloads frame records, firstDownload.sent = some payloads ∧
      payloads.flatten <+: frame ∧ (firstDownload.Accepted → payloads.flatten = frame) ∧
      receiveFrame frame = some records ∧ records.length = 2 ∧
      ∀ (index : Nat) record, records[index]? = some record →
        record.seq = 0 + UInt32.ofNat index ∧
        (firstDownload.env.storeGet record.seq = none ∧ record = recycledRecord record.seq ∨
          firstDownload.env.storeGet record.seq = some record ∧
            ComesFrom firstWindow record) := by
  have regular : ∀ history, history <+: firstWindow → Regular history :=
    fun _ => firstWindow_regular.prefixes (by simp [oneWindow])
  have endured : node.Guarded Endured (Node.off .empty) firstWindow :=
    firstWindow_undamaged.imp (fun _ _ met _ => met.endured) firstWindow_undamaged
  have reads : ∀ final outputs,
      node.run (Node.off .empty) firstWindow = some (final, outputs) →
      ReadIn firstWindow outputs firstDownload.env := by
    intro final outputs ran seq record answer
    simp only [firstDownload] at answer
    split at answer
    · next first =>
        rw [ran] at answer
        have last := lastRead_eq_some answer
        rw [List.getLast?_eq_getElem?, Machine.run_length ran] at last
        exact ⟨36, by rw [first]; rfl, last⟩
    · cases answer
  exact dumped_records_recount (by decide) regular endured rfl firstDownload (reads _ _ rfl)

end PresenceNode.Main
