import PresenceNode.Ble.ExactlyOnce
import PresenceNode.Main.Flush

/-!
# The flag for the missing clock

Every record of `window_flush` says that its clock is not set, and so does
every record in the store that was built up out of such records.  A dump sends
a record without the flag exactly when `store_get` does not answer.
-/

namespace PresenceNode.Ble

open Library Flash PresenceNode.Frame Store Radar Sen5x Main

/-- The record says that its `ts` is not to be trusted. -/
def RtcUnset (record : SntlRecord) : Prop := record.flags &&& sntlFlagRtcUnset ≠ 0

def Flushed (record : SntlRecord) : Prop := ∃ w aq, record = windowRecord w aq

def AppendsFlushed : DeviceEvent → Prop
  | .append record .. => Flushed record
  | _ => True

def WritesFlushed : SyncEvent → Prop
  | .write record _ => Flushed record
  | _ => True

/-- Every record under the id of a slot has the flag, also those that a newer one hides. -/
def Marked (nvs : Nvs) : Prop :=
  ∀ index, ∀ entry ∈ nvs.history (nvsIdRec0 + index), ∀ record, entryRecord entry = some record →
    RtcUnset record

theorem Flushed.rtcUnset {record : SntlRecord} (flushed : Flushed record) (ram : StoreRam)
    (uptime : Nat) : RtcUnset (stamped ram record uptime) := by
  obtain ⟨w, aq, rfl⟩ := flushed
  exact windowFlags_rtcUnset w aq

/-- What is sent for a record that was recycled looks like UTC. -/
theorem not_rtcUnset_recycled (seq : UInt32) : ¬ RtcUnset (recycledRecord seq) :=
  fun unset => unset (show (sntlFlagSensorFault ||| sntlFlagAqFault) &&& sntlFlagRtcUnset = 0 by
    decide)

/-! ## The store -/

theorem Marked.slot {nvs : Nvs} (marked : Marked nvs) {index : Nat} {record : SntlRecord}
    (found : slotsOf nvs index = some record) : RtcUnset record := by
  obtain ⟨entry, newest, read⟩ := Option.bind_eq_some_iff.mp found
  exact marked index entry (List.mem_of_head? newest) record read

theorem Marked.put_other {nvs : Nvs} (marked : Marked nvs) {id : Nat} (other : id < nvsIdRec0)
    (entry : List UInt8) : Marked (nvs.put id entry) := by
  intro index
  rw [Entries.history_put_of_ne nvs entry (by omega)]
  exact marked index

theorem marked_cleared : Marked cleared := fun _ _ member => absurd member List.not_mem_nil

theorem marked_reached (m : StoreMeta) {reached : Nvs}
    (member : reached ∈ [cleared, formatted, floored m, migrated m]) : Marked reached := by
  have format : Marked formatted := marked_cleared.put_other (by decide) _
  have floor : Marked (floored m) := format.put_other (by decide) _
  simp only [List.mem_cons, List.not_mem_nil, or_false] at member
  rcases member with rfl | rfl | rfl | rfl
  · exact marked_cleared
  · exact format
  · exact floor
  · exact floor.put_other (by decide) _

theorem Marked.filled {nvs : Nvs} (marked : Marked nvs) {record : SntlRecord}
    (unset : RtcUnset record) : Marked (withRecord nvs record) := by
  intro index
  by_cases here : nvsIdRec0 + index = recId record.seq
  · rw [here, withRecord, Entries.history_put_self, ← here]
    intro entry member other read
    rcases List.mem_cons.mp member with rfl | older
    · rw [entryRecord_image] at read
      cases read
      exact unset
    · exact marked index entry older other read
  · rw [withRecord, Entries.history_put_of_ne nvs _ here]
    exact marked index

theorem Marked.counted {nvs : Nvs} (marked : Marked nvs) (m : StoreMeta) :
    Marked (withCounter nvs m) := marked.put_other (by decide) _

theorem Marked.survivors {nvs : Nvs} (marked : Marked nvs) (kept : Nat → Nat → Bool) :
    Marked (survivors kept nvs) :=
  fun index entry member => marked index entry ((keep_sublist _ _).subset member)

def DeviceMarked (device : Device) : Prop :=
  match device.ram with
  | none => Foreign device.nvs ∨ Marked device.nvs
  | some _ => Marked device.nvs

theorem DeviceMarked.booted {fallible : Prop} {nvs reached : Nvs} {ram : StoreRam} {err : Int}
    (marked : DeviceMarked ⟨nvs, none⟩) (booted : Booted fallible nvs ram err reached) :
    DeviceMarked ⟨reached, some ram⟩ := by
  cases booted with
  | resumed current => exact marked.resolve_left fun foreign => foreign.other current
  | migrated other => exact marked_reached (heldMeta nvs) (by simp)
  | failed _ other _ stopped =>
      exact marked_reached (heldMeta nvs) (List.mem_append_left [migrated _] stopped)

theorem DeviceMarked.interrupted {nvs reached : Nvs} (marked : DeviceMarked ⟨nvs, none⟩)
    (interrupted : Interrupted nvs reached) : DeviceMarked ⟨reached, none⟩ := by
  cases interrupted with
  | untouched => exact marked
  | torn other kept =>
      exact marked.imp (fun foreign => foreign.survivors kept) fun marked => marked.survivors kept
  | stopped other _ member =>
      exact .inr (marked_reached (heldMeta nvs) (List.mem_append_left [migrated _] member))

/-- Whatever its writes come to, a step of the device keeps the records of the store marked. -/
theorem DeviceMarked.step {device next : Device} {event : DeviceEvent} {output : DeviceOutput}
    (marked : DeviceMarked device) (flushed : AppendsFlushed event)
    (step : DeviceStep device event next output) : DeviceMarked next := by
  cases step with
  | booted way => exact marked.booted way
  | interrupted way => exact marked.interrupted way
  | appended way =>
      have unset := Flushed.rtcUnset flushed
      cases way with
      | unwritten => exact .inr marked
      | refused => exact marked
      | torn => exact .inr (Marked.filled marked (unset _ _))
      | uncounted => exact Marked.filled marked (unset _ _)
      | counted => exact (Marked.filled marked (unset _ _)).counted _
  | got => exact marked
  | cut => exact .inr marked

theorem deviceMachine_marked {nvs : Nvs} (foreign : Foreign nvs)
    {events : List DeviceEvent} {device : Device} {outputs : List DeviceOutput}
    (flushed : ∀ event ∈ events, AppendsFlushed event)
    (ran : deviceMachine.run ⟨nvs, none⟩ events = some (device, outputs)) :
    DeviceMarked device := by
  have preserved : ∀ (_ : List DeviceEvent) (_ : List DeviceOutput) device event next output,
      DeviceMarked device → AppendsFlushed event →
      deviceMachine.step device event = some (next, output) → DeviceMarked next :=
    fun _ _ _ _ _ _ marked flushed stepped => marked.step flushed (deviceMachine_step stepped)
  have start : DeviceMarked ⟨nvs, none⟩ := Or.inl foreign
  exact Machine.run_invariant preserved start (Machine.guarded_of_inputs flushed _) ran

/-! ## Dumps -/

/-- The step of `store_get` does not make it fail: the seq is in range, or its slot holds it. -/
def Lookup.Passes (s : Sync) (seq : UInt32) : SyncEvent → Prop
  | .compareNext => seq < storeNextSeq s.ram
  | .compareOldest => storeOldestSeq s.ram ≤ seq
  | .readSlot => ∃ record, readSlot s.nvs seq = some record
  | _ => True

/-- No seq that a dump asks for has been recycled under it. -/
def Unrecycled (s : Sync) (event : SyncEvent) : Prop :=
  match s.reader with
  | .dumping dump => dump.left ≠ 0 → Lookup.Passes s dump.seq event
  | _ => True

def SyncOutput.Marked : SyncOutput → Prop
  | .answered _ record => RtcUnset record
  | _ => True

theorem Marked.readSlot {nvs : Nvs} (marked : Marked nvs) {seq : UInt32} {record : SntlRecord}
    (found : readSlot nvs seq = some record) : RtcUnset record := by
  rw [readSlot_eq_find] at found
  exact marked.slot (Ring.find_slot found)

theorem answer_marked {nvs : Nvs} (marked : Marked nvs) (dump : Dumping) (seq : UInt32) :
    (dump.answer (readSlot nvs seq)).2.Marked ↔ ∃ record, readSlot nvs seq = some record := by
  cases found : readSlot nvs seq with
  | none =>
      refine ⟨fun unset => absurd unset (not_rtcUnset_recycled dump.seq), ?_⟩
      rintro ⟨record, impossible⟩
      cases impossible
  | some record => exact ⟨fun _ => ⟨record, rfl⟩, fun _ => marked.readSlot found⟩

theorem not_answer_marked (dump : Dumping) : ¬ (dump.answer none).2.Marked :=
  not_rtcUnset_recycled dump.seq

theorem Dumping.turn_marked {dump : Dumping} {s : Sync} {event : SyncEvent} {reader : Reader}
    {output : SyncOutput} (marked : Ble.Marked s.nvs)
    (turned : dump.turn s event = some (reader, output)) :
    output.Marked ↔ Lookup.Passes s dump.seq event := by
  unfold Dumping.turn at turned
  split at turned
  · split at turned
    · next late =>
        obtain rfl : (dump.answer none).2 = output := congrArg Prod.snd (Option.some.inj turned)
        exact ⟨fun unset => absurd unset (not_answer_marked dump),
          fun early => absurd early (UInt32.not_lt.mpr late)⟩
    · next early =>
        cases turned
        exact ⟨fun _ => UInt32.not_le.mp early, fun _ => trivial⟩
  · split at turned
    · next early =>
        obtain rfl : (dump.answer none).2 = output := congrArg Prod.snd (Option.some.inj turned)
        exact ⟨fun unset => absurd unset (not_answer_marked dump),
          fun late => absurd early (UInt32.not_lt.mpr late)⟩
    · next late =>
        cases turned
        exact ⟨fun _ => UInt32.not_lt.mp late, fun _ => trivial⟩
  · obtain rfl : (dump.answer (Store.readSlot s.nvs dump.seq)).2 = output :=
      congrArg Prod.snd (Option.some.inj turned)
    exact answer_marked marked dump dump.seq
  · cases turned

theorem unrecycled_of_passes {s : Sync} {event : SyncEvent}
    (passes : ∀ seq, Lookup.Passes s seq event) : Unrecycled s event := by
  unfold Unrecycled
  cases s.reader with
  | dumping dump => exact fun _ => passes dump.seq
  | _ => trivial

/-- One step keeps the slots marked, and what it sends has the flag unless a seq was recycled. -/
theorem Marked.step {s next : Sync} {event : SyncEvent} {output : SyncOutput}
    (marked : Marked s.nvs) (flushed : WritesFlushed event)
    (stepped : syncMachine.step s event = some (next, output)) :
    Marked next.nvs ∧ (output.Marked ↔ Unrecycled s event) := by
  have silent {event : SyncEvent} (passes : ∀ seq, Lookup.Passes s seq event) :
      True ↔ Unrecycled s event := ⟨fun _ => unrecycled_of_passes passes, fun _ => trivial⟩
  simp only [syncMachine] at stepped
  split at stepped
  · cases stepped
    exact ⟨Marked.filled marked (Flushed.rtcUnset flushed _ _), silent fun _ => trivial⟩
  · cases stepped
    exact ⟨marked, silent fun _ => trivial⟩
  · cases stepped
    exact ⟨marked.counted _, silent fun _ => trivial⟩
  · cases stepped
    exact ⟨marked, silent fun _ => trivial⟩
  · cases stepped
    exact ⟨marked, silent fun _ => trivial⟩
  · cases stepped
    exact ⟨marked, silent fun _ => trivial⟩
  · split at stepped
    · cases stepped
      exact ⟨marked, silent fun _ => trivial⟩
    · cases stepped
  · next dump _ dumping _ _ _ =>
      split at stepped
      · cases stepped
      · next more =>
          obtain ⟨⟨reader, result⟩, turned, same⟩ := Option.map_eq_some_iff.mp stepped
          cases same
          refine ⟨marked, ?_⟩
          rw [Unrecycled, dumping]
          exact (Dumping.turn_marked marked turned).trans ⟨fun passes _ => passes, fun way => way more⟩
  · cases stepped

/-! ## Runs -/

theorem marked_iff_answers {replies : List SyncOutput} :
    (∀ output ∈ replies, output.Marked) ↔ ∀ record ∈ answersOf replies, RtcUnset record := by
  constructor
  · intro all record member
    obtain ⟨output, inside, answer⟩ := List.mem_filterMap.mp member
    cases output with
    | answered seq other =>
        cases answer
        exact all _ inside
    | _ => cases answer
  · intro all output inside
    cases output with
    | answered seq record => exact all record (List.mem_filterMap.mpr ⟨_, inside, rfl⟩)
    | _ => trivial

/-- The records of the dumps, those in progress included, against the answers of `store_get`. -/
structure Encoded (replies : List SyncOutput) (s : Sync) : Prop where
  sent : ∀ record ∈ s.reader.sent, record ∈ answersOf replies
  completed : ∀ first oldest next records, .completed first oldest next records ∈ replies →
    ∀ record ∈ records, record ∈ answersOf replies

theorem Encoded.step {replies : List SyncOutput} {s next : Sync} {event : SyncEvent}
    {output : SyncOutput} (encoded : Encoded replies s) (step : SyncStep s event next output) :
    Encoded (replies ++ [output]) next := by
  have grows : ∀ record ∈ answersOf replies, record ∈ answersOf (replies ++ [output]) := by
    intro record member
    rw [answersOf_append]
    exact List.mem_append_left _ member
  constructor
  · intro record member
    cases step with
    | answered dumping more way =>
        rw [answersOf_append]
        rcases List.mem_append.mp member with earlier | last
        · apply List.mem_append_left
          apply encoded.sent
          rw [dumping]
          exact earlier
        · exact List.mem_append_right _ last
    | passed dumping =>
        apply grows
        apply encoded.sent
        rw [dumping]
        exact member
    | request => cases member
    | complete => cases member
    | sampleOldest =>
        rw [sampled_sent] at member
        cases member
    | sampleNext =>
        rw [sampled_sent] at member
        cases member
    | _ => exact grows record (encoded.sent record member)
  · intro first oldest next_ records member record inside
    apply grows
    rcases List.mem_append.mp member with earlier | last
    · exact encoded.completed first oldest next_ records earlier record inside
    · have same := List.mem_singleton.mp last
      cases step with
      | complete dumping =>
          cases same
          apply encoded.sent
          rw [dumping]
          exact inside
      | _ => cases same

theorem syncMachine_encoded {start final : Sync} (free : start.reader = .idle)
    {events : List SyncEvent} {replies : List SyncOutput}
    (ran : syncMachine.run start events = some (final, replies)) : Encoded replies final := by
  have initial : Encoded [] start := by
    refine ⟨?_, nofun⟩
    rw [free]
    nofun
  have preserved : ∀ (_ : List SyncEvent) replies s event next output,
      Encoded replies s → syncMachine.step s event = some (next, output) →
      Encoded (replies ++ [output]) next :=
    fun _ _ _ _ _ _ encoded stepped => encoded.step (syncMachine_step stepped)
  exact Machine.run_invariant_unguarded preserved initial ran

/-- A client may ask for any first seq, depending on what it has. -/
theorem request_any (s : Sync) (free : s.reader = .idle) (first : UInt32) :
    ∃ received, syncMachine.step { s with received := received } .request =
      some ({ s with received := received, reader := .sampling first none none }, .quiet) := by
  obtain ⟨nvs, ram, writer, reader, _⟩ := s
  cases free
  have asked : firstSeq [recycledRecord (first - 1)] = first := UInt32.sub_add_cancel first 1
  refine ⟨[recycledRecord (first - 1)], ?_⟩
  simp [syncMachine, asked]

/--
When a dump says of every record that its clock is not set.  On every device
whose records were built by `window_flush`, whatever the client has and however
its dumps interleave with appends, all records that are encoded have the flag
exactly if no seq was recycled when a dump looked for it.  A client may have
what makes it ask for any first seq.
-/
theorem dumps_marked_iff (nvs : Nvs) (foreign : Foreign nvs)
    {history : List DeviceEvent} {outputs : List DeviceOutput} {entries : Nvs} {booted : StoreRam}
    (appends : ∀ event ∈ history, AppendsFlushed event)
    (powered : deviceMachine.run ⟨nvs, none⟩ history = some (⟨entries, some booted⟩, outputs))
    (received : List SntlRecord) {events : List SyncEvent} {final : Sync}
    {replies : List SyncOutput} (writes : ∀ event ∈ events, WritesFlushed event)
    (ran : syncMachine.run { Sync.start entries booted with received := received } events =
      some (final, replies)) :
    ((∀ record ∈ answersOf replies, RtcUnset record) ↔
        syncMachine.Guarded Unrecycled { Sync.start entries booted with received := received }
          events) ∧
      (∀ first oldest next records, .completed first oldest next records ∈ replies →
        ∀ record ∈ records, record ∈ answersOf replies) ∧
      ∀ first, ∃ other,
        syncMachine.step { Sync.start entries booted with received := other } .request =
          some ({ Sync.start entries booted with
            received := other, reader := .sampling first none none }, .quiet) := by
  refine ⟨?_, (syncMachine_encoded rfl ran).completed, request_any _ rfl⟩
  have marked : Marked entries := deviceMachine_marked foreign appends powered
  have decides : ∀ s event next output, Marked s.nvs → WritesFlushed event →
      syncMachine.step s event = some (next, output) →
      Marked next.nvs ∧ (output.Marked ↔ Unrecycled s event) :=
    fun _ _ _ _ marked flushed stepped => Marked.step marked flushed stepped
  rw [← marked_iff_answers]
  exact Machine.run_good_iff_guarded decides marked writes ran

def silentRecord : SntlRecord := windowRecord ⟨0, 0, 0, false, false⟩ accReset

theorem silentRecord_flushed : Flushed silentRecord := ⟨_, _, rfl⟩

def fillingRun (count : Nat) : List DeviceEvent :=
  .boot [] :: List.replicate count (.append silentRecord 30000 .ok .ok)

theorem fillingRun_appends (count : Nat) : ∀ event ∈ fillingRun count, AppendsFlushed event := by
  intro event member
  rcases List.mem_cons.mp member with rfl | appended
  · trivial
  · rw [List.eq_of_mem_replicate appended]
    exact silentRecord_flushed

def flaggedRun : List SyncEvent :=
  [.request, .sampleOldest, .sampleNext, .write silentRecord 60000, .compareNext, .compareOldest,
    .count, .persist, .readSlot, .complete]

theorem dumps_marked_iff_flagged :
    ∃ entries booted outputs final replies,
      deviceMachine.run ⟨.empty, none⟩ (fillingRun 1) =
        some (⟨entries, some booted⟩, outputs) ∧
      syncMachine.run { Sync.start entries booted with received := [] } flaggedRun =
        some (final, replies) ∧
      answersOf replies = [{ silentRecord with ts := 30 }] ∧
      syncMachine.Guarded Unrecycled { Sync.start entries booted with received := [] }
        flaggedRun := by
  refine ⟨_, _, _, _, _, rfl, rfl, rfl, ?_⟩
  have writes : ∀ event ∈ flaggedRun, WritesFlushed event := by
    simp [flaggedRun, WritesFlushed, silentRecord_flushed]
  refine (dumps_marked_iff .empty (by decide) (fillingRun_appends 1) rfl [] writes
    rfl).1.mp ?_
  intro record member
  rw [List.mem_singleton.mp member]
  exact windowFlags_rtcUnset ⟨0, 0, 0, false, false⟩ accReset

theorem fillingRun_counts (count : Nat) :
    ∃ entries base boot outputs, deviceMachine.run ⟨.empty, none⟩ (fillingRun count) =
      some (⟨entries, some ⟨⟨UInt32.ofNat count, base⟩, boot, 0⟩⟩, outputs) := by
  induction count with
  | zero => exact ⟨_, _, _, _, rfl⟩
  | succ count ih =>
      obtain ⟨entries, base, boot, outputs, ran⟩ := ih
      have longer : fillingRun (count + 1) =
          fillingRun count ++ [.append silentRecord 30000 .ok .ok] := by
        rw [fillingRun, fillingRun, List.replicate_succ', List.cons_append]
      have next : UInt32.ofNat (count + 1) = UInt32.ofNat count + 1 := UInt32.ofNat_add count 1
      rw [longer, next]
      exact ⟨_, _, _, _, Machine.run_concat ran rfl⟩

theorem recycled_row {s : Sync} {dump : Dumping} (dumping : s.reader = .dumping dump)
    (first : dump.lookup = .next) (more : dump.left ≠ 0) (before : dump.seq < storeNextSeq s.ram)
    (gone : dump.seq < storeOldestSeq s.ram) :
    ∃ final, syncMachine.run s [.compareNext, .compareOldest] =
      some (final, [.quiet, .answered dump.seq (recycledRecord dump.seq)]) := by
  obtain ⟨nvs, ram, writer, reader, received⟩ := s
  cases dumping
  have early : ¬ storeNextSeq ram ≤ dump.seq := UInt32.not_le.mpr before
  simp [syncMachine, Machine.run, Dumping.turn, Dumping.answer, first, more, early, gone]

theorem storeOldestSeq_full (base boot : UInt32) : storeOldestSeq ⟨⟨2880, base⟩, boot, 0⟩ = 0 := by
  apply UInt32.toNat_inj.mp
  simp [storeOldestSeq_toNat, storeCapacity, storePeriodS]

theorem storeOldestSeq_over_full (base boot : UInt32) :
    storeOldestSeq ⟨⟨2881, base⟩, boot, 0⟩ = 1 := by
  apply UInt32.toNat_inj.mp
  simp [storeOldestSeq_toNat, storeCapacity, storePeriodS]

theorem sampled_full (base boot : UInt32) :
    sampled 0 (some (storeOldestSeq ⟨⟨2880, base⟩, boot, 0⟩)) (some 2880) =
      .dumping ⟨0, 0, 2880, 0, 2880, .next, []⟩ := by
  have range : sntlDumpRange 0 0 2880 = (2880, 0) := by decide +kernel
  rw [storeOldestSeq_full]
  simp [sampled, range]

def overtakingRun : List SyncEvent :=
  [.request, .sampleOldest, .sampleNext, .write silentRecord 30000, .count, .persist]

/-- The first record of that dump is no record of the store, and it looks like UTC. -/
theorem dumps_unmarked :
    ∃ entries booted outputs final replies,
      deviceMachine.run ⟨.empty, none⟩ (fillingRun 2880) =
        some (⟨entries, some booted⟩, outputs) ∧
      (∀ event ∈ fillingRun 2880, AppendsFlushed event) ∧
      (∀ event ∈ overtakingRun ++ [.compareNext, .compareOldest], WritesFlushed event) ∧
      syncMachine.run (Sync.start entries booted)
        (overtakingRun ++ [.compareNext, .compareOldest]) = some (final, replies) ∧
      recycledRecord 0 ∈ answersOf replies ∧ ¬ RtcUnset (recycledRecord 0) := by
  obtain ⟨entries, base, boot, outputs, powered⟩ := fillingRun_counts 2880
  obtain ⟨middle, before, ran, reader, later, counter⟩ : ∃ middle before,
      syncMachine.run (Sync.start entries ⟨⟨2880, base⟩, boot, 0⟩) overtakingRun =
        some (middle, before) ∧ middle.reader = .dumping ⟨0, 0, 2880, 0, 2880, .next, []⟩ ∧
        ∃ later, middle.ram = ⟨⟨2881, later⟩, boot, 0⟩ :=
    ⟨_, _, rfl, sampled_full base boot, _, rfl⟩
  have next : (0 : UInt32) < storeNextSeq middle.ram := by
    rw [counter]
    exact (by decide : (0 : UInt32) < 2881)
  have gone : (0 : UInt32) < storeOldestSeq middle.ram := by
    rw [counter, storeOldestSeq_over_full]
    decide
  obtain ⟨final, answered⟩ := recycled_row reader rfl (by decide) next gone
  refine ⟨entries, _, outputs, final, _, powered, fillingRun_appends 2880, ?_,
    Machine.run_append ran answered, ?_, not_rtcUnset_recycled 0⟩
  · simp [overtakingRun, WritesFlushed, silentRecord_flushed]
  · rw [answersOf_append]
    exact List.mem_append_right _ (List.mem_singleton_self _)

end PresenceNode.Ble
