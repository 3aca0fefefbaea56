import PresenceNode.Ble.Dump
import PresenceNode.Store.Recovery

/-!
# Dumps while records are appended

The main loop appends and the BLE thread dumps, and nothing but the lock of
`store.c` orders their steps.  `store_append` is cut between its writes and
its update of the counter, `dump_run` between its two samples, and
`store_get` between its two range checks and its read under the lock.  Every
write succeeds.  The client asks for what follows the last record that it has.
-/

namespace PresenceNode.Ble

open Library PresenceNode.Frame Store

/-- Where `store_append` stands; it holds the lock from its first write to its last. -/
inductive Writer where
  | idle
  | written (record : SntlRecord)
  | counted

/-- Where `store_get` stands: before either range check, or before the read. -/
inductive Lookup where
  | next
  | oldest
  | slot

/-- The record loop of `dump_run`, `left` turns before its end. -/
structure Dumping where
  first : UInt32
  oldest : UInt32
  next : UInt32
  seq : UInt32
  left : Nat
  lookup : Lookup
  sent : List SntlRecord

/-- Where `dump_run` stands; the samples are taken in either order. -/
inductive Reader where
  | idle
  | sampling (first : UInt32) (oldest next : Option UInt32)
  | dumping (dump : Dumping)

structure Sync where
  nvs : Nvs
  ram : StoreRam
  writer : Writer
  reader : Reader
  received : List SntlRecord

inductive SyncEvent where
  | write (record : SntlRecord) (uptime : Nat)
  | count
  | persist
  | request
  | sampleOldest
  | sampleNext
  | compareNext
  | compareOldest
  | readSlot
  | complete

inductive SyncOutput where
  | quiet
  | stored (record : SntlRecord)
  | answered (seq : UInt32) (record : SntlRecord)
  | completed (first oldest next : UInt32) (records : List SntlRecord)

/-- One past the last seq that the client has received, 0 at first. -/
def firstSeq (received : List SntlRecord) : UInt32 :=
  match received.getLast? with
  | none => 0
  | some record => record.seq + 1

def sampled (first : UInt32) (oldest next : Option UInt32) : Reader :=
  match oldest, next with
  | some oldest, some next =>
      let (count, start) := sntlDumpRange first oldest next
      let stop := start + count.toUInt32
      .dumping ⟨first, oldest, next, start, stop.toNat - start.toNat, .next, []⟩
  | oldest, next => .sampling first oldest next

/-- The dump after `store_get` has answered, with nothing for `-ENOENT`. -/
def Dumping.answer (dump : Dumping) (found : Option SntlRecord) : Reader × SyncOutput :=
  let record := found.getD (recycledRecord dump.seq)
  (.dumping { dump with
      seq := dump.seq + 1, left := dump.left - 1, lookup := .next, sent := dump.sent ++ [record] },
    .answered dump.seq record)

def Dumping.turn (dump : Dumping) (s : Sync) (event : SyncEvent) : Option (Reader × SyncOutput) :=
  match event, dump.lookup, s.writer with
  | .compareNext, .next, _ =>
      if dump.seq ≥ storeNextSeq s.ram then some (dump.answer none)
      else some (.dumping { dump with lookup := .oldest }, .quiet)
  | .compareOldest, .oldest, _ =>
      if dump.seq < storeOldestSeq s.ram then some (dump.answer none)
      else some (.dumping { dump with lookup := .slot }, .quiet)
  | .readSlot, .slot, .idle => some (dump.answer (readSlot s.nvs dump.seq))
  | _, _, _ => none

def syncMachine : Machine Sync SyncEvent SyncOutput where
  step s event :=
    match event, s.writer, s.reader with
    | .write record uptime, .idle, _ =>
        let record := stamped s.ram record uptime
        some ({ s with nvs := withRecord s.nvs record, writer := .written record }, .stored record)
    | .count, .written record, _ =>
        some ({ s with ram := advanced s.ram record, writer := .counted }, .quiet)
    | .persist, .counted, _ =>
        some ({ s with nvs := withCounter s.nvs s.ram.storeMeta, writer := .idle }, .quiet)
    | .request, _, .idle =>
        some ({ s with reader := .sampling (firstSeq s.received) none none }, .quiet)
    | .sampleOldest, _, .sampling first none next =>
        some ({ s with reader := sampled first (some (storeOldestSeq s.ram)) next }, .quiet)
    | .sampleNext, _, .sampling first oldest none =>
        some ({ s with reader := sampled first oldest (some (storeNextSeq s.ram)) }, .quiet)
    | .complete, _, .dumping dump =>
        if dump.left = 0 then
          some ({ s with reader := .idle, received := s.received ++ dump.sent },
            .completed dump.first dump.oldest dump.next dump.sent)
        else none
    | event, _, .dumping dump =>
        if dump.left = 0 then none
        else (dump.turn s event).map fun turned => ({ s with reader := turned.1 }, turned.2)
    | _, _, _ => none

def Sync.start (nvs : Nvs) (ram : StoreRam) : Sync := ⟨nvs, ram, .idle, .idle, []⟩

/-! ## Steps in a row -/

/-- The steps of an append, with nothing between them, are `store_append`. -/
theorem append_row {s : Sync} (free : s.writer = .idle) (record : SntlRecord) (uptime : Nat) :
    ∃ nvs ram, appendOnce s.nvs s.ram record uptime .ok .ok =
        (⟨nvs, some ram⟩, .appended (stamped s.ram record uptime) 0) ∧
      syncMachine.run s [.write record uptime, .count, .persist] =
        some ({ s with nvs := nvs, ram := ram },
          [.stored (stamped s.ram record uptime), .quiet, .quiet]) := by
  obtain ⟨nvs, ram, writer, reader, received⟩ := s
  cases free
  exact ⟨_, _, rfl, rfl⟩

/-- The steps of a lookup, with nothing between them, are `store_get`. -/
theorem lookup_row {s : Sync} {dump : Dumping} (free : s.writer = .idle)
    (dumping : s.reader = .dumping dump) (first : dump.lookup = .next) (more : dump.left ≠ 0) :
    ∃ steps quiet, syncMachine.run s steps =
      some ({ s with reader := (dump.answer (storeGet s.ram s.nvs dump.seq)).1 },
        quiet ++ [(dump.answer (storeGet s.ram s.nvs dump.seq)).2]) := by
  obtain ⟨nvs, ram, writer, reader, received⟩ := s
  obtain ⟨firstSeq, oldest, next, seq, left, lookup, sent⟩ := dump
  cases free
  cases dumping
  cases first
  by_cases late : seq ≥ ram.storeMeta.nextSeq
  · refine ⟨[.compareNext], [], ?_⟩
    simp [syncMachine, Machine.run, Dumping.turn, Dumping.answer, storeGet, storeNextSeq, more,
      late]
  · by_cases early : seq < storeOldestSeq ram
    · refine ⟨[.compareNext, .compareOldest], [.quiet], ?_⟩
      simp [syncMachine, Machine.run, Dumping.turn, Dumping.answer, storeGet, storeNextSeq, more,
        late, early]
    · refine ⟨[.compareNext, .compareOldest, .readSlot], [.quiet, .quiet], ?_⟩
      simp [syncMachine, Machine.run, Dumping.turn, Dumping.answer, storeGet, storeNextSeq, more,
        late, early]

/-! ## What a step can do -/

/-- Why `store_get` answers as it does: a range check, or the slot under the lock. -/
inductive Answered (s : Sync) (seq : UInt32) : Option SntlRecord → Prop where
  | late (above : storeNextSeq s.ram ≤ seq) : Answered s seq none
  | early (below : seq < storeOldestSeq s.ram) : Answered s seq none
  | slot (free : s.writer = .idle) : Answered s seq (readSlot s.nvs seq)

inductive SyncStep (s : Sync) : SyncEvent → Sync → SyncOutput → Prop where
  | write (free : s.writer = .idle) (record : SntlRecord) (uptime : Nat) :
      SyncStep s (.write record uptime)
        { s with
          nvs := withRecord s.nvs (stamped s.ram record uptime)
          writer := .written (stamped s.ram record uptime) }
        (.stored (stamped s.ram record uptime))
  | count {record : SntlRecord} (written : s.writer = .written record) :
      SyncStep s .count { s with ram := advanced s.ram record, writer := .counted } .quiet
  | persist (counted : s.writer = .counted) :
      SyncStep s .persist { s with nvs := withCounter s.nvs s.ram.storeMeta, writer := .idle }
        .quiet
  | request (free : s.reader = .idle) :
      SyncStep s .request { s with reader := .sampling (firstSeq s.received) none none } .quiet
  | sampleOldest {first : UInt32} {next : Option UInt32}
      (sampling : s.reader = .sampling first none next) :
      SyncStep s .sampleOldest
        { s with reader := sampled first (some (storeOldestSeq s.ram)) next } .quiet
  | sampleNext {first : UInt32} {oldest : Option UInt32}
      (sampling : s.reader = .sampling first oldest none) :
      SyncStep s .sampleNext
        { s with reader := sampled first oldest (some (storeNextSeq s.ram)) } .quiet
  | passed {dump : Dumping} {event : SyncEvent} (dumping : s.reader = .dumping dump)
      (lookup : Lookup) :
      SyncStep s event { s with reader := .dumping { dump with lookup := lookup } } .quiet
  | answered {dump : Dumping} {event : SyncEvent} {found : Option SntlRecord}
      (dumping : s.reader = .dumping dump) (more : dump.left ≠ 0)
      (way : Answered s dump.seq found) :
      SyncStep s event { s with reader := (dump.answer found).1 } (dump.answer found).2
  | complete {dump : Dumping} (dumping : s.reader = .dumping dump) (finished : dump.left = 0) :
      SyncStep s .complete { s with reader := .idle, received := s.received ++ dump.sent }
        (.completed dump.first dump.oldest dump.next dump.sent)

theorem Dumping.turn_cases {dump : Dumping} {s : Sync} {event : SyncEvent} {reader : Reader}
    {output : SyncOutput} (turned : dump.turn s event = some (reader, output)) :
    (∃ lookup, reader = .dumping { dump with lookup := lookup } ∧ output = .quiet) ∨
      ∃ found, Answered s dump.seq found ∧ dump.answer found = (reader, output) := by
  unfold Dumping.turn at turned
  split at turned
  · split at turned
    · next late => exact .inr ⟨none, .late late, Option.some.inj turned⟩
    · cases turned
      exact .inl ⟨_, rfl, rfl⟩
  · split at turned
    · next early => exact .inr ⟨none, .early early, Option.some.inj turned⟩
    · cases turned
      exact .inl ⟨_, rfl, rfl⟩
  · next free => exact .inr ⟨_, .slot free, Option.some.inj turned⟩
  · cases turned

theorem syncMachine_step {s next : Sync} {event : SyncEvent} {output : SyncOutput}
    (stepped : syncMachine.step s event = some (next, output)) : SyncStep s event next output := by
  simp only [syncMachine] at stepped
  split at stepped
  · next free =>
      cases stepped
      exact .write free _ _
  · next written =>
      cases stepped
      exact .count written
  · next counted =>
      cases stepped
      exact .persist counted
  · next free =>
      cases stepped
      exact .request free
  · next sampling =>
      cases stepped
      exact .sampleOldest sampling
  · next sampling =>
      cases stepped
      exact .sampleNext sampling
  · next dump dumping =>
      split at stepped
      · next finished =>
          cases stepped
          exact .complete dumping finished
      · cases stepped
  · next dump _ dumping _ _ _ =>
      split at stepped
      · cases stepped
      · next more =>
          obtain ⟨⟨reader, result⟩, turned, same⟩ := Option.map_eq_some_iff.mp stepped
          cases same
          rcases Dumping.turn_cases turned with ⟨lookup, rfl, rfl⟩ | ⟨found, way, answer⟩
          · exact .passed dumping lookup
          · obtain rfl : reader = (dump.answer found).1 := congrArg Prod.fst answer.symm
            obtain rfl : result = (dump.answer found).2 := congrArg Prod.snd answer.symm
            exact .answered dumping more way
  · cases stepped

end PresenceNode.Ble
