import PresenceNode.Ble.DumpFrame
import PresenceNode.Ble.Sync

/-!
# Incremental downloads are exactly once

The invariant keeps the writer and the reader apart.  The slots are those of
the boot with the records of this boot put into them in order, whatever the
counter says, and every seq that a dump can still ask for lies between the
ring of the boot and the counter.  So an answer of `store_get` depends on one
thing only: whether the slot has been overwritten.
-/

namespace PresenceNode.Ble

open Library PresenceNode.Frame Store

def SyncOutput.storedRecord : SyncOutput → Option SntlRecord
  | .stored record => some record
  | _ => none

def SyncOutput.answer : SyncOutput → Option SntlRecord
  | .answered _ record => some record
  | _ => none

def storedOf (replies : List SyncOutput) : List SntlRecord :=
  replies.filterMap SyncOutput.storedRecord

def answersOf (replies : List SyncOutput) : List SntlRecord :=
  replies.filterMap SyncOutput.answer

def Counted (s : Sync) : SyncEvent → Prop
  | .count => (storeNextSeq s.ram).toNat + 1 < 2 ^ 32
  | _ => True

section Boot

variable (log : List SntlRecord) (entries : Nvs) (booted : StoreRam)

/-- The slot of a seq has gone to the record a capacity above. -/
def Lost (stored : List SntlRecord) (seq : UInt32) : Prop :=
  Ring.Overwritten storeCapacity seqOf (slotsOf entries) booted.storeMeta.nextSeq.toNat stored
    seq.toNat

/-- What a client has received from a device that booted with this log and these entries. -/
structure ExactlyOnce (replies : List SyncOutput) (final : Sync) : Prop where
  increasing : final.received.Pairwise fun first second => first.seq < second.seq
  skipped : ∀ last ∈ final.received, ∀ seq < last.seq,
    (∃ record ∈ final.received, record.seq = seq) ∨
      ∃ first oldest next records, .completed first oldest next records ∈ replies ∧
        first ≤ seq ∧ seq < oldest
  complete : ∀ first oldest next records, .completed first oldest next records ∈ replies →
    Ring.Consecutive seqOf (max first.toNat oldest.toNat) records ∧
      records.length = min (next.toNat - max first.toNat oldest.toNat) 65535
  answered : ∃ pending, answersOf replies = final.received ++ pending
  answers : ∀ before seq record after, replies = before ++ .answered seq record :: after →
    record.seq = seq ∧
      (Lost entries booted (storedOf before) seq → record = recycledRecord seq) ∧
      (¬ Lost entries booted (storedOf before) seq → record ∈ log ++ storedOf before)

/-- The slots and the counter, for the records stored since the boot. -/
structure Written (stored : List SntlRecord) (s : Sync) : Prop where
  slots : slotsOf s.nvs = Ring.fillAll storeCapacity seqOf (slotsOf entries) stored
  consecutive : Ring.Consecutive seqOf booted.storeMeta.nextSeq.toNat stored
  floor : s.ram.floorSeq = booted.floorSeq
  counter : booted.storeMeta.nextSeq.toNat + stored.length =
    match s.writer with
    | .written _ => s.ram.storeMeta.nextSeq.toNat + 1
    | _ => s.ram.storeMeta.nextSeq.toNat
  least : booted.storeMeta.nextSeq.toNat ≤ s.ram.storeMeta.nextSeq.toNat

/-- A sample of the oldest seq lies in the ring of the boot, or above. -/
structure Sampled (oldest : UInt32) : Prop where
  floor : booted.floorSeq.toNat ≤ oldest.toNat
  near : booted.storeMeta.nextSeq.toNat ≤ oldest.toNat + storeCapacity

structure DumpOk (counter : Nat) (received : List SntlRecord) (dump : Dumping) : Prop where
  first : dump.first = firstSeq received
  oldest : Sampled booted dump.oldest
  next : dump.next.toNat ≤ counter
  total : dump.sent.length + dump.left =
    min (dump.next.toNat - max dump.first.toNat dump.oldest.toNat) 65535
  sent : Ring.Consecutive seqOf (max dump.first.toNat dump.oldest.toNat) dump.sent
  seq : dump.left ≠ 0 →
    dump.seq.toNat = max dump.first.toNat dump.oldest.toNat + dump.sent.length

def ReaderOk (counter : Nat) (received : List SntlRecord) : Reader → Prop
  | .idle => True
  | .sampling first oldest next =>
      first = firstSeq received ∧ (∀ sample, oldest = some sample → Sampled booted sample) ∧
        ∀ sample, next = some sample → sample.toNat ≤ counter
  | .dumping dump => DumpOk booted counter received dump

structure ReceivedOk (replies : List SyncOutput) (received : List SntlRecord) : Prop where
  increasing : received.Pairwise fun first second => seqOf first < seqOf second
  below : ∀ record ∈ received, seqOf record < (firstSeq received).toNat
  skipped : ∀ seq < (firstSeq received).toNat,
    (∃ record ∈ received, seqOf record = seq) ∨
      ∃ first oldest next records, .completed first oldest next records ∈ replies ∧
        first.toNat ≤ seq ∧ seq < oldest.toNat
  complete : ∀ first oldest next records, .completed first oldest next records ∈ replies →
    Ring.Consecutive seqOf (max first.toNat oldest.toNat) records ∧
      records.length = min (next.toNat - max first.toNat oldest.toNat) 65535

def Reader.sent : Reader → List SntlRecord
  | .dumping dump => dump.sent
  | _ => []

structure Synced (replies : List SyncOutput) (s : Sync) : Prop where
  written : Written entries booted (storedOf replies) s
  reader : ReaderOk booted s.ram.storeMeta.nextSeq.toNat s.received s.reader
  received : ReceivedOk replies s.received
  answered : answersOf replies = s.received ++ s.reader.sent

end Boot

variable {log : List SntlRecord} {entries : Nvs} {booted : StoreRam}

/-! ## The writer -/

theorem storedOf_append (first second : List SyncOutput) :
    storedOf (first ++ second) = storedOf first ++ storedOf second := List.filterMap_append

theorem answersOf_append (first second : List SyncOutput) :
    answersOf (first ++ second) = answersOf first ++ answersOf second := List.filterMap_append

theorem Written.start (nvs : Nvs) (ram : StoreRam) : Written nvs ram [] (Sync.start nvs ram) where
  slots := rfl
  consecutive := rfl
  floor := rfl
  counter := rfl
  least := Nat.le_refl _

/-- A step of either party keeps the slots in order, and the counter never goes back. -/
theorem Written.step {stored : List SntlRecord} {s next : Sync} {event : SyncEvent}
    {output : SyncOutput} (written : Written entries booted stored s) (counted : Counted s event)
    (step : SyncStep s event next output) :
    Written entries booted (stored ++ storedOf [output]) next ∧
      s.ram.storeMeta.nextSeq.toNat ≤ next.ram.storeMeta.nextSeq.toNat := by
  have same (quiet : output.storedRecord = none) : stored ++ storedOf [output] = stored := by
    simp [storedOf, quiet]
  obtain ⟨slots, consecutive, floor, counter, least⟩ := written
  cases step with
  | write free record uptime =>
      simp only [free] at counter
      have number : seqOf (stamped s.ram record uptime) =
          booted.storeMeta.nextSeq.toNat + stored.length := counter.symm
      have appended : stored ++ storedOf [.stored (stamped s.ram record uptime)] =
          stored ++ [stamped s.ram record uptime] := rfl
      rw [appended]
      refine ⟨⟨?_, consecutive.concat number, floor, ?_, least⟩, Nat.le_refl _⟩
      · rw [Ring.fillAll_concat, ← slots]
        exact slotsOf_withRecord _ _
      · rw [List.length_append, ← Nat.add_assoc, counter]
        rfl
  | count held =>
      have after := next_toNat counted
      have more := Nat.le_trans (Nat.le_succ _) (Nat.le_of_eq after.symm)
      simp only [held] at counter
      rw [same rfl]
      exact ⟨⟨slots, consecutive, floor, counter.trans after.symm, Nat.le_trans least more⟩, more⟩
  | persist held =>
      simp only [held] at counter
      rw [same rfl]
      exact ⟨⟨(slotsOf_withCounter _ _).trans slots, consecutive, floor, counter, least⟩,
        Nat.le_refl _⟩
  | _ =>
      rw [same rfl]
      exact ⟨⟨slots, consecutive, floor, counter, least⟩, Nat.le_refl _⟩

theorem Written.counter_le {stored : List SntlRecord} {s : Sync}
    (written : Written entries booted stored s) :
    s.ram.storeMeta.nextSeq.toNat ≤ booted.storeMeta.nextSeq.toNat + stored.length := by
  rw [written.counter]
  cases s.writer with
  | written record => exact Nat.le_succ _
  | _ => exact Nat.le_refl _

/-! ## Answers -/

/-- Whatever interleaves with a lookup, its answer depends on the slot being lost only. -/
theorem Answered.correct {stored : List SntlRecord} {s : Sync} {seq : UInt32}
    {found : Option SntlRecord} (way : Answered s seq found)
    (written : Written entries booted stored s)
    (held : Held log booted.floorSeq booted.storeMeta.nextSeq entries)
    (above : booted.floorSeq.toNat ≤ seq.toNat)
    (near : booted.storeMeta.nextSeq.toNat ≤ seq.toNat + storeCapacity)
    (before : seq.toNat < s.ram.storeMeta.nextSeq.toNat) :
    (Lost entries booted stored seq → found = none) ∧
      (¬ Lost entries booted stored seq →
        ∃ record ∈ log ++ stored, record.seq = seq ∧ found = some record) := by
  have most := written.counter_le
  cases way with
  | late past => exact absurd before (Nat.not_lt_of_le (UInt32.le_iff_toNat_le.mp past))
  | early below =>
      have order : seq.toNat < (storeOldestSeq s.ram).toNat := UInt32.lt_iff_toNat_lt.mp below
      rw [storeOldestSeq_toNat, written.floor] at order
      have passed : seq.toNat + storeCapacity < booted.storeMeta.nextSeq.toNat + stored.length := by
        omega
      obtain ⟨newer, member, number⟩ := written.consecutive.exists near passed
      exact ⟨fun _ => rfl, fun kept => absurd (.inl ⟨newer, member, number⟩) kept⟩
  | slot free =>
      rw [readSlot_eq_find, written.slots]
      refine ⟨Ring.find_overwritten (by decide) written.consecutive, fun kept => ?_⟩
      obtain ⟨record, member, number, result⟩ :=
        held.find_kept written.consecutive above near (Nat.lt_of_lt_of_le before most) kept
      exact ⟨record, member, UInt32.toNat_inj.mp number, result⟩

theorem Answered.seq_eq {s : Sync} {seq : UInt32} {found : Option SntlRecord}
    (way : Answered s seq found) : (found.getD (recycledRecord seq)).seq = seq := by
  cases way with
  | slot free =>
      rw [readSlot_eq_find]
      cases result : Ring.find storeCapacity seqOf (slotsOf s.nvs) seq.toNat with
      | none => rfl
      | some record =>
          have number : seqOf record = seq.toNat := Ring.find_number result
          exact UInt32.toNat_inj.mp number
  | _ => rfl

/-! ## The reader -/

theorem ReaderOk.mono {counter more : Nat} {received : List SntlRecord} {reader : Reader}
    (ok : ReaderOk booted counter received reader) (order : counter ≤ more) :
    ReaderOk booted more received reader := by
  cases reader with
  | idle => trivial
  | sampling first oldest next =>
      exact ⟨ok.1, ok.2.1, fun sample same => Nat.le_trans (ok.2.2 sample same) order⟩
  | dumping dump => exact { ok with next := Nat.le_trans ok.next order }

/-- What is sampled now lies in the ring of the boot, or above. -/
theorem Written.sampled {stored : List SntlRecord} {s : Sync}
    (written : Written entries booted stored s) : Sampled booted (storeOldestSeq s.ram) := by
  have least := written.least
  constructor
  · rw [storeOldestSeq_toNat, written.floor]
    exact Nat.le_max_left _ _
  · rw [storeOldestSeq_toNat]
    omega

theorem sampled_ok {counter : Nat} {received : List SntlRecord} {first : UInt32}
    {oldest next : Option UInt32}
    (ok : ReaderOk booted counter received (.sampling first oldest next)) :
    ReaderOk booted counter received (sampled first oldest next) := by
  obtain ⟨asked, low, high⟩ := ok
  cases oldest with
  | none => exact ⟨asked, low, high⟩
  | some oldest =>
      cases next with
      | none => exact ⟨asked, low, high⟩
      | some next =>
          obtain ⟨count, start, range⟩ : ∃ count start,
            sntlDumpRange first oldest next = (count, start) := ⟨_, _, rfl⟩
          have stop := (sntlDumpRange_stop range).1
          have length : (start + count.toUInt32).toNat - start.toNat = count.toNat := by omega
          simp only [sampled, range, length]
          rcases sntlDumpRange_cases first oldest next with
            ⟨past, empty⟩ | ⟨_, _, found, later, size, _⟩
          · cases range.symm.trans empty
            refine ⟨asked, low oldest rfl, high next rfl, ?_, rfl, fun more => absurd rfl more⟩
            rw [Nat.sub_eq_zero_of_le past]
            rfl
          · cases range.symm.trans found
            refine ⟨asked, low oldest rfl, high next rfl, ?_, rfl, fun _ => later⟩
            rw [List.length_nil, Nat.zero_add, ← later]
            exact size

theorem sampled_sent (first : UInt32) (oldest next : Option UInt32) :
    (sampled first oldest next).sent = [] := by
  cases oldest with
  | none => rfl
  | some oldest =>
      cases next with
      | none => rfl
      | some next => rfl

theorem DumpOk.seq_lt {counter : Nat} {received : List SntlRecord} {dump : Dumping}
    (ok : DumpOk booted counter received dump) (more : dump.left ≠ 0) :
    dump.seq.toNat < dump.next.toNat := by
  have seq := ok.seq more
  have total := ok.total
  omega

theorem DumpOk.answer {counter : Nat} {received : List SntlRecord} {dump : Dumping}
    (ok : DumpOk booted counter received dump) (more : dump.left ≠ 0) {found : Option SntlRecord}
    (number : (found.getD (recycledRecord dump.seq)).seq = dump.seq) :
    ReaderOk booted counter received (dump.answer found).1 := by
  have seq := ok.seq more
  have total := ok.total
  have limit := dump.next.toNat_lt
  have inside := ok.seq_lt more
  refine ⟨ok.first, ok.oldest, ok.next, ?_, ?_, fun _ => ?_⟩
  · simp only [List.length_append, List.length_singleton]
    omega
  · exact ok.sent.concat ((congrArg UInt32.toNat number).trans seq)
  · simp only [List.length_append, List.length_singleton]
    rw [next_toNat (by omega)]
    omega

/-- A step of either party keeps what the reader relies on. -/
theorem ReaderOk.step {stored : List SntlRecord} {s next : Sync} {event : SyncEvent}
    {output : SyncOutput}
    (ok : ReaderOk booted s.ram.storeMeta.nextSeq.toNat s.received s.reader)
    (written : Written entries booted stored s)
    (grows : s.ram.storeMeta.nextSeq.toNat ≤ next.ram.storeMeta.nextSeq.toNat)
    (step : SyncStep s event next output) :
    ReaderOk booted next.ram.storeMeta.nextSeq.toNat next.received next.reader := by
  have reader := ok.mono grows
  cases step with
  | request free => exact ⟨rfl, nofun, nofun⟩
  | sampleOldest sampling =>
      rw [sampling] at reader
      refine sampled_ok ⟨reader.1, ?_, reader.2.2⟩
      rintro _ ⟨⟩
      exact written.sampled
  | sampleNext sampling =>
      rw [sampling] at reader
      refine sampled_ok ⟨reader.1, reader.2.1, ?_⟩
      rintro _ ⟨⟩
      exact Nat.le_refl _
  | passed dumping =>
      rw [dumping] at reader
      exact { reader with }
  | answered dumping more way =>
      rw [dumping] at reader
      exact reader.answer more way.seq_eq
  | complete => trivial
  | _ => exact reader

/-! ## The client -/

theorem ReceivedOk.start : ReceivedOk [] [] where
  increasing := List.Pairwise.nil
  below := by simp
  skipped := fun seq below => absurd below (Nat.not_lt_zero seq)
  complete := by simp

theorem ReceivedOk.other {replies : List SyncOutput} {received : List SntlRecord}
    (ok : ReceivedOk replies received) {output : SyncOutput}
    (other : ∀ first oldest next records, output ≠ .completed first oldest next records) :
    ReceivedOk (replies ++ [output]) received where
  increasing := ok.increasing
  below := ok.below
  skipped := by
    intro seq below
    rcases ok.skipped seq below with had | ⟨first, oldest, next, records, member, bounds⟩
    · exact .inl had
    · exact .inr ⟨first, oldest, next, records, List.mem_append_left _ member, bounds⟩
  complete := by
    intro first oldest next records member
    rcases List.mem_append.mp member with earlier | last
    · exact ok.complete first oldest next records earlier
    · exact absurd (List.mem_singleton.mp last).symm (other first oldest next records)

/-- The next dump begins one past the last one, unless that was empty. -/
theorem DumpOk.firstSeq_append {counter : Nat} {received : List SntlRecord} {dump : Dumping}
    (ok : DumpOk booted counter received dump) (nonempty : dump.sent ≠ []) :
    (firstSeq (received ++ dump.sent)).toNat =
      max dump.first.toNat dump.oldest.toNat + dump.sent.length := by
  obtain ⟨last, found, number⟩ := ok.sent.last nonempty
  have total := ok.total
  have limit := dump.next.toNat_lt
  have positive : 0 < dump.sent.length := List.length_pos_iff.mpr nonempty
  have after : (last.seq + 1).toNat = last.seq.toNat + 1 := by
    have value : last.seq.toNat = seqOf last := rfl
    exact next_toNat (by omega)
  rw [firstSeq, List.getLast?_append, found]
  exact after.trans number

theorem ReceivedOk.completed {counter : Nat} {replies : List SyncOutput}
    {received : List SntlRecord} {dump : Dumping} (ok : ReceivedOk replies received)
    (dumped : DumpOk booted counter received dump) (finished : dump.left = 0) :
    ReceivedOk (replies ++ [.completed dump.first dump.oldest dump.next dump.sent])
      (received ++ dump.sent) := by
  have length : dump.sent.length =
      min (dump.next.toNat - max dump.first.toNat dump.oldest.toNat) 65535 := by
    rw [← dumped.total, finished]
    rfl
  have first : (firstSeq received).toNat = dump.first.toNat :=
    congrArg UInt32.toNat dumped.first.symm
  have start : (firstSeq received).toNat ≤ max dump.first.toNat dump.oldest.toNat :=
    Nat.le_trans (Nat.le_of_eq first) (Nat.le_max_left _ _)
  have here : .completed dump.first dump.oldest dump.next dump.sent ∈
      replies ++ [.completed dump.first dump.oldest dump.next dump.sent] := by simp
  have reach : (firstSeq received).toNat ≤ (firstSeq (received ++ dump.sent)).toNat ∧
      (∀ record ∈ dump.sent, seqOf record < (firstSeq (received ++ dump.sent)).toNat) ∧
      ∀ seq < (firstSeq (received ++ dump.sent)).toNat, (firstSeq received).toNat ≤ seq →
        (∃ record ∈ dump.sent, seqOf record = seq) ∨ seq < dump.oldest.toNat := by
    by_cases nonempty : dump.sent = []
    · rw [nonempty, List.append_nil]
      exact ⟨Nat.le_refl _, by simp, fun seq below above => absurd below (Nat.not_lt_of_le above)⟩
    · rw [dumped.firstSeq_append nonempty]
      refine ⟨Nat.le_add_right_of_le start, fun record member => (dumped.sent.mem member).2, ?_⟩
      intro seq below above
      by_cases late : max dump.first.toNat dump.oldest.toNat ≤ seq
      · exact .inl (dumped.sent.exists late below)
      · exact .inr (by omega)
  obtain ⟨grows, sentBelow, covered⟩ := reach
  constructor
  · refine List.pairwise_append.mpr ⟨ok.increasing, dumped.sent.increasing, ?_⟩
    intro earlier had later sent
    exact Nat.lt_of_lt_of_le (ok.below earlier had) (Nat.le_trans start (dumped.sent.mem sent).1)
  · intro record member
    rcases List.mem_append.mp member with had | sent
    · exact Nat.lt_of_lt_of_le (ok.below record had) grows
    · exact sentBelow record sent
  · intro seq below
    by_cases earlier : seq < (firstSeq received).toNat
    · rcases ok.skipped seq earlier with
        ⟨record, had, number⟩ | ⟨first, oldest, next, records, member, bounds⟩
      · exact .inl ⟨record, List.mem_append_left _ had, number⟩
      · exact .inr ⟨first, oldest, next, records, List.mem_append_left _ member, bounds⟩
    · have above := Nat.le_of_not_lt earlier
      rcases covered seq below above with ⟨record, sent, number⟩ | hidden
      · exact .inl ⟨record, List.mem_append_right _ sent, number⟩
      · exact .inr ⟨_, _, _, _, here, first ▸ above, hidden⟩
  · intro first oldest next records member
    rcases List.mem_append.mp member with earlier | last
    · exact ok.complete first oldest next records earlier
    · cases List.mem_singleton.mp last
      exact ⟨dumped.sent, length⟩

/-! ## Runs -/

theorem Synced.start (nvs : Nvs) (ram : StoreRam) : Synced nvs ram [] (Sync.start nvs ram) where
  written := Written.start nvs ram
  reader := trivial
  received := ReceivedOk.start
  answered := rfl

theorem Synced.step {replies : List SyncOutput} {s next : Sync} {event : SyncEvent}
    {output : SyncOutput} (synced : Synced entries booted replies s) (counted : Counted s event)
    (step : SyncStep s event next output) : Synced entries booted (replies ++ [output]) next := by
  obtain ⟨written, grows⟩ := synced.written.step counted step
  have reader := synced.reader.mono grows
  have answered := synced.answered
  refine ⟨by rwa [storedOf_append], synced.reader.step synced.written grows step, ?_, ?_⟩
  · cases step with
    | complete dumping finished =>
        rw [dumping] at reader
        exact synced.received.completed reader finished
    | answered => exact synced.received.other nofun
    | _ => exact synced.received.other nofun
  · rw [answersOf_append, answered]
    cases step with
    | complete dumping =>
        rw [dumping]
        rfl
    | answered dumping more way =>
        rw [dumping]
        exact List.append_assoc _ _ _
    | request free =>
        rw [free]
        exact List.append_nil _
    | sampleOldest sampling =>
        rw [sampling, sampled_sent]
        exact List.append_nil _
    | sampleNext sampling =>
        rw [sampling, sampled_sent]
        exact List.append_nil _
    | passed dumping =>
        rw [dumping]
        exact List.append_nil _
    | _ => exact List.append_nil _

theorem syncMachine_synced {events : List SyncEvent} {final : Sync} {replies : List SyncOutput}
    (counted : syncMachine.Guarded Counted (Sync.start entries booted) events)
    (ran : syncMachine.run (Sync.start entries booted) events = some (final, replies)) :
    Synced entries booted replies final := by
  have preserved : ∀ (_ : List SyncEvent) replies s event next output,
      Synced entries booted replies s → Counted s event →
      syncMachine.step s event = some (next, output) →
      Synced entries booted (replies ++ [output]) next :=
    fun _ _ _ _ _ _ synced guard stepped => synced.step guard (syncMachine_step stepped)
  exact Machine.run_invariant preserved (Synced.start entries booted) counted ran

theorem DumpOk.above {counter : Nat} {received : List SntlRecord} {dump : Dumping}
    (ok : DumpOk booted counter received dump) (more : dump.left ≠ 0) :
    dump.oldest.toNat ≤ dump.seq.toNat := by
  have seq := ok.seq more
  omega

/-- What a step answers is the record of the seq, unless its slot is lost. -/
theorem Synced.answers {replies : List SyncOutput} {s next : Sync} {event : SyncEvent}
    {seq : UInt32} {record : SntlRecord} (synced : Synced entries booted replies s)
    (held : Held log booted.floorSeq booted.storeMeta.nextSeq entries)
    (step : SyncStep s event next (.answered seq record)) :
    record.seq = seq ∧
      (Lost entries booted (storedOf replies) seq → record = recycledRecord seq) ∧
      (¬ Lost entries booted (storedOf replies) seq → record ∈ log ++ storedOf replies) := by
  generalize made : SyncOutput.answered seq record = output at step
  cases step with
  | answered dumping more way =>
      cases made
      have reader := synced.reader
      rw [dumping] at reader
      have above := reader.above more
      have near := reader.oldest.near
      obtain ⟨gone, kept⟩ := way.correct synced.written held
        (Nat.le_trans reader.oldest.floor above) (by omega)
        (Nat.lt_of_lt_of_le (reader.seq_lt more) reader.next)
      refine ⟨way.seq_eq, fun lost => ?_, fun still => ?_⟩
      · rw [gone lost]
        rfl
      · obtain ⟨record, member, _, found⟩ := kept still
        rw [found]
        exact member
  | _ => cases made

/-- Records in a row are what the loop of `dump_run` sends when `store_get` answers with them. -/
theorem dumpedRecords_of_answers (env : DumpEnv) {start : UInt32} {records : List SntlRecord}
    (consecutive : Ring.Consecutive seqOf start.toNat records)
    (bounded : start.toNat + records.length < 2 ^ 32)
    (answers : ∀ record ∈ records, dumpedRecord env record.seq = record) :
    dumpedRecords env start records.length = records := by
  induction records generalizing start with
  | nil => rfl
  | cons record rest ih =>
      obtain ⟨number, later⟩ := consecutive.cons
      rw [List.length_cons] at bounded
      have inside : start.toNat + 1 < 2 ^ 32 := by omega
      rw [← next_toNat inside] at later
      have others := ih later (by rw [next_toNat inside]; omega) fun other member =>
        answers other (List.mem_cons_of_mem _ member)
      rw [List.length_cons, dumpedRecords, others, ← UInt32.toNat_inj.mp number,
        answers record (List.mem_cons_self ..)]

/-- The dumps of the interleaving are those that `dump_run` streams as frames. -/
theorem ExactlyOnce.dumped {replies : List SyncOutput} {final : Sync}
    (once : ExactlyOnce log entries booted replies final) {first oldest next : UInt32}
    {records : List SntlRecord} (completed : .completed first oldest next records ∈ replies)
    (env : DumpEnv) (answers : ∀ record ∈ records, dumpedRecord env record.seq = record) :
    ∃ count start, sntlDumpRange first oldest next = (count, start) ∧
      dumpedRecords env start count.toNat = records := by
  obtain ⟨consecutive, length⟩ := once.complete first oldest next records completed
  have limit := next.toNat_lt
  rcases sntlDumpRange_cases first oldest next with
    ⟨past, empty⟩ | ⟨count, start, found, later, size, _⟩
  · have nothing : records = [] := by
      rw [Nat.sub_eq_zero_of_le past] at length
      exact List.length_eq_zero_iff.mp length
    exact ⟨0, next, empty, nothing.symm⟩
  · rw [← later] at consecutive length
    refine ⟨count, start, found, ?_⟩
    rw [size, ← length]
    exact dumpedRecords_of_answers env consecutive (by omega) answers

/-- From a booted device that holds the end of the log, downloads are exactly once. -/
theorem exactlyOnce_of_held (held : Held log booted.floorSeq booted.storeMeta.nextSeq entries)
    {events : List SyncEvent} {final : Sync} {replies : List SyncOutput}
    (counted : syncMachine.Guarded Counted (Sync.start entries booted) events)
    (ran : syncMachine.run (Sync.start entries booted) events = some (final, replies)) :
    ExactlyOnce log entries booted replies final := by
  have synced := syncMachine_synced counted ran
  refine ⟨?_, ?_, synced.received.complete, ⟨_, synced.answered⟩, ?_⟩
  · exact synced.received.increasing.imp UInt32.lt_iff_toNat_lt.mpr
  · intro last member seq below
    have order := Nat.lt_trans (UInt32.lt_iff_toNat_lt.mp below) (synced.received.below last member)
    rcases synced.received.skipped seq.toNat order with
      ⟨record, had, number⟩ | ⟨first, oldest, next, records, done, low, high⟩
    · exact .inl ⟨record, had, UInt32.toNat_inj.mp number⟩
    · exact .inr ⟨first, oldest, next, records, done, UInt32.le_iff_toNat_le.mpr low,
        UInt32.lt_iff_toNat_lt.mpr high⟩
  · rintro before seq record after rfl
    obtain ⟨earlier, event, later, s, next, rfl, ranEarlier, stepped⟩ := Machine.run_output ran
    exact (syncMachine_synced counted.append_left ranEarlier).answers held
      (syncMachine_step stepped)

/--
Incremental downloads are exactly once: on every device that a run without
failures has booted, and for every interleaving of its appends with the dumps
of a client.
-/
theorem downloads_exactly_once (nvs : Nvs) (foreign : Foreign nvs)
    {history : List DeviceEvent} {outputs : List DeviceOutput} {entries : Nvs} {booted : StoreRam}
    (recorded : deviceMachine.Guarded (fun _ event => Recorded event) ⟨nvs, none⟩ history)
    (numbered : deviceMachine.Guarded Numbered ⟨nvs, none⟩ history)
    (powered : deviceMachine.run ⟨nvs, none⟩ history = some (⟨entries, some booted⟩, outputs))
    {events : List SyncEvent} {final : Sync} {replies : List SyncOutput}
    (counted : syncMachine.Guarded Counted (Sync.start entries booted) events)
    (ran : syncMachine.run (Sync.start entries booted) events = some (final, replies)) :
    ExactlyOnce (logOf outputs) entries booted replies final :=
  exactlyOnce_of_held (deviceMachine_faithful foreign recorded numbered powered).consistent.2
    counted ran

/-- A run whose events are fewer than the seqs that are left. -/
theorem counted_of_short {s : Sync} {events : List SyncEvent}
    (short : s.ram.storeMeta.nextSeq.toNat + events.length < 2 ^ 32) :
    syncMachine.Guarded Counted s events := by
  induction events generalizing s with
  | nil => trivial
  | cons event rest ih =>
      rw [List.length_cons] at short
      have inside : s.ram.storeMeta.nextSeq.toNat + 1 < 2 ^ 32 := by omega
      refine ⟨?_, fun next output stepped => ih ?_⟩
      · cases event with
        | count => exact inside
        | _ => trivial
      · cases syncMachine_step stepped with
        | count held =>
            change (s.ram.storeMeta.nextSeq + 1).toNat + rest.length < 2 ^ 32
            rw [next_toNat inside]
            omega
        | _ =>
            change s.ram.storeMeta.nextSeq.toNat + rest.length < 2 ^ 32
            omega

def appendsOf (record : SntlRecord) (uptime : Nat) : Nat → List SyncEvent
  | 0 => []
  | count + 1 => .write record uptime :: .count :: .persist :: appendsOf record uptime count

theorem appendsOf_run (record : SntlRecord) (uptime : Nat) {count : Nat} {s : Sync}
    (free : s.writer = .idle) (bounded : s.ram.storeMeta.nextSeq.toNat + count < 2 ^ 32) :
    ∃ nvs ram replies, syncMachine.run s (appendsOf record uptime count) =
        some ({ s with nvs := nvs, ram := ram }, replies) ∧
      ram.floorSeq = s.ram.floorSeq ∧
      ram.storeMeta.nextSeq.toNat = s.ram.storeMeta.nextSeq.toNat + count := by
  induction count generalizing s with
  | zero => exact ⟨s.nvs, s.ram, [], rfl, rfl, rfl⟩
  | succ count ih =>
      obtain ⟨nvs, ram, writer, reader, received⟩ := s
      cases free
      have inside : ram.storeMeta.nextSeq.toNat + 1 < 2 ^ 32 := by
        change ram.storeMeta.nextSeq.toNat + (count + 1) < 2 ^ 32 at bounded
        omega
      let next := advanced ram (stamped ram record uptime)
      let after : Sync := ⟨withCounter (withRecord nvs (stamped ram record uptime)) next.storeMeta,
        next, .idle, reader, received⟩
      have counter : next.storeMeta.nextSeq.toNat = ram.storeMeta.nextSeq.toNat + 1 :=
        next_toNat inside
      obtain ⟨entries, last, replies, ran, floor, value⟩ := @ih after rfl (by
        change next.storeMeta.nextSeq.toNat + count < 2 ^ 32
        change ram.storeMeta.nextSeq.toNat + (count + 1) < 2 ^ 32 at bounded
        omega)
      refine ⟨entries, last, _, Machine.run_cons rfl
        (Machine.run_cons rfl (Machine.run_cons rfl ran)), floor, ?_⟩
      change last.storeMeta.nextSeq.toNat = next.storeMeta.nextSeq.toNat + count at value
      change last.storeMeta.nextSeq.toNat = ram.storeMeta.nextSeq.toNat + (count + 1)
      omega

/-- The end of a dump that has passed both checks for the first of its last two records. -/
theorem lastTwo_run {nvs : Nvs} {ram : StoreRam} {received : List SntlRecord} {dump : Dumping}
    (slot : dump.lookup = .slot) (two : dump.left = 2)
    (before : dump.seq + 1 < storeNextSeq ram) (above : storeOldestSeq ram ≤ dump.seq + 1) :
    ∃ one other, syncMachine.run ⟨nvs, ram, .idle, .dumping dump, received⟩
        [.readSlot, .compareNext, .compareOldest, .readSlot, .complete] =
      some (⟨nvs, ram, .idle, .idle, received ++ (dump.sent ++ [one] ++ [other])⟩,
        [.answered dump.seq one, .quiet, .quiet, .answered (dump.seq + 1) other,
          .completed dump.first dump.oldest dump.next (dump.sent ++ [one] ++ [other])]) := by
  obtain ⟨first, oldest, next, seq, left, lookup, sent⟩ := dump
  cases slot
  cases two
  have notLate : ¬ seq + 1 ≥ storeNextSeq ram := UInt32.not_le.mpr before
  have notEarly : ¬ seq + 1 < storeOldestSeq ram := UInt32.not_lt.mpr above
  refine ⟨(readSlot nvs seq).getD (recycledRecord seq),
    (readSlot nvs (seq + 1)).getD (recycledRecord (seq + 1)), ?_⟩
  simp [syncMachine, Machine.run, Dumping.turn, Dumping.answer, notLate, notEarly]

/-- A dump of one record, two more records, and a dump of these that has checked the first of them. -/
def onceFront : List SyncEvent :=
  [.write (vacant 1) 30000, .count, .request, .sampleNext, .sampleOldest, .persist, .compareNext,
    .compareOldest, .readSlot, .complete,
    .write (vacant 2) 60000, .count, .persist, .write (vacant 3) 90000, .count, .persist,
    .request, .sampleOldest, .sampleNext, .compareNext, .compareOldest]

/-- Appends take the slot that the second dump is about to read, but not the one behind it. -/
def onceRun : List SyncEvent :=
  onceFront ++ (appendsOf (vacant 4) 120000 2879 ++
    [.readSlot, .compareNext, .compareOldest, .readSlot, .complete])

theorem onceFront_run : ∃ nvs ram dump replies,
    syncMachine.run (Sync.start (migrated ⟨0, 0⟩) StoreRam.zero) onceFront =
      some (⟨nvs, ram, .idle, .dumping dump, [{ vacant 1 with ts := 30 }]⟩, replies) ∧
    ram.storeMeta.nextSeq = 3 ∧ ram.floorSeq = 0 ∧ dump.seq = 1 ∧ dump.lookup = .slot ∧
    dump.left = 2 ∧ dump.sent = [] ∧
    storedOf replies = [{ vacant 1 with ts := 30 }, { vacant 2 with seq := 1, ts := 60 },
      { vacant 3 with seq := 2, ts := 90 }] :=
  ⟨_, _, _, _, rfl, rfl, rfl, rfl, rfl, rfl, rfl, rfl⟩

theorem appendsOf_length (record : SntlRecord) (uptime count : Nat) :
    (appendsOf record uptime count).length = 3 * count := by
  induction count with
  | zero => rfl
  | succ count ih =>
      rw [appendsOf, List.length_cons, List.length_cons, List.length_cons, ih]
      omega

theorem onceRun_counted :
    syncMachine.Guarded Counted (Sync.start (migrated ⟨0, 0⟩) StoreRam.zero) onceRun := by
  apply counted_of_short
  have front : onceFront.length = 21 := rfl
  rw [onceRun, List.length_append, List.length_append, appendsOf_length, front]
  decide

/-- The whole run: the slots hold 2882 records when the second dump gets to its two. -/
theorem onceRun_run : ∃ middle final front replies first oldest next one other,
    syncMachine.run (Sync.start (migrated ⟨0, 0⟩) StoreRam.zero)
        (onceFront ++ appendsOf (vacant 4) 120000 2879) = some (middle, front ++ replies) ∧
      middle.writer = .idle ∧ middle.ram.storeMeta.nextSeq.toNat = 2882 ∧
      { vacant 3 with seq := 2, ts := 90 } ∈ storedOf front ∧
      syncMachine.run (Sync.start (migrated ⟨0, 0⟩) StoreRam.zero) onceRun =
        some (final, front ++ (replies ++ [.answered 1 one, .quiet, .quiet, .answered 2 other,
          .completed first oldest next [one, other]])) ∧
      final.received = [{ vacant 1 with ts := 30 }, one, other] := by
  obtain ⟨nvs, ram, dump, front, ranFront, counter, floor, seq, slot, two, nothing, inFront⟩ :=
    onceFront_run
  have value : ram.storeMeta.nextSeq.toNat = 3 := by rw [counter]; rfl
  obtain ⟨entries, last, replies, ranMiddle, lastFloor, lastCounter⟩ :=
    @appendsOf_run (vacant 4) 120000 2879
      ⟨nvs, ram, .idle, .dumping dump, [{ vacant 1 with ts := 30 }]⟩ rfl
      (by change ram.storeMeta.nextSeq.toNat + 2879 < _; omega)
  change last.storeMeta.nextSeq.toNat = ram.storeMeta.nextSeq.toNat + 2879 at lastCounter
  change last.floorSeq = ram.floorSeq at lastFloor
  rw [value] at lastCounter
  have next : dump.seq + 1 = 2 := by rw [seq]; rfl
  have below : dump.seq + 1 < storeNextSeq last := by
    rw [next, UInt32.lt_iff_toNat_lt]
    change 2 < last.storeMeta.nextSeq.toNat
    omega
  have above : storeOldestSeq last ≤ dump.seq + 1 := by
    rw [next, UInt32.le_iff_toNat_le, storeOldestSeq_toNat, lastFloor, floor, lastCounter]
    decide
  obtain ⟨one, other, ranBack⟩ := @lastTwo_run entries last [{ vacant 1 with ts := 30 }] dump slot
    two below above
  rw [next, seq, nothing] at ranBack
  exact ⟨_, _, front, replies, dump.first, dump.oldest, dump.next, one, other,
    Machine.run_append ranFront ranMiddle, rfl, lastCounter, by rw [inFront]; simp,
    Machine.run_append ranFront (Machine.run_append ranMiddle ranBack), rfl⟩

/--
The client gets record 0 from a first dump, and 1 and 2 from a second, under
which the slot of 1 goes to record 2881.
-/
theorem downloads_exactly_once_recycled :
    ∃ final replies,
      deviceMachine.run ⟨.empty, none⟩ [.boot []] =
        some (⟨migrated ⟨0, 0⟩, some StoreRam.zero⟩, [.booted 0]) ∧
      syncMachine.run (Sync.start (migrated ⟨0, 0⟩) StoreRam.zero) onceRun =
        some (final, replies) ∧
      final.received = [{ vacant 1 with ts := 30 }, recycledRecord 1,
        { vacant 3 with seq := 2, ts := 90 }] ∧
      ExactlyOnce [] (migrated ⟨0, 0⟩) StoreRam.zero replies final := by
  have recorded : ∀ event ∈ [DeviceEvent.boot []], Recorded event := by simp [Recorded]
  have numbered : deviceMachine.Guarded Numbered ⟨.empty, none⟩ [.boot []] :=
    ⟨trivial, fun _ _ _ => trivial⟩
  obtain ⟨middle, final, front, replies, first, oldest, next, one, other, ranFront, idle, counter,
    third, ran, received⟩ := onceRun_run
  have once := downloads_exactly_once .empty (by decide)
    (Machine.guarded_of_inputs recorded _) numbered rfl onceRun_counted ran
  refine ⟨_, _, rfl, ran, ?_, once⟩
  have counted := onceRun_counted
  rw [onceRun, ← List.append_assoc] at counted
  have written := (syncMachine_synced counted.append_left ranFront).written
  -- By then the seqs from 0 to 2881 are in the slots.
  have total : (storedOf (front ++ replies)).length = 2882 := by
    have value := written.counter
    rw [idle] at value
    change 0 + (storedOf (front ++ replies)).length = middle.ram.storeMeta.nextSeq.toNat at value
    omega
  have stored : ∃ record ∈ storedOf (front ++ replies), seqOf record = 2881 :=
    written.consecutive.exists (Nat.zero_le _) (by rw [total]; decide)
  obtain ⟨_, gone, _⟩ := once.answers (front ++ replies) 1 one _ (List.append_assoc ..).symm
  obtain ⟨number, _, kept⟩ :=
    once.answers (front ++ replies ++ [.answered 1 one, .quiet, .quiet]) 2 other
      [.completed first oldest next [one, other]] (by simp)
  have same : storedOf (front ++ replies ++ [.answered 1 one, .quiet, .quiet]) =
      storedOf (front ++ replies) := by
    rw [storedOf_append]
    exact List.append_nil _
  rw [same] at kept
  have member : other ∈ storedOf (front ++ replies) := by
    refine kept ?_
    rintro (⟨item, inside, number⟩ | ⟨torn, _⟩)
    · have bound := (written.consecutive.mem inside).2
      rw [total, number] at bound
      exact absurd bound (by decide)
    · exact absurd torn (by decide)
  have recycled : one = recycledRecord 1 := gone (.inl stored)
  have last : other = { vacant 3 with seq := 2, ts := 90 } := by
    refine Ring.eq_of_increasing written.consecutive.increasing member ?_
      (congrArg UInt32.toNat number)
    rw [storedOf_append]
    exact List.mem_append_left _ third
  rw [received, recycled, last]

/-- An older firmware stopped two seqs before the last. -/
def lateNvs : Nvs :=
  Flash.Entries.empty.put nvsIdMeta (metaImage ⟨0xFFFFFFFE, 0⟩)

/-- The counter wraps between the samples of a dump and its first lookup. -/
def wrapRun : List SyncEvent :=
  [.write (vacant 1) 30000, .count, .persist, .request, .sampleOldest, .sampleNext,
    .write (vacant 2) 60000, .count, .compareNext]

def wrapReplies : List SyncOutput :=
  [.stored { vacant 1 with seq := 0xFFFFFFFE, ts := 30 }, .quiet, .quiet, .quiet, .quiet, .quiet,
    .stored { vacant 2 with seq := 0xFFFFFFFF, ts := 60 }, .quiet,
    .answered 0xFFFFFFFE (recycledRecord 0xFFFFFFFE)]

theorem downloads_wrap :
    ∃ entries booted final,
      deviceMachine.run ⟨lateNvs, none⟩ [.boot []] =
        some (⟨entries, some booted⟩, [.booted 0]) ∧
      syncMachine.run (Sync.start entries booted) wrapRun = some (final, wrapReplies) ∧
      ¬ ExactlyOnce [] entries booted wrapReplies final := by
  refine ⟨_, _, _, rfl, rfl, fun once => ?_⟩
  have stored : storedOf (wrapReplies.take 8) =
      [{ vacant 1 with seq := 0xFFFFFFFE, ts := 30 },
        { vacant 2 with seq := 0xFFFFFFFF, ts := 60 }] := rfl
  have answer := (once.answers (wrapReplies.take 8) 0xFFFFFFFE _ [] rfl).2.2
  rw [stored] at answer
  have member := answer (by
    rintro (⟨item, member, number⟩ | ⟨torn, _⟩)
    · rcases List.mem_pair.mp member with rfl | rfl
      · exact absurd number (by decide)
      · exact absurd number (by decide)
    · exact absurd torn (by decide))
  rcases List.mem_pair.mp member with same | same
  · exact absurd (congrArg SntlRecord.headcount same) (by decide)
  · exact absurd (congrArg SntlRecord.headcount same) (by decide)

end PresenceNode.Ble
