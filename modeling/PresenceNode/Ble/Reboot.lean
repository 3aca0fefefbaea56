import PresenceNode.Ble.ExactlyOnce

/-!
# Downloads across power cuts

The device boots, appends and dumps, and the power may be cut before any step,
also inside an append and inside a dump; the connection may be lost inside a
dump.  What the client has of an unfinished frame it throws away, and what it
has received it keeps.

A record that the client has is in flash together with a counter above its
seq: the slot is read under the lock, so no seq that the client has is given
again after a cut.
-/

namespace PresenceNode.Ble

open Library Flash PresenceNode.Frame Store

inductive System where
  | off (nvs : Nvs) (received : List SntlRecord)
  | on (s : Sync)

inductive SystemEvent where
  | boot (verdicts : List (Verdict Nat))
  | sync (event : SyncEvent)
  /-- The connection is lost, and `dump_run` returns. -/
  | hangUp
  | cut

inductive SystemOutput where
  | booted (err : Int)
  | sync (output : SyncOutput)
  /-- The power is cut, `appending` when inside an append. -/
  | lost (appending : Bool)
  | quiet

def Writer.appending : Writer → Bool
  | .idle => false
  | _ => true

def System.received : System → List SntlRecord
  | .off _ received => received
  | .on s => s.received

def bootSystem (nvs : Nvs) (received : List SntlRecord) (verdicts : List (Verdict Nat)) :
    System × SystemOutput :=
  match powerOn nvs verdicts with
  | (⟨nvs, some ram⟩, .booted err) =>
      (.on { Sync.start nvs ram with received := received }, .booted err)
  | (⟨nvs, _⟩, _) => (.off nvs received, .lost false)

def systemMachine : Machine System SystemEvent SystemOutput where
  step system event :=
    match system, event with
    | .off nvs received, .boot verdicts => some (bootSystem nvs received verdicts)
    | .on s, .sync event =>
        (syncMachine.step s event).map fun stepped => (.on stepped.1, .sync stepped.2)
    | .on s, .hangUp =>
        match s.reader with
        | .idle => none
        | _ => some (.on { s with reader := .idle }, .quiet)
    | .on s, .cut => some (.off s.nvs s.received, .lost s.writer.appending)
    | _, _ => none

/-- The log of the appends that were begun, less those that were cut. -/
def logAfter (log : List SntlRecord) : SystemOutput → List SntlRecord
  | .sync (.stored record) => log ++ [record]
  | .lost true => log.dropLast
  | _ => log

def begunOf (outputs : List SystemOutput) : List SntlRecord := outputs.foldl logAfter []

def System.log (system : System) (outputs : List SystemOutput) : List SntlRecord :=
  match system with
  | .off _ _ => begunOf outputs
  | .on s => if s.writer.appending then (begunOf outputs).dropLast else begunOf outputs

def repliesOf (outputs : List SystemOutput) : List SyncOutput :=
  outputs.filterMap fun output =>
    match output with
    | .sync output => some output
    | _ => none

/-- No write of a boot fails, and the counter does not reach 2 ^ 32. -/
def Careful : System → SystemEvent → Prop
  | _, .boot verdicts => ¬ ∃ code, .fail code ∈ verdicts
  | .on s, .sync event => Counted s event
  | _, _ => True

/-- A record of the log, or what is sent for one whose slot a later record has taken. -/
def Genuine (log : List SntlRecord) (replies : List SyncOutput) (record : SntlRecord) : Prop :=
  record ∈ log ∨ record = recycledRecord record.seq ∧
    ∃ newer, .stored newer ∈ replies ∧ seqOf newer = seqOf record + storeCapacity

theorem begunOf_concat (outputs : List SystemOutput) (output : SystemOutput) :
    begunOf (outputs ++ [output]) = logAfter (begunOf outputs) output := by
  simp [begunOf]

theorem repliesOf_concat (outputs : List SystemOutput) (output : SyncOutput) :
    repliesOf (outputs ++ [.sync output]) = repliesOf outputs ++ [output] := by
  simp [repliesOf]

theorem repliesOf_other (outputs : List SystemOutput) (output : SystemOutput)
    (other : ∀ made, output ≠ .sync made) : repliesOf (outputs ++ [output]) = repliesOf outputs := by
  cases output with
  | sync made => exact absurd rfl (other made)
  | _ => simp [repliesOf]

theorem begunOf_sync (outputs : List SystemOutput) (output : SyncOutput) :
    begunOf (outputs ++ [.sync output]) = begunOf outputs ++ storedOf [output] := by
  rw [begunOf_concat]
  cases output with
  | stored record => rfl
  | _ => exact (List.append_nil _).symm

theorem Genuine.mono {log more : List SntlRecord} {replies : List SyncOutput}
    {record : SntlRecord} (genuine : Genuine log replies record) (grows : log <+: more)
    (later : List SyncOutput) : Genuine more (replies ++ later) record := by
  rcases genuine with member | ⟨recycled, newer, stored, number⟩
  · exact .inl (grows.subset member)
  · exact .inr ⟨recycled, newer, List.mem_append_left _ stored, number⟩

/-! ## What a step can do -/

inductive SystemStep : System → SystemEvent → System → SystemOutput → Prop where
  | booted {nvs reached : Nvs} {received : List SntlRecord} {verdicts : List (Verdict Nat)}
      {ram : StoreRam} {err : Int}
      (way : Booted (∃ code, .fail code ∈ verdicts) nvs ram err reached) :
      SystemStep (.off nvs received) (.boot verdicts)
        (.on { Sync.start reached ram with received := received }) (.booted err)
  | interrupted {nvs reached : Nvs} {received : List SntlRecord} {verdicts : List (Verdict Nat)}
      (way : Interrupted nvs reached) :
      SystemStep (.off nvs received) (.boot verdicts) (.off reached received) (.lost false)
  | sync {s next : Sync} {event : SyncEvent} {output : SyncOutput}
      (step : SyncStep s event next output) :
      SystemStep (.on s) (.sync event) (.on next) (.sync output)
  | hangUp {s : Sync} : SystemStep (.on s) .hangUp (.on { s with reader := .idle }) .quiet
  | cut {s : Sync} :
      SystemStep (.on s) .cut (.off s.nvs s.received) (.lost s.writer.appending)

theorem systemMachine_step {system next : System} {event : SystemEvent} {output : SystemOutput}
    (stepped : systemMachine.step system event = some (next, output)) :
    SystemStep system event next output := by
  simp only [systemMachine] at stepped
  split at stepped
  · next nvs received verdicts =>
      rw [bootSystem] at stepped
      rcases powerOn_cases nvs verdicts with
        ⟨reached, ram, err, ended, way⟩ | ⟨reached, ended, way⟩
      · rw [ended] at stepped
        cases stepped
        exact .booted way
      · rw [ended] at stepped
        cases stepped
        exact .interrupted way
  · obtain ⟨⟨reached, made⟩, step, same⟩ := Option.map_eq_some_iff.mp stepped
    cases same
    exact .sync (syncMachine_step step)
  · split at stepped
    · cases stepped
    · cases stepped
      exact .hangUp
  · cases stepped
    exact .cut
  · cases stepped

/-! ## The writer against the flash -/

/-- The log of the appends that have returned is in flash; one in progress has come so far. -/
inductive Durable (floor : UInt32) (nvs : Nvs) (ram : StoreRam) :
    Writer → List SntlRecord → List SntlRecord → Prop where
  | idle {log : List SntlRecord} (counter : heldMeta nvs = ram.storeMeta)
      (kept : Held log floor (heldMeta nvs).nextSeq nvs) : Durable floor nvs ram .idle log log
  | written {log : List SntlRecord} {record : SntlRecord} (counter : heldMeta nvs = ram.storeMeta)
      (kept : Held log floor (heldMeta nvs).nextSeq nvs)
      (number : record.seq = (heldMeta nvs).nextSeq)
      (slot : slotsOf nvs (seqOf record % storeCapacity) = some record) :
      Durable floor nvs ram (.written record) log (log ++ [record])
  | counted {log : List SntlRecord} {record : SntlRecord}
      (counter : ram.storeMeta.nextSeq.toNat = (heldMeta nvs).nextSeq.toNat + 1)
      (kept : Held log floor (heldMeta nvs).nextSeq nvs)
      (number : record.seq = (heldMeta nvs).nextSeq)
      (slot : slotsOf nvs (seqOf record % storeCapacity) = some record) :
      Durable floor nvs ram .counted log (log ++ [record])

namespace Durable

variable {floor : UInt32} {nvs : Nvs} {ram : StoreRam} {writer : Writer}
  {log begun : List SntlRecord}

theorem kept (durable : Durable floor nvs ram writer log begun) :
    Held log floor (heldMeta nvs).nextSeq nvs := by
  cases durable with
  | idle _ kept => exact kept
  | written _ kept => exact kept
  | counted _ kept => exact kept

theorem log_eq (durable : Durable floor nvs ram writer log begun) :
    log = if writer.appending then begun.dropLast else begun := by
  cases durable with
  | idle => rfl
  | written => exact List.dropLast_concat.symm
  | counted => exact List.dropLast_concat.symm

theorem counter_le (durable : Durable floor nvs ram writer log begun) :
    ram.storeMeta.nextSeq.toNat ≤ (heldMeta nvs).nextSeq.toNat + 1 := by
  cases durable with
  | idle counter => rw [counter]; exact Nat.le_succ _
  | written counter => rw [counter]; exact Nat.le_succ _
  | counted counter => exact Nat.le_of_eq counter

theorem free (durable : Durable floor nvs ram writer log begun) (idle : writer = .idle) :
    log = begun ∧ heldMeta nvs = ram.storeMeta := by
  cases durable with
  | idle counter => exact ⟨rfl, counter⟩
  | written => cases idle
  | counted => cases idle

/-- A step keeps the log in flash, or adds the append that it ends. -/
theorem step {s next : Sync} {event : SyncEvent} {output : SyncOutput}
    (durable : Durable floor s.nvs s.ram s.writer log begun) (counted : Counted s event)
    (step : SyncStep s event next output) :
    ∃ more, Durable floor next.nvs next.ram next.writer more (begun ++ storedOf [output]) ∧
      log <+: more ∧ (heldMeta s.nvs).nextSeq.toNat ≤ (heldMeta next.nvs).nextSeq.toNat := by
  have same (quiet : output.storedRecord = none) : begun ++ storedOf [output] = begun := by
    simp [storedOf, quiet]
  cases step with
  | write idle record uptime =>
      rw [idle] at durable
      cases durable with
      | idle counter kept =>
          have number : (stamped s.ram record uptime).seq = (heldMeta s.nvs).nextSeq := by
            rw [counter]
            rfl
          refine ⟨log, .written ?_ ?_ ?_ ?_, List.prefix_rfl, ?_⟩
          · rw [heldMeta_withRecord]
            exact counter
          · rw [heldMeta_withRecord]
            exact kept.filled number
          · rw [heldMeta_withRecord]
            exact number
          · rw [slotsOf_withRecord, Function.update_self]
          · rw [heldMeta_withRecord]
  | count written =>
      rw [written] at durable
      rw [same rfl]
      cases durable with
      | written counter kept number slot =>
          refine ⟨log, .counted ?_ kept number slot, List.prefix_rfl, Nat.le_refl _⟩
          rw [counter]
          exact next_toNat counted
  | persist busy =>
      rw [busy] at durable
      rw [same rfl]
      cases durable with
      | counted counter kept number slot =>
          refine ⟨_, .idle (heldMeta_withCounter _ _) ?_, List.prefix_append _ _, ?_⟩
          · rw [heldMeta_withCounter, Held, slotsOf_withCounter, counter]
            have here : seqOf _ = (heldMeta s.nvs).nextSeq.toNat := congrArg UInt32.toNat number
            exact kept.count here (here ▸ slot)
          · rw [heldMeta_withCounter, counter]
            exact Nat.le_succ _
  | _ =>
      rw [same rfl]
      exact ⟨log, durable, List.prefix_rfl, Nat.le_refl _⟩

end Durable

/-! ## The invariant -/

/-- What the client has received, against the log and the counter in flash. -/
structure ClientOk (log : List SntlRecord) (counter : Nat) (replies : List SyncOutput)
    (received : List SntlRecord) : Prop where
  ok : ReceivedOk replies received
  genuine : ∀ record ∈ received, Genuine log replies record
  below : ∀ record ∈ received, seqOf record < counter
  taken : ∀ first oldest next records, .completed first oldest next records ∈ replies →
    ∀ record ∈ records, record ∈ received

def Owned (replies : List SyncOutput) (nvs : Nvs) : Prop :=
  ∀ index record, slotsOf nvs index = some record → .stored record ∈ replies

structure OffOk (log : List SntlRecord) (replies : List SyncOutput) (nvs : Nvs)
    (received : List SntlRecord) : Prop where
  consistent : Consistent log ⟨nvs, none⟩
  client : ClientOk log (heldMeta nvs).nextSeq.toNat replies received
  fresh : heldFormat nvs ≠ nvsFormat → received = []
  owned : heldFormat nvs = nvsFormat → Owned replies nvs

/-- `base` is the log at the boot, and `stored` what has gone into slots since. -/
structure OnOk (base stored log : List SntlRecord) (entries : Nvs) (booted : StoreRam)
    (replies : List SyncOutput) (s : Sync) : Prop where
  held : Held base booted.floorSeq booted.storeMeta.nextSeq entries
  owned : Owned replies entries
  said : ∀ record ∈ stored, .stored record ∈ replies
  written : Written entries booted stored s
  current : heldFormat s.nvs = nvsFormat
  floor : heldFloor s.nvs = booted.floorSeq
  durable : Durable booted.floorSeq s.nvs s.ram s.writer log (base ++ stored)
  reader : ReaderOk booted s.ram.storeMeta.nextSeq.toNat s.received s.reader
  sent : ∀ record ∈ s.reader.sent,
    Genuine log replies record ∧ seqOf record < (heldMeta s.nvs).nextSeq.toNat
  client : ClientOk log (heldMeta s.nvs).nextSeq.toNat replies s.received

def SystemOk (outputs : List SystemOutput) : System → Prop
  | .off nvs received => OffOk (begunOf outputs) (repliesOf outputs) nvs received
  | .on s => ∃ base stored log entries booted, begunOf outputs = base ++ stored ∧
      OnOk base stored log entries booted (repliesOf outputs) s

theorem ClientOk.none (log : List SntlRecord) (counter : Nat) {replies : List SyncOutput}
    (client : ClientOk log counter replies []) (more : List SntlRecord) (other : Nat) :
    ClientOk more other replies [] where
  ok := client.ok
  genuine := by simp
  below := by simp
  taken := client.taken

theorem ClientOk.mono {log more : List SntlRecord} {counter higher : Nat}
    {replies : List SyncOutput} {received : List SntlRecord}
    (client : ClientOk log counter replies received) (grows : log <+: more)
    (order : counter ≤ higher) {output : SyncOutput}
    (other : ∀ first oldest next records, output ≠ .completed first oldest next records) :
    ClientOk more higher (replies ++ [output]) received where
  ok := client.ok.other other
  genuine := fun record member => (client.genuine record member).mono grows _
  below := fun record member => Nat.lt_of_lt_of_le (client.below record member) order
  taken := by
    intro first oldest next records member
    rcases List.mem_append.mp member with earlier | last
    · exact client.taken first oldest next records earlier
    · exact absurd (List.mem_singleton.mp last).symm (other first oldest next records)

namespace OnOk

variable {base stored log : List SntlRecord} {entries : Nvs} {booted : StoreRam}
  {replies : List SyncOutput} {s : Sync}

theorem newer (on : OnOk base stored log entries booted replies s) {seq : UInt32}
    (lost : Lost entries booted stored seq) :
    ∃ newer, .stored newer ∈ replies ∧ seqOf newer = seq.toNat + storeCapacity := by
  rcases lost with ⟨item, member, number⟩ | ⟨last, item, slot, number⟩
  · exact ⟨item, on.said item member, number⟩
  · exact ⟨item, on.owned _ item slot, number.trans last.symm⟩

/-- What goes into a dump is genuine, and the counter in flash is above it. -/
theorem answered (on : OnOk base stored log entries booted replies s) {dump : Dumping}
    (dumping : s.reader = .dumping dump) (more : dump.left ≠ 0) {found : Option SntlRecord}
    (way : Answered s dump.seq found) :
    Genuine log replies (found.getD (recycledRecord dump.seq)) ∧
      seqOf (found.getD (recycledRecord dump.seq)) < (heldMeta s.nvs).nextSeq.toNat := by
  have reader := on.reader
  rw [dumping] at reader
  have above := reader.above more
  have near := reader.oldest.near
  have low := Nat.le_trans reader.oldest.floor above
  have inside := Nat.lt_of_lt_of_le (reader.seq_lt more) reader.next
  obtain ⟨gone, kept⟩ := way.correct on.written on.held low (by omega) inside
  have number : seqOf (found.getD (recycledRecord dump.seq)) = dump.seq.toNat :=
    congrArg UInt32.toNat way.seq_eq
  constructor
  · by_cases lost : Lost entries booted stored dump.seq
    · rw [gone lost]
      exact .inr ⟨rfl, on.newer lost⟩
    · obtain ⟨record, member, _, result⟩ := kept lost
      rw [result]
      -- Only a slot gives a record, and the slot is read outside appends.
      cases way with
      | slot free =>
          rw [(on.durable.free free).1]
          exact .inl member
      | _ => cases result
  · rw [number]
    cases way with
    | late past => exact absurd inside (Nat.not_lt_of_le (UInt32.le_iff_toNat_le.mp past))
    | early below =>
        have order : dump.seq.toNat < (storeOldestSeq s.ram).toNat := UInt32.lt_iff_toNat_lt.mp below
        rw [storeOldestSeq_toNat, on.written.floor] at order
        have counter := on.durable.counter_le
        have positive : 0 < storeCapacity := by decide
        omega
    | slot free =>
        rw [(on.durable.free free).2]
        exact inside

theorem owned_now (on : OnOk base stored log entries booted replies s) : Owned replies s.nvs := by
  intro index record slot
  rw [on.written.slots] at slot
  rcases Ring.fillAll_cases storeCapacity (slotsOf entries) on.written.consecutive.increasing
    index with ⟨same, _⟩ | ⟨item, member, found, _⟩
  · exact on.owned index record (same ▸ slot)
  · cases found.symm.trans slot
    exact on.said record member

theorem hangUp (on : OnOk base stored log entries booted replies s) :
    OnOk base stored log entries booted replies { s with reader := .idle } :=
  { on with
    written := { on.written with }
    reader := trivial
    sent := nofun }

theorem cut (on : OnOk base stored log entries booted replies s) :
    OffOk log replies s.nvs s.received where
  consistent := by
    refine .inr ⟨on.current, ?_⟩
    rw [on.floor]
    exact on.durable.kept
  client := on.client
  fresh := fun other => absurd on.current other
  owned := fun _ => on.owned_now

theorem format_floor {next : Sync} {event : SyncEvent} {output : SyncOutput}
    (step : SyncStep s event next output) :
    heldFormat next.nvs = heldFormat s.nvs ∧ heldFloor next.nvs = heldFloor s.nvs := by
  cases step with
  | write free record uptime => exact ⟨heldFormat_withRecord _ _, heldFloor_withRecord _ _⟩
  | persist counted => exact ⟨heldFormat_withCounter _ _, heldFloor_withCounter _ _⟩
  | _ => exact ⟨rfl, rfl⟩

/-- The client after a step: only the end of a dump gives it anything. -/
theorem client_step (on : OnOk base stored log entries booted replies s) {next : Sync}
    {event : SyncEvent} {output : SyncOutput} (step : SyncStep s event next output)
    {more : List SntlRecord} (grows : log <+: more)
    (order : (heldMeta s.nvs).nextSeq.toNat ≤ (heldMeta next.nvs).nextSeq.toNat) :
    ClientOk more (heldMeta next.nvs).nextSeq.toNat (replies ++ [output]) next.received := by
  cases step with
  | complete dumping finished =>
      have reader := on.reader
      have sent := on.sent
      rw [dumping] at reader sent
      refine ⟨on.client.ok.completed reader finished, ?_, ?_, ?_⟩
      · intro record member
        rcases List.mem_append.mp member with had | new
        · exact (on.client.genuine record had).mono grows _
        · exact (sent record new).1.mono grows _
      · intro record member
        rcases List.mem_append.mp member with had | new
        · exact Nat.lt_of_lt_of_le (on.client.below record had) order
        · exact Nat.lt_of_lt_of_le (sent record new).2 order
      · intro first oldest next records member record inside
        rcases List.mem_append.mp member with earlier | last
        · exact List.mem_append_left _ (on.client.taken first oldest next records earlier record inside)
        · cases List.mem_singleton.mp last
          exact List.mem_append_right _ inside
  | answered => exact on.client.mono grows order nofun
  | _ => exact on.client.mono grows order nofun

/-- The dump in progress after a step: an answer adds to it, and nothing else does. -/
theorem sent_step (on : OnOk base stored log entries booted replies s) {next : Sync}
    {event : SyncEvent} {output : SyncOutput} (step : SyncStep s event next output)
    {more : List SntlRecord} (grows : log <+: more)
    (order : (heldMeta s.nvs).nextSeq.toNat ≤ (heldMeta next.nvs).nextSeq.toNat) :
    ∀ record ∈ next.reader.sent, Genuine more (replies ++ [output]) record ∧
      seqOf record < (heldMeta next.nvs).nextSeq.toNat := by
  have still : ∀ record ∈ s.reader.sent, Genuine more (replies ++ [output]) record ∧
      seqOf record < (heldMeta next.nvs).nextSeq.toNat := fun record member =>
    ⟨(on.sent record member).1.mono grows _, Nat.lt_of_lt_of_le (on.sent record member).2 order⟩
  cases step with
  | request => exact nofun
  | sampleOldest sampling =>
      rw [sampled_sent]
      exact nofun
  | sampleNext sampling =>
      rw [sampled_sent]
      exact nofun
  | passed dumping =>
      rw [dumping] at still
      exact still
  | answered dumping more way =>
      rw [dumping] at still
      intro record member
      rcases List.mem_append.mp member with earlier | last
      · exact still record earlier
      · rw [List.mem_singleton.mp last]
        obtain ⟨genuine, below⟩ := on.answered dumping more way
        exact ⟨genuine.mono grows _, below⟩
  | complete => exact nofun
  | _ => exact still

theorem step (on : OnOk base stored log entries booted replies s) {next : Sync}
    {event : SyncEvent} {output : SyncOutput} (counted : Counted s event)
    (step : SyncStep s event next output) :
    ∃ more, OnOk base (stored ++ storedOf [output]) more entries booted (replies ++ [output])
      next := by
  obtain ⟨written, higher⟩ := on.written.step counted step
  obtain ⟨more, durable, grows, order⟩ := on.durable.step counted step
  obtain ⟨format, floor⟩ := format_floor step
  rw [List.append_assoc] at durable
  refine ⟨more, on.held, ?_, ?_, written, format.trans on.current, floor.trans on.floor, durable,
    on.reader.step on.written higher step, on.sent_step step grows order, on.client_step step grows order⟩
  · exact fun index record slot => List.mem_append_left _ (on.owned index record slot)
  · intro record member
    rcases List.mem_append.mp member with earlier | last
    · exact List.mem_append_left _ (on.said record earlier)
    · obtain ⟨made, only, given⟩ := List.mem_filterMap.mp last
      rw [List.mem_singleton.mp only] at given
      cases output with
      | stored other =>
          cases given
          simp
      | _ => cases given

end OnOk

namespace OffOk

variable {log : List SntlRecord} {replies : List SyncOutput} {nvs reached : Nvs}
  {received : List SntlRecord}

/-- A boot goes on from the entries, or it migrates on behalf of a client that has nothing. -/
theorem booted (off : OffOk log replies nvs received) {ram : StoreRam} {err : Int}
    (way : Booted False nvs ram err reached) :
    OnOk log [] log reached ram replies { Sync.start reached ram with received := received } := by
  obtain ⟨settled, held⟩ := off.consistent.booted way
  have kept : Held log ram.floorSeq (heldMeta reached).nextSeq reached := by
    rw [settled.counter]
    exact held
  have entries : Owned replies reached ∧
      ClientOk log (heldMeta reached).nextSeq.toNat replies received := by
    cases way with
    | resumed current => exact ⟨off.owned current, off.client⟩
    | migrated other =>
        have nothing := off.fresh other
        have client := off.client
        rw [nothing] at client ⊢
        refine ⟨fun index record slot => ?_, client.none _ _ _ _⟩
        rw [slotsOf_reached (heldMeta nvs) (by simp)] at slot
        cases slot
    | failed allowed => exact allowed.elim
  have written := Written.start reached ram
  refine ⟨held, entries.1, by simp, { written with }, settled.current, settled.floor, ?_,
    trivial, nofun, entries.2⟩
  rw [List.append_nil]
  exact .idle settled.counter kept

theorem interrupted (off : OffOk log replies nvs received) (way : Interrupted nvs reached) :
    OffOk log replies reached received := by
  have consistent := off.consistent.interrupted way
  cases way with
  | untouched => exact off
  | torn other kept =>
      have nothing := off.fresh other
      have client := off.client
      rw [nothing] at client ⊢
      refine ⟨consistent, client.none _ _ _ _, fun _ => rfl, fun current => ?_⟩
      rcases off.consistent with ⟨foreign, _⟩ | stored
      · exact absurd current (foreign.survivors kept).other
      · exact absurd stored.current other
  | stopped other _ member =>
      have nothing := off.fresh other
      have client := off.client
      rw [nothing] at client ⊢
      refine ⟨consistent, client.none _ _ _ _, fun _ => rfl, fun _ index record slot => ?_⟩
      have empty : reached ∈ [cleared, formatted, floored (heldMeta nvs), migrated (heldMeta nvs)] :=
        List.mem_append_left [migrated (heldMeta nvs)] member
      rw [slotsOf_reached (heldMeta nvs) empty] at slot
      cases slot

end OffOk

theorem SystemOk.step {outputs : List SystemOutput} {system next : System} {event : SystemEvent}
    {output : SystemOutput} (holds : SystemOk outputs system) (careful : Careful system event)
    (stepped : systemMachine.step system event = some (next, output)) :
    SystemOk (outputs ++ [output]) next := by
  cases systemMachine_step stepped with
  | booted way =>
      have on := OffOk.booted holds (way.imp careful)
      rw [← repliesOf_other outputs (.booted _) nofun] at on
      refine ⟨begunOf outputs, [], begunOf outputs, _, _, ?_, on⟩
      rw [begunOf_concat, List.append_nil]
      rfl
  | interrupted way =>
      have off := OffOk.interrupted holds way
      rw [SystemOk, begunOf_concat, repliesOf_other outputs (.lost false) nofun]
      exact off
  | sync step =>
      obtain ⟨base, stored, log, entries, booted, begun, on⟩ := holds
      obtain ⟨more, after⟩ := on.step careful step
      rw [← repliesOf_concat] at after
      refine ⟨base, _, more, entries, booted, ?_, after⟩
      rw [begunOf_sync, begun, List.append_assoc]
  | hangUp =>
      obtain ⟨base, stored, log, entries, booted, begun, on⟩ := holds
      refine ⟨base, stored, log, entries, booted, ?_, ?_⟩
      · rw [begunOf_concat]
        exact begun
      · rw [repliesOf_other outputs .quiet nofun]
        exact on.hangUp
  | @cut s =>
      obtain ⟨base, stored, log, entries, booted, begun, on⟩ := holds
      have ended : logAfter (begunOf outputs) (.lost s.writer.appending) = log := by
        rw [begun, on.durable.log_eq]
        cases s.writer.appending <;> rfl
      rw [SystemOk, begunOf_concat, repliesOf_other outputs (.lost s.writer.appending) nofun,
        ended]
      exact on.cut

/-! ## Runs -/

end PresenceNode.Ble
