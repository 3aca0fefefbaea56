import PresenceNode.Store.Recovery

/-!
# Device time along the log

A boot takes up the clock where the last counted append left it, and a record
whose counter was lost in a power cut is out of reach until its slot is written
again.  So every record that the store gives is at most as late as the base of
the clock, and the base never goes back.
-/

namespace PresenceNode.Store

open Library Flash PresenceNode.Frame

def Gives (ram : StoreRam) (nvs : Nvs) (record : SntlRecord) : Prop :=
  storeGet ram nvs record.seq = some record

theorem gives_iff {ram : StoreRam} {nvs : Nvs} {record : SntlRecord} :
    Gives ram nvs record ↔
      (record.seq.toNat < ram.storeMeta.nextSeq.toNat ∧ ram.floorSeq.toNat ≤ record.seq.toNat ∧
        ram.storeMeta.nextSeq.toNat ≤ record.seq.toNat + storeCapacity) ∧
      slotsOf nvs (record.seq.toNat % storeCapacity) = some record := by
  rw [Gives, storeGet_eq]
  constructor
  · intro given
    split at given
    · next inside => exact ⟨inside, Ring.find_slot given⟩
    · cases given
  · rintro ⟨inside, held⟩
    rw [if_pos inside]
    exact Ring.find_eq_some held rfl

/-- What the store gives is ordered in time, and the base of the clock is no earlier. -/
structure Timely (ram : StoreRam) (nvs : Nvs) : Prop where
  bounded : ∀ record, Gives ram nvs record → record.ts ≤ ram.storeMeta.baseSec
  ordered : ∀ first second, Gives ram nvs first → Gives ram nvs second →
    first.seq < second.seq → first.ts ≤ second.ts

theorem timely_of_empty {ram : StoreRam} {nvs : Nvs} (empty : ∀ index, slotsOf nvs index = none) :
    Timely ram nvs := by
  have nothing (record : SntlRecord) : ¬ Gives ram nvs record := by
    intro given
    have held := (gives_iff.mp given).2
    rw [empty] at held
    cases held
  exact ⟨fun record given => absurd given (nothing record),
    fun first _ given => absurd given (nothing first)⟩

/-! ## Appends -/

section Append

variable {ram : StoreRam} {nvs : Nvs} {record other : SntlRecord}

/-- A record whose counter is not written yet adds nothing to what the store gives. -/
theorem Gives.of_filled (number : record.seq = ram.storeMeta.nextSeq)
    (given : Gives ram (withRecord nvs record) other) : Gives ram nvs other := by
  obtain ⟨inside, held⟩ := gives_iff.mp given
  rw [slotsOf_withRecord] at held
  by_cases same : other.seq.toNat % storeCapacity = seqOf record % storeCapacity
  · rw [same, Function.update_self] at held
    cases held
    rw [number] at inside
    exact absurd inside.1 (Nat.lt_irrefl _)
  · rw [Function.update_of_ne same] at held
    exact gives_iff.mpr ⟨inside, held⟩

/-- With its counter it adds itself, wherever the counter stands. -/
theorem Gives.of_counted (number : record.seq = ram.storeMeta.nextSeq)
    (given : Gives (advanced ram record)
      (withCounter (withRecord nvs record) (advanced ram record).storeMeta) other) :
    other = record ∨ Gives ram nvs other := by
  obtain ⟨inside, held⟩ := gives_iff.mp given
  rw [slotsOf_withCounter, slotsOf_withRecord] at held
  by_cases same : other.seq.toNat % storeCapacity = seqOf record % storeCapacity
  · rw [same, Function.update_self] at held
    exact .inl (Option.some.inj held).symm
  · rw [Function.update_of_ne same] at held
    have apart : other.seq.toNat ≠ ram.storeMeta.nextSeq.toNat := by
      rw [← number]
      exact fun equal => same (congrArg (· % storeCapacity) equal)
    have next : (advanced ram record).storeMeta.nextSeq.toNat =
        (ram.storeMeta.nextSeq.toNat + 1) % 2 ^ 32 := UInt32.toNat_add _ _
    have floor : (advanced ram record).floorSeq = ram.floorSeq := rfl
    rw [next, floor] at inside
    refine .inr (gives_iff.mpr ⟨?_, held⟩)
    have limit := ram.storeMeta.nextSeq.toNat_lt
    omega

theorem Timely.counted (timely : Timely ram nvs) (number : record.seq = ram.storeMeta.nextSeq)
    (later : ram.storeMeta.baseSec ≤ record.ts) :
    Timely (advanced ram record)
      (withCounter (withRecord nvs record) (advanced ram record).storeMeta) := by
  have bound : ∀ other, Gives ram nvs other → other.ts ≤ record.ts :=
    fun other given => UInt32.le_trans (timely.bounded other given) later
  constructor
  · intro other given
    rcases given.of_counted number with rfl | old
    · exact UInt32.le_refl _
    · exact bound other old
  · intro first second givenFirst givenSecond order
    rcases givenFirst.of_counted number with rfl | oldFirst
    · rcases givenSecond.of_counted number with rfl | oldSecond
      · exact UInt32.le_refl _
      · have before := (gives_iff.mp oldSecond).1.1
        rw [number] at order
        exact absurd before (Nat.lt_asymm (UInt32.lt_iff_toNat_lt.mp order))
    · rcases givenSecond.of_counted number with rfl | oldSecond
      · exact bound first oldFirst
      · exact timely.ordered first second oldFirst oldSecond order

end Append

/-! ## Stamps -/

/-- An append that returned zero: the boot, the uptime, and the record as stamped. -/
structure Stamp where
  boot : Nat
  uptime : Nat
  record : SntlRecord

/-- The boots so far, and the stamps of their appends. -/
structure Chronicle where
  boots : Nat
  stamps : List Stamp

def Chronicle.record (c : Chronicle) : DeviceEvent × DeviceOutput → Chronicle
  | (.boot _, _) => { c with boots := c.boots + 1 }
  | (.append _ uptime _ _, .appended record err) =>
      if err = 0 then { c with stamps := c.stamps ++ [⟨c.boots, uptime, record⟩] } else c
  | _ => c

def chronicle (events : List DeviceEvent) (outputs : List DeviceOutput) : Chronicle :=
  (events.zip outputs).foldl Chronicle.record ⟨0, []⟩

def uptimeAfter (last : Nat) : DeviceEvent → Nat
  | .boot _ => 0
  | .append _ uptime _ _ => uptime
  | _ => last

def lastUptime (events : List DeviceEvent) : Nat := events.foldl uptimeAfter 0

def UptimesGrow (last : Nat) : List DeviceEvent → Prop
  | [] => True
  | .append _ uptime _ _ :: rest => last ≤ uptime ∧ UptimesGrow uptime rest
  | event :: rest => UptimesGrow (uptimeAfter last event) rest

theorem UptimesGrow.at_append {last : Nat} {before after : List DeviceEvent} {record : SntlRecord}
    {uptime : Nat} {slot counter : Verdict Nat}
    (grows : UptimesGrow last (before ++ .append record uptime slot counter :: after)) :
    before.foldl uptimeAfter last ≤ uptime := by
  induction before generalizing last with
  | nil => exact grows.1
  | cons event rest ih =>
      cases event with
      | append => exact ih grows.2
      | _ => exact ih grows

/-- An append is made before device time reaches 2 ^ 32 seconds. -/
def InTime (device : Device) : DeviceEvent → Prop
  | .append _ uptime _ _ =>
      ∀ ram, device.ram = some ram → ram.bootOffset.toNat + uptime / 1000 < 2 ^ 32
  | _ => True

/-- What a step of the history may be. -/
structure Ticks (history : List DeviceEvent) (device : Device) (event : DeviceEvent) : Prop where
  unfailing : Unfailing event
  grows : ∀ record uptime slot counter, event = .append record uptime slot counter →
    lastUptime history ≤ uptime
  inTime : InTime device event

theorem storeNow_toNat {ram : StoreRam} {uptime : Nat}
    (below : ram.bootOffset.toNat + uptime / 1000 < 2 ^ 32) :
    (storeNow ram uptime).toNat = ram.bootOffset.toNat + uptime / 1000 := by
  have seconds : (UInt32.ofNat (uptime / 1000)).toNat = uptime / 1000 :=
    UInt32.toNat_ofNat_of_lt' (by change uptime / 1000 < 2 ^ 32; omega)
  rw [storeNow, UInt32.toNat_add, seconds]
  exact Nat.mod_eq_of_lt below

/-- What the store gives is in time, and it was stamped. -/
structure Chronicled (stamps : List Stamp) (ram : StoreRam) (nvs : Nvs) : Prop where
  timely : Timely ram nvs
  stamped : ∀ record, Gives ram nvs record → ∃ stamp ∈ stamps, stamp.record = record

/-- Every stamp is the offset of its boot and the seconds of its uptime. -/
structure Offset (c : Chronicle) (offset : Nat → Nat) : Prop where
  past : ∀ stamp ∈ c.stamps, stamp.boot ≤ c.boots
  sum : ∀ stamp ∈ c.stamps, stamp.record.ts.toNat = offset stamp.boot + stamp.uptime / 1000

/-- The statics against the entries, in a boot whose last append was at this uptime. -/
structure Running (c : Chronicle) (last : Nat) (ram : StoreRam) (nvs : Nvs) : Prop where
  settled : Settled ram nvs
  chronicled : Chronicled c.stamps ram nvs
  base : ram.storeMeta.baseSec.toNat ≤ ram.bootOffset.toNat + last / 1000

structure Clocked (c : Chronicle) (last : Nat) (device : Device) : Prop where
  off : device.ram = none → Foreign device.nvs ∨ heldFormat device.nvs = nvsFormat ∧
    Chronicled c.stamps (resumed device.nvs) device.nvs
  on : ∀ ram, device.ram = some ram → Running c last ram device.nvs
  offset : ∃ offset, Offset c offset ∧
    ∀ ram, device.ram = some ram → offset c.boots = ram.bootOffset.toNat

theorem chronicled_of_empty {stamps : List Stamp} {ram : StoreRam} {nvs : Nvs}
    (empty : ∀ index, slotsOf nvs index = none) : Chronicled stamps ram nvs := by
  refine ⟨timely_of_empty empty, fun record given => ?_⟩
  have held := (gives_iff.mp given).2
  rw [empty] at held
  cases held

/-- A boot would find what a device with power keeps. -/
theorem Chronicled.resumed {stamps : List Stamp} {ram : StoreRam} {nvs : Nvs}
    (chronicled : Chronicled stamps ram nvs) (settled : Settled ram nvs) :
    Chronicled stamps (Store.resumed nvs) nvs := by
  have found : Store.resumed nvs = { ram with bootOffset := ram.storeMeta.baseSec } := by
    rw [Store.resumed, settled.counter, settled.floor]
  rw [found]
  exact ⟨⟨chronicled.timely.bounded, chronicled.timely.ordered⟩, chronicled.stamped⟩

theorem Chronicled.filled {stamps : List Stamp} {ram : StoreRam} {nvs : Nvs} {record : SntlRecord}
    (chronicled : Chronicled stamps ram nvs) (number : record.seq = ram.storeMeta.nextSeq) :
    Chronicled stamps ram (withRecord nvs record) where
  timely :=
    { bounded := fun other given => chronicled.timely.bounded other (given.of_filled number)
      ordered := fun first second one two =>
        chronicled.timely.ordered first second (one.of_filled number) (two.of_filled number) }
  stamped := fun other given => chronicled.stamped other (given.of_filled number)

/-! ## Steps -/

section Steps

variable {c : Chronicle} {last : Nat} {nvs reached : Nvs} {ram : StoreRam}

theorem Offset.boot {offset : Nat → Nat} (sums : Offset c offset) (base : Nat) :
    Offset { c with boots := c.boots + 1 } (Function.update offset (c.boots + 1) base) where
  past := fun stamp member => Nat.le_succ_of_le (sums.past stamp member)
  sum := by
    intro stamp member
    have past := sums.past stamp member
    rw [Function.update_of_ne (by omega)]
    exact sums.sum stamp member

theorem Clocked.booted {err : Int} (clocked : Clocked c last ⟨nvs, none⟩)
    (booted : Booted False nvs ram err reached) :
    Clocked { c with boots := c.boots + 1 } 0 ⟨reached, some ram⟩ := by
  obtain ⟨offset, sums, _⟩ := clocked.offset
  refine ⟨nofun, ?_, Function.update offset (c.boots + 1) ram.bootOffset.toNat, sums.boot _, ?_⟩
  · rintro _ ⟨⟩
    refine ⟨booted.settled, ?_, ?_⟩
    · cases booted with
      | resumed current =>
          exact ((clocked.off rfl).resolve_left fun foreign => foreign.other current).2
      | migrated other => exact chronicled_of_empty (slotsOf_reached (heldMeta nvs) (by simp))
      | failed allowed => exact allowed.elim
    · cases booted with
      | resumed current => exact Nat.le_add_right _ _
      | migrated other => exact Nat.le_add_right _ _
      | failed allowed => exact allowed.elim
  · rintro _ ⟨⟩
    exact Function.update_self _ _ _

theorem Clocked.interrupted (clocked : Clocked c last ⟨nvs, none⟩)
    (interrupted : Interrupted nvs reached) :
    Clocked { c with boots := c.boots + 1 } 0 ⟨reached, none⟩ := by
  obtain ⟨offset, sums, _⟩ := clocked.offset
  refine ⟨fun _ => ?_, nofun, _, sums.boot 0, nofun⟩
  cases interrupted with
  | untouched => exact clocked.off rfl
  | torn other kept =>
      left
      rcases clocked.off rfl with foreign | ⟨current, _⟩
      · exact foreign.survivors kept
      · exact absurd current other
  | stopped other _ member =>
      have empty := slotsOf_reached (heldMeta nvs) (List.mem_append_left [migrated _] member)
      simp only [List.mem_cons, List.not_mem_nil, or_false] at member
      rcases member with rfl | rfl | rfl
      · exact .inl foreign_cleared
      · exact .inr ⟨heldFormat_formatted, chronicled_of_empty empty⟩
      · exact .inr ⟨heldFormat_floored _, chronicled_of_empty empty⟩

theorem Clocked.stopped (clocked : Clocked c last ⟨nvs, some ram⟩)
    (settled : Settled ram reached) (chronicled : Chronicled c.stamps ram reached) (later : Nat) :
    Clocked c later ⟨reached, none⟩ := by
  obtain ⟨offset, sums, _⟩ := clocked.offset
  exact ⟨fun _ => .inr ⟨settled.current, chronicled.resumed settled⟩, nofun, offset, sums, nofun⟩

theorem Clocked.counted (clocked : Clocked c last ⟨nvs, some ram⟩) {record : SntlRecord}
    {uptime : Nat} (grows : last ≤ uptime)
    (below : ram.bootOffset.toNat + uptime / 1000 < 2 ^ 32) :
    Clocked { c with stamps := c.stamps ++ [⟨c.boots, uptime, stamped ram record uptime⟩] } uptime
      ⟨withCounter (withRecord nvs (stamped ram record uptime))
        (advanced ram (stamped ram record uptime)).storeMeta,
        some (advanced ram (stamped ram record uptime))⟩ := by
  obtain ⟨settled, ⟨timely, known⟩, base⟩ := clocked.on ram rfl
  obtain ⟨offset, sums, here⟩ := clocked.offset
  have now : (stamped ram record uptime).ts.toNat = ram.bootOffset.toNat + uptime / 1000 :=
    storeNow_toNat below
  have seconds : last / 1000 ≤ uptime / 1000 := Nat.div_le_div_right grows
  have later : ram.storeMeta.baseSec ≤ (stamped ram record uptime).ts := by
    apply UInt32.le_iff_toNat_le.mpr
    omega
  refine ⟨nofun, ?_, offset, ⟨?_, ?_⟩, ?_⟩
  · rintro _ ⟨⟩
    refine ⟨(settled.filled _).counted _, ⟨timely.counted rfl later, ?_⟩, Nat.le_of_eq now⟩
    intro other given
    rcases given.of_counted rfl with rfl | old
    · exact ⟨_, List.mem_append_right _ (List.mem_singleton_self _), rfl⟩
    · obtain ⟨stamp, member, same⟩ := known other old
      exact ⟨stamp, List.mem_append_left _ member, same⟩
  · intro stamp member
    rcases List.mem_append.mp member with earlier | new
    · exact sums.past stamp earlier
    · rw [List.mem_singleton.mp new]
  · intro stamp member
    rcases List.mem_append.mp member with earlier | new
    · exact sums.sum stamp earlier
    · rw [List.mem_singleton.mp new]
      rw [here ram rfl]
      exact now
  · rintro _ ⟨⟩
    exact here ram rfl

end Steps

/-! ## Runs -/

theorem chronicle_concat {events : List DeviceEvent} {outputs : List DeviceOutput}
    (whole : outputs.length = events.length) (event : DeviceEvent) (output : DeviceOutput) :
    chronicle (events ++ [event]) (outputs ++ [output]) =
      (chronicle events outputs).record (event, output) := by
  rw [chronicle, List.zip_append whole.symm, List.foldl_append]
  rfl

theorem lastUptime_concat (events : List DeviceEvent) (event : DeviceEvent) :
    lastUptime (events ++ [event]) = uptimeAfter (lastUptime events) event := by
  rw [lastUptime, List.foldl_append]
  rfl

theorem Clocked.step {history : List DeviceEvent} {outputs : List DeviceOutput}
    {device next : Device} {event : DeviceEvent} {output : DeviceOutput}
    (whole : outputs.length = history.length)
    (clocked : Clocked (chronicle history outputs) (lastUptime history) device)
    (ticks : Ticks history device event) (step : DeviceStep device event next output) :
    Clocked (chronicle (history ++ [event]) (outputs ++ [output]))
      (lastUptime (history ++ [event])) next := by
  rw [chronicle_concat whole, lastUptime_concat]
  cases step with
  | booted way => exact clocked.booted (way.imp ticks.unfailing)
  | interrupted way => exact clocked.interrupted way
  | appended way =>
      obtain ⟨settled, chronicled, _⟩ := clocked.on _ rfl
      cases way with
      | unwritten => exact clocked.stopped settled chronicled _
      | refused code => exact absurd ⟨code, by simp⟩ ticks.unfailing
      | torn =>
          exact clocked.stopped (settled.filled _) (chronicled.filled rfl) _
      | uncounted code => exact absurd ⟨code, by simp⟩ ticks.unfailing
      | counted => exact clocked.counted (ticks.grows _ _ _ _ rfl) (ticks.inTime _ rfl)
  | got => exact clocked
  | cut =>
      obtain ⟨settled, chronicled, _⟩ := clocked.on _ rfl
      exact clocked.stopped settled chronicled _

theorem Clocked.start {nvs : Nvs} (foreign : Foreign nvs) :
    Clocked ⟨0, []⟩ 0 ⟨nvs, none⟩ :=
  ⟨fun _ => .inl foreign, nofun, fun _ => 0, ⟨nofun, nofun⟩, nofun⟩

theorem deviceMachine_clocked {nvs : Nvs} (foreign : Foreign nvs)
    {events : List DeviceEvent} {device : Device} {outputs : List DeviceOutput}
    (unfailing : ∀ event ∈ events, Unfailing event) (grows : UptimesGrow 0 events)
    (inTime : deviceMachine.Guarded InTime ⟨nvs, none⟩ events)
    (ran : deviceMachine.run ⟨nvs, none⟩ events = some (device, outputs)) :
    Clocked (chronicle events outputs) (lastUptime events) device := by
  have preserved : ∀ history outputs device event next output,
      (outputs.length = history.length ∧
        Clocked (chronicle history outputs) (lastUptime history) device) →
      Ticks history device event → deviceMachine.step device event = some (next, output) →
      (outputs ++ [output]).length = (history ++ [event]).length ∧
        Clocked (chronicle (history ++ [event]) (outputs ++ [output]))
          (lastUptime (history ++ [event])) next := by
    intro history outputs device event next output holds ticks stepped
    refine ⟨by simp [holds.1], ?_⟩
    exact Clocked.step holds.1 holds.2 ticks (deviceMachine_step stepped)
  refine (Machine.run_invariant_history preserved ⟨rfl, Clocked.start foreign⟩ ?_ ran).2
  intro before event after middle made split ranBefore
  subst split
  refine ⟨unfailing event (by simp), ?_, ?_⟩
  · rintro record uptime slot counter rfl
    exact grows.at_append
  · exact (inTime.after ranBefore).1

/-- Two stamps of one boot are as far apart as their uptimes. -/
theorem Offset.difference {c : Chronicle} {offset : Nat → Nat} (sums : Offset c offset)
    {first second : Stamp} (one : first ∈ c.stamps) (two : second ∈ c.stamps)
    (same : first.boot = second.boot) :
    (second.record.ts.toNat : Int) - first.record.ts.toNat =
      (second.uptime / 1000 : Nat) - (first.uptime / 1000 : Nat) := by
  rw [sums.sum first one, sums.sum second two, same]
  omega

/--
Device time never runs backwards along the log.  After any run of boots,
appends and cuts, of two records that the store gives the later one is no
earlier in time, and if both were appended in one boot they are as far apart
as the whole seconds of their uptimes.
-/
theorem device_time_monotone (nvs : Nvs) (foreign : Foreign nvs)
    {events : List DeviceEvent} {device : Device} {outputs : List DeviceOutput}
    (unfailing : ∀ event ∈ events, Unfailing event) (grows : UptimesGrow 0 events)
    (inTime : deviceMachine.Guarded InTime ⟨nvs, none⟩ events)
    (ran : deviceMachine.run ⟨nvs, none⟩ events = some (device, outputs)) :
    ∀ ram, device.ram = some ram → ∀ first second, Gives ram device.nvs first →
      Gives ram device.nvs second → first.seq < second.seq →
      first.ts ≤ second.ts ∧
        (∃ one ∈ (chronicle events outputs).stamps, one.record = first) ∧
        (∃ two ∈ (chronicle events outputs).stamps, two.record = second) ∧
        ∀ one ∈ (chronicle events outputs).stamps, ∀ two ∈ (chronicle events outputs).stamps,
          one.record = first → two.record = second → one.boot = two.boot →
          (second.ts.toNat : Int) - first.ts.toNat =
            (two.uptime / 1000 : Nat) - (one.uptime / 1000 : Nat) := by
  intro ram powered first second givenFirst givenSecond order
  have clocked := deviceMachine_clocked foreign unfailing grows inTime ran
  obtain ⟨_, ⟨timely, known⟩, _⟩ := clocked.on ram powered
  obtain ⟨offset, sums, _⟩ := clocked.offset
  refine ⟨timely.ordered first second givenFirst givenSecond order, known first givenFirst,
    known second givenSecond, ?_⟩
  rintro one hasOne two hasTwo rfl rfl same
  exact sums.difference hasOne hasTwo same

def resumedRun : List DeviceEvent :=
  [.boot [], .append (vacant 1) 30000 .ok .ok, .append (vacant 2) 60000 .ok (.cut fun _ _ => true),
    .boot [], .append (vacant 3) 500 .ok .ok, .append (vacant 4) 31700 .ok .ok]

def resumedRam : StoreRam := ⟨⟨3, 61⟩, 30, 0⟩

/-- The entries after it: every record with its counter, and the torn one written over. -/
def resumedNvs : Nvs :=
  let first := withCounter (withRecord (migrated ⟨0, 0⟩) { vacant 1 with ts := 30 }) ⟨1, 30⟩
  let torn := withRecord first { vacant 2 with seq := 1, ts := 60 }
  let third := withCounter (withRecord torn { vacant 3 with seq := 1, ts := 30 }) ⟨2, 30⟩
  withCounter (withRecord third { vacant 4 with seq := 2, ts := 61 }) ⟨3, 61⟩

theorem resumedRun_inTime : deviceMachine.Guarded InTime ⟨.empty, none⟩ resumedRun := by
  refine Machine.guarded_cons trivial rfl (Machine.guarded_cons ?_ rfl (Machine.guarded_cons ?_ rfl
    (Machine.guarded_cons trivial rfl (Machine.guarded_cons ?_ rfl (Machine.guarded_cons ?_ rfl
      trivial)))))
  all_goals
    intro ram powered
    cases powered
    decide

theorem device_time_monotone_resumed :
    ∃ device outputs ram first second,
      deviceMachine.run ⟨.empty, none⟩ resumedRun = some (device, outputs) ∧
      device.ram = some ram ∧ Gives ram device.nvs first ∧ Gives ram device.nvs second ∧
      first.ts = 30 ∧ second.ts = 61 ∧ first.ts ≤ second.ts := by
  have first : Gives resumedRam resumedNvs { vacant 3 with seq := 1, ts := 30 } := by
    unfold Gives
    decide +kernel
  have second : Gives resumedRam resumedNvs { vacant 4 with seq := 2, ts := 61 } := by
    unfold Gives
    decide +kernel
  refine ⟨⟨resumedNvs, some resumedRam⟩, _, resumedRam, _, _, rfl, rfl, first, second, rfl, rfl, ?_⟩
  exact (device_time_monotone .empty (by decide) (by simp [Unfailing, resumedRun])
    (by simp [UptimesGrow, uptimeAfter, resumedRun]) resumedRun_inTime rfl _ rfl _ _ first second
    (by decide)).1

end PresenceNode.Store
