import PresenceNode.Store.Recovery

/-!
# Devices that a view of the records cannot tell apart

A view shows a part of each record, with its number and its time.  Two devices
are alike under a view when their statics are the same, their entries are the
same but for the records, and the records in their slots look the same.  The
store works on numbers alone, so it keeps such devices alike.
-/

namespace PresenceNode.Store

open Library Flash PresenceNode.Frame

/-- A view leaves the number and the time as they are, and looks at neither. -/
def Transparent (view : SntlRecord → SntlRecord) : Prop :=
  ∀ record seq ts, view { record with seq := seq, ts := ts } =
    { view record with seq := seq, ts := ts }

theorem Transparent.seq {view : SntlRecord → SntlRecord} (transparent : Transparent view)
    (record : SntlRecord) : (view record).seq = record.seq := by
  have same : view record = { view record with seq := record.seq, ts := record.ts } :=
    transparent record record.seq record.ts
  rw [same]

theorem Transparent.seq_eq {view : SntlRecord → SntlRecord} (transparent : Transparent view)
    {one other : SntlRecord} (same : view one = view other) : one.seq = other.seq := by
  rw [← transparent.seq one, same, transparent.seq]

def LooksLike (view : SntlRecord → SntlRecord) (id : Nat) (one other : List UInt8) : Prop :=
  if id < nvsIdRec0 then one = other
  else (entryRecord one).map view = (entryRecord other).map view

section View

variable {view : SntlRecord → SntlRecord} {one other : Nvs}

theorem looksLike_refl (view : SntlRecord → SntlRecord) (id : Nat) (entry : List UInt8) :
    LooksLike view id entry entry := by
  unfold LooksLike
  split <;> rfl

theorem looksLike_exact (id : Nat) (low : id < nvsIdRec0) (one other : List UInt8)
    (similar : LooksLike view id one other) : one = other := by
  rw [LooksLike, if_pos low] at similar
  exact similar

theorem looksLike_record {id : Nat} (high : nvsIdRec0 ≤ id) (one other : List UInt8) :
    LooksLike view id one other ↔ (entryRecord one).map view = (entryRecord other).map view := by
  rw [LooksLike, if_neg (Nat.not_lt.mpr high)]

/-! ## Boots -/

theorem nvsRead_within {id : Nat} (low : id < nvsIdRec0) (object : List UInt8) :
    (nvsRead id object).Within (· < nvsIdRec0) := by
  refine Prog.Within.bind ⟨low, fun _ => trivial⟩ fun found => ?_
  cases found <;> trivial

theorem migrate_within (ram : StoreRam) : (migrate ram).Within (· < nvsIdRec0) := by
  have write (id : Nat) (low : id < nvsIdRec0) (image : List UInt8) :
      (Flash.write id image).Within (· < nvsIdRec0) := ⟨low, fun _ => trivial⟩
  refine Prog.Within.bind (fun _ => trivial) fun err => ?_
  split
  · trivial
  refine Prog.Within.bind (fun _ => trivial) fun err => ?_
  split
  · trivial
  refine Prog.Within.bind (write _ (by decide) _) fun err => ?_
  split
  · trivial
  refine Prog.Within.bind (write _ (by decide) _) fun err => ?_
  split
  · trivial
  refine Prog.Within.bind (write _ (by decide) _) fun err => ?_
  split <;> trivial

theorem storeInit_within (ram : StoreRam) : (storeInit ram).Within (· < nvsIdRec0) := by
  refine Prog.Within.bind (fun _ => trivial) fun err => ?_
  split
  · trivial
  refine Prog.Within.bind (fun _ => trivial) fun err => ?_
  split
  · trivial
  refine Prog.Within.bind (fun _ => trivial) fun err => ?_
  split
  · trivial
  refine Prog.Within.bind
    (Prog.Within.bind (nvsRead_within (by decide) _) fun _ => trivial) fun ram => ?_
  refine Prog.Within.bind
    (Prog.Within.bind (nvsRead_within (by decide) _) fun _ => trivial) fun format => ?_
  split
  · exact migrate_within ram
  · exact Prog.Within.bind
      (Prog.Within.bind (nvsRead_within (by decide) _) fun _ => trivial) fun _ => trivial

/-! ## Devices -/

structure DeviceAlike (view : SntlRecord → SntlRecord) (one other : Device) : Prop where
  ram : one.ram = other.ram
  nvs : Alike (LooksLike view) one.nvs other.nvs

/-- An output as the view shows it. -/
def DeviceOutput.through (view : SntlRecord → SntlRecord) : DeviceOutput → DeviceOutput
  | .booted err => .booted err
  | .appended record err => .appended (view record) err
  | .got result => .got (result.map view)
  | .lost => .lost

theorem DeviceAlike.symm {one other : Device} (alike : DeviceAlike view one other) :
    DeviceAlike view other one := by
  refine ⟨alike.ram.symm, fun id => List.Forall₂.flip ((alike.nvs id).imp fun one other same => ?_)⟩
  unfold LooksLike at same ⊢
  split at same
  · next low => exact (if_pos low).mpr same.symm
  · next high => exact (if_neg high).mpr same.symm

theorem powerOn_alike (alike : Alike (LooksLike view) one other) (verdicts : List (Verdict Nat)) :
    DeviceAlike view (powerOn one verdicts).1 (powerOn other verdicts).1 ∧
      (powerOn one verdicts).2 = (powerOn other verdicts).2 := by
  have outcomes := run_alike writesMayFail (storeInit_within StoreRam.zero) (looksLike_refl view)
    looksLike_exact alike verdicts
  unfold powerOn
  cases ended : run writesMayFail (storeInit StoreRam.zero) one verdicts with
  | done result reached left =>
      cases endedOther : run writesMayFail (storeInit StoreRam.zero) other verdicts with
      | done resultOther reachedOther leftOther =>
          rw [ended, endedOther] at outcomes
          obtain ⟨rfl, still, _⟩ := outcomes
          exact ⟨⟨rfl, still⟩, rfl⟩
      | cut reachedOther =>
          rw [ended, endedOther] at outcomes
          exact outcomes.elim
  | cut reached =>
      cases endedOther : run writesMayFail (storeInit StoreRam.zero) other verdicts with
      | done resultOther reachedOther leftOther =>
          rw [ended, endedOther] at outcomes
          exact outcomes.elim
      | cut reachedOther =>
          rw [ended, endedOther] at outcomes
          exact ⟨⟨rfl, outcomes⟩, rfl⟩

theorem withRecord_alike (alike : Alike (LooksLike view) one other) {first second : SntlRecord}
    (number : first.seq = second.seq) (same : view first = view second) :
    Alike (LooksLike view) (withRecord one first) (withRecord other second) := by
  rw [withRecord, withRecord, number]
  refine alike.put ((looksLike_record (nvsIdRec0_le _) _ _).mpr ?_)
  rw [entryRecord_image, entryRecord_image, Option.map_some, Option.map_some, same]

/-- An append works on the number and the time alone. -/
theorem appendOnce_alike (transparent : Transparent view)
    (alike : Alike (LooksLike view) one other) {first second : SntlRecord}
    (same : view first = view second) (ram : StoreRam) (uptime : Nat)
    (slot counter : Verdict Nat) :
    DeviceAlike view (appendOnce one ram first uptime slot counter).1
        (appendOnce other ram second uptime slot counter).1 ∧
      (appendOnce one ram first uptime slot counter).2.through view =
        (appendOnce other ram second uptime slot counter).2.through view := by
  have stamps : view (stamped ram first uptime) = view (stamped ram second uptime) := by
    have numbered (record : SntlRecord) : view (stamped ram record uptime) =
        { view record with seq := ram.storeMeta.nextSeq, ts := storeNow ram uptime } :=
      transparent record _ _
    rw [numbered, numbered, same]
  have filled : Alike (LooksLike view) (withRecord one (stamped ram first uptime))
      (withRecord other (stamped ram second uptime)) := withRecord_alike alike rfl stamps
  have shown (err : Int) :
      (DeviceOutput.appended (stamped ram first uptime) err).through view =
        (DeviceOutput.appended (stamped ram second uptime) err).through view :=
    congrArg (DeviceOutput.appended · err) stamps
  cases slot with
  | cut kept => exact ⟨⟨rfl, alike⟩, rfl⟩
  | fail code =>
      rw [appendOnce_refused, appendOnce_refused]
      exact ⟨⟨rfl, alike⟩, shown _⟩
  | ok =>
      cases counter with
      | cut kept => exact ⟨⟨rfl, filled⟩, rfl⟩
      | fail code =>
          rw [appendOnce_uncounted, appendOnce_uncounted]
          exact ⟨⟨rfl, filled⟩, shown _⟩
      | ok => exact ⟨⟨rfl, filled.put (looksLike_refl view _ _)⟩, shown 0⟩

theorem readSlot_eq_filter (nvs : Nvs) (seq : UInt32) :
    readSlot nvs seq =
      ((nvs (recId seq)).bind entryRecord).filter fun record => record.seq = seq := by
  have same (record : SntlRecord) : seqOf record = seq.toNat ↔ record.seq = seq :=
    UInt32.toNat_inj
  rw [readSlot_eq_find]
  simp only [Ring.find, same]
  rfl

theorem storeGet_alike (transparent : Transparent view)
    (alike : Alike (LooksLike view) one other) (ram : StoreRam) (seq : UInt32) :
    (storeGet ram one seq).map view = (storeGet ram other seq).map view := by
  have slots : ((one (recId seq)).bind entryRecord).map view =
      ((other (recId seq)).bind entryRecord).map view := by
    rcases alike.read (recId seq) with ⟨nothing, nothingElse⟩ | ⟨first, second, here, there, same⟩
    · rw [nothing, nothingElse]
    · rw [here, there]
      exact (looksLike_record (nvsIdRec0_le seq) _ _).mp same
  unfold storeGet
  split
  · rfl
  · rw [readSlot_eq_filter, readSlot_eq_filter]
    cases found : (one (recId seq)).bind entryRecord with
    | none =>
        rw [found] at slots
        rw [Option.map_eq_none_iff.mp slots.symm]
    | some first =>
        rw [found] at slots
        obtain ⟨second, foundOther, same⟩ := Option.map_eq_some_iff.mp slots.symm
        rw [foundOther]
        by_cases number : first.seq = seq
        · have numberOther : second.seq = seq := (transparent.seq_eq same).trans number
          simp [Option.filter, number, numberOther, same]
        · have numberOther : ¬ second.seq = seq :=
            fun equal => number ((transparent.seq_eq same).symm.trans equal)
          simp [Option.filter, number, numberOther]

end View

end PresenceNode.Store
