import PresenceNode.Host.Agreement
import PresenceNode.Host.Decoders
import PresenceNode.Radar.Zones

/-!
# The monitor and the firmware

`monitor.py` reads the same stream as the firmware and keeps the same clock:
whether the zone is occupied, and since when.  It judges a frame by its
targets, else by its zones, else by its points; the firmware by its targets if
it has a target list, else by eight of its zones.  Between the frames the main
loop of the firmware takes windows, and one without frames makes it forget
since when.  What is only printed is left out.
-/

namespace PresenceNode.Host

open Library Library.Deframer Tlv Radar

/-! ## The point cloud -/

def pointsType : Nat := 301

def pointUnitSize : Nat := 20

def pointSize : Nat := 10

/-- A point, in the units of its payload. -/
structure Point where
  x : UInt16
  y : UInt16
  z : UInt16
  doppler : UInt16
  snr : UInt8
  noise : UInt8
  major : Bool

def unpackPoint (payload : List UInt8) (nMajor : UInt16) (i off : Nat) : Option Point := do
  let x ← LittleEndian.read16 payload off
  let y ← LittleEndian.read16 payload (off + 2)
  let z ← LittleEndian.read16 payload (off + 4)
  let doppler ← LittleEndian.read16 payload (off + 6)
  let snr ← payload[off + 8]?
  let noise ← payload[off + 9]?
  some { x, y, z, doppler, snr, noise, major := i < nMajor.toNat }

/-- How many points begin before the end of the `range` in `points`. -/
def pointCount (payload : List UInt8) : Nat :=
  (payload.length - pointSize + 1 - pointUnitSize + (pointSize - 1)) / pointSize

def points (payload : List UInt8) : Option (List Point) :=
  if payload.length < pointUnitSize then some []
  else do
    let nMajor ← LittleEndian.read16 payload 16
    (List.range (pointCount payload)).mapM fun i =>
      unpackPoint payload nMajor i (pointUnitSize + pointSize * i)

/-! ## The monitor -/

/-- `occupied` and `since` in `main` of `monitor.py`. -/
structure Watch where
  occupied : Bool
  since : Option Int

def Watch.start : Watch := ⟨false, none⟩

def sinceOr (since : Option Int) (now : Int) : Int :=
  match since with
  | some time => if time ≠ 0 then time else now
  | none => now

def watchFrame (watch : Watch) (raw : List UInt8) (now : Int) : Option Watch := do
  let d ← decode raw
  let points ← points ((d.tlvs pointsType).getD [])
  let occupied :=
    if d.targets ≠ [] then true
    else if d.zones ≠ [] then d.zones.any (· ≠ .none)
    else points ≠ []
  some ⟨occupied, if occupied then some (sinceOr watch.since now) else none⟩

def watchAll (watch : Watch) (frames : List (List UInt8 × Int)) : Option Watch :=
  frames.foldlM (fun watch frame => watchFrame watch frame.1 frame.2) watch

/-- What one `os.read` returns, and `time.monotonic()` at each frame that it completes. -/
structure Read where
  chunk : List UInt8
  clock : Nat → Int

def Read.timed (read : Read) (frames : List (List UInt8)) : List (List UInt8 × Int) :=
  frames.zipIdx.map fun frame => (frame.1, read.clock frame.2)

structure Monitor where
  buf : List UInt8
  watch : Watch

def Monitor.start : Monitor := ⟨[], .start⟩

/-- The loop of `main`; it puts out the frames that it has handled. -/
def monitor : Machine Monitor Read (List (List UInt8 × Int)) where
  step m read := do
    let (got, buf) ← split (m.buf ++ read.chunk)
    let watch ← watchAll m.watch (read.timed got)
    some (⟨buf, watch⟩, read.timed got)

/-- The frames among what happens to the accumulators of the firmware, with their times. -/
def framesAt (events : List RadarEvent) : List (List UInt8 × Int) :=
  events.filterMap fun event =>
    match event with
    | .frame bytes now => some (bytes, now)
    | .take _ => none

/-! ## What a payload says -/

def Tracked (payload : List UInt8) : Prop :=
  payload.length ≠ 0 ∧
    (payload.length % target3D.size = 0 ∨ payload.length % target2D.size = 0)

def Zoned (payload : List UInt8) : Prop :=
  2 ≤ payload.length ∧ ∃ zones, payload[0]? = some zones ∧ 0 < zones.toNat

def Pointed (payload : List UInt8) : Prop := pointUnitSize + pointSize ≤ payload.length

theorem mapM_defined {α β : Type} {f : α → Option β} {items : List α}
    (each : ∀ item ∈ items, ∃ made, f item = some made) :
    ∃ found, items.mapM f = some found ∧ found.length = items.length := by
  induction items with
  | nil => exact ⟨[], rfl, rfl⟩
  | cons item rest ih =>
      obtain ⟨made, first⟩ := each item (List.mem_cons_self ..)
      obtain ⟨found, others, same⟩ :=
        ih fun other member => each other (List.mem_cons_of_mem _ member)
      exact ⟨made :: found, by rw [List.mapM_cons, first, others]; rfl, congrArg (· + 1) same⟩

theorem pointCount_eq (payload : List UInt8) :
    pointCount payload = (payload.length - 20) / 10 := by
  simp only [pointCount, pointUnitSize, pointSize]
  omega

theorem points_pointed (payload : List UInt8) :
    ∃ found, points payload = some found ∧ (found ≠ [] ↔ Pointed payload) := by
  by_cases short : payload.length < pointUnitSize
  · refine ⟨[], if_pos short, fun none => absurd rfl none, fun pointed => ?_⟩
    exact absurd (Nat.le_of_add_right_le pointed) (Nat.not_le_of_lt short)
  · have unit : 20 ≤ payload.length := Nat.le_of_not_lt short
    obtain ⟨nMajor, read⟩ := LittleEndian.read16_defined
      (show 16 + 2 ≤ payload.length by omega)
    have each : ∀ i, i < pointCount payload →
        ∃ point, unpackPoint payload nMajor i (pointUnitSize + pointSize * i) = some point := by
      intro i below
      rw [pointCount_eq] at below
      have inside : 20 + 10 * i + 10 ≤ payload.length := by omega
      change ∃ point, unpackPoint payload nMajor i (20 + 10 * i) = some point
      generalize 20 + 10 * i = off at inside ⊢
      obtain ⟨x, h0⟩ := LittleEndian.read16_defined (show off + 2 ≤ payload.length by omega)
      obtain ⟨y, h2⟩ := LittleEndian.read16_defined (show off + 2 + 2 ≤ payload.length by omega)
      obtain ⟨z, h4⟩ := LittleEndian.read16_defined (show off + 4 + 2 ≤ payload.length by omega)
      obtain ⟨doppler, h6⟩ :=
        LittleEndian.read16_defined (show off + 6 + 2 ≤ payload.length by omega)
      have h8 := List.getElem?_eq_getElem (show off + 8 < payload.length by omega)
      have h9 := List.getElem?_eq_getElem (show off + 9 < payload.length by omega)
      exact ⟨_, by simp only [unpackPoint, h0, h2, h4, h6, h8, h9, Option.bind_eq_bind,
        Option.bind_some]; rfl⟩
    obtain ⟨found, unpacked, length⟩ :=
      mapM_defined fun i member => each i (List.mem_range.mp member)
    refine ⟨found, by rw [points, if_neg short, read]; exact unpacked, ?_⟩
    rw [← List.length_pos_iff, length, List.length_range, pointCount_eq]
    change _ ↔ 20 + 10 ≤ payload.length
    omega

theorem mapM_nonempty {α β : Type} {f : α → Option β} {items : List α} {found : List β}
    (made : items.mapM f = some found) : found ≠ [] ↔ items ≠ [] := by
  cases items with
  | nil =>
      cases made
      simp
  | cons item rest =>
      rw [List.mapM_cons] at made
      obtain ⟨first, _, tail⟩ := Option.bind_eq_some_iff.mp made
      obtain ⟨others, _, same⟩ := Option.bind_eq_some_iff.mp tail
      cases same
      simp

/-- `targets` makes a target of a payload exactly if it has the length of some. -/
theorem targets_tracked {payload : List UInt8} {found : List Target}
    (unpacked : targets payload = some found) : found ≠ [] ↔ Tracked payload := by
  have some : ∀ size, 0 < size → payload.length ≠ 0 → payload.length % size = 0 →
      stepRange payload.length size ≠ [] := by
    intro size positive nonempty divides
    rw [stepRange_eq positive divides, ne_eq, List.range'_eq_nil_iff]
    have whole := Nat.div_add_mod payload.length size
    intro zero
    rw [zero, divides, Nat.mul_zero] at whole
    exact nonempty whole.symm
  unfold targets at unpacked
  split at unpacked
  · next three =>
      rw [mapM_nonempty unpacked]
      exact ⟨fun _ => ⟨three.1, .inl three.2⟩, fun _ => some _ (by decide) three.1 three.2⟩
  · next other =>
      split at unpacked
      · next two =>
          rw [mapM_nonempty unpacked]
          exact ⟨fun _ => ⟨two.1, .inr two.2⟩, fun _ => some _ (by decide) two.1 two.2⟩
      · next neither =>
          cases unpacked
          refine ⟨fun none => absurd rfl none, ?_⟩
          rintro ⟨nonempty, three | two⟩
          · exact absurd ⟨nonempty, three⟩ other
          · exact absurd ⟨nonempty, two⟩ neither

/-- A zone moves exactly if the host has another state for it than `none`. -/
theorem zoneAt_moves {payload : List UInt8} {zone : Nat} {state : ZoneState}
    (reported : zoneAt (payload.drop 1) zone = some state) :
    state ≠ .none ↔ Moves payload zone := by
  obtain ⟨key, other, read, same, named⟩ := zone_agrees payload zone
  rw [reported] at same
  cases same
  rw [← zoneState_moves read, not_iff_not, ← UInt8.toNat_inj]
  revert named
  generalize key.toNat = value
  intro named
  unfold zoneStateOf at named
  split at named <;> cases named <;> simp_all

/-- `presence` finds zones exactly if the payload declares some, and motion if one moves. -/
theorem presence_zoned {payload : List UInt8} {found : List ZoneState}
    (reported : presence payload = some found) :
    (found ≠ [] ↔ Zoned payload) ∧ (found.any (· ≠ .none) = true ↔ Motion payload) := by
  have moving : ∀ {zones : List Nat} {states : List ZoneState},
      zones.mapM (zoneAt (payload.drop 1)) = some states →
      (states.any (· ≠ .none) = true ↔ ∃ zone ∈ zones, Moves payload zone) := by
    intro zones
    induction zones with
    | nil =>
        intro states made
        cases made
        simp
    | cons zone rest ih =>
        intro states made
        rw [List.mapM_cons] at made
        obtain ⟨state, first, tail⟩ := Option.bind_eq_some_iff.mp made
        obtain ⟨others, later, same⟩ := Option.bind_eq_some_iff.mp tail
        cases same
        rw [List.any_cons, Bool.or_eq_true, ih later, List.exists_mem_cons_iff,
          ← zoneAt_moves first]
        exact or_congr_left decide_eq_true_iff
  unfold presence at reported
  split at reported
  · next short =>
      cases reported
      constructor
      · exact ⟨fun none => absurd rfl none, fun zoned => absurd zoned.1 (Nat.not_le_of_lt short)⟩
      · exact ⟨fun impossible => absurd impossible (by decide),
          fun motion => absurd motion.1 (Nat.not_le_of_lt short)⟩
  · next long =>
      obtain ⟨zones, declared, made⟩ := Option.bind_eq_some_iff.mp reported
      have enough := Nat.le_of_not_lt long
      constructor
      · rw [mapM_nonempty made, ne_eq, List.range_eq_nil]
        constructor
        · exact fun some => ⟨enough, zones, declared, Nat.pos_of_ne_zero some⟩
        · rintro ⟨_, other, same, positive⟩
          rw [declared] at same
          cases same
          exact Nat.ne_of_gt positive
      · rw [moving made]
        constructor
        · rintro ⟨zone, member, moves⟩
          exact ⟨enough, zones, declared, zone, List.mem_range.mp member, moves⟩
        · rintro ⟨_, other, same, zone, inside, moves⟩
          rw [declared] at same
          cases same
          exact ⟨zone, List.mem_range.mpr inside, moves⟩

/-! ## What a frame says -/

/-- The firmware judges by the first entries, and the first eight zones. -/
def FirmwareSees (entries : List Entry) : Prop :=
  if ∃ entry ∈ entries, entry.1 = targetList then Tracked (firstPayload entries targetList)
  else MotionBelow 8 (firstPayload entries enhancedPresence)

/-- The monitor judges by the last entries: targets, else zones, else points. -/
def HostSees (entries : List Entry) : Prop :=
  Tracked (lastPayload entries targetList) ∨
    ¬ Tracked (lastPayload entries targetList) ∧
      (Zoned (lastPayload entries enhancedPresence) ∧
          Motion (lastPayload entries enhancedPresence) ∨
        ¬ Zoned (lastPayload entries enhancedPresence) ∧
          Pointed (lastPayload entries pointsType))

/-- Both see somebody in the frame, or neither does. -/
def Alike (frame : List UInt8) : Prop :=
  ∃ entries, tlvs frame = some entries ∧ (FirmwareSees entries ↔ HostSees entries)

/--
Where no type comes with two payloads, a frame with targets is judged alike,
and one without exactly if its zones do not move beside an empty target list,
do not move past the eighth only, and do not leave its points to decide.
-/
theorem sees_alike_iff {entries : List Entry} (once : ∀ type, Uniform entries type) :
    (FirmwareSees entries ↔ HostSees entries) ↔
      Tracked (firstPayload entries targetList) ∨
        ((∃ entry ∈ entries, entry.1 = targetList) →
          ¬ Motion (firstPayload entries enhancedPresence)) ∧
        ((¬ ∃ entry ∈ entries, entry.1 = targetList) →
          Motion (firstPayload entries enhancedPresence) →
          MotionBelow 8 (firstPayload entries enhancedPresence)) ∧
        (¬ Zoned (firstPayload entries enhancedPresence) →
          ¬ Pointed (firstPayload entries pointsType)) := by
  have listed : Tracked (firstPayload entries targetList) →
      ∃ entry ∈ entries, entry.1 = targetList := by
    intro tracked
    by_contra absent
    have none : (entries.find? fun entry => entry.1 = targetList) = none :=
      List.find?_eq_none.mpr fun entry member same => absent ⟨entry, member, by simpa using same⟩
    rw [firstPayload, none] at tracked
    exact tracked.1 rfl
  have zoned : Motion (firstPayload entries enhancedPresence) →
      Zoned (firstPayload entries enhancedPresence) := by
    rintro ⟨long, zones, declared, zone, inside, _⟩
    exact ⟨long, zones, declared, Nat.zero_lt_of_lt inside⟩
  have below : MotionBelow 8 (firstPayload entries enhancedPresence) →
      Motion (firstPayload entries enhancedPresence) := MotionBelow.motion
  rw [FirmwareSees, HostSees, ← (once targetList).same, ← (once enhancedPresence).same,
    ← (once pointsType).same]
  by_cases list : ∃ entry ∈ entries, entry.1 = targetList
  · rw [if_pos list]
    grind
  · rw [if_neg list]
    grind

def movingUntracked : List UInt8 :=
  tlvMagic ++ [0, 0, 0, 0] ++ [58, 0, 0, 0] ++ List.replicate 24 0 ++
    [52, 1, 0, 0, 0, 0, 0, 0] ++ [59, 1, 0, 0, 2, 0, 0, 0, 1, 1]

/-- The monitor sees somebody where the firmware counts the targets of an empty list. -/
theorem movingUntracked_apart : ValidFrame movingUntracked ∧ ¬ Alike movingUntracked := by
  refine ⟨⟨by decide, by decide, by decide, by decide⟩, ?_⟩
  rintro ⟨entries, listed, alike⟩
  have found : tlvs movingUntracked = some [(308, []), (315, [1, 1])] := by decide +kernel
  rw [listed] at found
  cases found
  have once : ∀ type, Uniform [(308, []), (315, [1, 1])] type := by
    intro type first one second two here there
    simp only [List.mem_cons, List.not_mem_nil, or_false] at one two
    rcases one with rfl | rfl <;> rcases two with rfl | rfl
    · rfl
    · exact absurd (here.trans there.symm) (by decide)
    · exact absurd (here.trans there.symm) (by decide)
    · rfl
  rcases (sees_alike_iff once).mp alike with tracked | ⟨still, _⟩
  · exact tracked.1 rfl
  · refine still ⟨_, List.mem_cons_self .., rfl⟩ ?_
    exact ⟨by decide, 1, rfl, 0, by decide, 1, rfl, by decide⟩

theorem complete_of_valid {frame : List UInt8} (valid : ValidFrame frame) :
    CompleteFrame frame := ⟨valid.declares, valid.least, valid.most⟩

theorem sight_sees {frame : List UInt8} {entries : List Entry}
    (finds : ∀ type : UInt32, tlvFind frame type =
      some ((entries.find? fun entry => entry.1 = type.toNat).map Prod.snd)) :
    ∃ seen, sight frame = some seen ∧ (0 < seen.2 ↔ FirmwareSees entries) := by
  have tracked : tlvFind frame tlvTargetList =
      some ((entries.find? fun entry => entry.1 = targetList).map Prod.snd) := finds tlvTargetList
  have zoned : tlvFind frame tlvEnhancedPresence =
      some ((entries.find? fun entry => entry.1 = enhancedPresence).map Prod.snd) :=
    finds tlvEnhancedPresence
  unfold FirmwareSees firstPayload
  cases list : entries.find? fun entry => entry.1 = targetList with
  | some entry =>
      obtain ⟨found, unpacked, makes⟩ := targets_agree entry.2
      have there : ∃ entry ∈ entries, entry.1 = targetList :=
        ⟨entry, List.mem_of_find?_eq_some list, by simpa using List.find?_some list⟩
      rw [list] at tracked
      refine ⟨(true, ((found.take radarMaxTargets.toNat).map Target.seen).length), ?_, ?_⟩
      · simp [sight, tracked, makes]
      · have twenty : radarMaxTargets.toNat = 20 := rfl
        rw [if_pos there, List.length_map, List.length_take]
        change _ ↔ Tracked entry.2
        rw [← targets_tracked unpacked, ← List.length_pos_iff]
        omega
  | none =>
      have absent : ¬ ∃ entry ∈ entries, entry.1 = targetList := by
        rintro ⟨entry, member, same⟩
        exact absurd (decide_eq_true same) (List.find?_eq_none.mp list entry member)
      rw [list] at tracked
      rw [if_neg absent]
      cases report : entries.find? fun entry => entry.1 = enhancedPresence with
      | some entry =>
          obtain ⟨keys, reads⟩ := tlvPresence_defined entry.2 zonesSize
          rw [report] at zoned
          refine ⟨(false, if keys.any (· ≠ tlvZoneNone) then 1 else 0), ?_, ?_⟩
          · simp [sight, tracked, zoned, reads]
          · change _ ↔ MotionBelow 8 entry.2
            rw [← tlvPresence_moves (show tlvPresence entry.2 (8 : Nat) = some keys from reads)]
            cases keys.any (· ≠ tlvZoneNone) <;> simp
      | none =>
          rw [report] at zoned
          refine ⟨(false, 0), by simp [sight, tracked, zoned], ?_⟩
          exact ⟨fun zero => absurd zero (Nat.lt_irrefl 0),
            fun motion => absurd motion.1 (by decide)⟩

theorem onFrame_sees {frame : List UInt8} {entries : List Entry}
    (finds : ∀ type : UInt32, tlvFind frame type =
      some ((entries.find? fun entry => entry.1 = type.toNat).map Prod.snd))
    (acc : Acc) (now : Int) :
    ∃ next, onFrame acc frame now = some next ∧
      (FirmwareSees entries → next.occSince = if acc.occSince = 0 then now else acc.occSince) ∧
      (¬ FirmwareSees entries → next.occSince = 0) := by
  obtain ⟨seen, sighted, counts⟩ := sight_sees finds
  refine ⟨account acc seen.1 seen.2 now, by rw [onFrame, sighted]; rfl, ?_, ?_⟩
  · intro sees
    rw [account_eq]
    exact if_pos (counts.mpr sees)
  · intro nobody
    rw [account_eq]
    exact if_neg fun some => nobody (counts.mp some)

theorem watchFrame_sees {frame : List UInt8} (complete : CompleteFrame frame)
    {entries : List Entry} (listed : tlvs frame = some entries) (watch : Watch) (now : Int) :
    ∃ next, watchFrame watch frame now = some next ∧
      (next.occupied = true ↔ HostSees entries) ∧
      next.since = if next.occupied then some (sinceOr watch.since now) else none := by
  obtain ⟨found, unpacked, _⟩ := targets_agree (lastPayload entries targetList)
  obtain ⟨zones, reported, _⟩ := presence_agrees (lastPayload entries enhancedPresence)
  obtain ⟨cloud, cast, pointed⟩ := points_pointed (lastPayload entries pointsType)
  obtain ⟨decoded, result, sameTargets, sameZones⟩ := decode_eq complete listed unpacked reported
  have dict : decoded.tlvs = tlvDict entries := by
    obtain ⟨fields, _, rest⟩ := Option.bind_eq_some_iff.mp result
    rw [listed] at rest
    obtain ⟨_, same, tail⟩ := Option.bind_eq_some_iff.mp rest
    cases same
    obtain ⟨_, _, more⟩ := Option.bind_eq_some_iff.mp tail
    obtain ⟨_, _, last⟩ := Option.bind_eq_some_iff.mp more
    cases last
    rfl
  have tracked := targets_tracked unpacked
  obtain ⟨zoned, moving⟩ := presence_zoned reported
  rw [← tlvDict_eq, ← dict] at cast
  let occupied : Bool := if found ≠ [] then true
    else if zones ≠ [] then zones.any (· ≠ .none) else cloud ≠ []
  have watched : watchFrame watch frame now =
      some ⟨occupied, if occupied then some (sinceOr watch.since now) else none⟩ := by
    rw [watchFrame, result]
    simp only [Option.bind_eq_bind, Option.bind_some, cast, sameTargets, sameZones]
    rfl
  refine ⟨_, watched, ?_, rfl⟩
  change (if found ≠ [] then true else if zones ≠ [] then _ else decide (cloud ≠ [])) = true ↔ _
  by_cases some : found ≠ []
  · simp [HostSees, some, tracked.mp some]
  · have untracked : ¬ Tracked (lastPayload entries targetList) :=
      fun list => some (tracked.mpr list)
    rw [if_neg some]
    by_cases several : zones ≠ []
    · rw [if_pos several, moving]
      simp [HostSees, untracked, zoned.mp several]
    · have unzoned : ¬ Zoned (lastPayload entries enhancedPresence) :=
        fun declared => several (zoned.mpr declared)
      rw [if_neg several, decide_eq_true_iff, pointed]
      simp [HostSees, untracked, unzoned]

/-! ## One clock on both sides -/

/-- Both take the zone for occupied, and since the same frame, or neither does. -/
structure Agree (watch : Watch) (acc : Acc) : Prop where
  occupied : watch.occupied = true ↔ acc.occSince ≠ 0
  since : watch.since = if acc.occSince = 0 then none else some acc.occSince

theorem agree_start : Agree .start .zero := ⟨⟨nofun, fun some => absurd rfl some⟩, rfl⟩

/-- The step lemma: from agreement a frame leads to agreement exactly if it is judged alike. -/
theorem Agree.step {watch : Watch} {acc : Acc} (agree : Agree watch acc) {frame : List UInt8}
    (valid : ValidFrame frame) {now : Int} (later : 0 < now) :
    ∃ next counted, watchFrame watch frame now = some next ∧
      onFrame acc frame now = some counted ∧ (Agree next counted ↔ Alike frame) := by
  obtain ⟨entries, listed, finds⟩ := finds_first (complete_of_valid valid)
  obtain ⟨counted, counts, some, none⟩ := onFrame_sees finds acc now
  obtain ⟨next, watched, sees, since⟩ :=
    watchFrame_sees (complete_of_valid valid) listed watch now
  have runs : counted.occSince ≠ 0 ↔ FirmwareSees entries := by
    by_cases firmware : FirmwareSees entries
    · refine ⟨fun _ => firmware, fun _ => ?_⟩
      rw [some firmware]
      split
      · omega
      · assumption
    · exact ⟨fun running => absurd (none firmware) running, fun sees => absurd sees firmware⟩
  refine ⟨next, counted, watched, counts, ?_, ?_⟩
  · exact fun both => ⟨entries, listed, by rw [← runs, ← sees, both.occupied]⟩
  · rintro ⟨other, again, alike⟩
    rw [listed] at again
    cases again
    have occupied : next.occupied = true ↔ counted.occSince ≠ 0 := by rw [sees, runs, alike]
    refine ⟨occupied, ?_⟩
    rw [since]
    by_cases firmware : FirmwareSees entries
    · rw [if_pos (sees.mpr (alike.mp firmware)), if_neg (runs.mpr firmware), some firmware,
        agree.since]
      by_cases first : acc.occSince = 0
      · rw [if_pos first, if_pos first]
        rfl
      · rw [if_neg first, if_neg first]
        exact congrArg Option.some (if_pos first)
    · rw [if_neg fun occupies => firmware (alike.mpr (sees.mp occupies)), if_pos (none firmware)]

/-! ## The takes of the main loop -/

@[simp] theorem framesAt_frame (history : List RadarEvent) (bytes : List UInt8) (now : Int) :
    framesAt (history ++ [.frame bytes now]) = framesAt history ++ [(bytes, now)] := by
  simp [framesAt]

@[simp] theorem framesAt_take (history : List RadarEvent) (now : Int) :
    framesAt (history ++ [.take now]) = framesAt history := by
  simp [framesAt]

theorem framesOf_eq (history : List RadarEvent) :
    framesOf history = (framesAt history).map Prod.fst := by
  rw [framesOf, framesAt, List.map_filterMap]
  congr 1
  funext event
  cases event <;> rfl

/-- A take after this history finds the zone empty, or it has frames to count. -/
def Heard (before : List RadarEvent) : Prop :=
  (window before).length % 65536 = 0 →
    ∀ frame, (framesOf before).getLast? = some frame → countIn frame = 0

def Keeps (history : List RadarEvent) : RadarEvent → Prop
  | .frame bytes _ => Alike bytes
  | .take _ => Heard history

/-- No take finds a window without frames while the last frame had somebody. -/
def TakesHeard (events : List RadarEvent) : Prop :=
  ∀ before now after, events = before ++ .take now :: after → Heard before

theorem takesHeard_frame {history : List RadarEvent} {bytes : List UInt8} {now : Int} :
    TakesHeard (history ++ [.frame bytes now]) ↔ TakesHeard history := by
  constructor
  · rintro heard before time after rfl
    exact heard before time (after ++ [.frame bytes now]) (by simp)
  · intro heard before time after split
    rcases concat_eq_append_cons split with ⟨_, impossible, _⟩ | ⟨rest, _, same⟩
    · cases impossible
    · exact heard before time rest same

theorem takesHeard_take {history : List RadarEvent} {now : Int} :
    TakesHeard (history ++ [.take now]) ↔ TakesHeard history ∧ Heard history := by
  constructor
  · refine fun heard => ⟨?_, heard history now [] rfl⟩
    rintro before time after rfl
    exact heard before time (after ++ [.take now]) (by simp)
  · rintro ⟨earlier, last⟩ before time after split
    rcases concat_eq_append_cons split with ⟨rfl, _, _⟩ | ⟨rest, _, same⟩
    · exact last
    · exact earlier before time rest same

/-- A take forgets since when the zone is occupied if it counts no frames. -/
theorem take_occSince (acc : Acc) (now : Int) :
    (radarWindowTake acc now).1.occSince = if acc.frames.toNat = 0 then 0 else acc.occSince := by
  have alive : acc.frames > 0 ↔ ¬ acc.frames.toNat = 0 := by
    rw [gt_iff_lt, UInt16.lt_iff_toNat_lt]
    exact Nat.pos_iff_ne_zero
  simp only [radarWindowTake, decide_eq_true_iff, alive]
  split <;> simp_all

/-- The count of frames, and since when, as the history has it. -/
structure Clocked (history : List RadarEvent) (acc : Acc) : Prop where
  frames : acc.frames.toNat = (window history).length % 65536
  runs : TakesHeard history → (acc.occSince ≠ 0 ↔
    ∃ frame, (framesOf history).getLast? = some frame ∧ 0 < countIn frame)

theorem Clocked.step {history : List RadarEvent} {event : RadarEvent} {acc next : Acc}
    {output : Option RadarWindow} (clocked : Clocked history acc) (fair : Fair event)
    (stepped : radar.step acc event = some (next, output)) :
    Clocked (history ++ [event]) next := by
  cases event with
  | frame bytes now =>
      rw [step_frame fair.1] at stepped
      cases stepped
      rw [account_eq]
      constructor
      · rw [window_frame, List.length_append, UInt16.toNat_add, clocked.frames]
        exact Nat.mod_add_mod _ _ _
      · intro _
        have last : (framesOf (history ++ [.frame bytes now])).getLast? = some bytes := by
          simp [framesOf]
        have positive : now ≠ 0 := Int.ne_of_gt fair.2
        rw [last]
        by_cases somebody : 0 < countIn bytes
        · simp only [if_pos somebody]
          refine iff_of_true ?_ ⟨bytes, rfl, somebody⟩
          split
          · exact positive
          · assumption
        · simp only [if_neg somebody]
          refine iff_of_false (fun nonzero => nonzero rfl) ?_
          rintro ⟨frame, same, counted⟩
          cases same
          exact somebody counted
  | take now =>
      cases stepped
      constructor
      · rw [window_take]
        rfl
      · rw [takesHeard_take]
        rintro ⟨earlier, heard⟩
        have runs := clocked.runs earlier
        have same : framesOf (history ++ [.take now]) = framesOf history := by simp [framesOf]
        rw [same, take_occSince, clocked.frames]
        split
        · next silent =>
            refine iff_of_false (fun nonzero => nonzero rfl) ?_
            rintro ⟨frame, last, counted⟩
            rw [heard silent frame last] at counted
            exact absurd counted (Nat.lt_irrefl 0)
        · exact runs

theorem radar_clocked {history : List RadarEvent} {acc : Acc} {shown : List (Option RadarWindow)}
    (fair : ∀ event ∈ history, Fair event)
    (ran : radar.run .zero history = some (acc, shown)) : Clocked history acc := by
  have start : Clocked [] Acc.zero :=
    ⟨rfl, fun _ => ⟨fun nonzero => absurd rfl nonzero, by simp [framesOf]⟩⟩
  have preserved : ∀ history (_ : List (Option RadarWindow)) acc event next output,
      Clocked history acc → Fair event → radar.step acc event = some (next, output) →
      Clocked (history ++ [event]) next :=
    fun _ _ _ _ _ _ clocked met stepped => clocked.step met stepped
  exact Machine.run_invariant preserved start (Machine.guarded_of_inputs fair _) ran

/-- The monitor on the frames of a history, and the firmware on the whole of it, agree. -/
def AgreeAfter (history : List RadarEvent) : Prop :=
  ∃ watch acc shown, watchAll .start (framesAt history) = some watch ∧
    radar.run .zero history = some (acc, shown) ∧ Agree watch acc

/-- After an agreement the next event leads to one exactly if it is judged alike, or is heard. -/
theorem AgreeAfter.step {history : List RadarEvent} (agree : AgreeAfter history)
    (fair : ∀ event ∈ history, Fair event) (heard : TakesHeard history) {event : RadarEvent}
    (met : Fair event) :
    AgreeAfter (history ++ [event]) ↔
      Keeps history event := by
  obtain ⟨watch, acc, shown, watched, ran, both⟩ := agree
  cases event with
  | frame bytes now =>
      obtain ⟨next, counted, sees, counts, alike⟩ := both.step met.1 met.2
      have watches : watchAll .start (framesAt (history ++ [.frame bytes now])) = some next := by
        rw [framesAt_frame, watchAll, List.foldlM_append, ← watchAll, watched]
        exact congrArg (fun last => last.bind pure) sees
      have runs := Machine.run_concat ran
        (show radar.step acc (.frame bytes now) = some (counted, none) by
          simp only [radar, counts, Option.map_some])
      change _ ↔ Alike bytes
      rw [← alike]
      constructor
      · rintro ⟨last, final, _, made, ranToo, agreed⟩
        cases watches.symm.trans made
        cases runs.symm.trans ranToo
        exact agreed
      · exact fun agreed => ⟨next, counted, _, watches, runs, agreed⟩
  | take now =>
      have clocked := radar_clocked fair ran
      have runs := Machine.run_concat ran
        (show radar.step acc (.take now) = some (_, _) from rfl)
      have since := take_occSince acc now
      rw [clocked.frames] at since
      have kept : Heard history ↔ (radarWindowTake acc now).1.occSince = acc.occSince := by
        rw [since]
        by_cases silent : (window history).length % 65536 = 0
        · rw [if_pos silent, eq_comm, ← not_iff_not]
          change _ ↔ acc.occSince ≠ 0
          rw [clocked.runs heard]
          simp [Heard, silent, Nat.pos_iff_ne_zero]
        · rw [if_neg silent]
          exact iff_of_true (fun impossible => absurd impossible silent) rfl
      change _ ↔ Heard history
      rw [kept]
      constructor
      · rintro ⟨last, final, _, made, ranToo, agreed⟩
        rw [framesAt_take, watched] at made
        cases made
        cases runs.symm.trans ranToo
        have first := both.since
        rw [agreed.since] at first
        split at first <;> split at first <;> simp_all
      · intro same
        refine ⟨watch, _, _, by rw [framesAt_take, watched], runs, ?_, ?_⟩
        · rw [same]
          exact both.occupied
        · rw [same]
          exact both.since

/--
Monitor and firmware agree after every frame and every take exactly if every
frame is judged alike and every take is heard.
-/
theorem agreeAfter_iff {events : List RadarEvent} (fair : ∀ event ∈ events, Fair event) :
    (∀ front, front <+: events → AgreeAfter front) ↔
      (∀ frame ∈ framesOf events, Alike frame) ∧ TakesHeard events := by
  induction events using List.reverseRecOn with
  | nil =>
      have start : AgreeAfter [] := ⟨_, _, _, rfl, rfl, agree_start⟩
      refine iff_of_true (fun front empty => ?_) ⟨nofun, ?_⟩
      · rw [List.prefix_nil.mp empty]
        exact start
      · intro before now after split
        simp at split
  | append_singleton history event ih =>
      have earlier : ∀ event ∈ history, Fair event :=
        fun other member => fair other (List.mem_append_left _ member)
      have prefixes : (∀ front, front <+: history ++ [event] → AgreeAfter front) ↔
          (∀ front, front <+: history → AgreeAfter front) ∧ AgreeAfter (history ++ [event]) := by
        constructor
        · exact fun all => ⟨fun front before => all front (before.trans (List.prefix_append _ _)),
            all _ (List.prefix_refl _)⟩
        · rintro ⟨all, last⟩ front before
          rcases List.prefix_concat_iff.mp before with rfl | shorter
          · exact last
          · exact all front shorter
      have conditions : ((∀ frame ∈ framesOf (history ++ [event]), Alike frame) ∧
          TakesHeard (history ++ [event])) ↔
          ((∀ frame ∈ framesOf history, Alike frame) ∧ TakesHeard history) ∧
            Keeps history event := by
        cases event with
        | frame bytes now =>
            rw [takesHeard_frame, framesOf_eq, framesAt_frame, List.map_append, ← framesOf_eq]
            simp only [List.map_cons, List.map_nil, List.forall_mem_append, List.forall_mem_singleton]
            exact and_right_comm
        | take now =>
            rw [takesHeard_take, framesOf_eq, framesAt_take, ← framesOf_eq, and_assoc, Keeps]
      rw [prefixes, conditions, ih earlier]
      refine and_congr_right fun holds => ?_
      exact (((ih earlier).mpr holds) history (List.prefix_refl _)).step earlier holds.2
        (fair event (by simp))

theorem watchAll_defined (watch : Watch) {frames : List (List UInt8 × Int)}
    (valid : ∀ frame ∈ frames, ValidFrame frame.1) : ∃ last, watchAll watch frames = some last := by
  induction frames generalizing watch with
  | nil => exact ⟨watch, rfl⟩
  | cons frame rest ih =>
      have complete := complete_of_valid (valid frame (List.mem_cons_self ..))
      obtain ⟨entries, listed, _⟩ := finds_first complete
      obtain ⟨next, watched, _⟩ := watchFrame_sees complete listed watch frame.2
      obtain ⟨last, ran⟩ := ih next fun other member => valid other (List.mem_cons_of_mem _ member)
      refine ⟨last, ?_⟩
      rw [watchAll, List.foldlM_cons, watched]
      exact ran

/-! ## The whole stream -/

/-- In bounds the splitter finds the frames of the reassembler, and all of them are valid. -/
theorem reads_framed (r : TlvReasm) {chunks : List (List UInt8)} {kept : List UInt8}
    {got : List (List (List UInt8))}
    (bounds : splitter.Guarded (fun kept chunk => InBounds (kept ++ chunk)) [] chunks)
    (ran : splitter.run [] chunks = some (kept, got)) :
    ∃ last outputs, reassembler.run (tlvReset r) chunks.flatten = some (last, outputs) ∧
      delivered outputs = got.flatten ∧ ∀ frame ∈ got.flatten, ValidFrame frame := by
  have carried : CarriedInBounds chunks got kept :=
    Machine.run_invariant (fun _ _ _ _ _ _ before met stepped => before.step met stepped)
      carriedInBounds_nil bounds ran
  have admitted : ∀ rest ∈ tlvFormat.judged chunks.flatten,
      ¬ tlvFormat.Bogus (tlvFormat.declared rest) := by
    intro rest member
    rw [← carried.bounds.judged_eq] at member
    obtain ⟨least, most⟩ := carried.bounds rest member
    exact not_or.mpr ⟨Nat.not_lt.mpr least, Nat.not_lt.mpr most⟩
  obtain ⟨phase, outputs, scanned, delivers⟩ := Format.deframer_scans admitted
  obtain ⟨last, concrete, _⟩ := reassembler_run (represents_reset r) scanned
  have same : delivered outputs = got.flatten := by
    rw [delivers, carried.delivers, carried.bounds.scan_eq]
  refine ⟨last, outputs, concrete, same, fun frame member => ?_⟩
  rw [← same] at member
  obtain ⟨output, made, whole⟩ := List.mem_filterMap.mp member
  obtain ⟨index, inside, rfl⟩ := List.getElem_of_mem made
  refine validFrame_iff.mpr ((accounts scanned).frames index frame ?_).1
  rw [List.getElem?_eq_getElem inside]
  exact congrArg some whole

theorem monitor_run {reads : List Read} {m : Monitor} {kept : List UInt8}
    {got : List (List (List UInt8))}
    (ran : splitter.run m.buf (reads.map Read.chunk) = some (kept, got))
    (valid : ∀ frame ∈ got.flatten, ValidFrame frame) :
    ∃ final handled, monitor.run m reads = some (final, handled) ∧
      handled.flatten.map Prod.fst = got.flatten ∧
      watchAll m.watch handled.flatten = some final.watch ∧
      ∀ frame ∈ handled.flatten, ∃ read ∈ reads, ∃ i, frame.2 = read.clock i := by
  induction reads generalizing m got with
  | nil =>
      cases ran
      exact ⟨m, [], rfl, rfl, rfl, nofun⟩
  | cons read rest ih =>
      rw [List.map_cons] at ran
      obtain ⟨next, output, outputs, stepped, others, rfl⟩ := Machine.run_cons_eq_some.mp ran
      obtain ⟨⟨frames, left⟩, cut, same⟩ := Option.map_eq_some_iff.mp stepped
      cases same
      have names : (read.timed frames).map Prod.fst = frames := by
        rw [Read.timed, List.map_map]
        exact List.zipIdx_map_fst 0 frames
      have whole : ∀ frame ∈ read.timed frames, ValidFrame frame.1 := by
        intro frame member
        refine valid frame.1 (List.mem_flatten_of_mem (List.mem_cons_self ..) ?_)
        rw [← names]
        exact List.mem_map_of_mem member
      obtain ⟨watch, watched⟩ := watchAll_defined m.watch whole
      obtain ⟨final, handled, runs, named, all, clocks⟩ := ih (m := ⟨left, watch⟩) others
        fun frame member => valid frame (List.mem_append_right frames member)
      have step : monitor.step m read = some (⟨left, watch⟩, read.timed frames) := by
        simp only [monitor, cut, watched, Option.bind_eq_bind, Option.bind_some]
      refine ⟨final, read.timed frames :: handled, Machine.run_cons step runs, ?_, ?_, ?_⟩
      · rw [List.flatten_cons, List.map_append, names, named, List.flatten_cons]
      · rw [List.flatten_cons, watchAll, List.foldlM_append, ← watchAll, watched]
        exact all
      · intro frame member
        rw [List.flatten_cons, List.mem_append] at member
        rcases member with now | later
        · obtain ⟨pair, _, rfl⟩ := List.mem_map.mp now
          exact ⟨read, List.mem_cons_self .., pair.2, rfl⟩
        · obtain ⟨other, inside, i, same⟩ := clocks frame later
          exact ⟨other, List.mem_cons_of_mem _ inside, i, same⟩

/--
The monitor and the firmware on one stream, however it is cut into reads, in
which no header is out of bounds: they handle the same frames.  Let the main
loop of the firmware take windows anywhere between them.  Under one clock the
two agree after every frame and every take on whether the zone is occupied and
since when, exactly if every frame is judged alike and no take finds a window
without frames while the last frame had somebody.
-/
theorem monitor_agrees_iff (r : TlvReasm) {reads : List Read}
    (bounds : splitter.Guarded (fun kept chunk => InBounds (kept ++ chunk)) []
      (reads.map Read.chunk))
    (clock : ∀ read ∈ reads, ∀ i, 0 < read.clock i) :
    ∃ final handled last outputs, monitor.run .start reads = some (final, handled) ∧
      reassembler.run (tlvReset r) (reads.map Read.chunk).flatten = some (last, outputs) ∧
      handled.flatten.map Prod.fst = delivered outputs ∧
      watchAll .start handled.flatten = some final.watch ∧
      ∀ events, framesAt events = handled.flatten →
        ((∀ front, front <+: events → AgreeAfter front) ↔
          (∀ frame ∈ delivered outputs, Alike frame) ∧ TakesHeard events) := by
  obtain ⟨kept, got, ran⟩ := splitter_run_defined [] (reads.map Read.chunk)
  obtain ⟨last, outputs, concrete, same, valid⟩ := reads_framed r bounds ran
  obtain ⟨final, handled, runs, named, watched, clocks⟩ :=
    monitor_run (m := .start) ran valid
  refine ⟨final, handled, last, outputs, runs, concrete, named.trans same.symm, watched,
    fun events frames => ?_⟩
  have fair : ∀ event ∈ events, Fair event := by
    intro event member
    cases event with
    | take now => trivial
    | frame bytes now =>
        have there : (bytes, now) ∈ handled.flatten := by
          rw [← frames]
          exact List.mem_filterMap.mpr ⟨_, member, rfl⟩
        obtain ⟨read, inside, i, time⟩ := clocks _ there
        have when_ : now = read.clock i := time
        refine ⟨valid bytes ?_, by rw [when_]; exact clock read inside i⟩
        rw [← named]
        exact List.mem_map_of_mem there
  rw [agreeAfter_iff fair, framesOf_eq, frames, named, same]

def twoReads : List Read :=
  [⟨twoReports.take 30, fun _ => 1⟩, ⟨twoReports.drop 30, fun i => 2 + i⟩]

theorem twoReads_inBounds :
    splitter.Guarded (fun kept chunk => InBounds (kept ++ chunk)) [] (twoReads.map Read.chunk) := by
  have first : InBounds ([] ++ twoReports.take 30) := by
    intro rest member
    have nothing : hostFormat.judged ([] ++ twoReports.take 30) = [] :=
      Format.judged_short (by decide) (by decide)
    rw [nothing] at member
    cases member
  have second : InBounds (twoReports.take 30 ++ twoReports.drop 30) := by
    intro rest member
    have empty : hostFormat.judged [] = [] := Format.judged_absent (by decide)
    have judged : hostFormat.judged twoReports = twoReports :: hostFormat.judged [] :=
      Format.judged_frame (by decide) (by decide) (by decide) (by decide)
    rw [List.take_append_drop, judged, empty] at member
    rw [List.mem_singleton.mp member]
    decide
  exact Machine.guarded_cons first
    (show splitter.step [] (twoReports.take 30) = some (twoReports.take 30, []) by decide +kernel)
    ⟨second, fun _ _ _ => trivial⟩

theorem monitor_agrees_iff_two :
    ∃ final handled last outputs, monitor.run .start twoReads = some (final, handled) ∧
      reassembler.run (tlvReset ⟨Vector.replicate 2048 0, 0, 0, 0⟩)
        (twoReads.map Read.chunk).flatten = some (last, outputs) ∧
      handled.flatten.map Prod.fst = delivered outputs ∧
      watchAll .start handled.flatten = some final.watch ∧
      ∀ events, framesAt events = handled.flatten →
        ((∀ front, front <+: events → AgreeAfter front) ↔
          (∀ frame ∈ delivered outputs, Alike frame) ∧ TakesHeard events) := by
  refine monitor_agrees_iff _ twoReads_inBounds fun read member i => ?_
  rcases List.mem_cons.mp member with rfl | second
  · exact Int.one_pos
  · rw [List.mem_singleton.mp second]
    exact Int.add_pos_of_pos_of_nonneg (by decide) (Int.natCast_nonneg i)

end PresenceNode.Host
