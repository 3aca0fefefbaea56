import PresenceNode.Host.Decode
import PresenceNode.Tlv.Decode

/-!
# Two decoders for one frame

The firmware and the host walk the same list of entries with different checks,
and take each payload apart in the same way.  But the firmware takes the first
entry of a type, and the dictionary of the host is left with the last one.
-/

namespace PresenceNode.Host

open Library Tlv

/-! ## What the firmware obtains -/

def firmwareTargets (frame : List UInt8) (max : Int) : Option (List TlvTarget) := do
  match ← tlvFind frame tlvTargetList with
  | some payload => tlvTargets payload max
  | none => some []

def firmwareZones (frame : List UInt8) (max : Int) : Option (List UInt8) := do
  match ← tlvFind frame tlvEnhancedPresence with
  | some payload => tlvPresence payload max
  | none => some []

def Target.seen (target : Target) : TlvTarget :=
  { tid := target.tid, x := target.x, y := target.y, z := target.z }

/-- A complete frame: as long as its header says, and that within bounds. -/
structure CompleteFrame (frame : List UInt8) : Prop where
  declares : (rdU32 frame 12).map UInt32.toNat = some frame.length
  least : tlvHdrLen ≤ frame.length
  most : frame.length ≤ tlvMaxFrame

/-! ## The list of entries -/

def firstPayload (entries : List Entry) (type : Nat) : List UInt8 :=
  ((entries.find? fun entry => entry.1 = type).map Prod.snd).getD []

def lastPayload (entries : List Entry) (type : Nat) : List UInt8 :=
  firstPayload entries.reverse type

/-- The dictionary is left with the last entry of each type. -/
theorem tlvDict_eq (entries : List Entry) (type : Nat) :
    (tlvDict entries type).getD [] = lastPayload entries type := by
  unfold lastPayload firstPayload tlvDict
  congr 1
  induction entries using List.reverseRecOn with
  | nil => rfl
  | append_singleton earlier entry ih =>
      rw [List.foldl_concat, List.reverse_concat, List.find?_cons]
      by_cases same : entry.1 = type
      · simp [same]
      · simp only [same, decide_false]
        rw [Function.update_of_ne (Ne.symm same), ih]

/-- Both walks of a complete frame see the same list, and end. -/
theorem walks_agree {frame : List UInt8} {total : UInt32} (whole : total.toNat = frame.length)
    (most : frame.length ≤ tlvMaxFrame) {turns : Nat} {off : UInt32}
    (inside : off.toNat ≤ frame.length) (left : frame.length - off.toNat < turns) :
    ∃ entries, tlvsLoop frame total.toNat turns off.toNat = some entries ∧
      ∀ type : UInt32, tlvWalk frame type total turns off =
        some ((entries.find? fun entry => entry.1 = type.toNat).map Prod.snd) := by
  rw [← whole] at most
  induction turns generalizing off with
  | zero => exact absurd left (Nat.not_lt_zero _)
  | succ turns ih =>
      have fits := @room_iff total off most (by omega)
      unfold tlvsLoop tlvWalk
      by_cases room : off + 8 ≤ total
      · have roomNat := fits.mp room
        obtain ⟨t, foundType⟩ := LittleEndian.read32_defined
          (show off.toNat + 4 ≤ frame.length by omega)
        obtain ⟨ln, foundLen⟩ := LittleEndian.read32_defined
          (show off.toNat + 4 + 4 ≤ frame.length by omega)
        simp only [rdU32, unpackU32, foundType, foundLen, if_pos room, if_pos roomNat,
          Option.map_some, Option.bind_eq_bind, Option.bind_some]
        by_cases lying : off.toNat + 8 + ln.toNat > total.toNat
        · have caught := (lying_iff most roomNat).mpr lying
          simp only [if_pos lying, if_pos caught]
          exact ⟨[], rfl, fun _ => rfl⟩
        · have next : (off + (8 + ln)).toNat = off.toNat + (8 + ln.toNat) := by
            rw [← UInt32.add_assoc, entry_end most roomNat (by omega), Nat.add_assoc]
          obtain ⟨rest, walked, finds⟩ := @ih (off + (8 + ln)) (by omega) (by omega)
          rw [next] at walked
          have honest := mt (lying_iff most roomNat).mp lying
          simp only [if_neg lying, if_neg honest, walked, Option.bind_some]
          refine ⟨_, rfl, fun type => ?_⟩
          rw [List.find?_cons]
          by_cases same : t = type
          · simp [same]
          · have different : ¬ t.toNat = type.toNat := fun equal => same (UInt32.toNat_inj.mp equal)
            simp only [if_neg same, different, decide_false]
            exact finds type
      · have roomNat := mt fits.mpr room
        simp only [if_neg room, if_neg roomNat]
        exact ⟨[], rfl, fun _ => rfl⟩

/-- The firmware finds the first entry of a type in the list of the host. -/
theorem finds_first {frame : List UInt8} (complete : CompleteFrame frame) :
    ∃ entries, tlvs frame = some entries ∧ ∀ type : UInt32, tlvFind frame type =
      some ((entries.find? fun entry => entry.1 = type.toNat).map Prod.snd) := by
  obtain ⟨total, read, whole⟩ := Option.map_eq_some_iff.mp complete.declares
  have least := complete.least
  have length : tlvHdrLen = 40 := rfl
  obtain ⟨entries, walked, finds⟩ := walks_agree whole complete.most
    (show (40 : UInt32).toNat ≤ frame.length by change 40 ≤ _; omega)
    (show frame.length - (40 : UInt32).toNat < total.toNat + 1 by omega)
  refine ⟨entries, ?_, fun type => ?_⟩
  · rw [rdU32] at read
    rw [tlvs, unpackU32, read]
    exact walked
  · rw [tlvFind, read]
    exact finds type

/-! ## The payload of the tracker -/

def Spec.Known (spec : Spec) : Prop := spec = target3D ∨ spec = target2D

/-- Where a whole struct lies in the payload both sides unpack the same target. -/
theorem unpackTarget_defined {spec : Spec} (known : spec.Known) {payload : List UInt8} {off : Nat}
    (inside : off + spec.size ≤ payload.length) :
    ∃ target, unpackTarget payload spec off = some target ∧
      rdU32 payload off = some target.tid ∧ rdU32 payload (off + 4) = some target.x ∧
      rdU32 payload (off + 8) = some target.y ∧
      targetZ payload spec.size off = some target.z := by
  have field : ∀ index, 4 * index + 4 ≤ spec.size →
      ∃ word, LittleEndian.read32 payload (off + 4 * index) = some word :=
    fun index within => LittleEndian.read32_defined (by omega)
  rcases known with rfl | rfl
  · obtain ⟨tid, f0⟩ := field 0 (by decide)
    rw [Nat.mul_zero, Nat.add_zero] at f0
    obtain ⟨x, f1⟩ := field 1 (by decide)
    obtain ⟨y, f2⟩ := field 2 (by decide)
    obtain ⟨z, f3⟩ := field 3 (by decide)
    obtain ⟨vx, f4⟩ := field 4 (by decide)
    obtain ⟨vy, f5⟩ := field 5 (by decide)
    obtain ⟨vz, f6⟩ := field 6 (by decide)
    obtain ⟨confidence, f27⟩ := field 27 (by decide)
    refine ⟨⟨tid, x, y, z, vx, vy, vz, confidence⟩, ?_, f0, f1, f2, f3⟩
    simp only [unpackTarget, if_pos inside]
    simp [target3D, f0, f1, f2, f3, f4, f5, f6, f27]
  · obtain ⟨tid, f0⟩ := field 0 (by decide)
    rw [Nat.mul_zero, Nat.add_zero] at f0
    obtain ⟨x, f1⟩ := field 1 (by decide)
    obtain ⟨y, f2⟩ := field 2 (by decide)
    obtain ⟨vx, f3⟩ := field 3 (by decide)
    obtain ⟨vy, f4⟩ := field 4 (by decide)
    obtain ⟨confidence, f18⟩ := field 18 (by decide)
    refine ⟨⟨tid, x, y, 0, vx, vy, 0, confidence⟩, ?_, f0, f1, f2, rfl⟩
    simp only [unpackTarget, if_pos inside]
    simp [target2D, f0, f1, f2, f3, f4, f18]

/-- The firmware's loop writes the first of the host's targets, as many as there is room for. -/
theorem targetsLoop_agrees {spec : Spec} (known : spec.Known) {payload : List UInt8}
    {count off : Nat} (whole : off + count * spec.size = payload.length) :
    ∃ found, (List.range' off count spec.size).mapM (unpackTarget payload spec) = some found ∧
      ∀ left, targetsLoop payload spec.size left off = some ((found.take left).map Target.seen) := by
  have positive : 0 < spec.size := by rcases known with rfl | rfl <;> decide
  induction count generalizing off with
  | zero =>
      refine ⟨[], rfl, fun left => ?_⟩
      cases left with
      | zero => rfl
      | succ left =>
          rw [targetsLoop, if_neg (by omega)]
          rfl
  | succ count ih =>
      rw [Nat.succ_mul] at whole
      obtain ⟨target, unpacked, tid, x, y, z⟩ := unpackTarget_defined known
        (show off + spec.size ≤ payload.length by omega)
      obtain ⟨rest, others, loops⟩ := @ih (off + spec.size) (by omega)
      refine ⟨target :: rest, ?_, fun left => ?_⟩
      · rw [List.range'_succ, List.mapM_cons, unpacked, others]
        rfl
      · cases left with
        | zero => rfl
        | succ left =>
            rw [targetsLoop, if_pos (by omega), tid, x, y, z, loops]
            rfl

theorem stepRange_eq {stop step : Nat} (positive : 0 < step) (divides : stop % step = 0) :
    stepRange stop step = List.range' 0 (stop / step) step := by
  have split := Nat.div_add_mod stop step
  have count : (stop + step - 1) / step = stop / step := by
    have whole : stop + step - 1 = step * (stop / step) + (step - 1) := by omega
    rw [whole, Nat.mul_add_div positive, Nat.div_eq_of_lt (Nat.sub_lt positive Nat.one_pos),
      Nat.add_zero]
  rw [stepRange, count]

/-- Both sides make the same targets of a payload. -/
theorem targets_agree (payload : List UInt8) :
    ∃ found, targets payload = some found ∧
      ∀ max, tlvTargets payload max = some ((found.take max.toNat).map Target.seen) := by
  have loops : ∀ spec : Spec, spec.Known → payload.length % spec.size = 0 →
      ∃ found, (stepRange payload.length spec.size).mapM (unpackTarget payload spec) = some found ∧
        ∀ left, targetsLoop payload spec.size left 0 =
          some ((found.take left).map Target.seen) := by
    intro spec known divides
    have positive : 0 < spec.size := by rcases known with rfl | rfl <;> decide
    rw [stepRange_eq positive divides]
    apply targetsLoop_agrees known
    rw [Nat.zero_add, Nat.div_mul_cancel (Nat.dvd_of_mod_eq_zero divides)]
  unfold targets tlvTargets
  by_cases empty : payload.length = 0
  · rw [if_neg (fun held => held.1 empty), if_neg (fun held => held.1 empty)]
    refine ⟨[], rfl, fun max => ?_⟩
    rw [if_pos empty, List.take_nil]
    rfl
  · simp only [if_neg empty]
    by_cases three : payload.length % target3D.size = 0
    · obtain ⟨found, unpacked, loop⟩ := loops target3D (.inl rfl) three
      rw [if_pos ⟨empty, three⟩]
      refine ⟨found, unpacked, fun max => ?_⟩
      rw [if_pos (show payload.length % target3DSize = 0 from three)]
      exact loop max.toNat
    · rw [if_neg (fun held => three held.2)]
      by_cases two : payload.length % target2D.size = 0
      · obtain ⟨found, unpacked, loop⟩ := loops target2D (.inr rfl) two
        rw [if_pos ⟨empty, two⟩]
        refine ⟨found, unpacked, fun max => ?_⟩
        rw [if_neg (show ¬ payload.length % target3DSize = 0 from three),
          if_pos (show payload.length % target2DSize = 0 from two)]
        exact loop max.toNat
      · rw [if_neg (fun held => two held.2)]
        refine ⟨[], rfl, fun max => ?_⟩
        rw [if_neg (show ¬ payload.length % target3DSize = 0 from three),
          if_neg (show ¬ payload.length % target2DSize = 0 from two), List.take_nil]
        rfl

/-! ## The payload of device-side presence -/

/-- Two bits of a byte are the key of a zone state, whichever two they are. -/
theorem zoneBits_agree (byte : UInt8) (z : Nat) :
    ((byte >>> UInt8.ofNat (2 * (z % 4))) &&& 0x3).toNat =
      (byte.toNat >>> (2 * (z % 4))) &&& 0x3 := by
  have small : 2 * (z % 4) < 8 := by omega
  have shift : (UInt8.ofNat (2 * (z % 4))).toNat = 2 * (z % 4) := by
    rw [UInt8.toNat_ofNat']
    exact Nat.mod_eq_of_lt (by omega)
  rw [UInt8.toNat_and, UInt8.toNat_shiftRight, shift, Nat.mod_eq_of_lt small]
  rfl

/-- The state that the firmware reads for a zone is the key of the one the host reports. -/
theorem zone_agrees (payload : List UInt8) (z : Nat) :
    ∃ key state, zoneState payload z = some key ∧ zoneAt (payload.drop 1) z = some state ∧
      zoneStateOf key.toNat = some state := by
  have named : ∀ value : Nat, ∃ state, zoneStateOf (value &&& 0x3) = some state := by
    intro value
    have few : value &&& 0x3 < 4 := Nat.lt_succ_of_le Nat.and_le_right
    generalize value &&& 0x3 = key at few
    match key, few with
    | 0, _ => exact ⟨.none, rfl⟩
    | 1, _ => exact ⟨.minor, rfl⟩
    | 2, _ => exact ⟨.major, rfl⟩
    | 3, _ => exact ⟨.unknown, rfl⟩
  have length : (payload.drop 1).length = payload.length - 1 := List.length_drop
  unfold zoneState zoneAt
  by_cases inside : 1 + z / 4 < payload.length
  · obtain ⟨state, name⟩ := named (payload[1 + z / 4].toNat >>> (2 * (z % 4)))
    have byte : (payload.drop 1)[z / 4]? = some payload[1 + z / 4] := by
      rw [List.getElem?_drop, List.getElem?_eq_getElem inside]
    refine ⟨(payload[1 + z / 4] >>> UInt8.ofNat (2 * (z % 4))) &&& 0x3, state, ?_, ?_, ?_⟩
    · rw [if_pos inside, List.getElem?_eq_getElem inside]
      rfl
    · rw [if_pos (by omega), byte]
      exact name
    · rw [zoneBits_agree]
      exact name
  · refine ⟨0, .none, by rw [if_neg inside], ?_, rfl⟩
    rw [if_neg (by omega)]
    simp [zoneStateOf]

/-- The same for the first zones of a list, as many as there is room for. -/
theorem zones_agree (payload : List UInt8) (zones : List Nat) :
    ∃ found, zones.mapM (zoneAt (payload.drop 1)) = some found ∧
      ∀ count, ∃ keys, (zones.take count).mapM (zoneState payload) = some keys ∧
        keys.mapM (fun key => zoneStateOf key.toNat) = some (found.take count) := by
  induction zones with
  | nil => exact ⟨[], rfl, fun count => ⟨[], by rw [List.take_nil]; rfl, by rw [List.take_nil]; rfl⟩⟩
  | cons zone rest ih =>
      obtain ⟨key, state, read, reported, named⟩ := zone_agrees payload zone
      obtain ⟨found, others, takes⟩ := ih
      refine ⟨state :: found, by rw [List.mapM_cons, reported, others]; rfl, fun count => ?_⟩
      cases count with
      | zero => exact ⟨[], rfl, rfl⟩
      | succ count =>
          obtain ⟨keys, reads, names⟩ := takes count
          refine ⟨key :: keys, ?_, ?_⟩
          · rw [List.take_succ_cons, List.mapM_cons, read, reads]
            rfl
          · rw [List.mapM_cons, named, names]
            rfl

/-- Both sides report the same zones of a payload. -/
theorem presence_agrees (payload : List UInt8) :
    ∃ found, presence payload = some found ∧ ∀ max, ∃ keys, tlvPresence payload max = some keys ∧
      keys.mapM (fun key => zoneStateOf key.toNat) = some (found.take max.toNat) := by
  unfold presence tlvPresence
  by_cases short : payload.length < 2
  · rw [if_pos short]
    refine ⟨[], rfl, fun max => ⟨[], by rw [if_pos short], ?_⟩⟩
    rw [List.take_nil]
    rfl
  · obtain ⟨found, reported, takes⟩ := zones_agree payload (List.range payload[0].toNat)
    rw [if_neg short, List.getElem?_eq_getElem (show 0 < payload.length by omega)]
    refine ⟨found, reported, fun max => ?_⟩
    obtain ⟨keys, reads, names⟩ := takes max.toNat
    have count : (if (payload[0].toNat : Int) > max then max else payload[0].toNat).toNat =
        min max.toNat payload[0].toNat := by
      split <;> omega
    rw [List.take_range, ← count] at reads
    exact ⟨keys, by rw [if_neg short]; exact reads, names⟩

/-! ## Two decoders -/

/-- The firmware decodes the first target list of the host's entries. -/
theorem firmwareTargets_eq {frame : List UInt8} {entries : List Entry}
    (finds : ∀ type : UInt32, tlvFind frame type =
      some ((entries.find? fun entry => entry.1 = type.toNat).map Prod.snd)) (max : Int) :
    firmwareTargets frame max = tlvTargets (firstPayload entries targetList) max := by
  rw [firmwareTargets, finds tlvTargetList, firstPayload]
  change (match (entries.find? fun entry => entry.1 = targetList).map Prod.snd with
    | some payload => tlvTargets payload max
    | none => some []) = _
  cases entries.find? fun entry => entry.1 = targetList with
  | none => rfl
  | some entry => rfl

/-- The firmware decodes the first presence entry of the host's entries. -/
theorem firmwareZones_eq {frame : List UInt8} {entries : List Entry}
    (finds : ∀ type : UInt32, tlvFind frame type =
      some ((entries.find? fun entry => entry.1 = type.toNat).map Prod.snd)) (max : Int) :
    firmwareZones frame max = tlvPresence (firstPayload entries enhancedPresence) max := by
  rw [firmwareZones, finds tlvEnhancedPresence, firstPayload]
  change (match (entries.find? fun entry => entry.1 = enhancedPresence).map Prod.snd with
    | some payload => tlvPresence payload max
    | none => some []) = _
  cases entries.find? fun entry => entry.1 = enhancedPresence with
  | none => rfl
  | some entry => rfl

/-- The host decodes the last entry of each type. -/
theorem decode_eq {frame : List UInt8} (complete : CompleteFrame frame) {entries : List Entry}
    (listed : tlvs frame = some entries) {found : List Target} {zones : List ZoneState}
    (unpacked : targets (lastPayload entries targetList) = some found)
    (reported : presence (lastPayload entries enhancedPresence) = some zones) :
    ∃ decoded, decode frame = some decoded ∧ decoded.targets = found ∧ decoded.zones = zones := by
  have least := complete.least
  have length : tlvHdrLen = 40 := rfl
  have field : ∀ offset, offset + 4 ≤ 40 → ∃ value, unpackU32 frame offset = some value := by
    intro offset inside
    obtain ⟨word, found⟩ := LittleEndian.read32_defined (show offset + 4 ≤ frame.length by omega)
    exact ⟨word.toNat, by rw [unpackU32, found]; rfl⟩
  obtain ⟨fields, read⟩ : ∃ fields, header frame = some fields := by
    obtain ⟨version, h8⟩ := field 8 (by decide)
    obtain ⟨total, h12⟩ := field 12 (by decide)
    obtain ⟨platform, h16⟩ := field 16 (by decide)
    obtain ⟨number, h20⟩ := field 20 (by decide)
    obtain ⟨cycles, h24⟩ := field 24 (by decide)
    obtain ⟨detected, h28⟩ := field 28 (by decide)
    obtain ⟨count, h32⟩ := field 32 (by decide)
    obtain ⟨sub, h36⟩ := field 36 (by decide)
    exact ⟨_, by simp only [header, h8, h12, h16, h20, h24, h28, h32, h36, Option.bind_eq_bind,
      Option.bind_some]; rfl⟩
  refine ⟨⟨fields, tlvDict entries, found, zones⟩, ?_, rfl, rfl⟩
  simp only [decode, read, listed, tlvDict_eq, unpacked, reported, Option.bind_eq_bind,
    Option.bind_some]

def SameTargets (max : Int) (first second : List UInt8) : Prop :=
  (targets first).map (fun found => (found.take max.toNat).map Target.seen) =
    (targets second).map fun found => (found.take max.toNat).map Target.seen

def SameZones (max : Int) (first second : List UInt8) : Prop :=
  (presence first).map (·.take max.toNat) = (presence second).map (·.take max.toNat)

def Uniform (entries : List Entry) (type : Nat) : Prop :=
  ∀ first ∈ entries, ∀ second ∈ entries, first.1 = type → second.1 = type → first.2 = second.2

theorem Uniform.same {entries : List Entry} {type : Nat} (uniform : Uniform entries type) :
    firstPayload entries type = lastPayload entries type := by
  unfold lastPayload firstPayload
  cases first : entries.find? fun entry => entry.1 = type with
  | none =>
      have absent := List.find?_eq_none.mp first
      have last : (entries.reverse.find? fun entry => entry.1 = type) = none :=
        List.find?_eq_none.mpr fun entry member => absent entry (List.mem_reverse.mp member)
      rw [last]
  | some entry =>
      cases last : entries.reverse.find? fun entry => entry.1 = type with
      | none =>
          have absent := List.find?_eq_none.mp last entry
            (List.mem_reverse.mpr (List.mem_of_find?_eq_some first))
          exact absurd (List.find?_some first) absent
      | some other =>
          have firstType : entry.1 = type := by simpa using List.find?_some first
          have lastType : other.1 = type := by simpa using List.find?_some last
          have same := uniform entry (List.mem_of_find?_eq_some first) other
            (List.mem_reverse.mp (List.mem_of_find?_eq_some last)) firstType lastType
          exact congrArg (fun payload => (some payload).getD []) same

/--
On a complete frame both decoders come to an end, and agree on targets and on
zones exactly when the first and the last entry of the type in question lead
to the same ones; in particular when the type does not come with two payloads.
-/
theorem decoders_agree_iff {frame : List UInt8} (complete : CompleteFrame frame) (max : Int) :
    ∃ entries seen keys decoded, tlvs frame = some entries ∧
      firmwareTargets frame 20 = some seen ∧ firmwareZones frame max = some keys ∧
      decode frame = some decoded ∧
      (seen = (decoded.targets.take 20).map Target.seen ↔
        SameTargets 20 (firstPayload entries targetList) (lastPayload entries targetList)) ∧
      (keys.mapM (fun key => zoneStateOf key.toNat) = some (decoded.zones.take max.toNat) ↔
        SameZones max (firstPayload entries enhancedPresence)
          (lastPayload entries enhancedPresence)) ∧
      (Uniform entries targetList → seen = (decoded.targets.take 20).map Target.seen) ∧
      (Uniform entries enhancedPresence →
        keys.mapM (fun key => zoneStateOf key.toNat) = some (decoded.zones.take max.toNat)) := by
  obtain ⟨entries, listed, finds⟩ := finds_first complete
  obtain ⟨firstTargets, firstUnpacked, makes⟩ := targets_agree (firstPayload entries targetList)
  obtain ⟨lastTargets, lastUnpacked, _⟩ := targets_agree (lastPayload entries targetList)
  obtain ⟨firstZones, firstReported, reads⟩ :=
    presence_agrees (firstPayload entries enhancedPresence)
  obtain ⟨lastZones, lastReported, _⟩ := presence_agrees (lastPayload entries enhancedPresence)
  obtain ⟨keys, found, names⟩ := reads max
  obtain ⟨decoded, result, sameTargets, sameZones⟩ :=
    decode_eq complete listed lastUnpacked lastReported
  have targetsIff : (firstTargets.take 20).map Target.seen =
      (decoded.targets.take 20).map Target.seen ↔
        SameTargets 20 (firstPayload entries targetList) (lastPayload entries targetList) := by
    rw [SameTargets, firstUnpacked, lastUnpacked, sameTargets, Option.map_some, Option.map_some,
      Option.some.injEq]
    rfl
  have zonesIff : keys.mapM (fun key => zoneStateOf key.toNat) =
      some (decoded.zones.take max.toNat) ↔ SameZones max (firstPayload entries enhancedPresence)
        (lastPayload entries enhancedPresence) := by
    rw [SameZones, firstReported, lastReported, sameZones, names, Option.map_some, Option.map_some]
  refine ⟨entries, (firstTargets.take 20).map Target.seen, keys, decoded, listed, ?_, ?_, result,
    targetsIff, zonesIff, ?_, ?_⟩
  · rw [firmwareTargets_eq finds, makes]
    rfl
  · rw [firmwareZones_eq finds, found]
  · intro uniform
    rw [targetsIff, uniform.same]
    rfl
  · intro uniform
    rw [zonesIff, uniform.same]
    rfl

def twoReports : List UInt8 :=
  tlvMagic ++ [0, 0, 0, 0] ++ [60, 0, 0, 0] ++ List.replicate 24 0 ++
    [59, 1, 0, 0, 2, 0, 0, 0, 1, 1] ++ [59, 1, 0, 0, 2, 0, 0, 0, 1, 2]

theorem twoReports_complete : CompleteFrame twoReports := ⟨by decide, by decide, by decide⟩

theorem decoders_agree_two :
    ∃ entries seen keys decoded, tlvs twoReports = some entries ∧
      firmwareTargets twoReports 20 = some seen ∧ firmwareZones twoReports 8 = some keys ∧
      decode twoReports = some decoded ∧
      (seen = (decoded.targets.take 20).map Target.seen ↔
        SameTargets 20 (firstPayload entries targetList) (lastPayload entries targetList)) ∧
      (keys.mapM (fun key => zoneStateOf key.toNat) = some (decoded.zones.take (8 : Int).toNat) ↔
        SameZones 8 (firstPayload entries enhancedPresence)
          (lastPayload entries enhancedPresence)) ∧
      (Uniform entries targetList → seen = (decoded.targets.take 20).map Target.seen) ∧
      (Uniform entries enhancedPresence →
        keys.mapM (fun key => zoneStateOf key.toNat) =
          some (decoded.zones.take (8 : Int).toNat)) :=
  decoders_agree_iff twoReports_complete 8

/-- The firmware reports the first of the two states, the host the second. -/
theorem decoders_differ :
    ¬ ∀ (frame : List UInt8) (max : Int), CompleteFrame frame →
      ∃ seen keys decoded, firmwareTargets frame 20 = some seen ∧
        firmwareZones frame max = some keys ∧ decode frame = some decoded ∧
        seen = (decoded.targets.take 20).map Target.seen ∧
        keys.mapM (fun key => zoneStateOf key.toNat) = some (decoded.zones.take max.toNat) := by
  intro claimed
  obtain ⟨seen, keys, decoded, _, found, result, _, same⟩ :=
    claimed twoReports 8 twoReports_complete
  have firmware : firmwareZones twoReports 8 = some [1] := by decide +kernel
  have host : (decode twoReports).map Decoded.zones = some [.major] := by decide +kernel
  rw [firmware] at found
  rw [result, Option.map_some, Option.some.injEq] at host
  cases found
  rw [host] at same
  exact absurd same (by decide)

end PresenceNode.Host
