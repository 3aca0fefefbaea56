import PresenceNode.Store.Layout
import PresenceNode.Tlv.Decode

/-!
# The occupancy window of `radar.c`

`onFrame` is `on_frame` as far as the accumulators go: its reports of TLV types
and of one frame in four read the frame and change nothing else.
`k_uptime_get` is the time of the event.
-/

namespace PresenceNode.Radar

open Library Store Tlv

def radarMaxTargets : Int := 20

def zonesSize : Int := 8

structure Acc where
  maxCount : UInt8
  frames : UInt16
  occFrames : UInt16
  anyTracker : Bool
  occSince : Int

def Acc.zero : Acc := ⟨0, 0, 0, false, 0⟩

structure RadarWindow where
  headcount : UInt8
  occS : UInt8
  dwellS : UInt16
  alive : Bool
  tracker : Bool

/-- The first part of `on_frame`: `tracker` and `n`. -/
def sight (frame : List UInt8) : Option (Bool × Nat) := do
  match ← tlvFind frame tlvTargetList with
  | some p =>
      let tgt ← tlvTargets p radarMaxTargets
      some (true, tgt.length)
  | none =>
      match ← tlvFind frame tlvEnhancedPresence with
      | some p =>
          let zones ← tlvPresence p zonesSize
          some (false, if zones.any (· ≠ tlvZoneNone) then 1 else 0)
      | none => some (false, 0)

/-- The second part of `on_frame`, under the lock. -/
def account (acc : Acc) (tracker : Bool) (n : Nat) (now : Int) : Acc :=
  let acc := { acc with frames := acc.frames + 1 }
  let acc := if tracker then { acc with anyTracker := true } else acc
  if n > 0 then
    let acc := { acc with occFrames := acc.occFrames + 1 }
    let acc := if n > acc.maxCount.toNat then { acc with maxCount := UInt8.ofNat n } else acc
    if acc.occSince = 0 then { acc with occSince := now } else acc
  else { acc with occSince := 0 }

def onFrame (acc : Acc) (frame : List UInt8) (now : Int) : Option Acc :=
  (sight frame).map fun seen => account acc seen.1 seen.2 now

def radarWindowTake (acc : Acc) (now : Int) : Acc × RadarWindow :=
  let alive := decide (acc.frames > 0)
  let occS := if acc.frames ≠ 0 then
    (acc.occFrames.toUInt32 * UInt32.ofNat storePeriodS / acc.frames.toUInt32).toUInt8 else 0
  let occSince := if alive then acc.occSince else 0
  let held := if occSince ≠ 0 then (now - occSince).tdiv 1000 else 0
  let dwellS := if held > 65535 then 65535 else UInt16.ofInt held
  ({ acc with maxCount := 0, frames := 0, occFrames := 0, anyTracker := false,
              occSince := occSince },
    { headcount := acc.maxCount, occS := occS, dwellS := dwellS, alive := alive,
      tracker := acc.anyTracker })

inductive RadarEvent where
  | frame (bytes : List UInt8) (now : Int)
  | take (now : Int)

def RadarEvent.now : RadarEvent → Int
  | .frame _ now => now
  | .take now => now

/-- The radar thread and the main loop, one critical section at a time. -/
def radar : Machine Acc RadarEvent (Option RadarWindow) where
  step acc event :=
    match event with
    | .frame bytes now => (onFrame acc bytes now).map fun next => (next, none)
    | .take now => some ((radarWindowTake acc now).1, some (radarWindowTake acc now).2)

/-! ## Zones -/

/-- The state byte of the zone lies inside the payload, and its two bits are not both zero. -/
def Moves (payload : List UInt8) (zone : Nat) : Prop :=
  ∃ byte, payload[1 + zone / 4]? = some byte ∧
    (byte >>> UInt8.ofNat (2 * (zone % 4))) &&& 0x3 ≠ 0

/-- Of the zones that the payload declares, one below the limit moves. -/
def MotionBelow (limit : Nat) (payload : List UInt8) : Prop :=
  2 ≤ payload.length ∧ ∃ zones, payload[0]? = some zones ∧
    ∃ zone < zones.toNat, zone < limit ∧ Moves payload zone

theorem zoneState_moves {payload : List UInt8} {zone : Nat} {state : UInt8}
    (read : zoneState payload zone = some state) : state ≠ 0 ↔ Moves payload zone := by
  simp only [zoneState] at read
  split at read
  · next inside =>
      obtain ⟨byte, there, rfl⟩ := Option.map_eq_some_iff.mp read
      constructor
      · exact fun moves => ⟨byte, there, moves⟩
      · rintro ⟨other, same, moves⟩
        rw [there] at same
        cases same
        exact moves
  · next outside =>
      cases read
      constructor
      · exact fun impossible => absurd rfl impossible
      · rintro ⟨byte, there, _⟩
        have inside := (List.getElem?_eq_some_iff.mp there).1
        exact absurd inside outside

/-- Some state that was decoded is not zero exactly if one of the zones moves. -/
theorem zones_move {payload states : List UInt8} {zones : List Nat}
    (read : zones.mapM (zoneState payload) = some states) :
    states.any (· ≠ tlvZoneNone) = true ↔ ∃ zone ∈ zones, Moves payload zone := by
  induction zones generalizing states with
  | nil =>
      cases read
      simp
  | cons zone rest ih =>
      simp only [List.mapM_cons, Option.bind_eq_bind, Option.bind_eq_some_iff] at read
      obtain ⟨state, first, others, readRest, same⟩ := read
      cases same
      rw [List.any_cons, Bool.or_eq_true, ih readRest, List.exists_mem_cons_iff,
        ← zoneState_moves first]
      exact or_congr_left decide_eq_true_iff

/-- `tlv_presence` finds motion in the zones that there is room for. -/
theorem tlvPresence_moves {payload states : List UInt8} {limit : Nat}
    (read : tlvPresence payload limit = some states) :
    states.any (· ≠ tlvZoneNone) = true ↔ MotionBelow limit payload := by
  unfold tlvPresence at read
  split at read
  · next short =>
      cases read
      constructor
      · exact fun impossible => absurd impossible (by decide)
      · exact fun motion => absurd motion.1 (Nat.not_le.mpr short)
  · next long =>
      simp only [Option.bind_eq_bind, Option.bind_eq_some_iff] at read
      obtain ⟨zones, declared, readAll⟩ := read
      have count : (if (zones.toNat : Int) > limit then (limit : Int) else zones.toNat).toNat =
          min zones.toNat limit := by
        split <;> omega
      rw [count] at readAll
      rw [zones_move readAll]
      constructor
      · rintro ⟨zone, member, moves⟩
        have inside := List.mem_range.mp member
        exact ⟨Nat.le_of_not_lt long, zones, declared, zone, by omega, by omega, moves⟩
      · rintro ⟨_, other, same, zone, inside, below, moves⟩
        rw [declared] at same
        cases same
        exact ⟨zone, List.mem_range.mpr (by omega), moves⟩

/-! ## What one frame contributes -/

/-- What is in a frame: the targets of its list, or else whether one of its first zones moves. -/
inductive Sees (frame : List UInt8) : Bool → Nat → Prop where
  | targets {payload : List UInt8} {tgt : List TlvTarget}
      (found : tlvFind frame tlvTargetList = some (some payload))
      (decoded : tlvTargets payload radarMaxTargets = some tgt) : Sees frame true tgt.length
  | motion {payload : List UInt8} (untracked : tlvFind frame tlvTargetList = some none)
      (found : tlvFind frame tlvEnhancedPresence = some (some payload))
      (moves : MotionBelow 8 payload) : Sees frame false 1
  | still {payload : List UInt8} (untracked : tlvFind frame tlvTargetList = some none)
      (found : tlvFind frame tlvEnhancedPresence = some (some payload))
      (rests : ¬ MotionBelow 8 payload) : Sees frame false 0
  | nothing (untracked : tlvFind frame tlvTargetList = some none)
      (silent : tlvFind frame tlvEnhancedPresence = some none) : Sees frame false 0

def trackerIn (frame : List UInt8) : Bool := ((sight frame).map Prod.fst).getD false

def countIn (frame : List UInt8) : Nat := ((sight frame).map Prod.snd).getD 0

/-- Without a target list, the eight zones that there is room for decide. -/
theorem sight_zones {frame payload : List UInt8}
    (untracked : tlvFind frame tlvTargetList = some none)
    (found : tlvFind frame tlvEnhancedPresence = some (some payload)) :
    (MotionBelow 8 payload → sight frame = some (false, 1)) ∧
      (¬ MotionBelow 8 payload → sight frame = some (false, 0)) := by
  obtain ⟨zones, read⟩ := tlvPresence_defined payload zonesSize
  have seen : sight frame =
      some (false, if zones.any (· ≠ tlvZoneNone) = true then 1 else 0) := by
    simp [sight, untracked, found, read]
  have moved := tlvPresence_moves (show tlvPresence payload (8 : Nat) = some zones from read)
  constructor
  · intro motion
    rw [seen, if_pos (moved.mpr motion)]
  · intro still
    rw [seen, if_neg fun motion => still (moved.mp motion)]

theorem sight_sees {frame : List UInt8} (valid : ValidFrame frame) :
    ∃ tracker n, sight frame = some (tracker, n) ∧ Sees frame tracker n := by
  obtain ⟨targets, foundTargets⟩ := tlvFind_defined valid tlvTargetList
  obtain ⟨presence, foundPresence⟩ := tlvFind_defined valid tlvEnhancedPresence
  cases targets with
  | some payload =>
      obtain ⟨tgt, decoded, _⟩ := tlvTargets_defined payload radarMaxTargets
      refine ⟨true, tgt.length, ?_, .targets foundTargets decoded⟩
      simp [sight, foundTargets, decoded]
  | none =>
      cases presence with
      | some payload =>
          obtain ⟨moves, rests⟩ := sight_zones foundTargets foundPresence
          by_cases motion : MotionBelow 8 payload
          · exact ⟨false, 1, moves motion, .motion foundTargets foundPresence motion⟩
          · exact ⟨false, 0, rests motion, .still foundTargets foundPresence motion⟩
      | none =>
          refine ⟨false, 0, ?_, .nothing foundTargets foundPresence⟩
          simp [sight, foundTargets, foundPresence]

theorem sees_in {frame : List UInt8} (valid : ValidFrame frame) :
    Sees frame (trackerIn frame) (countIn frame) := by
  obtain ⟨tracker, n, seen, sees⟩ := sight_sees valid
  rw [trackerIn, countIn, seen]
  exact sees

theorem sight_valid {frame : List UInt8} (valid : ValidFrame frame) :
    sight frame = some (trackerIn frame, countIn frame) ∧
      (trackerIn frame = true ↔ ∃ payload, tlvFind frame tlvTargetList = some (some payload)) ∧
      countIn frame ≤ 20 ∧ (trackerIn frame = false → countIn frame ≤ 1) := by
  obtain ⟨tracker, n, seen, sees⟩ := sight_sees valid
  have absent (untracked : tlvFind frame tlvTargetList = some none) :
      ¬ ∃ payload, tlvFind frame tlvTargetList = some (some payload) := by
    rintro ⟨payload, found⟩
    rw [untracked] at found
    cases found
  simp only [trackerIn, countIn, seen, Option.map_some, Option.getD_some]
  refine ⟨trivial, ?_⟩
  cases sees with
  | @targets payload tgt found decoded =>
      obtain ⟨_, again, bound⟩ := tlvTargets_defined payload radarMaxTargets
      have twenty : radarMaxTargets.toNat = 20 := rfl
      rw [decoded] at again
      cases again
      exact ⟨⟨fun _ => ⟨payload, found⟩, fun _ => rfl⟩, by omega, nofun⟩
  | motion untracked =>
      exact ⟨⟨nofun, fun found => absurd found (absent untracked)⟩, by decide, fun _ => by decide⟩
  | still untracked =>
      exact ⟨⟨nofun, fun found => absurd found (absent untracked)⟩, by decide, fun _ => by decide⟩
  | nothing untracked =>
      exact ⟨⟨nofun, fun found => absurd found (absent untracked)⟩, by decide, fun _ => by decide⟩

end PresenceNode.Radar
