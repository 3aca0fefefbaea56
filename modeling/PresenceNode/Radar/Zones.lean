import PresenceNode.Radar.Summary

/-!
# Motion in the zones of a frame

Without a target list a frame is occupied when one of the zones that
`on_frame` looks at reports motion.  It has room for eight of them, and the
payload may declare more.
-/

namespace PresenceNode.Radar

open Tlv

def Motion (payload : List UInt8) : Prop :=
  2 ≤ payload.length ∧ ∃ zones, payload[0]? = some zones ∧
    ∃ zone < zones.toNat, Moves payload zone

theorem MotionBelow.motion {limit : Nat} {payload : List UInt8}
    (motion : MotionBelow limit payload) : Motion payload := by
  obtain ⟨long, zones, declared, zone, inside, _, moves⟩ := motion
  exact ⟨long, zones, declared, zone, inside, moves⟩

/-! ## What the accumulators hold after the frame -/

def occupiedOne (acc : Acc) (now : Int) : Acc :=
  { acc with
    frames := acc.frames + 1
    occFrames := acc.occFrames + 1
    maxCount := if acc.maxCount = 0 then 1 else acc.maxCount
    occSince := if acc.occSince = 0 then now else acc.occSince }

def emptied (acc : Acc) : Acc :=
  { acc with frames := acc.frames + 1, occSince := 0 }

theorem account_one (acc : Acc) (now : Int) : account acc false 1 now = occupiedOne acc now := by
  have first : 1 > acc.maxCount.toNat ↔ acc.maxCount = 0 := by
    rw [gt_iff_lt, Nat.lt_one_iff, ← UInt8.toNat_inj]
    rfl
  rw [account_eq, occupiedOne]
  simp only [first, gt_iff_lt, Nat.one_pos, if_true, Bool.or_false]
  rfl

theorem account_nobody (acc : Acc) (now : Int) : account acc false 0 now = emptied acc := by
  rw [account_eq, emptied]
  simp

theorem occupiedOne_ne_emptied (acc : Acc) (now : Int) : occupiedOne acc now ≠ emptied acc := by
  intro same
  have frames : acc.occFrames + 1 = acc.occFrames := congrArg Acc.occFrames same
  simp at frames

theorem onFrame_zones {frame payload : List UInt8}
    (untracked : tlvFind frame tlvTargetList = some none)
    (found : tlvFind frame tlvEnhancedPresence = some (some payload)) (acc : Acc) (now : Int) :
    (MotionBelow 8 payload → onFrame acc frame now = some (occupiedOne acc now)) ∧
      (¬ MotionBelow 8 payload → onFrame acc frame now = some (emptied acc)) := by
  obtain ⟨moves, still⟩ := sight_zones untracked found
  constructor
  · intro motion
    rw [onFrame, moves motion, ← account_one]
    rfl
  · intro quiet
    rw [onFrame, still quiet, ← account_nobody acc now]
    rfl

/--
Without a target list a frame is occupied by one exactly when the device
reports motion in any zone, if the motion it reports is not all in zones past
the eighth.
-/
theorem onFrame_motion_iff {frame payload : List UInt8}
    (untracked : tlvFind frame tlvTargetList = some none)
    (found : tlvFind frame tlvEnhancedPresence = some (some payload)) (acc : Acc) (now : Int) :
    ((Motion payload → onFrame acc frame now = some (occupiedOne acc now)) ∧
      (¬ Motion payload → onFrame acc frame now = some (emptied acc))) ↔
    (Motion payload → MotionBelow 8 payload) := by
  obtain ⟨occupied, empty⟩ := onFrame_zones untracked found acc now
  constructor
  · rintro ⟨counted, _⟩ motion
    refine Classical.byContradiction fun still => ?_
    have same := (counted motion).symm.trans (empty still)
    exact occupiedOne_ne_emptied acc now (Option.some.inj same)
  · intro near
    constructor
    · exact fun motion => occupied (near motion)
    · exact fun still => empty fun motion => still motion.motion

theorem onFrame_motion_iff_presenceFrame :
    ((Motion [1, 2] → onFrame Acc.zero presenceFrame 1000 = some (occupiedOne Acc.zero 1000)) ∧
      (¬ Motion [1, 2] → onFrame Acc.zero presenceFrame 1000 = some (emptied Acc.zero))) ↔
    (Motion [1, 2] → MotionBelow 8 [1, 2]) :=
  onFrame_motion_iff (by decide) (by decide) Acc.zero 1000

def ninthZone : List UInt8 :=
  tlvMagic ++ [0, 0, 0, 0] ++ [52, 0, 0, 0] ++ List.replicate 24 0 ++
    [0x3B, 0x01, 0, 0] ++ [4, 0, 0, 0] ++ [9, 0, 0, 1]

theorem onFrame_ninthZone :
    ValidFrame ninthZone ∧ tlvFind ninthZone tlvTargetList = some none ∧
      tlvFind ninthZone tlvEnhancedPresence = some (some [9, 0, 0, 1]) ∧
      Motion [9, 0, 0, 1] ∧ onFrame Acc.zero ninthZone 1000 = some (emptied Acc.zero) ∧
      onFrame Acc.zero ninthZone 1000 ≠ some (occupiedOne Acc.zero 1000) := by
  have empty : onFrame Acc.zero ninthZone 1000 = some (emptied Acc.zero) := by rfl
  refine ⟨⟨by decide, by decide, by decide, by decide⟩, by decide, by decide, ?_, empty, ?_⟩
  · exact ⟨by decide, 9, rfl, 8, by decide, 1, rfl, by decide⟩
  · rw [empty]
    exact fun same => occupiedOne_ne_emptied Acc.zero 1000 (Option.some.inj same).symm

end PresenceNode.Radar
