import PresenceNode.Main.Flush
import PresenceNode.Radar.Zones

/-!
# Where a headcount comes from

The flag for the tracker is clear as soon as one frame of the window carries a
target list, and the headcount is the largest contribution of any of its
frames, with or without one.
-/

namespace PresenceNode.Main

open Library Tlv PresenceNode.Frame Radar Sen5x

/-- The number of targets that are decoded from the target list of a frame, if it carries one. -/
def trackedIn (frame : List UInt8) : Option Nat :=
  match tlvFind frame tlvTargetList with
  | some (some payload) => (tlvTargets payload radarMaxTargets).map List.length
  | _ => none

def trackedPeak (frames : List (List UInt8)) : Nat := (frames.filterMap trackedIn).foldl max 0

/-- A frame without a target list reports motion in a zone that is looked at. -/
def MovesUntracked (frame : List UInt8) : Prop :=
  tlvFind frame tlvTargetList = some none ∧
    ∃ payload, tlvFind frame tlvEnhancedPresence = some (some payload) ∧ MotionBelow 8 payload

/-! ## One frame -/

theorem sight_tracked {frame : List UInt8} {n : Nat} (tracked : trackedIn frame = some n) :
    sight frame = some (true, n) := by
  unfold trackedIn at tracked
  split at tracked
  · next payload found =>
      obtain ⟨targets, decoded, rfl⟩ := Option.map_eq_some_iff.mp tracked
      simp [sight, found, decoded]
  · cases tracked

/-- A frame without a target list contributes one if it reports motion, and nobody otherwise. -/
theorem sight_untracked {frame : List UInt8} (valid : ValidFrame frame)
    (untracked : trackedIn frame = none) :
    ∃ n, sight frame = some (false, n) ∧ n ≤ 1 ∧ (0 < n ↔ MovesUntracked frame) := by
  obtain ⟨found, search⟩ := tlvFind_defined valid tlvTargetList
  cases found with
  | some payload =>
      obtain ⟨targets, decoded, _⟩ := tlvTargets_defined payload radarMaxTargets
      simp [trackedIn, search, decoded] at untracked
  | none =>
      obtain ⟨presence, looked⟩ := tlvFind_defined valid tlvEnhancedPresence
      cases presence with
      | none =>
          refine ⟨0, by simp [sight, search, looked], Nat.zero_le 1, ?_⟩
          constructor
          · exact fun impossible => absurd impossible (Nat.lt_irrefl 0)
          · rintro ⟨_, payload, found, _⟩
            rw [looked] at found
            cases found
      | some payload =>
          have same : MovesUntracked frame ↔ MotionBelow 8 payload := by
            constructor
            · rintro ⟨_, other, found, motion⟩
              rw [looked] at found
              cases found
              exact motion
            · exact fun motion => ⟨search, payload, looked, motion⟩
          obtain ⟨moves, still⟩ := sight_zones search looked
          by_cases motion : MotionBelow 8 payload
          · exact ⟨1, moves motion, Nat.le_refl 1, fun _ => same.mpr motion, fun _ => Nat.one_pos⟩
          · exact ⟨0, still motion, Nat.zero_le 1, fun impossible => absurd impossible (by decide),
              fun moving => absurd (same.mp moving) motion⟩

theorem countIn_cases {frame : List UInt8} (valid : ValidFrame frame) :
    (∃ n, trackedIn frame = some n ∧ trackerIn frame = true ∧ countIn frame = n) ∨
      trackedIn frame = none ∧ trackerIn frame = false ∧ countIn frame ≤ 1 ∧
        (0 < countIn frame ↔ MovesUntracked frame) := by
  cases tracked : trackedIn frame with
  | some n =>
      have seen := sight_tracked tracked
      exact .inl ⟨n, rfl, by simp [trackerIn, seen], by simp [countIn, seen]⟩
  | none =>
      obtain ⟨n, seen, floor, moves⟩ := sight_untracked valid tracked
      have count : countIn frame = n := by simp [countIn, seen]
      exact .inr ⟨rfl, by simp [trackerIn, seen], by rw [count]; exact floor,
        by rw [count]; exact moves⟩

/-! ## One window -/

theorem le_trackedPeak {frames : List (List UInt8)} {frame : List UInt8} {n : Nat}
    (member : frame ∈ frames) (tracked : trackedIn frame = some n) : n ≤ trackedPeak frames :=
  le_foldl_max (List.mem_filterMap.mpr ⟨frame, member, tracked⟩)

theorem exists_of_trackedPeak {frames : List (List UInt8)} (counted : 0 < trackedPeak frames) :
    ∃ frame ∈ frames, ∃ n, trackedIn frame = some n ∧ 0 < n := by
  by_contra nobody
  refine absurd counted (Nat.not_lt.mpr (foldl_max_le fun n member => ?_))
  obtain ⟨frame, inside, tracked⟩ := List.mem_filterMap.mp member
  exact Nat.le_of_not_lt fun positive => nobody ⟨frame, inside, n, tracked, positive⟩

/-- The target lists have the largest contribution, unless zones move and every list is empty. -/
theorem peak_eq_trackedPeak_iff {frames : List (List UInt8)}
    (valid : ∀ frame ∈ frames, ValidFrame frame) :
    peak frames = trackedPeak frames ↔
      ((∃ frame ∈ frames, MovesUntracked frame) →
        ∃ frame ∈ frames, ∃ n, trackedIn frame = some n ∧ 0 < n) := by
  constructor
  · rintro same ⟨frame, member, moves⟩
    apply exists_of_trackedPeak
    rw [← same]
    refine Nat.lt_of_lt_of_le ?_ (countIn_le_peak member)
    rcases countIn_cases (valid frame member) with ⟨n, tracked, _⟩ | ⟨_, _, _, counts⟩
    · rw [trackedIn, moves.1] at tracked
      cases tracked
    · exact counts.mpr moves
  · intro outnumbered
    apply Nat.le_antisymm
    · apply peak_le
      intro frame member
      rcases countIn_cases (valid frame member) with ⟨n, tracked, _, count⟩ | ⟨_, _, floor, counts⟩
      · rw [count]
        exact le_trackedPeak member tracked
      · by_cases moves : MovesUntracked frame
        · obtain ⟨other, inside, n, tracked, positive⟩ := outnumbered ⟨frame, member, moves⟩
          exact Nat.le_trans floor (Nat.le_trans positive (le_trackedPeak inside tracked))
        · have nobody : ¬ 0 < countIn frame := fun counted => moves (counts.mp counted)
          exact Nat.le_trans (Nat.le_of_not_lt nobody) (Nat.zero_le _)
    · apply foldl_max_le
      intro n member
      obtain ⟨frame, inside, tracked⟩ := List.mem_filterMap.mp member
      rcases countIn_cases (valid frame inside) with ⟨other, same, _, count⟩ | ⟨untracked, _⟩
      · rw [tracked] at same
        cases same
        rw [← count]
        exact countIn_le_peak inside
      · rw [tracked] at untracked
        cases untracked

/-! ## Runs -/

structure Counted (history : List RadarEvent) (acc : Acc) : Prop where
  maxCount : acc.maxCount.toNat = peak (window history)
  anyTracker : acc.anyTracker = (window history).any trackerIn
  valid : ∀ bytes ∈ window history, ValidFrame bytes

def Delivered : RadarEvent → Prop
  | .frame bytes _ => ValidFrame bytes
  | .take _ => True

theorem Counted.step {history : List RadarEvent} {event : RadarEvent} {acc next : Acc}
    {output : Option RadarWindow} (counted : Counted history acc) (delivered : Delivered event)
    (stepped : radar.step acc event = some (next, output)) :
    Counted (history ++ [event]) next := by
  cases event with
  | frame bytes now =>
      rw [step_frame delivered] at stepped
      cases stepped
      obtain ⟨_, _, bound, _⟩ := sight_valid delivered
      constructor
      · rw [account_maxCount acc _ bound, window_frame, peak_concat, counted.maxCount]
      · rw [account_eq, window_frame, List.any_append, ← counted.anyTracker, List.any_cons,
          List.any_nil, Bool.or_false]
      · rw [window_frame]
        intro other member
        rcases List.mem_append.mp member with before | same
        · exact counted.valid other before
        · rw [List.mem_singleton.mp same]
          exact delivered
  | take now =>
      cases stepped
      constructor
      · rw [window_take]
        rfl
      · rw [window_take]
        rfl
      · simp

theorem counted {history : List RadarEvent} {outputs : List (Option RadarWindow)} {acc : Acc}
    (delivered : ∀ event ∈ history, Delivered event)
    (ran : radar.run Acc.zero history = some (acc, outputs)) : Counted history acc := by
  have preserved : ∀ history (outputs : List (Option RadarWindow)) acc event next output,
      Counted history acc → Delivered event → radar.step acc event = some (next, output) →
      Counted (history ++ [event]) next :=
    fun _ _ _ _ _ _ before delivered stepped => before.step delivered stepped
  have start : Counted [] Acc.zero := ⟨rfl, rfl, by simp⟩
  exact Machine.run_invariant preserved start (Machine.guarded_of_inputs delivered _) ran

/--
Whatever came before, a record whose flag for the tracker is clear has the
largest number of targets of the target lists of its window as its headcount,
exactly if a window with a target list, and with motion in a frame without one,
has a target in some list.
-/
theorem headcount_tracked_iff {history : List RadarEvent} (now : Int)
    (frames : ∀ bytes time, .frame bytes time ∈ history → ValidFrame bytes) :
    ∃ acc outputs w, radar.run Acc.zero (history ++ [.take now]) =
        some (acc, outputs ++ [some w]) ∧
      ∀ aq, ((windowRecord w aq).flags &&& sntlFlagNoTracker = 0 →
          (windowRecord w aq).headcount.toNat = trackedPeak (window history)) ↔
        ((∃ frame ∈ window history, (trackedIn frame).isSome = true) →
          (∃ frame ∈ window history, MovesUntracked frame) →
          ∃ frame ∈ window history, ∃ n, trackedIn frame = some n ∧ 0 < n) := by
  obtain ⟨acc, outputs, ran⟩ := radar_defined frames
  have delivered : ∀ event ∈ history, Delivered event := by
    intro event member
    cases event with
    | frame bytes time => exact frames bytes time member
    | take time => trivial
  have account := counted delivered ran
  refine ⟨_, outputs, _, Machine.run_concat ran rfl, fun aq => ?_⟩
  have clear : (windowRecord (radarWindowTake acc now).2 aq).flags &&& sntlFlagNoTracker = 0 ↔
      ∃ frame ∈ window history, (trackedIn frame).isSome = true := by
    refine (windowFlags_noTracker _ aq).trans ?_
    change acc.anyTracker = true ↔ _
    rw [account.anyTracker, List.any_eq_true]
    have carried : ∀ frame ∈ window history,
        trackerIn frame = true ↔ (trackedIn frame).isSome = true := by
      intro frame member
      rcases countIn_cases (account.valid frame member) with ⟨n, same, yes, _⟩ | ⟨same, no, _⟩
      · simp [same, yes]
      · simp [same, no]
    exact exists_congr fun frame => and_congr_right (carried frame)
  have headcount : (windowRecord (radarWindowTake acc now).2 aq).headcount.toNat =
      peak (window history) := account.maxCount
  rw [clear, headcount, peak_eq_trackedPeak_iff account.valid]

def emptyList : List UInt8 :=
  tlvMagic ++ [0, 0, 0, 0] ++ [48, 0, 0, 0] ++ List.replicate 24 0 ++
    [0x34, 0x01, 0, 0] ++ [0, 0, 0, 0]

def oneTarget : List UInt8 :=
  tlvMagic ++ [0, 0, 0, 0] ++ [160, 0, 0, 0] ++ List.replicate 24 0 ++
    [0x34, 0x01, 0, 0] ++ [112, 0, 0, 0] ++ List.replicate 112 0

theorem emptyList_valid : ValidFrame emptyList := ⟨by decide, by decide, by decide, by decide⟩

theorem oneTarget_valid : ValidFrame oneTarget :=
  ⟨by decide +kernel, by decide +kernel, by decide +kernel, by decide +kernel⟩

theorem presenceFrame_valid : ValidFrame presenceFrame :=
  ⟨by decide, by decide, by decide, by decide⟩

theorem headcount_tracked_iff_oneTarget :
    ∃ acc outputs w, radar.run Acc.zero ([.frame oneTarget 1000, .frame presenceFrame 1250] ++
        [.take 31000]) = some (acc, outputs ++ [some w]) ∧
      ∀ aq, ((windowRecord w aq).flags &&& sntlFlagNoTracker = 0 →
          (windowRecord w aq).headcount.toNat = trackedPeak [oneTarget, presenceFrame]) ↔
        ((∃ frame ∈ [oneTarget, presenceFrame], (trackedIn frame).isSome = true) →
          (∃ frame ∈ [oneTarget, presenceFrame], MovesUntracked frame) →
          ∃ frame ∈ [oneTarget, presenceFrame], ∃ n, trackedIn frame = some n ∧ 0 < n) :=
  headcount_tracked_iff 31000 (by
    intro bytes time member
    simp only [List.mem_cons, RadarEvent.frame.injEq, List.not_mem_nil, or_false] at member
    rcases member with ⟨rfl, rfl⟩ | ⟨rfl, rfl⟩
    · exact oneTarget_valid
    · exact presenceFrame_valid)

/-- An empty target list clears the flag, and the zones of the next frame make the count. -/
theorem headcount_from_zones :
    ValidFrame emptyList ∧ ValidFrame presenceFrame ∧
      ∃ acc w, radar.run Acc.zero
          [.frame emptyList 1000, .frame presenceFrame 1250, .take 31000] =
            some (acc, [none, none, some w]) ∧
        ∀ aq, (windowRecord w aq).flags &&& sntlFlagNoTracker = 0 ∧
          (windowRecord w aq).headcount.toNat = 1 ∧
          trackedPeak [emptyList, presenceFrame] = 0 := by
  refine ⟨emptyList_valid, presenceFrame_valid, _, _, rfl, fun aq => ⟨?_, rfl, by decide⟩⟩
  exact (windowFlags_noTracker _ aq).mpr rfl

end PresenceNode.Main
