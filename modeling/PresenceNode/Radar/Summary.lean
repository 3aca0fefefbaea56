import Mathlib.Data.List.Fold
import Mathlib.Data.List.MinMax
import Mathlib.Order.Nat
import PresenceNode.Radar.Window

/-!
# What a window says about the frames before it

The events are cut into windows at the takes, and a run of occupied frames is
steady while nothing breaks it: an empty frame does, and so does a take whose
window had no frame.  Both notions are read off the history alone, and the
accumulators are shown to hold them.
-/

namespace PresenceNode.Radar

open Library Store Tlv

/-! ## Windows and runs of a history -/

/-- The windows that have been taken, and the frames since the last take. -/
def cut (history : List RadarEvent) : List (List (List UInt8)) × List (List UInt8) :=
  history.foldl (fun windows event =>
    match event with
    | .frame bytes _ => (windows.1, windows.2 ++ [bytes])
    | .take _ => (windows.1 ++ [windows.2], [])) ([], [])

def taken (history : List RadarEvent) : List (List (List UInt8)) := (cut history).1

def window (history : List RadarEvent) : List (List UInt8) := (cut history).2

def framesOf (history : List RadarEvent) : List (List UInt8) :=
  history.filterMap fun event =>
    match event with
    | .frame bytes _ => some bytes
    | .take _ => none

theorem mem_framesOf {history : List RadarEvent} {bytes : List UInt8} :
    bytes ∈ framesOf history ↔ ∃ now, .frame bytes now ∈ history := by
  simp only [framesOf, List.mem_filterMap]
  constructor
  · rintro ⟨event, member, same⟩
    cases event with
    | frame other now =>
        cases same
        exact ⟨now, member⟩
    | take now => cases same
  · rintro ⟨now, member⟩
    exact ⟨_, member, rfl⟩

/-- The event, after the history before it, breaks a run of occupied frames. -/
def Breaks (before : List RadarEvent) : RadarEvent → Prop
  | .frame bytes _ => countIn bytes = 0
  | .take _ => window before = []

def Steady (before : List RadarEvent) : List RadarEvent → Prop
  | [] => True
  | event :: rest => ¬ Breaks before event ∧ Steady (before ++ [event]) rest

/-- The unbroken run at the end of the history starts with a frame of that time. -/
def RunStart (history : List RadarEvent) (time : Int) : Prop :=
  ∃ before bytes after, history = before ++ .frame bytes time :: after ∧
    Steady before (.frame bytes time :: after) ∧
    ∀ earlier other at_ between, before = earlier ++ .frame other at_ :: between →
      ¬ Steady earlier (.frame other at_ :: between ++ .frame bytes time :: after)

@[simp] theorem window_nil : window [] = [] := rfl

@[simp] theorem window_frame (history : List RadarEvent) (bytes : List UInt8) (now : Int) :
    window (history ++ [.frame bytes now]) = window history ++ [bytes] := by
  simp [window, cut]

@[simp] theorem window_take (history : List RadarEvent) (now : Int) :
    window (history ++ [.take now]) = [] := by
  simp [window, cut]

@[simp] theorem taken_frame (history : List RadarEvent) (bytes : List UInt8) (now : Int) :
    taken (history ++ [.frame bytes now]) = taken history := by
  simp [taken, cut]

@[simp] theorem taken_take (history : List RadarEvent) (now : Int) :
    taken (history ++ [.take now]) = taken history ++ [window history] := by
  simp [taken, window, cut]

/-- The windows, in order, have every frame once. -/
theorem taken_partition (history : List RadarEvent) :
    (taken history).flatten ++ window history = framesOf history := by
  induction history using List.reverseRecOn with
  | nil => rfl
  | append_singleton history event ih =>
      cases event with
      | frame bytes now =>
          rw [taken_frame, window_frame, ← List.append_assoc, ih]
          simp [framesOf]
      | take now =>
          rw [taken_take, window_take, List.append_nil, List.flatten_append,
            List.flatten_singleton, ih]
          simp [framesOf]

/-- A window that was taken stays in the list of them. -/
theorem taken_mono (history more : List RadarEvent) : taken history <+: taken (history ++ more) := by
  induction more using List.reverseRecOn with
  | nil => rw [List.append_nil]
  | append_singleton more event ih =>
      rw [← List.append_assoc]
      cases event with
      | frame bytes now =>
          rw [taken_frame]
          exact ih
      | take now =>
          rw [taken_take]
          exact ih.trans (List.prefix_append _ _)

theorem steady_concat {before events : List RadarEvent} {event : RadarEvent} :
    Steady before (events ++ [event]) ↔
      Steady before events ∧ ¬ Breaks (before ++ events) event := by
  induction events generalizing before with
  | nil => simp [Steady]
  | cons first rest ih =>
      rw [List.cons_append, Steady, ih, Steady, List.append_assoc, and_assoc]
      rfl

/-! ## How one event changes the run -/

/-- No frame of the history begins a steady run that reaches its end. -/
def Unoccupied (history : List RadarEvent) : Prop :=
  ∀ before bytes time after, history = before ++ .frame bytes time :: after →
    ¬ Steady before (.frame bytes time :: after)

theorem unoccupied_nil : Unoccupied [] := by
  intro before bytes time after split
  simp at split

theorem unoccupied_of_breaks {history : List RadarEvent} {event : RadarEvent}
    (broken : Breaks history event) : Unoccupied (history ++ [event]) := by
  intro before bytes time after split steady
  rcases concat_eq_append_cons split with ⟨rfl, rfl, rfl⟩ | ⟨rest, rfl, rfl⟩
  · exact steady.1 broken
  · rw [← List.cons_append, steady_concat] at steady
    exact steady.2 broken

theorem Unoccupied.take {history : List RadarEvent} (unoccupied : Unoccupied history) (now : Int) :
    Unoccupied (history ++ [.take now]) := by
  intro before bytes time after split steady
  rcases concat_eq_append_cons split with ⟨_, impossible, _⟩ | ⟨rest, rfl, rfl⟩
  · cases impossible
  · rw [← List.cons_append, steady_concat] at steady
    exact unoccupied _ _ _ _ rfl steady.1

theorem Unoccupied.frame {history : List RadarEvent} (unoccupied : Unoccupied history)
    {bytes : List UInt8} (occupied : 0 < countIn bytes) (now : Int) :
    RunStart (history ++ [.frame bytes now]) now := by
  refine ⟨history, bytes, [], rfl, ⟨Nat.ne_of_gt occupied, trivial⟩, ?_⟩
  rintro earlier other at_ between rfl steady
  rw [steady_concat] at steady
  exact unoccupied _ _ _ _ rfl steady.1

theorem RunStart.concat {history : List RadarEvent} {time : Int} (start : RunStart history time)
    {event : RadarEvent} (unbroken : ¬ Breaks history event) :
    RunStart (history ++ [event]) time := by
  obtain ⟨before, bytes, after, rfl, steady, first⟩ := start
  refine ⟨before, bytes, after ++ [event], by simp, ?_, ?_⟩
  · rw [← List.cons_append, steady_concat]
    exact ⟨steady, unbroken⟩
  · intro earlier other at_ between split longer
    rw [← List.cons_append, ← List.append_assoc, steady_concat] at longer
    exact first earlier other at_ between split longer.1

theorem RunStart.not_unoccupied {history : List RadarEvent} {time : Int}
    (start : RunStart history time) : ¬ Unoccupied history := by
  obtain ⟨before, bytes, after, split, steady, _⟩ := start
  exact fun unoccupied => unoccupied _ _ _ _ split steady

theorem ends_with_frame {history : List RadarEvent} {front : List (List UInt8)}
    {last : List UInt8} (whole : window history = front ++ [last]) :
    ∃ before now, history = before ++ [.frame last now] := by
  rcases List.eq_nil_or_concat history with rfl | ⟨before, event, rfl⟩
  · simp at whole
  · rw [List.concat_eq_append] at whole ⊢
    cases event with
    | frame bytes now =>
        rw [window_frame] at whole
        obtain ⟨_, single⟩ := List.append_inj' whole rfl
        cases single
        exact ⟨before, now, rfl⟩
    | take now =>
        rw [window_take] at whole
        simp at whole

theorem RunStart.mem {history : List RadarEvent} {time : Int} (start : RunStart history time) :
    ∃ event ∈ history, event.now = time := by
  obtain ⟨before, bytes, after, rfl, _⟩ := start
  exact ⟨.frame bytes time, by simp, rfl⟩

/-! ## The accumulators hold the window and the run -/

def occupiedIn (frames : List (List UInt8)) : Nat := frames.countP fun frame => 0 < countIn frame

def peak (frames : List (List UInt8)) : Nat := (frames.map countIn).foldl max 0

theorem peak_concat (frames : List (List UInt8)) (frame : List UInt8) :
    peak (frames ++ [frame]) = max (peak frames) (countIn frame) := by
  simp [peak]

theorem le_foldl_max {counts : List Nat} {n : Nat} (member : n ∈ counts) :
    n ≤ counts.foldl max 0 := by
  rw [List.foldl_eq_foldr]
  exact List.le_max_of_le member (Nat.le_refl n)

theorem foldl_max_le {counts : List Nat} {bound : Nat} (each : ∀ n ∈ counts, n ≤ bound) :
    counts.foldl max 0 ≤ bound := by
  rw [List.foldl_eq_foldr]
  exact List.max_le_of_forall_le counts bound each

theorem countIn_le_peak {frames : List (List UInt8)} {frame : List UInt8}
    (member : frame ∈ frames) : countIn frame ≤ peak frames :=
  le_foldl_max (List.mem_map_of_mem member)

theorem peak_le {frames : List (List UInt8)} {bound : Nat}
    (each : ∀ frame ∈ frames, countIn frame ≤ bound) : peak frames ≤ bound :=
  foldl_max_le (List.forall_mem_map.mpr each)

theorem account_eq (acc : Acc) (tracker : Bool) (n : Nat) (now : Int) :
    account acc tracker n now =
      { maxCount := if n > acc.maxCount.toNat then UInt8.ofNat n else acc.maxCount
        frames := acc.frames + 1
        occFrames := if n > 0 then acc.occFrames + 1 else acc.occFrames
        anyTracker := acc.anyTracker || tracker
        occSince := if n > 0 then (if acc.occSince = 0 then now else acc.occSince) else 0 } := by
  have above : ¬ 0 < n → ¬ acc.maxCount.toNat < n := by omega
  cases tracker <;> simp only [account] <;> split_ifs <;> simp_all

/-- The count of a frame that can be decoded is small enough for `max_count`. -/
theorem account_maxCount (acc : Acc) (tracker : Bool) {n : Nat} (few : n ≤ 20) (now : Int) :
    (account acc tracker n now).maxCount.toNat = max acc.maxCount.toNat n := by
  rw [account_eq]
  by_cases more : n > acc.maxCount.toNat
  · have fits : (UInt8.ofNat n).toNat = n := by
      rw [UInt8.toNat_ofNat']
      exact Nat.mod_eq_of_lt (by omega)
    simp only [if_pos more, fits]
    omega
  · simp only [if_neg more]
    omega

/-- What the events must be for the account to hold: decodable frames at positive times. -/
def Fair : RadarEvent → Prop
  | .frame bytes now => ValidFrame bytes ∧ 0 < now
  | .take _ => True

structure Accounts (history : List RadarEvent) (acc : Acc) : Prop where
  frames : acc.frames = UInt16.ofNat (window history).length
  occFrames : acc.occFrames = UInt16.ofNat (occupiedIn (window history))
  maxCount : acc.maxCount.toNat = peak (window history)
  anyTracker : acc.anyTracker = (window history).any trackerIn
  unoccupied : acc.occSince = 0 → Unoccupied history
  occupied : acc.occSince ≠ 0 → RunStart history acc.occSince
  valid : ∀ bytes ∈ window history, ValidFrame bytes

namespace Accounts

variable {history : List RadarEvent} {acc : Acc}

theorem start : Accounts [] Acc.zero :=
  ⟨rfl, rfl, rfl, rfl, fun _ => unoccupied_nil, fun nonzero => absurd rfl nonzero, by simp⟩

theorem frame (accounts : Accounts history acc) {bytes : List UInt8} {now : Int}
    (valid : ValidFrame bytes) (positive : 0 < now) :
    Accounts (history ++ [.frame bytes now])
      (account acc (trackerIn bytes) (countIn bytes) now) := by
  obtain ⟨_, _, bound, _⟩ := sight_valid valid
  rw [account_eq]
  constructor
  · simp [accounts.frames, UInt16.ofNat_add]
  · by_cases somebody : 0 < countIn bytes
    · simp [occupiedIn, somebody, accounts.occFrames, UInt16.ofNat_add]
    · simp [occupiedIn, somebody, accounts.occFrames]
  · rw [← account_eq, account_maxCount acc _ bound, window_frame, peak_concat, accounts.maxCount]
  · simp [accounts.anyTracker]
  · intro zero
    by_cases somebody : 0 < countIn bytes
    · simp only [if_pos somebody] at zero
      split at zero
      · omega
      · next nonzero => exact absurd zero nonzero
    · exact unoccupied_of_breaks (by change countIn bytes = 0; omega)
  · intro nonzero
    by_cases somebody : 0 < countIn bytes
    · simp only [if_pos somebody] at nonzero ⊢
      split
      · next zero => exact (accounts.unoccupied zero).frame somebody now
      · next since =>
          exact (accounts.occupied since).concat (Nat.ne_of_gt somebody)
    · simp only [if_neg somebody] at nonzero
      exact absurd rfl nonzero
  · rw [window_frame]
    intro other member
    rcases List.mem_append.mp member with before | same
    · exact accounts.valid other before
    · rw [List.mem_singleton.mp same]
      exact valid

/-- With fewer than 65536 frames, the window had one exactly when it is reported alive. -/
theorem alive_iff (accounts : Accounts history acc) (few : (window history).length < 65536) :
    acc.frames > 0 ↔ window history ≠ [] := by
  have count : acc.frames.toNat = (window history).length := by
    rw [accounts.frames, UInt16.toNat_ofNat']
    exact Nat.mod_eq_of_lt few
  rw [gt_iff_lt, UInt16.lt_iff_toNat_lt, count, ← List.length_pos_iff]
  rfl

theorem take (accounts : Accounts history acc) (few : (window history).length < 65536)
    (now : Int) : Accounts (history ++ [.take now]) (radarWindowTake acc now).1 := by
  have alive := accounts.alive_iff few
  refine ⟨by simp [radarWindowTake], by simp [radarWindowTake, occupiedIn],
    by simp [radarWindowTake, peak], by simp [radarWindowTake], ?_, ?_, by simp⟩
  · intro zero
    by_cases reporting : window history = []
    · exact unoccupied_of_breaks reporting
    · simp only [radarWindowTake, decide_eq_true (alive.mpr reporting), if_true] at zero
      exact (accounts.unoccupied zero).take now
  · intro nonzero
    by_cases reporting : window history = []
    · have dead : ¬ acc.frames > 0 := fun more => alive.mp more reporting
      simp only [radarWindowTake, decide_eq_false dead, Bool.false_eq_true, if_false] at nonzero
      exact absurd rfl nonzero
    · simp only [radarWindowTake, decide_eq_true (alive.mpr reporting), if_true] at nonzero ⊢
      exact (accounts.occupied nonzero).concat reporting

end Accounts

/-! ## What a take returns -/

/-- A window says what the frames since the last take were, and how long the run has lasted. -/
structure Summarises (history : List RadarEvent) (now : Int) (w : RadarWindow) : Prop where
  alive : w.alive = true ↔ window history ≠ []
  tracker : w.tracker = true ↔ ∃ frame ∈ window history,
    ∃ payload, tlvFind frame tlvTargetList = some (some payload)
  headcount : w.headcount.toNat = peak (window history)
  occS : w.occS.toNat = occupiedIn (window history) * storePeriodS / (window history).length
  occS_le : w.occS.toNat ≤ storePeriodS
  dwell_dead : window history = [] → w.dwellS = 0
  dwell_empty : ∀ front last, window history = front ++ [last] → countIn last = 0 → w.dwellS = 0
  dwell_run : ∀ front last, window history = front ++ [last] → 0 < countIn last →
    ∃ time, RunStart history time ∧ w.dwellS.toNat = min 65535 ((now - time) / 1000).toNat
  dwell_occupied : 0 < w.dwellS → w.alive = true ∧ 1 ≤ w.headcount
  floor : w.tracker = false → w.headcount ≤ 1

/-- The whole seconds of a span of milliseconds, as `dwell_s` keeps them. -/
theorem dwell_toNat {held : Int} (nonneg : 0 ≤ held) :
    (if held > 65535 then 65535 else UInt16.ofInt held).toNat = min 65535 held.toNat := by
  split
  · next above =>
      change 65535 = _
      omega
  · next fits =>
      rw [UInt16.ofInt, UInt16.toNat_ofNat', Int.emod_eq_of_lt nonneg (by omega)]
      omega

namespace Accounts

variable {history : List RadarEvent} {acc : Acc}

theorem occS_eq (accounts : Accounts history acc) (few : (window history).length < 65536)
    (now : Int) :
    (radarWindowTake acc now).2.occS.toNat =
        occupiedIn (window history) * storePeriodS / (window history).length ∧
      (radarWindowTake acc now).2.occS.toNat ≤ storePeriodS := by
  have within : occupiedIn (window history) ≤ (window history).length := List.countP_le_length
  have count : acc.frames.toNat = (window history).length := by
    rw [accounts.frames, UInt16.toNat_ofNat']
    exact Nat.mod_eq_of_lt few
  have occupied : acc.occFrames.toNat = occupiedIn (window history) := by
    rw [accounts.occFrames, UInt16.toNat_ofNat']
    exact Nat.mod_eq_of_lt (by omega)
  have period : storePeriodS = 30 := rfl
  have bound : occupiedIn (window history) * 30 / (window history).length ≤ 30 :=
    Nat.div_le_of_le_mul (Nat.mul_le_mul_right 30 within)
  have value : (radarWindowTake acc now).2.occS.toNat =
      occupiedIn (window history) * 30 / (window history).length := by
    simp only [radarWindowTake]
    by_cases zero : acc.frames = 0
    · have empty : (window history).length = 0 := by rw [← count, zero]; rfl
      rw [if_neg (not_not.mpr zero), empty, Nat.div_zero]
      rfl
    · rw [if_pos zero, UInt32.toNat_toUInt8, UInt32.toNat_div, UInt32.toNat_mul,
        UInt16.toNat_toUInt32, UInt16.toNat_toUInt32, occupied, count]
      change occupiedIn (window history) * 30 % 2 ^ 32 / (window history).length % 2 ^ 8 = _
      rw [Nat.mod_eq_of_lt (show occupiedIn (window history) * 30 < 2 ^ 32 by omega)]
      exact Nat.mod_eq_of_lt (by omega)
  rw [value, period]
  exact ⟨rfl, bound⟩

theorem dwell_eq (accounts : Accounts history acc) (few : (window history).length < 65536)
    {now : Int} (ordered : ∀ event ∈ history, event.now ≤ now) {front : List (List UInt8)}
    {last : List UInt8} (whole : window history = front ++ [last])
    (somebody : 0 < countIn last) :
    ∃ time, RunStart history time ∧
      (radarWindowTake acc now).2.dwellS.toNat = min 65535 ((now - time) / 1000).toNat := by
  have reporting : window history ≠ [] := by simp [whole]
  have nonzero : acc.occSince ≠ 0 := by
    intro zero
    obtain ⟨before, at_, rfl⟩ := ends_with_frame whole
    exact accounts.unoccupied zero before last at_ [] rfl ⟨Nat.ne_of_gt somebody, trivial⟩
  have start := accounts.occupied nonzero
  obtain ⟨event, member, time⟩ := start.mem
  have earlier := ordered event member
  refine ⟨acc.occSince, start, ?_⟩
  simp only [radarWindowTake, decide_eq_true ((accounts.alive_iff few).mpr reporting), if_true,
    if_pos nonzero]
  rw [Int.tdiv_eq_ediv_of_nonneg (by omega)]
  exact dwell_toNat (by omega)

theorem dwell_zero (accounts : Accounts history acc) (few : (window history).length < 65536)
    (now : Int) (idle : window history = [] ∨
      ∃ front last, window history = front ++ [last] ∧ countIn last = 0) :
    (radarWindowTake acc now).2.dwellS = 0 := by
  have alive := accounts.alive_iff few
  have stopped : (if decide (acc.frames > 0) = true then acc.occSince else 0) = 0 := by
    rcases idle with dead | ⟨front, last, whole, nobody⟩
    · rw [if_neg (by simpa using fun more => alive.mp more dead)]
    · have zero : acc.occSince = 0 := by
        by_contra nonzero
        obtain ⟨before, at_, rfl⟩ := ends_with_frame whole
        exact (accounts.occupied nonzero).not_unoccupied (unoccupied_of_breaks nobody)
      rw [zero, ite_self]
  simp only [radarWindowTake, stopped]
  rfl

theorem summarises (accounts : Accounts history acc) (few : (window history).length < 65536)
    {now : Int} (ordered : ∀ event ∈ history, event.now ≤ now) :
    Summarises history now (radarWindowTake acc now).2 := by
  have alive : (radarWindowTake acc now).2.alive = true ↔ window history ≠ [] := by
    rw [← accounts.alive_iff few]
    exact decide_eq_true_iff
  have headcount : (radarWindowTake acc now).2.headcount.toNat = peak (window history) :=
    accounts.maxCount
  have tracked : (radarWindowTake acc now).2.tracker = true ↔
      ∃ frame ∈ window history, trackerIn frame = true := by
    change acc.anyTracker = true ↔ _
    rw [accounts.anyTracker, List.any_eq_true]
  obtain ⟨occS, occS_le⟩ := accounts.occS_eq few now
  refine ⟨alive, ?_, headcount, occS, occS_le,
    fun dead => accounts.dwell_zero few now (.inl dead),
    fun front last whole nobody => accounts.dwell_zero few now (.inr ⟨front, last, whole, nobody⟩),
    fun front last whole somebody => accounts.dwell_eq few ordered whole somebody, ?_, ?_⟩
  · rw [tracked]
    constructor
    · rintro ⟨frame, member, carried⟩
      exact ⟨frame, member, (sight_valid (accounts.valid frame member)).2.1.mp carried⟩
    · rintro ⟨frame, member, found⟩
      exact ⟨frame, member, (sight_valid (accounts.valid frame member)).2.1.mpr found⟩
  · intro positive
    rcases List.eq_nil_or_concat (window history) with dead | ⟨front, last, whole⟩
    · rw [accounts.dwell_zero few now (.inl dead)] at positive
      exact absurd positive (by decide)
    · rw [List.concat_eq_append] at whole
      have somebody : 0 < countIn last := by
        refine Nat.pos_of_ne_zero fun nobody => ?_
        rw [accounts.dwell_zero few now (.inr ⟨front, last, whole, nobody⟩)] at positive
        exact absurd positive (by decide)
      have most : countIn last ≤ peak (window history) :=
        countIn_le_peak (by simp [whole])
      refine ⟨alive.mpr (by simp [whole]), UInt8.le_iff_toNat_le.mpr ?_⟩
      rw [headcount]
      change 1 ≤ _
      omega
  · intro untracked
    apply UInt8.le_iff_toNat_le.mpr
    rw [headcount]
    refine peak_le fun frame member => ?_
    refine (sight_valid (accounts.valid frame member)).2.2.2 (Bool.eq_false_iff.mpr ?_)
    intro carried
    rw [tracked.mpr ⟨frame, member, carried⟩] at untracked
    cases untracked

end Accounts

/-! ## Runs of frames and takes -/

theorem step_frame {bytes : List UInt8} (valid : ValidFrame bytes) (acc : Acc) (now : Int) :
    radar.step acc (.frame bytes now) =
      some (account acc (trackerIn bytes) (countIn bytes) now, none) := by
  simp only [radar, onFrame, (sight_valid valid).1, Option.map_some]

theorem radar_defined {events : List RadarEvent}
    (frames : ∀ bytes now, .frame bytes now ∈ events → ValidFrame bytes) :
    ∃ final outputs, radar.run Acc.zero events = some (final, outputs) := by
  apply Machine.run_total
  intro event member acc
  cases event with
  | frame bytes now => exact ⟨_, _, step_frame (frames bytes now member) acc now⟩
  | take now => exact ⟨_, _, rfl⟩

/-- The step lemma: an event at which no window has grown too long keeps the account. -/
theorem Accounts.step {history : List RadarEvent} {event : RadarEvent} {acc next : Acc}
    {output : Option RadarWindow} (accounts : Accounts history acc) (fair : Fair event)
    (few : ∀ frames ∈ taken (history ++ [event]), frames.length < 65536)
    (stepped : radar.step acc event = some (next, output)) :
    Accounts (history ++ [event]) next := by
  cases event with
  | frame bytes now =>
      rw [step_frame fair.1] at stepped
      cases stepped
      exact accounts.frame fair.1 fair.2
  | take now =>
      cases stepped
      exact accounts.take (few _ (by simp)) now

theorem accounts {history : List RadarEvent} {outputs : List (Option RadarWindow)} {acc : Acc}
    (fair : ∀ event ∈ history, Fair event)
    (few : ∀ frames ∈ taken history, frames.length < 65536)
    (ran : radar.run Acc.zero history = some (acc, outputs)) : Accounts history acc := by
  let invariant (history : List RadarEvent) (_ : List (Option RadarWindow)) (acc : Acc) : Prop :=
    (∀ frames ∈ taken history, frames.length < 65536) → Accounts history acc
  have preserved : ∀ history outputs acc event next output, invariant history outputs acc →
      Fair event → radar.step acc event = some (next, output) →
      invariant (history ++ [event]) (outputs ++ [output]) next := by
    intro history outputs acc event next output before fair stepped few
    have earlier := fun frames member => few frames ((taken_mono history [event]).subset member)
    exact (before earlier).step fair few stepped
  have start : invariant [] [] Acc.zero := fun _ => Accounts.start
  exact Machine.run_invariant preserved start (Machine.guarded_of_inputs fair _) ran few

/--
Under a positive, non-decreasing clock and with fewer than 65536 frames in
each window that is taken, every frame counts in one window, with the targets
of its list or else as its zones move, and every take summarises the frames
since the take before it.
-/
theorem radar_take_summarises {events : List RadarEvent} (clock : ∀ event ∈ events, 0 < event.now)
    (ordered : events.Pairwise fun first second => first.now ≤ second.now)
    (frames : ∀ bytes now, .frame bytes now ∈ events → ValidFrame bytes)
    (few : ∀ frames ∈ taken events, frames.length < 65536) :
    ∃ final outputs, radar.run Acc.zero events = some (final, outputs) ∧
      (taken events).flatten ++ window events = framesOf events ∧
      (∀ bytes ∈ framesOf events, Sees bytes (trackerIn bytes) (countIn bytes)) ∧
      ∀ history now rest, events = history ++ .take now :: rest →
        ∃ w, outputs[history.length]? = some (some w) ∧ Summarises history now w := by
  have fair : ∀ event ∈ events, Fair event := by
    intro event member
    cases event with
    | frame bytes now => exact ⟨frames bytes now member, clock _ member⟩
    | take now => trivial
  obtain ⟨final, outputs, ran⟩ := radar_defined frames
  refine ⟨final, outputs, ran, taken_partition events, fun bytes member => ?_, ?_⟩
  · obtain ⟨now, inside⟩ := mem_framesOf.mp member
    exact sees_in (frames bytes now inside)
  rintro history now rest rfl
  obtain ⟨acc, before, after, ranBefore, ranAfter, rfl⟩ := Machine.run_append_eq_some.mp ran
  obtain ⟨next, output, tail, stepped, _, rfl⟩ := Machine.run_cons_eq_some.mp ranAfter
  cases stepped
  have windows : taken (history ++ [.take now]) <+: taken (history ++ .take now :: rest) := by
    have grown := taken_mono (history ++ [.take now]) rest
    rwa [List.append_assoc] at grown
  have few_ : ∀ frames ∈ taken history ++ [window history], frames.length < 65536 := by
    rw [← taken_take history now]
    exact fun frames member => few frames (windows.subset member)
  have account := accounts (fun event member => fair event (List.mem_append_left _ member))
    (fun frames member => few_ frames (List.mem_append_left _ member)) ranBefore
  have earlier : ∀ event ∈ history, event.now ≤ now := fun event member =>
    (List.pairwise_append.mp ordered).2.2 event member (.take now) (List.mem_cons_self ..)
  refine ⟨(radarWindowTake acc now).2, ?_, account.summarises (few_ _ (by simp)) earlier⟩
  rw [← Machine.run_length ranBefore, List.getElem?_append_right (Nat.le_refl _), Nat.sub_self]
  rfl

def presenceFrame : List UInt8 :=
  tlvMagic ++ [0, 0, 0, 0] ++ [50, 0, 0, 0] ++ List.replicate 24 0 ++
    [0x3B, 0x01, 0, 0] ++ [2, 0, 0, 0] ++ [1, 2]

def streamDied : List RadarEvent := [.frame presenceFrame 1000, .take 31000, .take 61000]

theorem radar_take_summarises_died :
    ∃ final outputs, radar.run Acc.zero streamDied = some (final, outputs) ∧
      (taken streamDied).flatten ++ window streamDied = framesOf streamDied ∧
      (∀ bytes ∈ framesOf streamDied, Sees bytes (trackerIn bytes) (countIn bytes)) ∧
      ∀ history now rest, streamDied = history ++ .take now :: rest →
        ∃ w, outputs[history.length]? = some (some w) ∧ Summarises history now w :=
  radar_take_summarises (by simp [streamDied, RadarEvent.now])
    (by simp [streamDied, RadarEvent.now])
    (by
      intro bytes now member
      simp only [streamDied, List.mem_cons, RadarEvent.frame.injEq, reduceCtorEq, List.not_mem_nil,
        or_false] at member
      obtain ⟨rfl, rfl⟩ := member
      exact ⟨by decide, by decide, by decide, by decide⟩)
    (by decide)

end PresenceNode.Radar
