import PresenceNode.Main.Flush

/-!
# Faults of the air sensor

A window is alive when one of its samples was good and the check of the status
register found nothing.  The check says nothing when the register cannot be
read, and the window stays alive then.
-/

namespace PresenceNode.Sen5x

open Library PresenceNode.Frame Radar Main

/-- The exchanges of the polls since the last window was taken. -/
def pollsOf (history : List Sen5xEvent) : List Exchange :=
  history.foldl (fun polls event =>
    match event with
    | .poll x => polls ++ [x]
    | .take _ => []) []

@[simp] theorem pollsOf_poll (history : List Sen5xEvent) (x : Exchange) :
    pollsOf (history ++ [.poll x]) = pollsOf history ++ [x] := by
  simp [pollsOf]

@[simp] theorem pollsOf_take (history : List Sen5xEvent) (x : Exchange) :
    pollsOf (history ++ [.take x]) = [] := by
  simp [pollsOf]

def Measured (history : List Sen5xEvent) : Prop :=
  ∃ x ∈ pollsOf history, ∃ w, readWords x 8 = .ok w

def StatusRead (x : Exchange) : Prop := ∃ st, readWords x 2 = .ok st

def StatusClear (x : Exchange) : Prop :=
  ∃ st, readWords x 2 = .ok st ∧
    statusOf st &&& ((1 : UInt32) <<< 4) = 0 ∧ statusOf st &&& ((1 : UInt32) <<< 5) = 0

theorem StatusClear.read {x : Exchange} (clear : StatusClear x) : StatusRead x := by
  obtain ⟨st, found, _⟩ := clear
  exact ⟨st, found⟩

/-- The mask of the fatal bits misses a status exactly when both bits are clear. -/
theorem statusFatal_clear (status : UInt32) :
    status &&& statusFatal = 0 ↔
      status &&& ((1 : UInt32) <<< 4) = 0 ∧ status &&& ((1 : UInt32) <<< 5) = 0 := by
  have split : status &&& statusFatal =
      (status &&& ((1 : UInt32) <<< 4)) ||| (status &&& ((1 : UInt32) <<< 5)) :=
    UInt32.toBitVec_inj.mp BitVec.and_or_distrib_left
  rw [split, UInt32.or_eq_zero_iff]

/-! ## One step -/

theorem sen5xStart_ok {boot started : Sen5xStatics} {ready : Bool} {answer : Int}
    (start : sen5xStart boot ready answer = (started, 0)) :
    started = { running := true, acc := accReset } := by
  unfold sen5xStart at start
  split at start
  · cases start
  · split at start
    · next refused =>
        cases start
        exact absurd rfl refused
    · cases start
      rfl

theorem sen5xPoll_cases {s : Sen5xStatics} (running : s.running = true) (x : Exchange) :
    (∃ w, readWords x 8 = .ok w ∧ sen5xPoll s x = { s with acc := foldSample s.acc w }) ∨
      (¬ ∃ w, readWords x 8 = .ok w) ∧ sen5xPoll s x = s := by
  have on : ¬ s.running = false := by simp [running]
  unfold sen5xPoll
  rw [if_neg on]
  cases found : readWords x 8 with
  | ok w => exact .inl ⟨w, rfl, rfl⟩
  | error err => exact .inr ⟨nofun, rfl⟩

theorem checkStatus_alive {acc : Sen5xWindow} {x : Exchange} :
    (checkStatus acc x).alive = true ↔ acc.alive = true ∧ (StatusRead x → StatusClear x) := by
  unfold checkStatus
  cases good : acc.alive with
  | false => simp [good]
  | true =>
      rw [if_pos rfl]
      cases found : readWords x 2 with
      | error err =>
          refine ⟨fun _ => ⟨rfl, ?_⟩, fun _ => good⟩
          rintro ⟨st, impossible⟩
          rw [found] at impossible
          cases impossible
      | ok st =>
          have clear : StatusClear x ↔ statusOf st &&& statusFatal = 0 := by
            rw [statusFatal_clear]
            constructor
            · rintro ⟨other, same, bits⟩
              rw [found] at same
              cases same
              exact bits
            · exact fun bits => ⟨st, found, bits⟩
          by_cases fatal : statusOf st &&& statusFatal = 0
          · simp only [fatal, ne_eq, not_true_eq_false, if_false]
            exact ⟨fun _ => ⟨trivial, fun _ => clear.mpr fatal⟩, fun _ => good⟩
          · simp only [ne_eq, fatal, not_false_eq_true, if_true]
            exact ⟨nofun, fun way => absurd (clear.mp (way.2 ⟨st, found⟩)) fatal⟩

/-! ## Runs -/

/-- The statics against the polls since the last window was taken. -/
structure Sampled (history : List Sen5xEvent) (s : Sen5xStatics) : Prop where
  running : s.running = true
  alive : s.acc.alive = true ↔ Measured history

theorem measured_poll (history : List Sen5xEvent) (x : Exchange) :
    Measured (history ++ [.poll x]) ↔ Measured history ∨ ∃ w, readWords x 8 = .ok w := by
  simp only [Measured, pollsOf_poll, List.mem_append, List.mem_singleton]
  constructor
  · rintro ⟨other, earlier | rfl, good⟩
    · exact .inl ⟨other, earlier, good⟩
    · exact .inr good
  · rintro (⟨other, earlier, good⟩ | good)
    · exact ⟨other, .inl earlier, good⟩
    · exact ⟨x, .inr rfl, good⟩

theorem not_measured_take (history : List Sen5xEvent) (x : Exchange) :
    ¬ Measured (history ++ [.take x]) := by
  rintro ⟨other, member, _⟩
  rw [pollsOf_take] at member
  cases member

theorem Sampled.step {history : List Sen5xEvent} {s next : Sen5xStatics} {event : Sen5xEvent}
    {output : Option Sen5xWindow} (sampled : Sampled history s)
    (stepped : sen5x.step s event = some (next, output)) :
    Sampled (history ++ [event]) next := by
  cases event with
  | poll x =>
      obtain rfl : sen5xPoll s x = next := congrArg Prod.fst (Option.some.inj stepped)
      rcases sen5xPoll_cases sampled.running x with ⟨w, good, result⟩ | ⟨bad, result⟩
      · rw [result]
        exact ⟨sampled.running, fun _ => (measured_poll history x).mpr (.inr ⟨w, good⟩),
          fun _ => rfl⟩
      · rw [result]
        refine ⟨sampled.running, ?_⟩
        rw [measured_poll, sampled.alive]
        exact ⟨.inl, fun way => way.resolve_right bad⟩
  | take x =>
      obtain rfl : (sen5xWindowTake s x).1 = next := congrArg Prod.fst (Option.some.inj stepped)
      refine ⟨sampled.running, nofun, ?_⟩
      exact fun measured => absurd measured (not_measured_take history x)

theorem sen5x_sampled {final : Sen5xStatics} {events : List Sen5xEvent}
    {outputs : List (Option Sen5xWindow)}
    (ran : sen5x.run { running := true, acc := accReset } events = some (final, outputs)) :
    Sampled events final := by
  have start : Sampled [] { running := true, acc := accReset } := by
    refine ⟨rfl, nofun, ?_⟩
    rintro ⟨x, member, _⟩
    cases member
  have preserved : ∀ history (outputs : List (Option Sen5xWindow)) s event next output,
      Sampled history s → sen5x.step s event = some (next, output) →
      Sampled (history ++ [event]) next :=
    fun _ _ _ _ _ _ sampled stepped => sampled.step stepped
  exact Machine.run_invariant_unguarded preserved start ran

/--
When a fault of the fan or the laser is reported.  A window that is handed over
alive was measured and its status register was clear, exactly if the register
could be read whenever the window was measured; the record says what the
window says.
-/
theorem fault_reported_iff {boot started final : Sen5xStatics} {ready : Bool} {answer : Int}
    (start : sen5xStart boot ready answer = (started, 0)) {history : List Sen5xEvent}
    {x : Exchange} {outputs : List (Option Sen5xWindow)} {window : Sen5xWindow}
    (ran : sen5x.run started (history ++ [.take x]) = some (final, outputs ++ [some window])) :
    (∀ seen, windowFlags seen window &&& sntlFlagAqFault = 0 ↔ window.alive = true) ∧
      ((window.alive = true → Measured history ∧ StatusClear x) ↔
        (Measured history → StatusRead x)) := by
  refine ⟨fun seen => windowFlags_aqFault seen window, ?_⟩
  obtain rfl := sen5xStart_ok start
  obtain ⟨s, before, after, ranHistory, ranTake, both⟩ := Machine.run_append_eq_some.mp ran
  obtain ⟨next, output, tail, stepped, ranNothing, rfl⟩ := Machine.run_cons_eq_some.mp ranTake
  cases ranNothing
  have last : [some window] = [output] := List.append_inj_right' both rfl
  obtain rfl : some window = output := (List.cons.inj last).1
  obtain rfl : checkStatus s.acc x = window :=
    Option.some.inj (congrArg Prod.snd (Option.some.inj stepped))
  rw [checkStatus_alive, (sen5x_sampled ranHistory).alive]
  constructor
  · intro reported measured
    by_contra unread
    exact unread (reported ⟨measured, fun read => absurd read unread⟩).2.read
  · intro reads way
    exact ⟨way.1, way.2 (reads way.1)⟩

def zeroWords : Exchange := ⟨0, 0, fun i => if i % 3 = 2 then 0x81 else 0⟩

def unanswered : Exchange := ⟨eio, 0, fun _ => 0⟩

def Sen5xStatics.zero : Sen5xStatics := ⟨false, ⟨0, 0, 0, 0, 0, false⟩⟩

theorem zeroWords_read (words : Nat) :
    readWords zeroWords words = .ok (Vector.ofFn fun i => zeroWords.word i) := by
  have fits : ∀ i < words, zeroWords.fits i := by
    intro i _
    have checksum : crc8 0 0 = 0x81 := by decide +kernel
    simpa [Exchange.fits, zeroWords] using checksum
  rw [readWords, if_neg (by decide), if_neg (by decide), if_pos fits]

theorem fault_reported_iff_read :
    ∃ started final window, sen5xStart Sen5xStatics.zero true 0 = (started, 0) ∧
      sen5x.run started [.poll zeroWords, .take zeroWords] =
        some (final, [none, some window]) ∧
      (window.alive = true → Measured [.poll zeroWords] ∧ StatusClear zeroWords) := by
  refine ⟨_, _, _, rfl, rfl, ?_⟩
  have start : sen5xStart Sen5xStatics.zero true 0 = (⟨true, accReset⟩, 0) := rfl
  exact (@fault_reported_iff _ _ _ _ _ start [.poll zeroWords] zeroWords [none] _ rfl).2.mpr
    fun _ => ⟨_, zeroWords_read 2⟩

/-- The command for the status register is not acknowledged, and the window stays alive. -/
theorem fault_unreported :
    ∃ started final window, sen5xStart Sen5xStatics.zero true 0 = (started, 0) ∧
      sen5x.run started [.poll zeroWords, .take unanswered] =
        some (final, [none, some window]) ∧
      window.alive = true ∧ (∀ seen, windowFlags seen window &&& sntlFlagAqFault = 0) ∧
      ¬ (Measured [.poll zeroWords] ∧ StatusClear unanswered) := by
  obtain ⟨w, read⟩ : ∃ w, readWords zeroWords 8 = .ok w := ⟨_, zeroWords_read 8⟩
  have polled : sen5xPoll ⟨true, accReset⟩ zeroWords = ⟨true, foldSample accReset w⟩ := by
    rw [sen5xPoll, if_neg (by decide), read]
  have alive : (checkStatus (foldSample accReset w) unanswered).alive = true :=
    checkStatus_alive.mpr ⟨rfl, fun ⟨_, impossible⟩ => nomatch impossible⟩
  have first : sen5x.step ⟨true, accReset⟩ (.poll zeroWords) =
      some (⟨true, foldSample accReset w⟩, none) := by
    rw [← polled]
    rfl
  refine ⟨⟨true, accReset⟩, ⟨true, accReset⟩, _, rfl, Machine.run_cons first rfl, alive,
    fun seen => (windowFlags_aqFault seen _).mpr alive, ?_⟩
  rintro ⟨_, st, impossible, _⟩
  cases impossible

end PresenceNode.Sen5x
