import PresenceNode.Library.Machine
import PresenceNode.Library.WorkQueue

/-!
# The advertising window of `ble.c`

The button interrupt, the callbacks of the stack, the expiry of the delayed
work and the system work queue take their steps in any order; `disconnected`
tests the window in one step and submits in another.  A press between the two
statements of `adv_off_fn` leaves what a press after them leaves.

Advertising is bounded as long as the closing work comes after every start.
It comes too early in two ways: the window expires before `disconnected`
submits the start, or it expires while the closing work of an earlier window
is still queued, in front of the start.
-/

namespace PresenceNode.Ble

open Library WorkQueue

inductive AdvWork where
  | on
  | off
  deriving DecidableEq

structure AdvState where
  /-- `adv_window_open` -/
  windowOpen : Bool
  /-- The controller advertises. -/
  advertising : Bool
  /-- The system work queue. -/
  queue : List AdvWork
  /-- `adv_off_work` is scheduled. -/
  offScheduled : Bool
  /-- `current_conn` is not null. -/
  connected : Bool
  /-- `disconnected` has found the window open, and has yet to submit. -/
  submitting : Bool
  deriving DecidableEq

def AdvState.started : AdvState := ⟨false, false, [], false, false, false⟩

inductive AdvEvent where
  /-- The button interrupt. -/
  | press
  /-- The delay of `adv_off_work` is over. -/
  | expire
  /-- The work queue runs the item at its head; `starts` is whether `bt_le_adv_start` can. -/
  | work (starts : Bool)
  /-- A central connects, which ends the advertising, and `connected` is called. -/
  | connected (err : UInt8)
  /-- `disconnected` up to its test of the window. -/
  | disconnected
  /-- The submission after a test that found the window open. -/
  | submit
  deriving DecidableEq

def bleAdvertiseWindow (state : AdvState) : AdvState :=
  { state with windowOpen := true, queue := submit state.queue .on, offScheduled := true }

/-- `adv_start`: it does nothing when the node advertises already. -/
def advStart (state : AdvState) (starts : Bool) : AdvState :=
  { state with advertising := state.advertising || starts }

def advOffFn (state : AdvState) : AdvState :=
  { state with windowOpen := false, advertising := false }

def runWork (state : AdvState) (starts : Bool) : AdvWork → AdvState
  | .on => advStart state starts
  | .off => advOffFn state

/-- A step that the state does not take is undefined. -/
def advertiser : Machine AdvState AdvEvent Unit where
  step state event :=
    match event with
    | .press => some (bleAdvertiseWindow state, ())
    | .expire =>
        if state.offScheduled then
          some ({ state with offScheduled := false, queue := submit state.queue .off }, ())
        else none
    | .work starts =>
        match state.queue with
        | [] => none
        | item :: rest => some (runWork { state with queue := rest } starts item, ())
    | .connected err =>
        some ({ state with advertising := false, connected := state.connected || err = 0 }, ())
    | .disconnected =>
        if state.connected ∧ ¬ state.submitting then
          some ({ state with connected := false, submitting := state.windowOpen }, ())
        else none
    | .submit =>
        if state.submitting then
          some ({ state with submitting := false, queue := submit state.queue .on }, ())
        else none

def InOrder (state : AdvState) : AdvEvent → Prop
  | .submit => state.offScheduled ∨ AdvWork.on ∈ state.queue
  | .expire => AdvWork.off ∈ state.queue → Answered .on .off state.queue
  | _ => True

instance (state : AdvState) (event : AdvEvent) : Decidable (InOrder state event) := by
  cases event <;> unfold InOrder <;> infer_instance

def Closing (state : AdvState) : Prop := state.offScheduled ∨ AdvWork.off ∈ state.queue

/-- Whatever is on, or is to be turned on, is turned off later. -/
structure Bounded (state : AdvState) : Prop where
  shown : state.advertising → Closing state
  starts : state.offScheduled ∨ Answered .on .off state.queue

theorem bounded_started : Bounded .started := ⟨nofun, .inr trivial⟩

/-! ## What a step does to the bound -/

namespace Bounded

variable {state : AdvState}

theorem press (state : AdvState) : Bounded (bleAdvertiseWindow state) where
  shown := fun _ => .inl rfl
  starts := .inl rfl

/-- The closing work goes behind every start when it is not queued in front of one. -/
theorem expire
    (inOrder : AdvWork.off ∈ state.queue → Answered .on .off state.queue) :
    Bounded { state with offScheduled := false, queue := submit state.queue .off } where
  shown := fun _ => .inr (mem_submit.mpr (.inr rfl))
  starts := .inr (answered_submit_last nofun inOrder)

theorem work (bounded : Bounded state) {item : AdvWork} {rest : List AdvWork} (starts : Bool)
    (head : state.queue = item :: rest) :
    Bounded (runWork { state with queue := rest } starts item) := by
  have later : state.offScheduled ∨ Answered .on .off rest := by
    rcases bounded.starts with scheduled | answered
    · exact .inl scheduled
    · rw [head] at answered
      exact .inr answered.2
  cases item with
  | on =>
      refine ⟨fun _ => ?_, later⟩
      -- The start that runs has its closing work behind it.
      rcases bounded.starts with scheduled | answered
      · exact .inl scheduled
      · rw [head] at answered
        exact .inr (answered.1 rfl)
  | off => exact ⟨nofun, later⟩

theorem connect (bounded : Bounded state) (connected : Bool) :
    Bounded { state with advertising := false, connected := connected } where
  shown := nofun
  starts := bounded.starts

theorem disconnect (bounded : Bounded state) (submitting : Bool) :
    Bounded { state with connected := false, submitting := submitting } where
  shown := bounded.shown
  starts := bounded.starts

theorem restart (bounded : Bounded state)
    (inOrder : state.offScheduled ∨ AdvWork.on ∈ state.queue) :
    Bounded { state with submitting := false, queue := submit state.queue .on } where
  shown := by
    intro advertising
    rcases bounded.shown advertising with scheduled | queued
    · exact .inl scheduled
    · exact .inr (mem_submit.mpr (.inl queued))
  starts := by
    rcases inOrder with scheduled | queued
    · exact .inl scheduled
    · have same : submit state.queue .on = state.queue := if_pos queued
      rw [same]
      exact bounded.starts

theorem step {next : AdvState} {event : AdvEvent} (bounded : Bounded state)
    (inOrder : InOrder state event) (stepped : advertiser.step state event = some (next, ())) :
    Bounded next := by
  cases event with
  | press =>
      cases stepped
      exact press state
  | expire =>
      simp only [advertiser] at stepped
      split at stepped
      · cases stepped
        exact expire inOrder
      · cases stepped
  | work starts =>
      simp only [advertiser] at stepped
      split at stepped
      · cases stepped
      · next item rest head =>
          cases stepped
          exact bounded.work starts head
  | connected err =>
      cases stepped
      exact bounded.connect _
  | disconnected =>
      simp only [advertiser] at stepped
      split at stepped
      · cases stepped
        exact bounded.disconnect _
      · cases stepped
  | submit =>
      simp only [advertiser] at stepped
      split at stepped
      · cases stepped
        exact bounded.restart inOrder
      · cases stepped

end Bounded

/-! ## Until the next press -/

/-- The window has closed: nothing is shown, and nothing waits to be turned on or off. -/
structure Closed (state : AdvState) : Prop where
  shown : state.advertising = false
  scheduled : state.offScheduled = false
  queue : state.queue = []

/-- Steps in order do not open the window again, unless one is a press. -/
theorem Closed.step {state next : AdvState} {event : AdvEvent} (closed : Closed state)
    (inOrder : InOrder state event) (other : event ≠ .press)
    (stepped : advertiser.step state event = some (next, ())) : Closed next := by
  obtain ⟨shown, scheduled, queue⟩ := closed
  cases event with
  | press => exact absurd rfl other
  | expire => simp [advertiser, scheduled] at stepped
  | work starts => simp [advertiser, queue] at stepped
  | connected err =>
      cases stepped
      exact ⟨rfl, scheduled, queue⟩
  | disconnected =>
      simp only [advertiser] at stepped
      split at stepped
      · cases stepped
        exact ⟨shown, scheduled, queue⟩
      · cases stepped
  | submit =>
      rcases inOrder with impossible | impossible
      · rw [scheduled] at impossible
        cases impossible
      · rw [queue] at impossible
        cases impossible

/--
The window bounds visibility in every run in which the closing work comes
after every start: while the node advertises its closing work is scheduled or
queued, and once none is left it does not advertise before the next press.
-/
theorem window_bounds_advertising {events : List AdvEvent} {state : AdvState}
    {outputs : List Unit} (inOrder : advertiser.Guarded InOrder .started events)
    (ran : advertiser.run .started events = some (state, outputs)) :
    (state.advertising → Closing state) ∧
      (state.offScheduled = false → state.queue = [] →
        ∀ later next more, AdvEvent.press ∉ later → advertiser.Guarded InOrder state later →
          advertiser.run state later = some (next, more) → next.advertising = false) := by
  have bounded : Bounded state := by
    have always : ∀ (history : List AdvEvent) (made : List Unit) (current : AdvState)
        (event : AdvEvent) (next : AdvState) (output : Unit), Bounded current →
        InOrder current event → advertiser.step current event = some (next, output) →
        Bounded next := fun _ _ _ _ _ _ before met stepped => before.step met stepped
    exact Machine.run_invariant always bounded_started inOrder ran
  refine ⟨bounded.shown, fun scheduled queue later next more quiet inOrderLater ranLater => ?_⟩
  have shown : state.advertising = false := by
    rw [Bool.eq_false_iff]
    intro advertising
    rcases bounded.shown advertising with impossible | impossible
    · rw [scheduled] at impossible
      cases impossible
    · rw [queue] at impossible
      cases impossible
  have each : ∀ event ∈ later, event ≠ AdvEvent.press :=
    fun event member same => quiet (same ▸ member)
  have unpressed : advertiser.Guarded (fun _ event => event ≠ .press) state later :=
    Machine.guarded_of_inputs each state
  have both : advertiser.Guarded (fun current event => InOrder current event ∧ event ≠ .press)
      state later := inOrderLater.imp (fun _ _ first second => ⟨first, second⟩) unpressed
  have always : ∀ (history : List AdvEvent) (made : List Unit) (current : AdvState)
      (event : AdvEvent) (next : AdvState) (output : Unit), Closed current →
      (InOrder current event ∧ event ≠ .press) →
      advertiser.step current event = some (next, output) → Closed next :=
    fun _ _ _ _ _ _ before met stepped => before.step met.1 met.2 stepped
  have closed : Closed next := Machine.run_invariant always ⟨shown, scheduled, queue⟩ both ranLater
  exact closed.shown

theorem window_bounds_session :
    ∃ state outputs,
      advertiser.run .started
          [.press, .work true, .connected 0, .disconnected, .submit, .work true, .expire, .work true] =
        some (state, outputs) ∧
      (state.advertising → Closing state) ∧
      (state.offScheduled = false → state.queue = [] →
        ∀ later next more, AdvEvent.press ∉ later → advertiser.Guarded InOrder state later →
          advertiser.run state later = some (next, more) → next.advertising = false) := by
  have inOrder : advertiser.Guarded InOrder .started
      [.press, .work true, .connected 0, .disconnected, .submit, .work true, .expire,
        .work true] := by
    repeat
      first
        | exact trivial
        | refine Machine.guarded_cons (by decide) rfl ?_
  exact ⟨_, _, rfl, window_bounds_advertising inOrder rfl⟩

/--
A central disconnects when the window has just expired: the closing work is
queued, the window is still marked open, and the start is queued behind it.
-/
theorem window_outlived :
    ¬ ∀ (events : List AdvEvent) (state : AdvState) (outputs : List Unit),
      advertiser.run .started events = some (state, outputs) →
        (state.advertising → Closing state) := by
  intro claimed
  have ran : advertiser.run .started [.press, .work true, .connected 0, .expire, .disconnected,
      .submit, .work true, .work true] =
      some (⟨false, true, [], false, false, false⟩, List.replicate 8 ()) := by decide
  have closing := claimed _ _ _ ran rfl
  exact absurd closing (by rintro (scheduled | queued) <;> contradiction)

/-! ## Out of order -/

/-- Queued starts without closing work behind them leave the node advertising. -/
theorem works_on {state : AdvState} (unanswered : ¬ Answered .on .off state.queue)
    (unscheduled : state.offScheduled = false) :
    ∃ later final outputs, AdvEvent.press ∉ later ∧
      advertiser.run state later = some (final, outputs) ∧ final.advertising = true ∧
        ¬ Closing final := by
  induction length : state.queue generalizing state with
  | nil =>
      rw [length] at unanswered
      exact absurd trivial unanswered
  | cons item rest ih =>
      rw [length] at unanswered
      have stepped : advertiser.step state (.work true) =
          some (runWork { state with queue := rest } true item, ()) := by
        simp [advertiser, length]
      by_cases answered : Answered .on .off rest
      · -- The item is a start with nothing behind it that closes.
        have alone : ¬ (item = .on → AdvWork.off ∈ rest) := fun held => unanswered ⟨held, answered⟩
        obtain ⟨rfl, absent⟩ := Classical.not_imp.mp alone
        refine ⟨[.work true], _, [()], by decide, Machine.run_cons stepped rfl, Bool.or_true _, ?_⟩
        rintro (scheduled | queued)
        · exact absurd (unscheduled.symm.trans scheduled) nofun
        · exact absent queued
      · have queue : (runWork { state with queue := rest } true item).queue = rest := by
          cases item <;> rfl
        have still : (runWork { state with queue := rest } true item).offScheduled = false := by
          cases item <;> exact unscheduled
        obtain ⟨later, final, outputs, quiet, ran, shown⟩ :=
          @ih (runWork { state with queue := rest } true item) (by rw [queue]; exact answered)
            still queue
        exact ⟨.work true :: later, final, () :: outputs, by simp [quiet],
          Machine.run_cons stepped ran, shown⟩

/-- Wherever a step is out of order, the work that is queued leaves the node advertising. -/
theorem out_of_order_shows {state next : AdvState} {event : AdvEvent}
    (misplaced : ¬ InOrder state event) (stepped : advertiser.step state event = some (next, ())) :
    ∃ later final outputs, AdvEvent.press ∉ later ∧
      advertiser.run next later = some (final, outputs) ∧ final.advertising = true ∧
        ¬ Closing final := by
  cases event with
  | press => exact absurd trivial misplaced
  | expire =>
      obtain ⟨queued, unanswered⟩ := Classical.not_imp.mp misplaced
      have same : submit state.queue .off = state.queue := if_pos queued
      simp only [advertiser] at stepped
      split at stepped
      · cases stepped
        exact works_on (by rw [same]; exact unanswered) rfl
      · cases stepped
  | work starts => exact absurd trivial misplaced
  | connected err => exact absurd trivial misplaced
  | disconnected => exact absurd trivial misplaced
  | submit =>
      obtain ⟨unscheduled, absent⟩ := not_or.mp misplaced
      have appended : submit state.queue .on = state.queue ++ [.on] := if_neg absent
      simp only [advertiser] at stepped
      split at stepped
      · cases stepped
        exact works_on (by rw [appended]; exact not_answered_concat_first _)
          (Bool.eq_false_iff.mpr unscheduled)
      · cases stepped

end PresenceNode.Ble
