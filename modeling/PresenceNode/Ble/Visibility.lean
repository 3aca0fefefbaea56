import PresenceNode.Ble.Advertise

/-!
# Visible while the window is open

A central that connects ends the advertising, so `disconnected` starts it again
while the window is open.  In every interleaving the node is then on the air,
or connected, or a start of the advertising is on its way, from a press until
the closing work runs.  This needs that a start which is neither late nor
blocked by a connection succeeds, and that a central that connects is accepted.
-/

namespace PresenceNode.Ble

open Library WorkQueue

def Served (state : AdvState) : AdvEvent → Prop
  | .work starts =>
      state.queue.head? = some .on →
        state.advertising = true ∨ state.connected = true ∨ starts = true
  | .connected err => err = 0
  | _ => True

def workRun (state : AdvState) : AdvEvent → Option AdvWork
  | .work _ => state.queue.head?
  | _ => none

def worked (state : AdvState) (events : List AdvEvent) : List AdvWork :=
  advertiser.gather workRun state events

/-- The node can be seen or is connected, or a start is on its way. -/
def Lit (state : AdvState) : Prop :=
  state.advertising = true ∨ state.connected = true ∨ state.submitting = true ∨
    AdvWork.on ∈ state.queue

def Attended (state : AdvState) : Prop := state.windowOpen = true → Lit state

/-! ## One step -/

theorem attended_press (state : AdvState) : Attended (bleAdvertiseWindow state) :=
  fun _ => .inr (.inr (.inr (mem_submit.mpr (.inr rfl))))

theorem attended_work {state : AdvState} {item : AdvWork} {rest : List AdvWork} {starts : Bool}
    (head : state.queue = item :: rest) (served : Served state (.work starts)) :
    Attended (runWork { state with queue := rest } starts item) := by
  cases item with
  | on =>
      intro _
      rcases served (by rw [head, List.head?_cons]) with shown | connected | started
      · exact .inl (by simp [runWork, advStart, shown])
      · exact .inr (.inl connected)
      · exact .inl (by simp [runWork, advStart, started])
  | off => exact nofun

theorem Attended.step {state next : AdvState} {event : AdvEvent} (attended : Attended state)
    (served : Served state event) (stepped : advertiser.step state event = some (next, ())) :
    Attended next := by
  cases event with
  | press =>
      cases stepped
      exact attended_press state
  | expire =>
      simp only [advertiser] at stepped
      split at stepped
      · cases stepped
        intro opened
        exact (attended opened).imp id (Or.imp id (Or.imp id (mem_submit.mpr ∘ .inl)))
      · cases stepped
  | work starts =>
      simp only [advertiser] at stepped
      split at stepped
      · cases stepped
      · next item rest head =>
          cases stepped
          exact attended_work head served
  | connected err =>
      cases stepped
      exact fun _ => .inr (.inl (by simp [show err = 0 from served]))
  | disconnected =>
      simp only [advertiser] at stepped
      split at stepped
      · cases stepped
        exact fun opened => .inr (.inr (.inl opened))
      · cases stepped
  | submit =>
      simp only [advertiser] at stepped
      split at stepped
      · cases stepped
        exact fun _ => .inr (.inr (.inr (mem_submit.mpr (.inr rfl))))
      · cases stepped

/-- A step that is no press leaves an open window open, unless it runs the closing work. -/
theorem windowOpen_step {state next : AdvState} {event : AdvEvent} (other : event ≠ .press)
    (stepped : advertiser.step state event = some (next, ())) :
    next.windowOpen = true ↔ state.windowOpen = true ∧ workRun state event ≠ some .off := by
  cases event with
  | press => exact absurd rfl other
  | work starts =>
      simp only [advertiser] at stepped
      split at stepped
      · cases stepped
      · next item rest head =>
          cases stepped
          cases item <;> simp [runWork, advStart, advOffFn, workRun, head]
  | connected err =>
      cases stepped
      simp [workRun]
  | _ =>
      simp only [advertiser] at stepped
      split at stepped
      · cases stepped
        simp [workRun]
      · cases stepped

/-! ## Runs -/

/-- Without a press the window stays open exactly until the closing work runs. -/
theorem windowOpen_run {state final : AdvState} {events : List AdvEvent} {outputs : List Unit}
    (quiet : AdvEvent.press ∉ events)
    (ran : advertiser.run state events = some (final, outputs)) :
    final.windowOpen = true ↔ state.windowOpen = true ∧ AdvWork.off ∉ worked state events := by
  induction events generalizing state outputs with
  | nil =>
      cases ran
      simp [worked, Machine.gather]
  | cons event rest ih =>
      obtain ⟨next, output, tail, stepped, ranRest, rfl⟩ := Machine.run_cons_eq_some.mp ran
      obtain ⟨other, others⟩ := not_or.mp (fun member => quiet (List.mem_cons.mpr member))
      have here := windowOpen_step (Ne.symm other) stepped
      rw [ih others ranRest, here, and_assoc]
      refine and_congr_right fun _ => ?_
      rw [worked, worked, Machine.gather_cons stepped, List.mem_append, not_or]
      exact and_congr_left fun _ => (not_congr Option.mem_toList).symm

theorem starts_show {state : AdvState} (opened : state.windowOpen = true)
    (starts : AdvWork.off ∉ state.queue)
    (lit : state.advertising = true ∨ state.connected = true ∨ AdvWork.on ∈ state.queue) :
    ∃ final outputs, advertiser.run state (List.replicate state.queue.length (.work true)) =
        some (final, outputs) ∧ final.windowOpen = true ∧ final.queue = [] ∧
      (final.advertising = true ∨ final.connected = true) := by
  induction waiting : state.queue generalizing state with
  | nil =>
      rw [waiting] at lit
      refine ⟨state, [], rfl, opened, waiting, ?_⟩
      exact lit.imp id (Or.rec id fun queued => absurd queued List.not_mem_nil)
  | cons item rest ih =>
      rw [waiting] at starts
      obtain ⟨other, others⟩ := not_or.mp (fun member => starts (List.mem_cons.mpr member))
      cases item with
      | off => exact absurd rfl other
      | on =>
          have stepped : advertiser.step state (.work true) =
              some (advStart { state with queue := rest } true, ()) := by
            simp [advertiser, waiting, runWork]
          have shown : (advStart { state with queue := rest } true).advertising = true :=
            Bool.or_true _
          obtain ⟨final, outputs, ran, stays⟩ := @ih
            (advStart { state with queue := rest } true) opened others (.inl shown) rfl
          exact ⟨final, () :: outputs, Machine.run_cons stepped ran, stays⟩

/-- When nothing is queued that closes it, what is on its way makes an open window visible. -/
theorem open_shows {state : AdvState} (opened : state.windowOpen = true) (lit : Lit state)
    (starts : AdvWork.off ∉ state.queue) :
    ∃ later final made, (∀ event ∈ later, event = .submit ∨ event = .work true) ∧
      advertiser.run state later = some (final, made) ∧ final.windowOpen = true ∧
      final.queue = [] ∧ (final.advertising = true ∨ final.connected = true) := by
  by_cases submitting : state.submitting = true
  · -- The submission comes first, and puts a start behind what is queued.
    have submitted : advertiser.step state .submit =
        some ({ state with submitting := false, queue := submit state.queue .on }, ()) := by
      simp [advertiser, submitting]
    have unclosed : AdvWork.off ∉ submit state.queue .on := by
      intro member
      obtain queued | same := mem_submit.mp member
      · exact starts queued
      · cases same
    obtain ⟨final, made, ran, stays⟩ := @starts_show
      { state with submitting := false, queue := submit state.queue .on } opened unclosed
      (.inr (.inr (mem_submit.mpr (.inr rfl))))
    refine ⟨.submit :: List.replicate _ (.work true), final, () :: made, ?_,
      Machine.run_cons submitted ran, stays⟩
    simp
  · obtain ⟨final, made, ran, stays⟩ := starts_show opened starts
      (lit.imp id (Or.imp id (Or.rec (fun held => absurd held submitting) id)))
    exact ⟨_, final, made, fun event member => .inr (List.eq_of_mem_replicate member), ran, stays⟩

/--
From a press on the window is open exactly until the closing work runs.  As
long as it is, the node can be seen or is connected or a start is on its way,
and when no closing work is queued, what is on its way makes it visible.
-/
theorem window_keeps_visible (start : AdvState) {events : List AdvEvent} {state : AdvState}
    {outputs : List Unit} (quiet : AdvEvent.press ∉ events)
    (served : advertiser.Guarded Served start (.press :: events))
    (ran : advertiser.run start (.press :: events) = some (state, outputs)) :
    (state.windowOpen = true ↔ AdvWork.off ∉ worked start (.press :: events)) ∧
      (state.windowOpen = true → Lit state ∧ (AdvWork.off ∉ state.queue →
        ∃ later final made, (∀ event ∈ later, event = .submit ∨ event = .work true) ∧
          advertiser.run state later = some (final, made) ∧ final.windowOpen = true ∧
          final.queue = [] ∧ (final.advertising = true ∨ final.connected = true))) := by
  obtain ⟨pressed, _, tail, stepped, ranRest, _⟩ := Machine.run_cons_eq_some.mp ran
  cases stepped
  have always : ∀ (history : List AdvEvent) (made : List Unit) (current : AdvState)
      (event : AdvEvent) (next : AdvState) (output : Unit), Attended current →
      Served current event → advertiser.step current event = some (next, output) →
      Attended next := fun _ _ _ _ _ _ before met taken => before.step met taken
  have attended : Attended state := Machine.run_invariant always (attended_press start)
    (served.2 _ () rfl) ranRest
  constructor
  · rw [windowOpen_run quiet ranRest, worked, worked,
      @Machine.gather_cons _ _ _ _ advertiser workRun start _ .press () rfl]
    exact and_iff_right rfl
  · intro opened
    exact ⟨attended opened, open_shows opened (attended opened)⟩

/-- A central connects and leaves inside the window. -/
theorem window_keeps_visible_session :
    ∃ state outputs, advertiser.run .started
        (.press :: [.work true, .connected 0, .disconnected]) = some (state, outputs) ∧
      state.advertising = false ∧ state.connected = false ∧
      (state.windowOpen = true → Lit state ∧ (AdvWork.off ∉ state.queue →
        ∃ later final made, (∀ event ∈ later, event = .submit ∨ event = .work true) ∧
          advertiser.run state later = some (final, made) ∧ final.windowOpen = true ∧
          final.queue = [] ∧ (final.advertising = true ∨ final.connected = true))) := by
  refine ⟨_, _, rfl, rfl, rfl, ?_⟩
  refine (@window_keeps_visible .started [.work true, .connected 0, .disconnected] _ _
    (by decide) ?_ rfl).2
  refine Machine.guarded_cons trivial rfl (Machine.guarded_cons (fun _ => .inr (.inr rfl)) rfl
    (Machine.guarded_cons rfl rfl ⟨trivial, fun _ _ _ => trivial⟩))

end PresenceNode.Ble
