import PresenceNode.Main.Account
import PresenceNode.Radar.Session

/-!
# The board

The node beside its link to the radar, from a boot on.  The interrupt handler,
the radar thread and `main` take turns as they like, and the radar thread may
be held up between two frames of a chunk.  Every frame that it handles goes
into one window, and every window into one record.
-/

namespace PresenceNode.Main

open Library Library.Deframer Library.Pattern Flash PresenceNode.Frame Radar Sen5x Store Tlv

/-! ## A record for every window -/

/-- The record that a step of the node hands to `store_append`. -/
def handedIn (s : Node) : NodeEvent → Option SntlRecord
  | .append _ _ _ =>
      match s.main with
      | .append record => some record
      | _ => none
  | _ => none

/-- The windows that `main` has taken and not handed on yet. -/
def MainAt.pending : MainAt → Nat
  | .takeAir _ => 1
  | .append _ => 1
  | _ => 0

/-- The record is that of the window with the number, as `radar_window_take` summed it up. -/
def Tells (events : List RadarEvent) (number : Nat) (record : SntlRecord) : Prop :=
  ∃ before now after w aq, events = before ++ .take now :: after ∧ (taken before).length = number ∧
    Summarises before now w ∧ record = windowRecord w aq

theorem Tells.more {events : List RadarEvent} {number : Nat} {record : SntlRecord}
    (tells : Tells events number record) (more : List RadarEvent) :
    Tells (events ++ more) number record := by
  obtain ⟨before, now, after, w, aq, rfl, count, summarises, same⟩ := tells
  exact ⟨before, now, after ++ more, w, aq, by simp, count, summarises, same⟩

theorem taken_frames {events later : List RadarEvent}
    (frames : ∀ event ∈ later, ∃ bytes now, event = .frame bytes now) :
    taken (events ++ later) = taken events := by
  induction later using List.reverseRecOn with
  | nil => rw [List.append_nil]
  | append_singleton later event ih =>
      obtain ⟨bytes, now, rfl⟩ := frames event (by simp)
      rw [← List.append_assoc, taken_frame]
      exact ih fun other member => frames other (List.mem_append_left _ member)

theorem radarSince_append (history later : List NodeEvent) :
    radarSince (history ++ later) = later.foldl radarAfter (radarSince history) :=
  List.foldl_append

/-- What goes on beside `main` gives the radar's history frames alone. -/
theorem AllAside.frames {later : List NodeEvent} (aside : AllAside later)
    (events : List RadarEvent) :
    ∃ frames, later.foldl radarAfter events = events ++ frames ∧
      ∀ event ∈ frames, ∃ bytes now, event = .frame bytes now := by
  induction later generalizing events with
  | nil => exact ⟨[], (List.append_nil _).symm, nofun⟩
  | cons event rest ih =>
      have asideRest : AllAside rest := fun other member => aside other (List.mem_cons_of_mem _ member)
      have here := aside event (List.mem_cons_self ..)
      cases event with
      | frame bytes now =>
          obtain ⟨frames, same, all⟩ := ih asideRest (events ++ [.frame bytes now])
          refine ⟨.frame bytes now :: frames, by simpa [radarAfter] using same, ?_⟩
          exact List.forall_mem_cons.mpr ⟨⟨bytes, now, rfl⟩, all⟩
      | get seq => exact ih asideRest events
      | _ => exact here.elim

/-- The record at a flush is that of the window taken last. -/
theorem Recounts.tells {history : List NodeEvent} {record : SntlRecord}
    (recounts : Recounts history record) {number : Nat}
    (count : (taken (radarSince history)).length = number + 1) :
    Tells (radarSince history) number record := by
  obtain ⟨_, x, after, w, aq, rfl, asideAfter, took, _, same⟩ := recounts
  obtain ⟨before, now, between, rfl, asideBetween, summarises⟩ := took
  obtain ⟨frames, split, plain⟩ := asideBetween.frames (radarSince before ++ [.take now])
  obtain ⟨others, splitAfter, plainAfter⟩ :=
    asideAfter.frames (radarSince before ++ [.take now] ++ frames)
  have events : radarSince (before ++ .takeRadar now :: between ++ .takeAir x :: after) =
      radarSince before ++ [.take now] ++ (frames ++ others) := by
    rw [List.append_assoc, radarSince_append, List.cons_append, List.foldl_cons, List.foldl_append]
    change after.foldl radarAfter (between.foldl radarAfter (radarSince before ++ [.take now])) = _
    rw [split, splitAfter, List.append_assoc]
  rw [events] at count ⊢
  rw [taken_frames fun event member => (List.mem_append.mp member).elim (plain event)
    (plainAfter event), taken_take, List.length_append, List.length_singleton] at count
  exact ⟨radarSince before, now, frames ++ others, w, aq, by simp, Nat.succ.inj count, summarises,
    same⟩

/-- The windows that were taken, against the records that were handed on. -/
structure Told (history : List NodeEvent) (handed : List SntlRecord) (s : Node) : Prop where
  kept : Kept history s
  count : (taken (radarSince history)).length = handed.length + s.main.pending
  each : ∀ (number : Nat) record, handed[number]? = some record →
    Tells (radarSince history) number record

theorem Told.on {history : List NodeEvent} {handed : List SntlRecord} {s next : Node}
    {event : NodeEvent} (told : Told history handed s) (kept : Kept (history ++ [event]) next)
    (quiet : handedIn s event = none) (more : List RadarEvent)
    (events : radarSince (history ++ [event]) = radarSince history ++ more)
    (count : (taken (radarSince history ++ more)).length = handed.length + next.main.pending) :
    Told (history ++ [event]) (handed ++ (handedIn s event).toList) next := by
  rw [quiet, Option.toList_none, List.append_nil]
  refine ⟨kept, by rw [events, count], fun number record found => ?_⟩
  rw [events]
  exact (told.each number record found).more more

theorem Told.step {history : List NodeEvent} {handed : List SntlRecord} {s next : Node}
    {event : NodeEvent} {output : Option DeviceOutput} (told : Told history handed s)
    (regular : Regular (history ++ [event])) (goes : ∀ verdicts, event ≠ .boot verdicts)
    (step : NodeStep s event next output) :
    Told (history ++ [event]) (handed ++ (handedIn s event).toList) next := by
  have kept := told.kept.step regular step
  have count := told.count
  -- All steps but those of a flush leave the history of the radar, or add a frame to it.
  have still (quiet : handedIn s event = none)
      (same : radarSince (history ++ [event]) = radarSince history)
      (pending : next.main.pending = s.main.pending) :
      Told (history ++ [event]) (handed ++ (handedIn s event).toList) next :=
    told.on kept quiet [] (by rw [same, List.append_nil]) (by rw [List.append_nil, count, pending])
  cases step with
  | boot verdicts => exact absurd rfl (goes verdicts)
  | startAir ready answer lit here => exact still rfl (radarSince_concat _ _) (by rw [here]; rfl)
  | poll x lit here =>
      refine still rfl (radarSince_concat _ _) ?_
      rcases pollTurn_cases s x with ⟨_, turn⟩ | ⟨_, turn⟩ <;> rw [turn]
      rw [here]
      rfl
  | frame lit handled =>
      refine told.on kept rfl _ (radarSince_concat _ _) ?_
      rw [taken_frame, count]
  | takeRadar now lit here =>
      refine told.on kept rfl _ (radarSince_concat _ _) ?_
      rw [taken_take, List.length_append, count, here]
      rfl
  | takeAir x lit here => exact still rfl (radarSince_concat _ _) (by rw [here]; rfl)
  | @append ram record uptime slot counter lit here =>
      have reached := told.kept.reached (by simp [lit])
      rw [here] at reached count
      have made : handedIn s (.append uptime slot counter) = some record := by simp [handedIn, here]
      rw [made]
      refine ⟨kept, ?_, fun number other found => ?_⟩ <;> rw [radarSince_concat]
      · rw [List.length_append]
        exact count
      · rcases getElem?_concat_eq_some.mp found with earlier | ⟨rfl, rfl⟩
        · exact told.each number other earlier
        · exact reached.2.2.tells count
  | get seq lit => exact still rfl (radarSince_concat _ _) rfl
  | cut lit => exact still rfl (radarSince_concat _ _) rfl

def Node.booted (nvs : Nvs) (verdicts : List (Verdict Nat)) : Node :=
  ⟨(powerOn nvs verdicts).1, Acc.zero, Sen5xStatics.zero, 0, .startAir⟩

theorem node_told {nvs : Nvs} {verdicts : List (Verdict Nat)} {steps : List NodeEvent}
    {final : Node} {outputs : List (Option DeviceOutput)}
    (regular : Regular (.boot verdicts :: steps))
    (goes : ∀ event ∈ steps, ∀ verdicts, event ≠ .boot verdicts)
    (ran : node.run (Node.booted nvs verdicts) steps = some (final, outputs)) :
    Told (.boot verdicts :: steps) (node.gather handedIn (Node.booted nvs verdicts) steps) final := by
  have preserved : ∀ history outputs s event next output,
      (node.run (Node.booted nvs verdicts) history = some (s, outputs) ∧
        Told (.boot verdicts :: history)
          (node.gather handedIn (Node.booted nvs verdicts) history) s) →
      (Regular (.boot verdicts :: (history ++ [event])) ∧ ∀ verdicts, event ≠ .boot verdicts) →
      node.step s event = some (next, output) →
      node.run (Node.booted nvs verdicts) (history ++ [event]) = some (next, outputs ++ [output]) ∧
        Told (.boot verdicts :: (history ++ [event]))
          (node.gather handedIn (Node.booted nvs verdicts) (history ++ [event])) next := by
    rintro history outputs s event next output ⟨before, told⟩ ⟨regular, goes⟩ stepped
    refine ⟨Machine.run_concat before stepped, ?_⟩
    rw [Machine.gather_concat handedIn before, ← List.cons_append]
    rw [← List.cons_append] at regular
    exact told.step regular goes (node_step stepped)
  have start : Told [.boot verdicts] [] (Node.booted nvs verdicts) := by
    have first : Regular ([] ++ [.boot verdicts]) :=
      regular.prefixes goes (List.cons_prefix_cons.mpr ⟨rfl, List.nil_prefix⟩)
    have kept := (kept_off nvs).step first (NodeStep.boot verdicts rfl)
    exact ⟨kept, rfl, fun number record found => by cases found⟩
  refine (Machine.run_invariant_history preserved ⟨rfl, start⟩ ?_ ran).2
  rintro before event after middle made rfl _
  refine ⟨regular.prefixes goes ?_, goes event (by simp)⟩
  exact List.cons_prefix_cons.mpr ⟨rfl, after, by simp⟩

/-! ## The node and its link -/

structure Board (ρ : Type) where
  link : Link ρ
  /-- The frames of a chunk that `on_frame` is still to handle. -/
  due : List (List UInt8)
  node : Node

inductive BoardEvent where
  /-- The handler, or the radar thread up to the next chunk. -/
  | link (event : LinkEvent)
  /-- `on_frame` of the radar thread, with its uptime. -/
  | handle (now : Int)
  /-- The steps of `main` and the reads of a dump. -/
  | node (event : NodeEvent)

inductive BoardOutput where
  | link (output : LinkOutput)
  | node (output : Option DeviceOutput)

def ofThread : LinkEvent → Bool
  | .isr _ _ => false
  | _ => true

def ofNode : NodeEvent → Bool
  | .boot _ => false
  | .frame _ _ => false
  | .cut => false
  | _ => true

def framesIn (output : LinkOutput) : List (List UInt8) := (handledOf [output]).map Prod.fst

section Boards

variable {ρ : Type} (ops : FifoOps ρ UInt8)

/-- The radar thread takes no chunk before it has handled the frames of the last one. -/
def board : Machine (Board ρ) BoardEvent BoardOutput where
  step s event :=
    match event, s.due with
    | .link event, due =>
        if s.node.device.ram.isNone ∨ (ofThread event ∧ due ≠ []) then none
        else ((link ops).step s.link event).map fun (link, output) =>
          (⟨link, due ++ framesIn output, s.node⟩, .link output)
    | .handle _, [] => none
    | .handle now, bytes :: due =>
        (node.step s.node (.frame bytes now)).map fun (node, output) =>
          (⟨s.link, due, node⟩, .node output)
    | .node event, due =>
        if ofNode event then
          (node.step s.node event).map fun (node, output) => (⟨s.link, due, node⟩, .node output)
        else none

def bootedLink (rxRb : ρ) : Link ρ :=
  ⟨⟨rxRb, 0, 0⟩, ⟨Vector.replicate 2048 0, 0, 0, 0⟩, none⟩

def Board.booted (rxRb : ρ) (nvs : Nvs) (verdicts : List (Verdict Nat)) : Board ρ :=
  ⟨bootedLink rxRb, [], Node.booted nvs verdicts⟩

variable {ops}

inductive BoardStep (ops : FifoOps ρ UInt8) (s : Board ρ) :
    BoardEvent → Board ρ → BoardOutput → Prop where
  | link {event : LinkEvent} {link : Link ρ} {output : LinkOutput}
      (stepped : (Radar.link ops).step s.link event = some (link, output)) :
      BoardStep ops s (.link event) ⟨link, s.due ++ framesIn output, s.node⟩ (.link output)
  | handle {now : Int} {bytes : List UInt8} {due : List (List UInt8)} {node : Node}
      {output : Option DeviceOutput} (first : s.due = bytes :: due)
      (stepped : Main.node.step s.node (.frame bytes now) = some (node, output)) :
      BoardStep ops s (.handle now) ⟨s.link, due, node⟩ (.node output)
  | node {event : NodeEvent} {node : Node} {output : Option DeviceOutput}
      (runs : ofNode event = true)
      (stepped : Main.node.step s.node event = some (node, output)) :
      BoardStep ops s (.node event) ⟨s.link, s.due, node⟩ (.node output)

theorem board_step {s next : Board ρ} {event : BoardEvent} {output : BoardOutput}
    (stepped : (board ops).step s event = some (next, output)) :
    BoardStep ops s event next output := by
  obtain ⟨held, due, inside⟩ := s
  simp only [board] at stepped
  split at stepped
  · split at stepped
    · cases stepped
    · obtain ⟨⟨link, made⟩, inner, same⟩ := Option.map_eq_some_iff.mp stepped
      cases same
      exact .link inner
  · cases stepped
  · obtain ⟨⟨node, made⟩, inner, same⟩ := Option.map_eq_some_iff.mp stepped
    cases same
    exact .handle rfl inner
  · split at stepped
    · next runs =>
        obtain ⟨⟨node, made⟩, inner, same⟩ := Option.map_eq_some_iff.mp stepped
        cases same
        exact .node runs inner
    · cases stepped

/-! ## Its two sides -/

def nodeStep (s : Board ρ) : BoardEvent → Option NodeEvent
  | .link _ => none
  | .handle now => s.due.head?.map fun bytes => .frame bytes now
  | .node event => some event

def BoardOutput.ofNode : BoardOutput → Option (Option DeviceOutput)
  | .link _ => none
  | .node output => some output

def BoardEvent.ofLink : BoardEvent → Option LinkEvent
  | .link event => some event
  | _ => none

def BoardOutput.ofLink : BoardOutput → Option LinkOutput
  | .link output => some output
  | .node _ => none

theorem board_contains_node :
    (board ops).Contains node Board.node nodeStep BoardOutput.ofNode := by
  intro s event next output stepped
  cases board_step stepped with
  | link inner => exact ⟨rfl, rfl⟩
  | handle first inner =>
      simp only [nodeStep, first, List.head?_cons, Option.map_some]
      exact ⟨_, inner, rfl⟩
  | node runs inner => exact ⟨_, inner, rfl⟩

theorem board_contains_link :
    (board ops).Contains (link ops) Board.link (fun _ event => event.ofLink)
      BoardOutput.ofLink := by
  intro s event next output stepped
  cases board_step stepped with
  | link inner => exact ⟨_, inner, rfl⟩
  | handle => exact ⟨rfl, rfl⟩
  | node => exact ⟨rfl, rfl⟩

def stepsOf (ops : FifoOps ρ UInt8) (s : Board ρ) (events : List BoardEvent) : List NodeEvent :=
  (board ops).gather nodeStep s events

def radarOf (ops : FifoOps ρ UInt8) (s : Board ρ) (events : List BoardEvent) : List RadarEvent :=
  (stepsOf ops s events).foldl radarAfter []

def linkOf (outputs : List BoardOutput) : List LinkOutput := outputs.filterMap BoardOutput.ofLink

def seenIn (outputs : List BoardOutput) : List (List UInt8) :=
  (handledOf (linkOf outputs)).map Prod.fst

theorem seenIn_append (first second : List BoardOutput) :
    seenIn (first ++ second) = seenIn first ++ seenIn second := by
  simp [seenIn, linkOf, handledOf]

theorem framesOf_append (first second : List RadarEvent) :
    framesOf (first ++ second) = framesOf first ++ framesOf second := List.filterMap_append

theorem radarOf_concat {s middle : Board ρ} {events : List BoardEvent}
    {outputs : List BoardOutput} (ran : (board ops).run s events = some (middle, outputs))
    (event : BoardEvent) :
    radarOf ops s (events ++ [event]) =
      (nodeStep middle event).toList.foldl radarAfter (radarOf ops s events) := by
  rw [radarOf, stepsOf, Machine.gather_concat nodeStep ran, List.foldl_append]
  rfl

theorem framesOf_after {event : NodeEvent} (runs : ofNode event = true)
    (events : List RadarEvent) : framesOf (radarAfter events event) = framesOf events := by
  cases event with
  | boot verdicts => cases runs
  | frame bytes now => cases runs
  | takeRadar now => simp [radarAfter, framesOf]
  | _ => rfl

/-- Each frame that the thread hands over is handled once, in order, or is still due. -/
theorem board_handles {s : Board ρ} {events : List BoardEvent} {final : Board ρ}
    {outputs : List BoardOutput} (nothing : s.due = [])
    (ran : (board ops).run s events = some (final, outputs)) :
    framesOf (radarOf ops s events) ++ final.due = seenIn outputs := by
  have preserved : ∀ history outputs middle event next output,
      ((board ops).run s history = some (middle, outputs) ∧
        framesOf (radarOf ops s history) ++ middle.due = seenIn outputs) →
      (board ops).step middle event = some (next, output) →
      (board ops).run s (history ++ [event]) = some (next, outputs ++ [output]) ∧
        framesOf (radarOf ops s (history ++ [event])) ++ next.due = seenIn (outputs ++ [output]) := by
    rintro history outputs middle event next output ⟨before, same⟩ stepped
    refine ⟨Machine.run_concat before stepped, ?_⟩
    rw [radarOf_concat before, seenIn_append, ← same]
    cases board_step stepped with
    | link inner => exact (List.append_assoc _ _ _).symm
    | @handle now bytes due node output first inner =>
        have made : nodeStep middle (.handle now) = some (.frame bytes now) := by
          rw [nodeStep, first]
          rfl
        rw [made, first]
        change framesOf (radarOf ops s history ++ [.frame bytes now]) ++ due =
          framesOf (radarOf ops s history) ++ bytes :: due ++ []
        rw [framesOf_append, List.append_nil, List.append_cons]
        rfl
    | node runs inner =>
        change framesOf (radarAfter (radarOf ops s history) _) ++ middle.due =
          framesOf (radarOf ops s history) ++ middle.due ++ []
        rw [framesOf_after runs, List.append_nil]
  refine (Machine.run_invariant_unguarded preserved ⟨rfl, ?_⟩ ran).2
  rw [nothing]
  rfl

/-! ## From the link to the records -/

def handedOf (ops : FifoOps ρ UInt8) (s : Board ρ) (events : List BoardEvent) : List SntlRecord :=
  (board ops).gather (fun s event => (nodeStep s event).bind (handedIn s.node)) s events

/-- Time is positive and does not run backwards, and no window grows too long. -/
structure Paced (events : List RadarEvent) : Prop where
  positive : ∀ bytes now, .frame bytes now ∈ events → 0 < now
  ordered : events.Pairwise fun first second => first.now ≤ second.now
  few : ∀ frames ∈ taken events ++ [window events], frames.length < 65536

/-- In a run of the board there is no other boot. -/
theorem stepsOf_goes {s final : Board ρ} {events : List BoardEvent} {outputs : List BoardOutput}
    (ran : (board ops).run s events = some (final, outputs)) :
    ∀ event ∈ stepsOf ops s events, ∀ verdicts, event ≠ .boot verdicts := by
  rintro event member verdicts rfl
  obtain ⟨before, cause, after, middle, made, rfl, ranBefore, given⟩ := Machine.mem_gather member
  obtain ⟨other, _, _, ranFirst, ranRest, _⟩ := Machine.run_append_eq_some.mp ran
  cases ranBefore.symm.trans ranFirst
  obtain ⟨next, output, _, stepped, _⟩ := Machine.run_cons_eq_some.mp ranRest
  cases board_step stepped with
  | link => cases given
  | handle first =>
      rw [nodeStep, first] at given
      cases given
  | node runs =>
      cases given
      cases runs

variable {rxRb : ρ} {nvs : Nvs} {verdicts : List (Verdict Nat)} {events : List BoardEvent}
  {final : Board ρ} {outputs : List BoardOutput}

theorem seenIn_valid
    (ran : (board ops).run (Board.booted rxRb nvs verdicts) events = some (final, outputs)) :
    ∀ frame ∈ seenIn outputs, ValidFrame frame := by
  obtain ⟨ranLink, _⟩ := board_contains_link.run_free (fun _ _ => (none : Option Unit)) ran
  exact link_frames_valid (represents_reset (bootedLink rxRb).re) ranLink

theorem stepsOf_regular (paced : Paced (radarOf ops (Board.booted rxRb nvs verdicts) events))
    (ran : (board ops).run (Board.booted rxRb nvs verdicts) events = some (final, outputs)) :
    Regular (.boot verdicts :: stepsOf ops (Board.booted rxRb nvs verdicts) events) := by
  have handles := board_handles rfl ran
  refine ⟨?_, paced.ordered, paced.few⟩
  rintro (⟨bytes, now⟩ | now) member
  · refine ⟨seenIn_valid ran bytes ?_, paced.positive bytes now member⟩
    rw [← handles]
    exact List.mem_append_left _ (List.mem_filterMap.mpr ⟨_, member, rfl⟩)
  · trivial

/--
Each frame is in one window, in order, or in the running one, or due; and each
window that was taken has one record, but for the one that `main` is at.
-/
structure Accounted (seen : List RadarEvent) (handed : List SntlRecord)
    (frames : List (List UInt8)) (s : Board ρ) : Prop where
  partition : (taken seen).flatten ++ window seen ++ s.due = frames
  count : (taken seen).length = handed.length + s.node.main.pending
  each : ∀ (number : Nat) record, handed[number]? = some record → Tells seen number record

theorem board_accounted (paced : Paced (radarOf ops (Board.booted rxRb nvs verdicts) events))
    (ran : (board ops).run (Board.booted rxRb nvs verdicts) events = some (final, outputs)) :
    Accounted (radarOf ops (Board.booted rxRb nvs verdicts) events)
      (handedOf ops (Board.booted rxRb nvs verdicts) events) (seenIn outputs) final := by
  obtain ⟨ranNode, gathered⟩ := board_contains_node.run_free handedIn ran
  have told := node_told (stepsOf_regular paced ran) (stepsOf_goes ran) ranNode
  rw [show (Node.booted nvs verdicts) = (Board.booted rxRb nvs verdicts).node from rfl, stepsOf,
    gathered] at told
  refine ⟨?_, told.count, told.each⟩
  rw [taken_partition]
  exact board_handles rfl ran

/--
Whatever the uart delivers and loses, however often the radar is configured
anew, and however the handler, the two threads and the reads of a dump take
turns: every frame that the radar thread hands over is valid and in one window,
or still to come into one, and each window is told by the one record that
`main` hands to `store_append` for it.
-/
theorem board_records (paced : Paced (radarOf ops (Board.booted rxRb nvs verdicts) events))
    (ran : (board ops).run (Board.booted rxRb nvs verdicts) events = some (final, outputs)) :
    (∀ frame ∈ seenIn outputs, ValidFrame frame) ∧
      Accounted (radarOf ops (Board.booted rxRb nvs verdicts) events)
        (handedOf ops (Board.booted rxRb nvs verdicts) events) (seenIn outputs) final :=
  ⟨seenIn_valid ran, board_accounted paced ran⟩

/-- A step of the link that belongs to a session, or one of the node. -/
def BoardEvent.InSession (event : BoardEvent) : Prop :=
  ∀ other, event.ofLink = some other → other.InSession

def RoomyBoard (held : ρ → List UInt8) (s : Board ρ) (event : BoardEvent) : Prop :=
  ∀ other, event.ofLink = some other → Roomy held s.link other

def sentBy (events : List BoardEvent) : List UInt8 := sentOf (events.filterMap BoardEvent.ofLink)

/-- What a session of the board hands over, of frames that come between separators. -/
theorem session_seen {held : ρ → List UInt8} (lawful : ops.Lawful rxRingSize held)
    {s final : Board ρ} (room : (held s.link.uart.rxRb).length ≤ rxRingSize) {t0 : Int}
    {session : List BoardEvent} {outputs : List BoardOutput}
    (inside : ∀ event ∈ session, event.InSession)
    (roomy : (board ops).Guarded (RoomyBoard held) s (.link (.configured t0) :: session))
    (ran : (board ops).run s (.link (.configured t0) :: session) = some (final, outputs))
    {pieces : List (List UInt8 × List UInt8)} {tail : List UInt8}
    (gaps : ∀ piece ∈ pieces, FirstAt tlvMagic (piece.1 ++ tlvMagic) piece.1.length)
    (frames : ∀ piece ∈ pieces, ValidFrame piece.2) (ending : ¬ tlvMagic <:+: tail)
    (sent : held s.link.uart.rxRb ++ sentBy session <+: stream pieces tail) :
    seenIn outputs <+: pieces.map Prod.snd ∧
      (held s.link.uart.rxRb ++ sentBy session = stream pieces tail →
        held final.link.uart.rxRb = [] → seenIn outputs = pieces.map Prod.snd) := by
  have passes : ∀ state input other, RoomyBoard held state input →
      input.ofLink = some other → Roomy held state.link other :=
    fun _ _ other met given => met other given
  obtain ⟨ranLink, met, _⟩ := board_contains_link.run_gather passes
    (fun _ _ => (none : Option Unit)) roomy ran
  rw [Machine.gather_filterMap BoardEvent.ofLink ran] at ranLink met
  have within : ∀ event ∈ session.filterMap BoardEvent.ofLink, event.InSession := by
    intro event member
    obtain ⟨cause, listed, given⟩ := List.mem_filterMap.mp member
    exact inside cause listed event given
  obtain ⟨whole, handled, complete⟩ :=
    session_handled lawful room within met ranLink gaps frames ending sent
  refine ⟨?_, fun all empty => complete ?_⟩
  · rw [seenIn, linkOf, handled]
    exact delivered_take pieces tail _
  · rw [← all, sentBy, ← whole, empty, List.append_nil]

/-- The ring is empty at a boot, and never holds more than its size. -/
theorem board_room {held : ρ → List UInt8} (lawful : ops.Lawful rxRingSize held)
    (empty : held rxRb = [])
    (ran : (board ops).run (Board.booted rxRb nvs verdicts) events = some (final, outputs)) :
    (held final.link.uart.rxRb).length ≤ rxRingSize := by
  obtain ⟨ranLink, _⟩ := board_contains_link.run_free (fun _ _ => (none : Option Unit)) ran
  have start : (held (Board.booted rxRb nvs verdicts).link.uart.rxRb).length ≤ rxRingSize := by
    change (held rxRb).length ≤ rxRingSize
    rw [empty]
    exact Nat.zero_le _
  exact (link_carries lawful start ranLink).1.flow.room

/--
From the wire to the log: while the radar streams frames between separators and
nothing is lost on the way, the frames that it has sent, or the first of them,
are those of the windows and of what is still due, in their order and each
once, behind those of the sessions before.  Each window is told by the one
record that `main` hands to `store_append` for it.
-/
theorem wire_to_records {held : ρ → List UInt8} (lawful : ops.Lawful rxRingSize held)
    (empty : held rxRb = []) {bringUp session : List BoardEvent} {middle : Board ρ}
    {made : List BoardOutput} {t0 : Int}
    (before : (board ops).run (Board.booted rxRb nvs verdicts) bringUp = some (middle, made))
    (inside : ∀ event ∈ session, event.InSession)
    (roomy : (board ops).Guarded (RoomyBoard held) middle (.link (.configured t0) :: session))
    (ran : (board ops).run middle (.link (.configured t0) :: session) = some (final, outputs))
    (paced : Paced (radarOf ops (Board.booted rxRb nvs verdicts)
      (bringUp ++ .link (.configured t0) :: session)))
    {pieces : List (List UInt8 × List UInt8)} {tail : List UInt8}
    (gaps : ∀ piece ∈ pieces, FirstAt tlvMagic (piece.1 ++ tlvMagic) piece.1.length)
    (frames : ∀ piece ∈ pieces, ValidFrame piece.2) (ending : ¬ tlvMagic <:+: tail)
    (sent : held middle.link.uart.rxRb ++ sentBy session <+: stream pieces tail) :
    ∃ got, got <+: pieces.map Prod.snd ∧
      (held middle.link.uart.rxRb ++ sentBy session = stream pieces tail →
        held final.link.uart.rxRb = [] → got = pieces.map Prod.snd) ∧
      Accounted
        (radarOf ops (Board.booted rxRb nvs verdicts)
          (bringUp ++ .link (.configured t0) :: session))
        (handedOf ops (Board.booted rxRb nvs verdicts)
          (bringUp ++ .link (.configured t0) :: session))
        (seenIn made ++ got) final := by
  obtain ⟨begins, complete⟩ :=
    session_seen lawful (board_room lawful empty before) inside roomy ran gaps frames ending sent
  refine ⟨seenIn outputs, begins, complete, ?_⟩
  rw [← seenIn_append]
  exact board_accounted paced (Machine.run_append before ran)

end Boards

/-! ## A ring that is a list -/

abbrev benchBoard : Machine (Board (List UInt8)) BoardEvent BoardOutput :=
  board (FifoOps.ofList rxRingSize)

abbrev benchStart : Board (List UInt8) := Board.booted [] .empty []

def oneChunk : List BoardEvent := [.link (.isr true [headerFrame]), .link (.turn 5 fun _ => 6)]

def oneFlush : List NodeEvent :=
  .startAir true 0 :: (List.replicate 30 (.poll zeroWords) ++
    [.takeRadar 31000, .takeAir zeroWords, .append 31000 .ok .ok])

def oneFrame : List BoardEvent := oneChunk ++ .handle 7 :: oneFlush.map .node

theorem board_runs_node {ρ : Type} {ops : FifoOps ρ UInt8} (link : Link ρ)
    (due : List (List UInt8)) {s final : Node} {steps : List NodeEvent}
    {outputs : List (Option DeviceOutput)} (runs : ∀ event ∈ steps, ofNode event = true)
    (ran : node.run s steps = some (final, outputs)) :
    (board ops).run ⟨link, due, s⟩ (steps.map .node) =
        some (⟨link, due, final⟩, outputs.map .node) ∧
      stepsOf ops ⟨link, due, s⟩ (steps.map .node) = steps := by
  induction steps generalizing s outputs with
  | nil =>
      cases ran
      exact ⟨rfl, rfl⟩
  | cons event rest ih =>
      obtain ⟨next, output, tail, stepped, ranRest, rfl⟩ := Machine.run_cons_eq_some.mp ran
      obtain ⟨ranBoard, same⟩ :=
        ih (fun other member => runs other (List.mem_cons_of_mem _ member)) ranRest
      have here : (board ops).step ⟨link, due, s⟩ (.node event) =
          some (⟨link, due, next⟩, .node output) := by
        simp only [board, if_pos (runs event (List.mem_cons_self ..)), stepped, Option.map_some]
      refine ⟨Machine.run_cons here ranBoard, ?_⟩
      rw [List.map_cons, stepsOf, Machine.gather_cons here, ← stepsOf, same]
      rfl

theorem board_step_link {ρ : Type} {ops : FifoOps ρ UInt8} {s : Board ρ} {event : LinkEvent}
    {next : Link ρ} {output : LinkOutput} (lit : s.node.device.ram.isNone = false)
    (clear : s.due = []) (stepped : (link ops).step s.link event = some (next, output)) :
    (board ops).step s (.link event) = some (⟨next, framesIn output, s.node⟩, .link output) := by
  have free : ¬ (s.node.device.ram.isNone = true ∨ ofThread event = true ∧ s.due ≠ []) := by
    rintro (off | ⟨_, waits⟩)
    · exact Bool.false_ne_true (lit.symm.trans off)
    · exact waits clear
  simp only [board, if_neg free, stepped, Option.map_some]
  rw [clear, List.nil_append]

theorem headerFrame_delivered {start next : TlvReasm} {made : List (Option (List UInt8))}
    (ran : reassembler.run (tlvReset start) headerFrame = some (next, made)) :
    delivered made = [headerFrame] := by
  obtain ⟨_, segmented⟩ := @segments UInt8 _ tlvFormat [([], headerFrame)] []
    (by decide) (by
      intro piece member
      rw [List.mem_singleton.mp member]
      exact validFrame_iff.mp headerFrame_valid) (by decide)
  obtain ⟨_, concrete, _⟩ := reassembler_run (represents_reset start) segmented
  cases ran.symm.trans concrete
  exact delivered_returns [([], headerFrame)] []

theorem oneFrame_ran :
    ∃ final outputs, benchBoard.run benchStart (.link (.configured 0) :: oneFrame) =
        some (final, outputs) ∧ final.link.uart.rxRb = [] ∧
      radarOf (FifoOps.ofList rxRingSize) benchStart (.link (.configured 0) :: oneFrame) =
        [.frame headerFrame 7, .take 31000] ∧
      benchBoard.Guarded (RoomyBoard id) benchStart (.link (.configured 0) :: oneFrame) := by
  obtain ⟨re, _, made, pushed, _⟩ :=
    reassembler_run_defined (represents_reset benchStart.link.re) headerFrame
  let waiting (uart : Receiver (List UInt8)) : Board (List UInt8) :=
    ⟨⟨uart, tlvReset benchStart.link.re, some 0⟩, [], benchStart.node⟩
  let last : Link (List UInt8) := ⟨⟨[], 40, 0⟩, re, some (lastTime 0 (timed made fun _ => 6))⟩
  have begun : benchBoard.step benchStart (.link (.configured 0)) =
      some (waiting ⟨[], 0, 0⟩, .link .quiet) := rfl
  have received : benchBoard.step (waiting ⟨[], 0, 0⟩) (.link (.isr true [headerFrame])) =
      some (waiting ⟨headerFrame, 40, 0⟩, .link .quiet) := rfl
  have chunk : benchBoard.step (waiting ⟨headerFrame, 40, 0⟩) (.link (.turn 5 fun _ => 6)) =
      some (⟨last, [headerFrame], benchStart.node⟩,
        .link (.chunk headerFrame (timed made fun _ => 6))) := by
    have taken : (FifoOps.ofList rxRingSize).get headerFrame 64 = ([], headerFrame) := rfl
    have alive : (5 : Int) - 0 < radarStallMs := by decide
    have stepped : benchLink.step (waiting ⟨headerFrame, 40, 0⟩).link (.turn 5 fun _ => 6) =
        some (last, .chunk headerFrame (timed made fun _ => 6)) := by
      simp only [waiting, link, if_pos alive, taken, pushed, Option.map_some, last]
    have due : framesIn (.chunk headerFrame (timed made fun _ => 6)) = [headerFrame] := by
      rw [framesIn, handledOf_chunk, headerFrame_delivered pushed]
    rw [board_step_link rfl rfl stepped, due]
  obtain ⟨final, outputs, ran⟩ : ∃ final outputs,
      node.run benchStart.node (.frame headerFrame 7 :: oneFlush) = some (final, outputs) :=
    ⟨_, _, rfl⟩
  obtain ⟨handled, output, rest, stepped, ranFlush, rfl⟩ := Machine.run_cons_eq_some.mp ran
  have handle : benchBoard.step ⟨last, [headerFrame], benchStart.node⟩ (.handle 7) =
      some (⟨last, [], handled⟩, .node output) := by
    simp only [board, stepped, Option.map_some]
  obtain ⟨ranBoard, flushed⟩ := @board_runs_node _ (FifoOps.ofList rxRingSize) last [] _ _ _ _
    (by decide) ranFlush
  refine ⟨_, _, Machine.run_cons begun (Machine.run_cons received (Machine.run_cons chunk
    (Machine.run_cons handle ranBoard))), rfl, ?_, ?_⟩
  · have steps : stepsOf (FifoOps.ofList rxRingSize) benchStart
        (.link (.configured 0) :: oneFrame) = .frame headerFrame 7 :: oneFlush := by
      rw [stepsOf, Machine.gather_cons begun, oneFrame, oneChunk, List.cons_append,
        Machine.gather_cons received, List.cons_append, Machine.gather_cons chunk,
        List.nil_append, Machine.gather_cons handle, ← stepsOf, flushed]
      rfl
    rw [radarOf, steps]
    rfl
  · refine Machine.guarded_cons ?_ begun (Machine.guarded_cons ?_ received
      (Machine.guarded_of_all ?_ _))
    · rintro other ⟨⟩
      trivial
    · rintro other ⟨⟩
      change 0 + 40 ≤ 4096
      decide
    · rintro (inner | now | step) member s other given
      · cases given
        rcases List.mem_cons.mp member with same | later
        · cases same
          trivial
        · simp at later
      · cases given
      · cases given

theorem oneFrame_paced : Paced [.frame headerFrame 7, .take 31000] := by
  refine ⟨?_, by simp [RadarEvent.now], ?_⟩
  · intro bytes now member
    simp only [List.mem_cons, RadarEvent.frame.injEq, List.not_mem_nil, or_false] at member
    rcases member with ⟨_, rfl⟩ | impossible
    · decide
    · cases impossible
  · intro frames member
    simp only [taken, window, cut, List.foldl, List.nil_append, List.mem_append, List.mem_cons,
      List.not_mem_nil, or_false] at member
    rcases member with rfl | rfl <;> decide

theorem board_records_oneFrame :
    ∃ final outputs, benchBoard.run benchStart (.link (.configured 0) :: oneFrame) =
        some (final, outputs) ∧
      (∀ frame ∈ seenIn outputs, ValidFrame frame) ∧
      Accounted [.frame headerFrame 7, .take 31000]
        (handedOf (FifoOps.ofList rxRingSize) benchStart (.link (.configured 0) :: oneFrame))
        (seenIn outputs) final := by
  obtain ⟨final, outputs, ran, _, seen, _⟩ := oneFrame_ran
  have recorded := board_records (seen.symm ▸ oneFrame_paced) ran
  rw [seen] at recorded
  exact ⟨final, outputs, ran, recorded⟩

theorem wire_to_records_oneFrame :
    ∃ final outputs, benchBoard.run benchStart (.link (.configured 0) :: oneFrame) =
        some (final, outputs) ∧
      Accounted [.frame headerFrame 7, .take 31000]
        (handedOf (FifoOps.ofList rxRingSize) benchStart (.link (.configured 0) :: oneFrame))
        [headerFrame] final := by
  obtain ⟨final, outputs, ran, drained, seen, roomy⟩ := oneFrame_ran
  have inside : ∀ event ∈ oneFrame, event.InSession := by
    rintro (inner | now | step) member other given
    · cases given
      simp only [oneFrame, oneChunk, List.mem_append, List.mem_cons, BoardEvent.link.injEq,
        List.not_mem_nil, or_false, List.mem_map, reduceCtorEq, and_false, exists_false]
        at member
      rcases member with rfl | rfl <;> trivial
    · cases given
    · cases given
  have sent : sentBy oneFrame = headerFrame := rfl
  obtain ⟨got, _, all, accounted⟩ := wire_to_records (FifoOps.ofList_lawful rxRingSize) rfl
    (Machine.run_nil benchBoard benchStart) inside roomy ran (seen.symm ▸ oneFrame_paced)
    (show ∀ piece ∈ [([], headerFrame)], FirstAt tlvMagic (piece.1 ++ tlvMagic) piece.1.length
      by decide)
    (show ∀ piece ∈ [([], headerFrame)], ValidFrame piece.2 by
      intro piece member
      rw [List.mem_singleton.mp member]
      exact headerFrame_valid)
    (show ¬ tlvMagic <:+: [] by decide) (sent ▸ List.prefix_refl headerFrame)
  obtain rfl := all sent drained
  rw [List.nil_append, seen] at accounted
  exact ⟨final, outputs, ran, accounted⟩

end PresenceNode.Main
