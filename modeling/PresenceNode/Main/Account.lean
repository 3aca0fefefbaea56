import PresenceNode.Main.Node

/-!
# What a record of the node recounts

Since the last boot the node has a history of its radar and one of its air
sensor.  A record that is handed to `store_append` is that of one window: the
frames and the polls between two flushes, thirty of the polls, whatever becomes
of the record in the store.  The frames that arrive while a flush is under way
belong to the window after it.
-/

namespace PresenceNode.Main

open Library Flash PresenceNode.Frame Radar Sen5x Store

/-! ## Histories -/

def radarAfter (events : List RadarEvent) : NodeEvent → List RadarEvent
  | .boot _ => []
  | .frame bytes now => events ++ [.frame bytes now]
  | .takeRadar now => events ++ [.take now]
  | _ => events

def radarSince (history : List NodeEvent) : List RadarEvent := history.foldl radarAfter []

def airAfter (events : List Sen5xEvent) : NodeEvent → List Sen5xEvent
  | .boot _ => []
  | .startAir _ _ => []
  | .poll x => events ++ [.poll x]
  | .takeAir x => events ++ [.take x]
  | _ => events

def airSince (history : List NodeEvent) : List Sen5xEvent := history.foldl airAfter []

def startedAfter (started : Bool) : NodeEvent → Bool
  | .boot _ => false
  | .startAir ready answer => ready && decide (answer = 0)
  | _ => started

def airStarted (history : List NodeEvent) : Bool := history.foldl startedAfter false

@[simp] theorem radarSince_concat (history : List NodeEvent) (event : NodeEvent) :
    radarSince (history ++ [event]) = radarAfter (radarSince history) event := by
  simp [radarSince]

@[simp] theorem airSince_concat (history : List NodeEvent) (event : NodeEvent) :
    airSince (history ++ [event]) = airAfter (airSince history) event := by
  simp [airSince]

@[simp] theorem airStarted_concat (history : List NodeEvent) (event : NodeEvent) :
    airStarted (history ++ [event]) = startedAfter (airStarted history) event := by
  simp [airStarted]

def airSamples (history : List NodeEvent) : List (Vector UInt16 8) :=
  if airStarted history then samplesOf (airSince history) else []

def NodeEvent.Aside : NodeEvent → Prop
  | .frame _ _ => True
  | .get _ => True
  | _ => False

def AllAside (events : List NodeEvent) : Prop := ∀ event ∈ events, event.Aside

theorem AllAside.nil : AllAside [] := nofun

theorem AllAside.concat {events : List NodeEvent} (all : AllAside events) {event : NodeEvent}
    (aside : event.Aside) : AllAside (events ++ [event]) := by
  intro other member
  rcases List.mem_append.mp member with before | last
  · exact all other before
  · rw [List.mem_singleton.mp last]
    exact aside

theorem NodeEvent.Aside.air {event : NodeEvent} (aside : event.Aside) (events : List Sen5xEvent) :
    airAfter events event = events := by
  cases event with
  | frame => rfl
  | get => rfl
  | _ => exact aside.elim

/-! ## One window -/

/-- The window that the air sensor hands over with this answer to the status command. -/
structure AirOf (history : List NodeEvent) (x : Exchange) (aq : Sen5xWindow) : Prop where
  polls : (pollsOf (airSince history)).length = storePeriodS
  folds : Folds (airSamples history) aq
  alive : aq.alive = true ↔
    (airStarted history = true ∧ Measured (airSince history)) ∧ (StatusRead x → StatusClear x)

/-- The flush has taken the window of the radar, and `main` has gone no further. -/
def TookRadar (history : List NodeEvent) (w : RadarWindow) : Prop :=
  ∃ before now between, history = before ++ .takeRadar now :: between ∧ AllAside between ∧
    Summarises (radarSince before) now w

/-- The record is that of the two windows that the last flush of the history has taken. -/
def Recounts (history : List NodeEvent) (record : SntlRecord) : Prop :=
  ∃ before x after w aq, history = before ++ .takeAir x :: after ∧ AllAside after ∧
    TookRadar before w ∧ AirOf before x aq ∧ record = windowRecord w aq

theorem TookRadar.aside {history : List NodeEvent} {w : RadarWindow} (took : TookRadar history w)
    {event : NodeEvent} (aside : event.Aside) : TookRadar (history ++ [event]) w := by
  obtain ⟨before, now, between, rfl, all, summarises⟩ := took
  exact ⟨before, now, between ++ [event], by simp, all.concat aside, summarises⟩

theorem Recounts.aside {history : List NodeEvent} {record : SntlRecord}
    (recounts : Recounts history record) {event : NodeEvent} (aside : event.Aside) :
    Recounts (history ++ [event]) record := by
  obtain ⟨before, x, after, w, aq, rfl, all, took, air, same⟩ := recounts
  exact ⟨before, x, after ++ [event], w, aq, by simp, all.concat aside, took, air, same⟩

/-! ## The statics against the histories -/

/-- The radar's accumulators are what its history makes of zeroed ones. -/
def RadarKept (history : List NodeEvent) (acc : Acc) : Prop :=
  ∃ outputs, radar.run Acc.zero (radarSince history) = some (acc, outputs)

/-- The statics of the air sensor, once `sen5x_start` has returned. -/
structure AirKept (history : List NodeEvent) (air : Sen5xStatics) : Prop where
  running : air.running = airStarted history
  folds : Folds (airSamples history) air.acc
  alive : air.acc.alive = true ↔ airStarted history = true ∧ Measured (airSince history)

/-- What has been polled and taken so far, by where `main` stands. -/
def Reached (history : List NodeEvent) (sec : UInt32) : MainAt → Prop
  | .startAir => sec = 0
  | .poll => (pollsOf (airSince history)).length = sec.toNat ∧ sec.toNat < storePeriodS
  | .takeRadar => (pollsOf (airSince history)).length = storePeriodS ∧ sec = 0
  | .takeAir w =>
      (pollsOf (airSince history)).length = storePeriodS ∧ sec = 0 ∧ TookRadar history w
  | .append record => pollsOf (airSince history) = [] ∧ sec = 0 ∧ Recounts history record

theorem Reached.aside {history : List NodeEvent} {sec : UInt32} {main : MainAt}
    (reached : Reached history sec main) {event : NodeEvent} (aside : event.Aside) :
    Reached (history ++ [event]) sec main := by
  have polls : airSince (history ++ [event]) = airSince history := by
    rw [airSince_concat, aside.air]
  cases main with
  | startAir => exact reached
  | poll => exact ⟨by rw [polls]; exact reached.1, reached.2⟩
  | takeRadar => exact ⟨by rw [polls]; exact reached.1, reached.2⟩
  | takeAir w => exact ⟨by rw [polls]; exact reached.1, reached.2.1, reached.2.2.aside aside⟩
  | append record =>
      exact ⟨by rw [polls]; exact reached.1, reached.2.1, reached.2.2.aside aside⟩

structure Kept (history : List NodeEvent) (s : Node) : Prop where
  radar : RadarKept history s.acc
  dead : s.main = .startAir → s.air = Sen5xStatics.zero
  air : s.main ≠ .startAir → AirKept history s.air
  reached : s.device.ram ≠ none → Reached history s.sec s.main

/-- Frames are whole, time is positive and does not run backwards, and no window grows too long. -/
structure Regular (events : List NodeEvent) : Prop where
  fair : ∀ event ∈ radarSince events, Fair event
  ordered : (radarSince events).Pairwise fun first second => first.now ≤ second.now
  few : ∀ frames ∈ taken (radarSince events) ++ [window (radarSince events)],
    frames.length < 65536

/-- A regular history was regular before its last event, unless that was a boot. -/
theorem Regular.of_concat {events : List NodeEvent} {event : NodeEvent}
    (regular : Regular (events ++ [event])) (goes : ∀ verdicts, event ≠ .boot verdicts) :
    Regular events := by
  obtain ⟨fair, ordered, few⟩ := regular
  rw [radarSince_concat] at fair ordered few
  cases event with
  | boot verdicts => exact absurd rfl (goes verdicts)
  | frame bytes now =>
      refine ⟨fun other member => fair other (List.mem_append_left _ member),
        (List.pairwise_append.mp ordered).1, fun frames member => ?_⟩
      simp only [radarAfter, taken_frame, window_frame] at few
      rcases List.mem_append.mp member with earlier | last
      · exact few frames (List.mem_append_left _ earlier)
      · rw [List.mem_singleton.mp last]
        have grown := few _ (List.mem_append_right _ (List.mem_singleton_self _))
        rw [List.length_append] at grown
        omega
  | takeRadar now =>
      refine ⟨fun other member => fair other (List.mem_append_left _ member),
        (List.pairwise_append.mp ordered).1, fun frames member => ?_⟩
      simp only [radarAfter, taken_take, window_take] at few
      exact few frames (List.mem_append_left _ member)
  | _ => exact ⟨fair, ordered, few⟩

/-- What comes after the one boot of a regular history was regular all along. -/
theorem Regular.prefixes {first : NodeEvent} {rest : List NodeEvent}
    (regular : Regular (first :: rest)) (goes : ∀ event ∈ rest, ∀ verdicts, event ≠ .boot verdicts)
    {history : List NodeEvent} (earlier : history <+: first :: rest) : Regular history := by
  induction rest using List.reverseRecOn with
  | nil =>
      rcases List.prefix_cons_iff.mp earlier with rfl | ⟨front, rfl, inside⟩
      · exact ⟨by simp [radarSince], List.Pairwise.nil, by simp [radarSince, taken, window, cut]⟩
      · rw [List.prefix_nil.mp inside]
        exact regular
  | append_singleton rest event ih =>
      rw [← List.cons_append] at regular earlier
      rcases List.prefix_concat_iff.mp earlier with rfl | inside
      · exact regular
      · exact ih (regular.of_concat (goes event (by simp)))
          (fun other member => goes other (List.mem_append_left _ member)) inside

/-! ## Steps -/

theorem AirKept.started {history : List NodeEvent} (ready : Bool) (answer : Int) :
    AirKept (history ++ [.startAir ready answer])
      (sen5xStart Sen5xStatics.zero ready answer).1 := by
  have nothing : ¬ Measured ([] : List Sen5xEvent) := by
    rintro ⟨x, member, _⟩
    cases member
  have empty : (sen5xStart Sen5xStatics.zero ready answer).1.acc = accReset := by
    unfold sen5xStart
    split
    · rfl
    · split <;> rfl
  refine ⟨?_, ?_, ?_⟩
  · rw [airStarted_concat]
    unfold sen5xStart
    cases ready with
    | false => rfl
    | true =>
        by_cases zero : answer = 0
        · simp [zero, startedAfter]
        · simp [zero, startedAfter, Sen5xStatics.zero]
  · rw [empty]
    have silent : airSamples (history ++ [.startAir ready answer]) = [] := by
      simp [airSamples, airAfter, samplesOf, pollsOf]
    rw [silent]
    exact Folds.start
  · rw [empty, airSince_concat]
    exact ⟨fun impossible => (by cases impossible), fun both => absurd both.2 nothing⟩

theorem AirKept.poll {history : List NodeEvent} {air : Sen5xStatics} (kept : AirKept history air)
    (x : Exchange) : AirKept (history ++ [.poll x]) (sen5xPoll air x) := by
  cases started : airStarted history with
  | false =>
      have off : air.running = false := kept.running.trans started
      have same : sen5xPoll air x = air := if_pos off
      have silent : airSamples history = [] := by simp [airSamples, started]
      rw [same]
      refine ⟨by simp [startedAfter, off, started], ?_, ?_⟩
      · have still : airSamples (history ++ [.poll x]) = [] := by
          simp [airSamples, started, startedAfter]
        rw [still, ← silent]
        exact kept.folds
      · rw [kept.alive]
        simp [started, startedAfter]
  | true =>
      have on : air.running = true := kept.running.trans started
      have samples : airSamples history = samplesOf (airSince history) := by
        simp [airSamples, started]
      have samplesNext : airSamples (history ++ [.poll x]) =
          samplesOf (airSince history ++ [.poll x]) := by
        simp [airSamples, started, startedAfter, airAfter]
      have folded : Folded (airSince history) air := ⟨on, samples ▸ kept.folds⟩
      have sampled : Sampled (airSince history) air := ⟨on, by simpa [started] using kept.alive⟩
      have stepped : sen5x.step air (.poll x) = some (sen5xPoll air x, none) := rfl
      refine ⟨?_, ?_, ?_⟩
      · rw [(folded.step stepped).running, airStarted_concat]
        exact started.symm
      · rw [samplesNext]
        exact (folded.step stepped).acc
      · rw [(sampled.step stepped).alive]
        simp [started, startedAfter, airAfter]

/-- The window that is handed over, and the statics after it. -/
theorem AirKept.take {history : List NodeEvent} {air : Sen5xStatics} (kept : AirKept history air)
    (whole : (pollsOf (airSince history)).length = storePeriodS) (x : Exchange) :
    AirOf history x (sen5xWindowTake air x).2 ∧
      AirKept (history ++ [.takeAir x]) (sen5xWindowTake air x).1 := by
  constructor
  · refine ⟨whole, kept.folds.checkStatus x, ?_⟩
    have checked : (checkStatus air.acc x).alive = true ↔ _ := checkStatus_alive
    rw [← kept.alive]
    exact checked
  · have none_ : samplesOf (airSince history ++ [.take x]) = [] := by simp [samplesOf]
    refine ⟨kept.running.trans (by simp [startedAfter]), ?_, ?_⟩
    · have silent : airSamples (history ++ [.takeAir x]) = [] := by
        simp [airSamples, airAfter, none_]
      rw [silent]
      exact Folds.start
    · rw [airSince_concat]
      exact ⟨fun impossible => (by cases impossible),
        fun both => absurd both.2 (not_measured_take _ x)⟩

theorem AirKept.other {history : List NodeEvent} {air : Sen5xStatics} (kept : AirKept history air)
    {event : NodeEvent} (events : airAfter (airSince history) event = airSince history)
    (started : startedAfter (airStarted history) event = airStarted history) :
    AirKept (history ++ [event]) air := by
  have samples : airSamples (history ++ [event]) = airSamples history := by
    simp [airSamples, events, started]
  constructor
  · rw [airStarted_concat, started]
    exact kept.running
  · rw [samples]
    exact kept.folds
  · rw [airStarted_concat, started, airSince_concat, events]
    exact kept.alive

theorem RadarKept.step {history : List NodeEvent} {acc next : Acc} {event : RadarEvent}
    {output : Option RadarWindow} (kept : RadarKept history acc) {cause : NodeEvent}
    (events : radarAfter (radarSince history) cause = radarSince history ++ [event])
    (stepped : radar.step acc event = some (next, output)) :
    RadarKept (history ++ [cause]) next := by
  obtain ⟨outputs, ran⟩ := kept
  refine ⟨outputs ++ [output], ?_⟩
  rw [radarSince_concat, events]
  exact Machine.run_concat ran stepped

theorem RadarKept.other {history : List NodeEvent} {acc : Acc} (kept : RadarKept history acc)
    {event : NodeEvent} (events : radarAfter (radarSince history) event = radarSince history) :
    RadarKept (history ++ [event]) acc := by
  rw [RadarKept, radarSince_concat, events]
  exact kept

/-- The take of a flush summarises the frames since the one before it. -/
theorem RadarKept.summarises {history : List NodeEvent} {acc : Acc} (kept : RadarKept history acc)
    {now : Int} (regular : Regular (history ++ [.takeRadar now])) :
    Summarises (radarSince history) now (radarWindowTake acc now).2 := by
  obtain ⟨outputs, ran⟩ := kept
  obtain ⟨fair, ordered, few⟩ := regular
  rw [radarSince_concat] at fair ordered few
  simp only [radarAfter, taken_take, window_take] at fair ordered few
  have account := accounts (fun event member => fair event (List.mem_append_left _ member))
    (fun frames member => few frames (by simp [member])) ran
  exact account.summarises (few _ (by simp)) fun event member =>
    (List.pairwise_append.mp ordered).2.2 event member (.take now) (List.mem_singleton_self _)

/-- A turn polls once, and the thirtieth goes on to the flush. -/
theorem pollTurn_reached {history : List NodeEvent} {s : Node} (x : Exchange)
    (here : s.main = .poll) (reached : Reached history s.sec .poll) :
    Reached (history ++ [.poll x]) (pollTurn s x).sec (pollTurn s x).main := by
  obtain ⟨polls, before⟩ := reached
  have period : storePeriodS = 30 := rfl
  have next : (s.sec + 1).toNat = s.sec.toNat + 1 := by
    rw [UInt32.toNat_add]
    exact Nat.mod_eq_of_lt (by change s.sec.toNat + 1 < 2 ^ 32; omega)
  have more : (pollsOf (airSince (history ++ [.poll x]))).length = s.sec.toNat + 1 := by
    simp [airAfter, polls]
  have due : s.sec + 1 ≥ UInt32.ofNat storePeriodS ↔ 30 ≤ s.sec.toNat + 1 := by
    rw [ge_iff_le, UInt32.le_iff_toNat_le, next]
    rfl
  rcases pollTurn_cases s x with ⟨full, turn⟩ | ⟨short, turn⟩
  · rw [turn]
    have whole := due.mp full
    exact ⟨by rw [more]; omega, rfl⟩
  · rw [turn]
    change Reached _ (s.sec + 1) s.main
    rw [here]
    have few := mt due.mpr short
    exact ⟨by rw [more, next], by rw [next]; omega⟩

theorem Kept.step {history : List NodeEvent} {s next : Node} {event : NodeEvent}
    {output : Option DeviceOutput} (kept : Kept history s)
    (regular : Regular (history ++ [event])) (step : NodeStep s event next output) :
    Kept (history ++ [event]) next := by
  cases step with
  | boot verdicts =>
      refine ⟨⟨[], ?_⟩, fun _ => rfl, fun other => absurd rfl other, fun _ => rfl⟩
      rw [radarSince_concat]
      rfl
  | startAir ready answer lit here =>
      refine ⟨kept.radar.other rfl, fun other => (by cases other), fun _ => ?_, fun _ => ?_⟩
      · rw [kept.dead here]
        exact AirKept.started ready answer
      · have zero := kept.reached lit
        rw [here] at zero
        have polled : pollsOf (airSince (history ++ [.startAir ready answer])) = [] := by
          simp [airAfter, pollsOf]
        exact ⟨by rw [polled, show s.sec = 0 from zero]; rfl,
          by rw [show s.sec = 0 from zero]; decide⟩
  | poll x lit here =>
      have reached := kept.reached lit
      rw [here] at reached
      have other : (pollTurn s x).main ≠ .startAir := by
        rcases pollTurn_cases s x with ⟨_, turn⟩ | ⟨_, turn⟩ <;> simp [turn, here]
      have same : (pollTurn s x).acc = s.acc ∧ (pollTurn s x).air = sen5xPoll s.air x := by
        rcases pollTurn_cases s x with ⟨_, turn⟩ | ⟨_, turn⟩ <;> simp [turn]
      refine ⟨?_, fun impossible => absurd impossible other, fun _ => ?_,
        fun _ => pollTurn_reached x here reached⟩
      · rw [same.1]
        exact kept.radar.other rfl
      · rw [same.2]
        exact (kept.air (by simp [here])).poll x
  | frame lit handled =>
      have stepped : Radar.radar.step s.acc (.frame _ _) = some (_, none) :=
        congrArg (Option.map fun acc => (acc, none)) handled
      exact ⟨kept.radar.step rfl stepped, kept.dead, fun other => (kept.air other).other rfl rfl,
        fun _ => (kept.reached lit).aside trivial⟩
  | takeRadar now lit here =>
      have reached := kept.reached lit
      rw [here] at reached
      refine ⟨kept.radar.step rfl rfl, fun other => (by cases other),
        fun _ => (kept.air (by simp [here])).other rfl rfl,
        fun _ => ⟨by simpa [airAfter] using reached.1, reached.2, ?_⟩⟩
      exact ⟨history, now, [], rfl, .nil, kept.radar.summarises regular⟩
  | takeAir x lit here =>
      have reached := kept.reached lit
      rw [here] at reached
      obtain ⟨air, airNext⟩ := (kept.air (by simp [here])).take reached.1 x
      refine ⟨kept.radar.other rfl, fun other => (by cases other), fun _ => airNext, fun _ => ?_⟩
      exact ⟨by simp [airAfter], reached.2.1, history, x, [], _, _, rfl, .nil, reached.2.2, air,
        rfl⟩
  | append uptime slot counter lit here =>
      have reached := kept.reached (by simp [lit])
      rw [here] at reached
      refine ⟨kept.radar.other rfl, fun other => (by cases other),
        fun _ => (kept.air (by simp [here])).other rfl rfl,
        fun _ => ⟨?_, by rw [reached.2.1]; decide⟩⟩
      have none_ : pollsOf (airSince (history ++ [.append uptime slot counter])) = [] := by
        simpa [airAfter] using reached.1
      rw [none_, reached.2.1]
      rfl
  | get seq lit =>
      exact ⟨kept.radar.other rfl, kept.dead, fun other => (kept.air other).other rfl rfl,
        fun powered => (kept.reached powered).aside trivial⟩
  | cut =>
      exact ⟨kept.radar.other rfl, kept.dead, fun other => (kept.air other).other rfl rfl,
        fun impossible => absurd rfl impossible⟩

theorem kept_off (nvs : Nvs) : Kept [] (Node.off nvs) :=
  ⟨⟨[], rfl⟩, fun _ => rfl, fun other => absurd rfl other, fun impossible => absurd rfl impossible⟩

theorem node_kept {nvs : Nvs} {events : List NodeEvent} {final : Node}
    {outputs : List (Option DeviceOutput)}
    (regular : ∀ history, history <+: events → Regular history)
    (ran : node.run (Node.off nvs) events = some (final, outputs)) : Kept events final := by
  have preserved : ∀ history (outputs : List (Option DeviceOutput)) s event next output,
      Kept history s → Regular (history ++ [event]) → node.step s event = some (next, output) →
      Kept (history ++ [event]) next :=
    fun _ _ _ _ _ _ kept regular stepped => kept.step regular (node_step stepped)
  have met : ∀ before event after (middle : Node) (made : List (Option DeviceOutput)),
      events = before ++ event :: after → node.run (Node.off nvs) before = some (middle, made) →
      Regular (before ++ [event]) :=
    fun before event after _ _ split _ => regular _ ⟨after, by rw [split]; simp⟩
  exact Machine.run_invariant_history preserved (kept_off nvs) met ran

/-! ## Records -/

def Sound (device : Device) (event : DeviceEvent) : Prop := Recorded event ∧ Numbered device event

def Undamaged (s : Node) (event : NodeEvent) : Prop :=
  ∀ other, deviceEvent s event = some other → Sound s.device other

/-- What comes out of an append is the record that was handed to it, numbered and dated. -/
theorem appendOnce_record {nvs : Nvs} {ram : StoreRam} {record handed : SntlRecord} {uptime : Nat}
    {slot counter : Verdict Nat} {err : Int}
    (appended : (appendOnce nvs ram handed uptime slot counter).2 = .appended record err) :
    record = { handed with seq := record.seq, ts := record.ts } := by
  have way := appendOnce_spec nvs ram handed uptime slot counter
  rw [appended] at way
  generalize (appendOnce nvs ram handed uptime slot counter).1 = device at way
  cases way <;> rfl

theorem NodeStep.appended {s next : Node} {event : NodeEvent} {record : SntlRecord} {err : Int}
    (step : NodeStep s event next (some (.appended record err))) :
    ∃ handed, s.device.ram ≠ none ∧ s.main = .append handed ∧
      record = { handed with seq := record.seq, ts := record.ts } := by
  generalize made : some (DeviceOutput.appended record err) = output at step
  cases step with
  | append uptime slot counter lit here =>
      exact ⟨_, by simp [lit], here, appendOnce_record (Option.some.inj made).symm⟩
  | boot verdicts dark =>
      rcases powerOn_cases s.device.nvs verdicts with ⟨_, _, _, ended, _⟩ | ⟨_, ended, _⟩ <;>
        rw [ended] at made <;> cases made
  | _ => cases made

theorem appended_of_given {outputs : List (Option DeviceOutput)} {device : Device}
    {record : SntlRecord} (faithful : Faithful (outputs.filterMap id) device)
    (given : record ∈ givenOf (outputs.filterMap id)) :
    ∃ index : Nat, outputs[index]? = some (some (.appended record 0)) := by
  obtain ⟨output, member, logged⟩ := List.mem_filterMap.mp (faithful.given record given)
  obtain ⟨made, inside, same⟩ := List.mem_filterMap.mp member
  obtain ⟨index, found⟩ := List.mem_iff_getElem?.mp inside
  refine ⟨index, ?_⟩
  rw [found]
  obtain rfl : made = some output := same
  cases output with
  | appended other err =>
      simp only [DeviceOutput.logged] at logged
      split at logged
      · next zero =>
          cases logged
          rw [zero]
      · cases logged
  | _ => cases logged

/--
The whole node: every record that comes out of `store_append` recounts the one
window of each sensor that ended just before it, every record that the store
gives to anybody is one of those, and while there is power the store answers
for the end of their log.
-/
theorem node_records {nvs : Nvs} (foreign : Foreign nvs) {events : List NodeEvent}
    {final : Node} {outputs : List (Option DeviceOutput)}
    (regular : ∀ history, history <+: events → Regular history)
    (undamaged : node.Guarded Undamaged (Node.off nvs) events)
    (ran : node.run (Node.off nvs) events = some (final, outputs)) :
    (∀ (index : Nat) record err, outputs[index]? = some (some (.appended record err)) →
      ∃ flushed, Recounts (events.take index) flushed ∧
        record = { flushed with seq := record.seq, ts := record.ts }) ∧
      (∀ record ∈ givenOf (outputs.filterMap id),
        ∃ index : Nat, outputs[index]? = some (some (.appended record 0))) ∧
      ∀ ram, final.device.ram = some ram →
        Answers (logOf (outputs.filterMap id)) ram final.device.nvs := by
  refine ⟨?_, ?_⟩
  · intro index record err found
    obtain ⟨event, middle, next, _, ranBefore, stepped⟩ := Machine.run_getElem? ran found
    have kept := node_kept (fun history inside => regular history
      (inside.trans (List.take_prefix index events))) ranBefore
    obtain ⟨handed, lit, at_, same⟩ := (node_step stepped).appended
    have reached := kept.reached lit
    rw [at_] at reached
    exact ⟨handed, reached.2.2, same⟩
  · have passes : ∀ s event deviceStep, Undamaged s event →
        deviceEvent s event = some deviceStep → Sound s.device deviceStep :=
      fun _ _ deviceStep met given => met deviceStep given
    obtain ⟨steps, ranDevice, met⟩ := node_contains.run passes undamaged ran
    have faithful := deviceMachine_faithful foreign (met.imp (fun _ _ both _ => both.1) met)
      (met.imp (fun _ _ both _ => both.2) met) ranDevice
    refine ⟨fun record given => appended_of_given faithful given, fun ram powered => ?_⟩
    have consistent := faithful.consistent
    generalize final.device = device at consistent powered
    obtain ⟨entries, held⟩ := device
    cases powered
    exact Answers.of_held consistent.2

def oneWindow : List NodeEvent :=
  [.startAir true 0, .frame presenceFrame 1000, .poll zeroWords] ++
    List.replicate 29 (.poll unanswered) ++ [.takeRadar 31000, .takeAir zeroWords]

def firstWindow : List NodeEvent :=
  .boot [] :: (oneWindow ++ [.append 31000 .ok .ok, .get 0])

theorem firstWindow_regular : Regular firstWindow := by
  have radar : radarSince firstWindow = [.frame presenceFrame 1000, .take 31000] := rfl
  refine ⟨?_, ?_, ?_⟩ <;> rw [radar]
  · intro event member
    simp only [List.mem_cons, List.not_mem_nil, or_false] at member
    rcases member with rfl | rfl
    · exact ⟨⟨by decide, by decide, by decide, by decide⟩, by decide⟩
    · trivial
  · simp [RadarEvent.now]
  · intro frames member
    simp only [taken, window, cut, List.foldl, List.nil_append, List.mem_append, List.mem_cons,
      List.not_mem_nil, or_false] at member
    rcases member with rfl | rfl <;> decide

theorem node_device {s final : Node} {events : List NodeEvent}
    {outputs : List (Option DeviceOutput)}
    (none_ : ∀ event ∈ events, ∀ s, deviceEvent s event = none)
    (ran : node.run s events = some (final, outputs)) : final.device = s.device := by
  induction events generalizing s outputs with
  | nil =>
      cases ran
      rfl
  | cons event rest ih =>
      obtain ⟨next, output, tail, stepped, ranRest, _⟩ := Machine.run_cons_eq_some.mp ran
      have kept := node_contains s event next output stepped
      rw [none_ event (List.mem_cons_self ..)] at kept
      rw [ih (fun other member => none_ other (List.mem_cons_of_mem _ member)) ranRest, kept.1]

theorem oneWindow_aside : ∀ event ∈ oneWindow, ∀ s, deviceEvent s event = none := by
  intro event member s
  simp only [oneWindow, List.mem_append, List.mem_cons, List.mem_replicate, List.not_mem_nil,
    or_false] at member
  rcases member with ((rfl | rfl | rfl) | ⟨_, rfl⟩) | (rfl | rfl) <;> rfl

theorem firstWindow_undamaged : node.Guarded Undamaged (Node.off .empty) firstWindow := by
  have booted : Undamaged (Node.off .empty) (.boot []) := by
    rintro other ⟨⟩
    exact ⟨by simp [Recorded], trivial⟩
  refine Machine.guarded_cons booted rfl (Machine.Guarded.append (Machine.guarded_of_all ?_ _) ?_)
  · intro event member s other given
    rw [oneWindow_aside event member s] at given
    cases given
  · intro middle outputs ran
    have same := node_device oneWindow_aside ran
    refine ⟨?_, fun _ _ _ => ⟨?_, fun _ _ _ => trivial⟩⟩
    · intro other given
      simp only [deviceEvent] at given
      split at given
      · cases given
        refine ⟨by simp [Recorded], fun ram powered => ?_⟩
        rw [same] at powered
        cases powered
        decide
      · cases given
    · rintro other ⟨⟩
      exact ⟨trivial, trivial⟩

theorem node_records_firstWindow :
    ∃ final outputs, node.run (Node.off .empty) firstWindow = some (final, outputs) ∧
      (∀ (index : Nat) record err, outputs[index]? = some (some (.appended record err)) →
        ∃ flushed, Recounts (firstWindow.take index) flushed ∧
          record = { flushed with seq := record.seq, ts := record.ts }) ∧
      (∀ record ∈ givenOf (outputs.filterMap id),
        ∃ index : Nat, outputs[index]? = some (some (.appended record 0))) ∧
      (logOf (outputs.filterMap id)).map SntlRecord.headcount = [1] ∧
      ∀ ram, final.device.ram = some ram →
        Answers (logOf (outputs.filterMap id)) ram final.device.nvs := by
  have regular : ∀ history, history <+: firstWindow → Regular history :=
    fun _ => firstWindow_regular.prefixes (by simp [oneWindow])
  refine ⟨_, _, rfl, ?_⟩
  have records := node_records (by decide) regular firstWindow_undamaged rfl
  exact ⟨records.1, records.2.1, rfl, records.2.2⟩

end PresenceNode.Main
