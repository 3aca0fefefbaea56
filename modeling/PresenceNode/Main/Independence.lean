import PresenceNode.Library.Observation
import PresenceNode.Main.Account
import PresenceNode.Store.Likeness

/-!
# The two sensors do not disturb each other

What a record says of the radar, with its number, its time and its flags but
the one for the air sensor, is the same whatever the bus of the air sensor
answers.  What it says of the air sensor is the same whatever frames the radar
sends, and whenever they are handled.
-/

namespace PresenceNode.Main

open Library Flash PresenceNode.Frame Radar Sen5x Store

/-! ## Views -/

def radarView (record : SntlRecord) : SntlRecord :=
  { record with
    flags := record.flags &&& ~~~ sntlFlagAqFault
    pm25 := 0
    pm10 := 0
    temp := 0
    rh := 0
    voc := 0 }

def airView (record : SntlRecord) : SntlRecord :=
  { record with
    flags := record.flags &&& sntlFlagAqFault
    headcount := 0
    occS := 0
    dwellS := 0 }

theorem radarView_transparent : Transparent radarView := fun _ _ _ => rfl

theorem airView_transparent : Transparent airView := fun _ _ _ => rfl

theorem radarView_windowRecord (w : RadarWindow) (aq other : Sen5xWindow) :
    radarView (windowRecord w aq) = radarView (windowRecord w other) := by
  have flags : windowFlags w aq &&& ~~~ sntlFlagAqFault =
      windowFlags w other &&& ~~~ sntlFlagAqFault := by
    unfold windowFlags
    cases w.alive <;> cases w.tracker <;> cases aq.alive <;> cases other.alive <;> decide
  rw [radarView, windowRecord, flags]
  rfl

theorem airView_windowRecord (w other : RadarWindow) (aq : Sen5xWindow) :
    airView (windowRecord w aq) = airView (windowRecord other aq) := by
  have flags : windowFlags w aq &&& sntlFlagAqFault =
      windowFlags other aq &&& sntlFlagAqFault := by
    unfold windowFlags
    cases w.alive <;> cases w.tracker <;> cases other.alive <;> cases other.tracker <;>
      cases aq.alive <;> decide
  rw [airView, windowRecord, flags]
  rfl

/-! ## Observers -/

def silent : Exchange := ⟨0, 0, fun _ => 0⟩

def NodeEvent.withoutBus : NodeEvent → NodeEvent
  | .startAir _ _ => .startAir false 0
  | .poll _ => .poll silent
  | .takeAir _ => .takeAir silent
  | event => event

/-- An event without the radar: a frame is not there, and a take has no time. -/
def NodeEvent.withoutRadar : NodeEvent → Option NodeEvent
  | .frame _ _ => none
  | .takeRadar _ => some (.takeRadar 0)
  | event => some event

theorem withoutRadar_again (events : List NodeEvent) :
    (events.filterMap NodeEvent.withoutRadar).filterMap NodeEvent.withoutRadar =
      events.filterMap NodeEvent.withoutRadar := by
  rw [List.filterMap_filterMap]
  refine List.filterMap_congr fun event _ => ?_
  cases event <;> rfl

def radarObserver : Observer NodeEvent (Option DeviceOutput) NodeEvent (Option DeviceOutput) where
  input event := some event.withoutBus
  output output := some (output.map (DeviceOutput.through radarView))

def airObserver : Observer NodeEvent (Option DeviceOutput) NodeEvent DeviceOutput where
  input := NodeEvent.withoutRadar
  output output := output.map (DeviceOutput.through airView)

def MainAlike (windows : RadarWindow → RadarWindow → Prop) (view : SntlRecord → SntlRecord) :
    MainAt → MainAt → Prop
  | .startAir, .startAir => True
  | .poll, .poll => True
  | .takeRadar, .takeRadar => True
  | .takeAir w, .takeAir other => windows w other
  | .append record, .append other => view record = view other
  | _, _ => False

/-- Two nodes that differ in the air sensor alone. -/
structure RadarAlike (one other : Node) : Prop where
  device : DeviceAlike radarView one.device other.device
  acc : one.acc = other.acc
  sec : one.sec = other.sec
  main : MainAlike Eq radarView one.main other.main

/-- Two nodes that differ in the radar alone. -/
structure AirAlike (one other : Node) : Prop where
  device : DeviceAlike airView one.device other.device
  air : one.air = other.air
  sec : one.sec = other.sec
  main : MainAlike (fun _ _ => True) airView one.main other.main

section Alike

variable {windows : RadarWindow → RadarWindow → Prop} {view : SntlRecord → SntlRecord}
  {one other : MainAt}

theorem MainAlike.symm (alike : MainAlike windows view one other)
    (windows_symm : ∀ w v, windows w v → windows v w) : MainAlike windows view other one := by
  cases one <;> cases other <;> first
    | exact alike.elim
    | trivial
    | exact windows_symm _ _ alike
    | exact Eq.symm alike

end Alike

theorem RadarAlike.symm {one other : Node} (alike : RadarAlike one other) :
    RadarAlike other one :=
  ⟨alike.device.symm, alike.acc.symm, alike.sec.symm, alike.main.symm fun _ _ => Eq.symm⟩

theorem AirAlike.symm {one other : Node} (alike : AirAlike one other) : AirAlike other one :=
  ⟨alike.device.symm, alike.air.symm, alike.sec.symm, alike.main.symm fun _ _ _ => trivial⟩

/-! ## The radar's side -/

theorem RadarAlike.pollTurn {one other : Node} (alike : RadarAlike one other) (x y : Exchange) :
    RadarAlike (pollTurn one x) (pollTurn other y) := by
  rcases pollTurn_cases one x with ⟨due, turn⟩ | ⟨short, turn⟩ <;>
    rcases pollTurn_cases other y with ⟨dueOther, turnOther⟩ | ⟨shortOther, turnOther⟩ <;>
      rw [turn, turnOther]
  · exact ⟨alike.device, alike.acc, rfl, trivial⟩
  · exact absurd (alike.sec ▸ due) shortOther
  · exact absurd (alike.sec ▸ dueOther) short
  · exact ⟨alike.device, alike.acc, congrArg (· + 1) alike.sec, alike.main⟩

theorem RadarAlike.step {one other nextOne nextOther : Node} {event same : NodeEvent}
    {outputOne outputOther : Option DeviceOutput} (alike : RadarAlike one other)
    (looks : event.withoutBus = same.withoutBus) (stepOne : NodeStep one event nextOne outputOne)
    (stepOther : NodeStep other same nextOther outputOther) :
    RadarAlike nextOne nextOther ∧
      outputOne.map (DeviceOutput.through radarView) =
        outputOther.map (DeviceOutput.through radarView) := by
  cases stepOne with
  | boot verdicts dark =>
      cases stepOther with
      | boot _ darkOther =>
          cases looks
          obtain ⟨device, output⟩ := powerOn_alike alike.device.nvs verdicts
          exact ⟨⟨device, rfl, rfl, trivial⟩, by rw [output]⟩
      | _ => cases looks
  | startAir ready answer lit here =>
      cases stepOther with
      | startAir => exact ⟨⟨alike.device, alike.acc, alike.sec, trivial⟩, rfl⟩
      | _ => cases looks
  | poll x lit here =>
      cases stepOther with
      | poll y => exact ⟨alike.pollTurn x y, rfl⟩
      | _ => cases looks
  | frame lit handled =>
      cases stepOther with
      | frame litOther handledOther =>
          cases looks
          rw [alike.acc, handledOther] at handled
          cases handled
          exact ⟨⟨alike.device, rfl, alike.sec, alike.main⟩, rfl⟩
      | _ => cases looks
  | takeRadar now lit here =>
      cases stepOther with
      | takeRadar =>
          cases looks
          rw [alike.acc]
          exact ⟨⟨alike.device, rfl, alike.sec, rfl⟩, rfl⟩
      | _ => cases looks
  | takeAir x lit here =>
      cases stepOther with
      | takeAir y litOther hereOther =>
          have windows := alike.main
          rw [here, hereOther] at windows
          cases windows
          exact ⟨⟨alike.device, alike.acc, alike.sec, radarView_windowRecord _ _ _⟩, rfl⟩
      | _ => cases looks
  | append uptime slot counter lit here =>
      cases stepOther with
      | append _ _ _ litOther hereOther =>
          cases looks
          have records := alike.main
          rw [here, hereOther] at records
          have statics := alike.device.ram
          rw [lit, litOther] at statics
          cases statics
          obtain ⟨device, output⟩ := appendOnce_alike radarView_transparent alike.device.nvs
            records _ uptime slot counter
          exact ⟨⟨device, alike.acc, alike.sec, trivial⟩, congrArg some output⟩
      | _ => cases looks
  | get seq lit =>
      cases stepOther with
      | get _ litOther =>
          cases looks
          have statics := alike.device.ram
          rw [lit, litOther] at statics
          cases statics
          exact ⟨alike, congrArg (some ∘ DeviceOutput.got)
            (storeGet_alike radarView_transparent alike.device.nvs _ seq)⟩
      | _ => cases looks
  | cut lit =>
      cases stepOther with
      | cut => exact ⟨⟨⟨rfl, alike.device.nvs⟩, alike.acc, alike.sec, alike.main⟩, rfl⟩
      | _ => cases looks

theorem RadarAlike.takes {one other nextOne : Node} {event same : NodeEvent}
    {output : Option DeviceOutput} (alike : RadarAlike one other)
    (looks : event.withoutBus = same.withoutBus) (step : NodeStep one event nextOne output) :
    ∃ nextOther outputOther, NodeStep other same nextOther outputOther := by
  have lit' : one.device.ram ≠ none → other.device.ram ≠ none := fun lit => alike.device.ram ▸ lit
  have places := alike.main
  cases step with
  | boot verdicts dark =>
      cases same with
      | boot verdicts => exact ⟨_, _, .boot _ (alike.device.ram ▸ dark)⟩
      | _ => cases looks
  | startAir ready answer lit here =>
      cases same with
      | startAir ready answer =>
          cases there : other.main <;> rw [here, there] at places <;> first
            | exact places.elim
            | exact ⟨_, _, .startAir _ _ (lit' lit) there⟩
      | _ => cases looks
  | poll x lit here =>
      cases same with
      | poll y =>
          cases there : other.main <;> rw [here, there] at places <;> first
            | exact places.elim
            | exact ⟨_, _, .poll _ (lit' lit) there⟩
      | _ => cases looks
  | frame lit handled =>
      cases same with
      | frame bytes now =>
          cases looks
          exact ⟨_, _, .frame (lit' lit) (alike.acc ▸ handled)⟩
      | _ => cases looks
  | takeRadar now lit here =>
      cases same with
      | takeRadar now =>
          cases there : other.main <;> rw [here, there] at places <;> first
            | exact places.elim
            | exact ⟨_, _, .takeRadar _ (lit' lit) there⟩
      | _ => cases looks
  | takeAir x lit here =>
      cases same with
      | takeAir y =>
          cases there : other.main <;> rw [here, there] at places <;> first
            | exact places.elim
            | exact ⟨_, _, .takeAir _ (lit' lit) there⟩
      | _ => cases looks
  | append uptime slot counter lit here =>
      cases same with
      | append =>
          cases there : other.main <;> rw [here, there] at places <;> first
            | exact places.elim
            | exact ⟨_, _, .append _ _ _ (alike.device.ram ▸ lit) there⟩
      | _ => cases looks
  | get seq lit =>
      cases same with
      | get => exact ⟨_, _, .get _ (alike.device.ram ▸ lit)⟩
      | _ => cases looks
  | cut lit =>
      cases same with
      | cut => exact ⟨_, _, .cut (lit' lit)⟩
      | _ => cases looks

theorem radar_unwinding : Unwinding node radarObserver RadarAlike where
  symm _ _ alike := alike.symm
  hidden _ _ _ _ _ _ impossible := nomatch impossible
  seen _ _ _ _ _ _ _ _ alike looks _ stepOne stepOther := by
    obtain ⟨after, shown⟩ :=
      alike.step (Option.some.inj looks) (node_step stepOne) (node_step stepOther)
    exact ⟨after, congrArg some shown⟩

theorem RadarAlike.off (nvs : Nvs) : RadarAlike (Node.off nvs) (Node.off nvs) :=
  ⟨⟨rfl, Alike.refl (looksLike_refl _) _⟩, rfl, rfl, trivial⟩

/--
Whatever the bus of the air sensor answers instead, the node goes on as it did,
and each record and each answer of the store says the same of the radar.
-/
theorem radar_independent {nvs : Nvs} {events others : List NodeEvent} {final : Node}
    {outputs : List (Option DeviceOutput)}
    (same : events.map NodeEvent.withoutBus = others.map NodeEvent.withoutBus)
    (ran : node.run (Node.off nvs) events = some (final, outputs)) :
    ∃ finalOther outputsOther,
      node.run (Node.off nvs) others = some (finalOther, outputsOther) ∧
        outputs.map (Option.map (DeviceOutput.through radarView)) =
          outputsOther.map (Option.map (DeviceOutput.through radarView)) := by
  have inputs (list : List NodeEvent) :
      list.filterMap radarObserver.input = list.map NodeEvent.withoutBus :=
    congrFun List.filterMap_eq_map list
  have asked (list : List NodeEvent) :
      list.map radarObserver.input = (list.map NodeEvent.withoutBus).map some := by
    rw [List.map_map]
    rfl
  have shown (list : List (Option DeviceOutput)) : list.filterMap radarObserver.output =
      list.map (Option.map (DeviceOutput.through radarView)) :=
    congrFun List.filterMap_eq_map list
  have takes : ∀ one other event replaced next output, RadarAlike one other →
      radarObserver.input event = radarObserver.input replaced →
      node.step one event = some (next, output) →
      ∃ nextOther outputOther, node.step other replaced = some (nextOther, outputOther) := by
    intro one other event replaced next output alike looks stepped
    obtain ⟨nextOther, outputOther, step⟩ :=
      alike.takes (Option.some.inj looks) (node_step stepped)
    exact ⟨nextOther, outputOther, of_node_step step⟩
  have replaced : events.map radarObserver.input = others.map radarObserver.input := by
    rw [asked, asked, same]
  have looks : events.filterMap radarObserver.input = others.filterMap radarObserver.input := by
    rw [inputs, inputs, same]
  obtain ⟨finalOther, outputsOther, ranOther⟩ := radar_unwinding.run_defined takes
    (RadarAlike.off nvs) (fun _ _ => rfl) replaced ran
  refine ⟨finalOther, outputsOther, ranOther, ?_⟩
  have equal := (radar_unwinding.run (RadarAlike.off nvs) ran ranOther looks).2
  rwa [shown, shown] at equal

/-- The first window again, on a bus that never answers. -/
theorem radar_independent_silent :
    ∃ final outputs, node.run (Node.off .empty) firstWindow = some (final, outputs) ∧
      ∃ finalOther outputsOther,
        node.run (Node.off .empty) (firstWindow.map NodeEvent.withoutBus) =
            some (finalOther, outputsOther) ∧
          outputs.map (Option.map (DeviceOutput.through radarView)) =
            outputsOther.map (Option.map (DeviceOutput.through radarView)) := by
  obtain ⟨final, outputs, ran⟩ : ∃ final outputs,
      node.run (Node.off .empty) firstWindow = some (final, outputs) := ⟨_, _, rfl⟩
  exact ⟨final, outputs, ran,
    radar_independent (by simp [firstWindow, oneWindow, NodeEvent.withoutBus]) ran⟩

/-! ## The air sensor's side -/

theorem AirAlike.pollTurn {one other : Node} (alike : AirAlike one other) (x : Exchange) :
    AirAlike (pollTurn one x) (pollTurn other x) := by
  have air : sen5xPoll one.air x = sen5xPoll other.air x := by rw [alike.air]
  rcases pollTurn_cases one x with ⟨due, turn⟩ | ⟨short, turn⟩ <;>
    rcases pollTurn_cases other x with ⟨dueOther, turnOther⟩ | ⟨shortOther, turnOther⟩ <;>
      rw [turn, turnOther]
  · exact ⟨alike.device, air, rfl, trivial⟩
  · exact absurd (alike.sec ▸ due) shortOther
  · exact absurd (alike.sec ▸ dueOther) short
  · exact ⟨alike.device, air, congrArg (· + 1) alike.sec, alike.main⟩

theorem AirAlike.frame {one other next : Node} {event : NodeEvent} {output : Option DeviceOutput}
    (alike : AirAlike one other) (looks : event.withoutRadar = none)
    (step : NodeStep one event next output) : AirAlike next other ∧ output = none := by
  cases step with
  | frame lit handled => exact ⟨⟨alike.device, alike.air, alike.sec, alike.main⟩, rfl⟩
  | _ => cases looks

theorem AirAlike.step {one other nextOne nextOther : Node} {event same : NodeEvent}
    {outputOne outputOther : Option DeviceOutput} (alike : AirAlike one other)
    (looks : event.withoutRadar = same.withoutRadar) (visible : event.withoutRadar.isSome = true)
    (stepOne : NodeStep one event nextOne outputOne)
    (stepOther : NodeStep other same nextOther outputOther) :
    AirAlike nextOne nextOther ∧
      outputOne.map (DeviceOutput.through airView) =
        outputOther.map (DeviceOutput.through airView) := by
  cases stepOne with
  | boot verdicts dark =>
      cases stepOther with
      | boot _ darkOther =>
          cases looks
          obtain ⟨device, output⟩ := powerOn_alike alike.device.nvs verdicts
          exact ⟨⟨device, rfl, rfl, trivial⟩, by rw [output]⟩
      | _ => cases looks
  | startAir ready answer lit here =>
      cases stepOther with
      | startAir =>
          cases looks
          rw [alike.air]
          exact ⟨⟨alike.device, rfl, alike.sec, trivial⟩, rfl⟩
      | _ => cases looks
  | poll x lit here =>
      cases stepOther with
      | poll =>
          cases looks
          exact ⟨alike.pollTurn x, rfl⟩
      | _ => cases looks
  | frame lit handled => cases visible
  | takeRadar now lit here =>
      cases stepOther with
      | takeRadar => exact ⟨⟨alike.device, alike.air, alike.sec, trivial⟩, rfl⟩
      | _ => cases looks
  | takeAir x lit here =>
      cases stepOther with
      | takeAir =>
          cases looks
          rw [alike.air]
          exact ⟨⟨alike.device, rfl, alike.sec, airView_windowRecord _ _ _⟩, rfl⟩
      | _ => cases looks
  | append uptime slot counter lit here =>
      cases stepOther with
      | append _ _ _ litOther hereOther =>
          cases looks
          have records := alike.main
          rw [here, hereOther] at records
          have statics := alike.device.ram
          rw [lit, litOther] at statics
          cases statics
          obtain ⟨device, output⟩ := appendOnce_alike airView_transparent alike.device.nvs
            records _ uptime slot counter
          exact ⟨⟨device, alike.air, alike.sec, trivial⟩, congrArg some output⟩
      | _ => cases looks
  | get seq lit =>
      cases stepOther with
      | get _ litOther =>
          cases looks
          have statics := alike.device.ram
          rw [lit, litOther] at statics
          cases statics
          exact ⟨alike, congrArg (some ∘ DeviceOutput.got)
            (storeGet_alike airView_transparent alike.device.nvs _ seq)⟩
      | _ => cases looks
  | cut lit =>
      cases stepOther with
      | cut => exact ⟨⟨⟨rfl, alike.device.nvs⟩, alike.air, alike.sec, alike.main⟩, rfl⟩
      | _ => cases looks

theorem air_unwinding : Unwinding node airObserver AirAlike where
  symm _ _ alike := alike.symm
  hidden _ _ _ _ _ alike looks stepped := by
    obtain ⟨after, rfl⟩ := alike.frame looks (node_step stepped)
    exact ⟨after, rfl⟩
  seen _ _ _ _ _ _ _ _ alike looks visible stepOne stepOther :=
    alike.step looks visible (node_step stepOne) (node_step stepOther)

/--
Two runs that differ in the frames of the radar, in where they fall, and in the
times of the takes give the same records and the same answers of the store, as
far as the air sensor, the numbers and the times go.
-/
theorem air_independent {nvs : Nvs} {events others : List NodeEvent} {final finalOther : Node}
    {outputs outputsOther : List (Option DeviceOutput)}
    (same : events.filterMap NodeEvent.withoutRadar = others.filterMap NodeEvent.withoutRadar)
    (ran : node.run (Node.off nvs) events = some (final, outputs))
    (ranOther : node.run (Node.off nvs) others = some (finalOther, outputsOther)) :
    outputs.filterMap (Option.map (DeviceOutput.through airView)) =
      outputsOther.filterMap (Option.map (DeviceOutput.through airView)) := by
  have off : AirAlike (Node.off nvs) (Node.off nvs) :=
    ⟨⟨rfl, Alike.refl (looksLike_refl _) _⟩, rfl, rfl, trivial⟩
  exact (air_unwinding.run off ran ranOther same).2

/-- The first window again, without its frame. -/
theorem air_independent_frameless :
    ∃ final outputs finalOther outputsOther,
      node.run (Node.off .empty) firstWindow = some (final, outputs) ∧
        node.run (Node.off .empty) (firstWindow.filterMap NodeEvent.withoutRadar) =
          some (finalOther, outputsOther) ∧
        outputs.filterMap (Option.map (DeviceOutput.through airView)) =
          outputsOther.filterMap (Option.map (DeviceOutput.through airView)) := by
  obtain ⟨final, outputs, ran⟩ : ∃ final outputs,
      node.run (Node.off .empty) firstWindow = some (final, outputs) := ⟨_, _, rfl⟩
  obtain ⟨finalOther, outputsOther, ranOther⟩ : ∃ final outputs,
      node.run (Node.off .empty) (firstWindow.filterMap NodeEvent.withoutRadar) =
        some (final, outputs) := ⟨_, _, rfl⟩
  exact ⟨final, outputs, finalOther, outputsOther, ran, ranOther, air_independent
    (withoutRadar_again _).symm ran ranOther⟩

end PresenceNode.Main
