import PresenceNode.Main.Flush
import PresenceNode.Sen5x.Fold
import PresenceNode.Radar.Summary
import PresenceNode.Store.Recovery

/-!
# The whole node

`node` is `main` of `main.c` from `store_init` on, beside the radar thread.
The main loop takes its steps in order, a frame of the radar may be handled
between any two of them, a record may be read for a dump, and the power may be
cut at any time.  A boot starts from zeroed statics and the entries that are
left.  The sleeps, the prints, the probe mode and the start of the stack are
left out.
-/

namespace PresenceNode.Main

open Library Flash PresenceNode.Frame Radar Sen5x Store

inductive MainAt where
  /-- At `sen5x_start`. -/
  | startAir
  /-- At `sen5x_poll`. -/
  | poll
  /-- In `window_flush`, at `radar_window_take`. -/
  | takeRadar
  /-- At `sen5x_window_take`. -/
  | takeAir (w : RadarWindow)
  /-- At `store_append`. -/
  | append (record : SntlRecord)

structure Node where
  device : Device
  acc : Acc
  air : Sen5xStatics
  /-- `sec` -/
  sec : UInt32
  main : MainAt

inductive NodeEvent where
  | boot (verdicts : List (Verdict Nat))
  | startAir (ready : Bool) (answer : Int)
  | poll (x : Exchange)
  | frame (bytes : List UInt8) (now : Int)
  | takeRadar (now : Int)
  | takeAir (x : Exchange)
  | append (uptime : Nat) (slot counter : Verdict Nat)
  | get (seq : UInt32)
  | cut

def Node.off (nvs : Nvs) : Node := ⟨⟨nvs, none⟩, Acc.zero, Sen5xStatics.zero, 0, .startAir⟩

/-- A turn of the main loop up to the flush, which every `STORE_PERIOD_S`-th turn makes. -/
def pollTurn (s : Node) (x : Exchange) : Node :=
  let s := { s with air := sen5xPoll s.air x, sec := s.sec + 1 }
  if s.sec ≥ UInt32.ofNat storePeriodS then { s with sec := 0, main := .takeRadar } else s

theorem pollTurn_cases (s : Node) (x : Exchange) :
    (s.sec + 1 ≥ UInt32.ofNat storePeriodS ∧ pollTurn s x =
      { s with air := sen5xPoll s.air x, sec := 0, main := .takeRadar }) ∨
    (¬ s.sec + 1 ≥ UInt32.ofNat storePeriodS ∧ pollTurn s x =
      { s with air := sen5xPoll s.air x, sec := s.sec + 1 }) := by
  by_cases due : s.sec + 1 ≥ UInt32.ofNat storePeriodS
  · exact .inl ⟨due, if_pos due⟩
  · exact .inr ⟨due, if_neg due⟩

/-- A step that the state does not take is undefined. -/
def node : Machine Node NodeEvent (Option DeviceOutput) where
  step s event :=
    match s.device.ram, event, s.main with
    | none, .boot verdicts, _ =>
        let (device, output) := powerOn s.device.nvs verdicts
        some (⟨device, Acc.zero, Sen5xStatics.zero, 0, .startAir⟩, some output)
    | some _, .startAir ready answer, .startAir =>
        some ({ s with air := (sen5xStart s.air ready answer).1, main := .poll }, none)
    | some _, .poll x, .poll => some (pollTurn s x, none)
    | some _, .frame bytes now, _ =>
        (onFrame s.acc bytes now).map fun acc => ({ s with acc := acc }, none)
    | some _, .takeRadar now, .takeRadar =>
        let (acc, w) := radarWindowTake s.acc now
        some ({ s with acc := acc, main := .takeAir w }, none)
    | some _, .takeAir x, .takeAir w =>
        let (air, aq) := sen5xWindowTake s.air x
        some ({ s with air := air, main := .append (windowRecord w aq) }, none)
    | some ram, .append uptime slot counter, .append record =>
        let (device, output) := appendOnce s.device.nvs ram record uptime slot counter
        some ({ s with device := device, main := .poll }, some output)
    | some ram, .get seq, _ => some (s, some (.got (storeGet ram s.device.nvs seq)))
    | some _, .cut, _ => some ({ s with device := ⟨s.device.nvs, none⟩ }, some .lost)
    | _, _, _ => none

/-! ## What a step can do -/

inductive NodeStep (s : Node) : NodeEvent → Node → Option DeviceOutput → Prop where
  | boot (verdicts : List (Verdict Nat)) (dark : s.device.ram = none) :
      NodeStep s (.boot verdicts)
        ⟨(powerOn s.device.nvs verdicts).1, Acc.zero, Sen5xStatics.zero, 0, .startAir⟩
        (some (powerOn s.device.nvs verdicts).2)
  | startAir (ready : Bool) (answer : Int) (lit : s.device.ram ≠ none)
      (here : s.main = .startAir) :
      NodeStep s (.startAir ready answer)
        { s with air := (sen5xStart s.air ready answer).1, main := .poll } none
  | poll (x : Exchange) (lit : s.device.ram ≠ none) (here : s.main = .poll) :
      NodeStep s (.poll x) (pollTurn s x) none
  | frame {bytes : List UInt8} {now : Int} {acc : Acc} (lit : s.device.ram ≠ none)
      (handled : onFrame s.acc bytes now = some acc) :
      NodeStep s (.frame bytes now) { s with acc := acc } none
  | takeRadar (now : Int) (lit : s.device.ram ≠ none) (here : s.main = .takeRadar) :
      NodeStep s (.takeRadar now)
        { s with
          acc := (radarWindowTake s.acc now).1
          main := .takeAir (radarWindowTake s.acc now).2 } none
  | takeAir {w : RadarWindow} (x : Exchange) (lit : s.device.ram ≠ none)
      (here : s.main = .takeAir w) :
      NodeStep s (.takeAir x)
        { s with
          air := (sen5xWindowTake s.air x).1
          main := .append (windowRecord w (sen5xWindowTake s.air x).2) } none
  | append {ram : StoreRam} {record : SntlRecord} (uptime : Nat) (slot counter : Verdict Nat)
      (lit : s.device.ram = some ram) (here : s.main = .append record) :
      NodeStep s (.append uptime slot counter)
        { s with
          device := (appendOnce s.device.nvs ram record uptime slot counter).1
          main := .poll }
        (some (appendOnce s.device.nvs ram record uptime slot counter).2)
  | get {ram : StoreRam} (seq : UInt32) (lit : s.device.ram = some ram) :
      NodeStep s (.get seq) s (some (.got (storeGet ram s.device.nvs seq)))
  | cut (lit : s.device.ram ≠ none) :
      NodeStep s .cut { s with device := ⟨s.device.nvs, none⟩ } (some .lost)

theorem node_step {s next : Node} {event : NodeEvent} {output : Option DeviceOutput}
    (stepped : node.step s event = some (next, output)) : NodeStep s event next output := by
  simp only [node] at stepped
  split at stepped
  · next dark =>
      cases stepped
      exact .boot _ dark
  · next lit here =>
      cases stepped
      exact .startAir _ _ (by simp [lit]) here
  · next lit here =>
      cases stepped
      exact .poll _ (by simp [lit]) here
  · next lit =>
      obtain ⟨acc, handled, same⟩ := Option.map_eq_some_iff.mp stepped
      cases same
      exact .frame (by simp [lit]) handled
  · next lit here =>
      cases stepped
      exact .takeRadar _ (by simp [lit]) here
  · next lit here =>
      cases stepped
      exact .takeAir _ (by simp [lit]) here
  · next lit here =>
      cases stepped
      exact .append _ _ _ lit here
  · next lit =>
      cases stepped
      exact .get _ lit
  · next lit =>
      cases stepped
      exact .cut (by simp [lit])
  · cases stepped

theorem of_node_step {s next : Node} {event : NodeEvent} {output : Option DeviceOutput}
    (step : NodeStep s event next output) : node.step s event = some (next, output) := by
  have powered (lit : s.device.ram ≠ none) : ∃ ram, s.device.ram = some ram :=
    Option.ne_none_iff_exists'.mp lit
  cases step with
  | boot verdicts dark => simp only [node, dark]
  | startAir ready answer lit here =>
      obtain ⟨ram, on⟩ := powered lit
      simp only [node, on, here]
  | poll x lit here =>
      obtain ⟨ram, on⟩ := powered lit
      simp only [node, on, here]
  | frame lit handled =>
      obtain ⟨ram, on⟩ := powered lit
      simp only [node, on, handled, Option.map_some]
  | takeRadar now lit here =>
      obtain ⟨ram, on⟩ := powered lit
      simp only [node, on, here]
  | takeAir x lit here =>
      obtain ⟨ram, on⟩ := powered lit
      simp only [node, on, here]
  | append uptime slot counter lit here => simp only [node, lit, here]
  | get seq lit => simp only [node, lit]
  | cut lit =>
      obtain ⟨ram, on⟩ := powered lit
      simp only [node, on]

/-! ## The device in the node -/

def deviceEvent (s : Node) : NodeEvent → Option DeviceEvent
  | .boot verdicts => some (.boot verdicts)
  | .append uptime slot counter =>
      match s.main with
      | .append record => some (.append record uptime slot counter)
      | _ => none
  | .get seq => some (.get seq)
  | .cut => some .cut
  | _ => none

theorem node_contains : node.Contains deviceMachine Node.device deviceEvent id := by
  rintro ⟨⟨nvs, ram⟩, acc, air, sec, main⟩ event next output stepped
  cases node_step stepped with
  | boot verdicts dark =>
      cases dark
      exact ⟨_, rfl, rfl⟩
  | append uptime slot counter lit here =>
      cases lit
      cases here
      exact ⟨_, rfl, rfl⟩
  | get seq lit =>
      cases lit
      exact ⟨_, rfl, rfl⟩
  | cut lit =>
      obtain ⟨held, rfl⟩ := Option.ne_none_iff_exists'.mp lit
      exact ⟨_, rfl, rfl⟩
  | poll x =>
      refine ⟨?_, rfl⟩
      rcases pollTurn_cases ⟨⟨nvs, ram⟩, acc, air, sec, main⟩ x with ⟨_, turn⟩ | ⟨_, turn⟩ <;>
        rw [turn]
  | _ => exact ⟨rfl, rfl⟩

end PresenceNode.Main
