import Mathlib.Data.List.Infix
import PresenceNode.Errno

/-!
# The command line of the radar

The link from the demo is a queue of bytes, each with the time from which it
can be read; a byte waits for those before it.  Characters of an echo that
arrive while the line is still being written count as arriving at its end,
since nothing is read before.  A read takes no time.  A sleep takes its length
at least, and may be late by any time; what `uart_poll_out` takes is part of
what the sleep behind it is late.  What `cli_wait` only prints is left out.
-/

namespace PresenceNode.Radar

def ascii (text : String) : List UInt8 := text.toList.map fun c => UInt8.ofNat c.toNat

def radarPrompt : List UInt8 := ascii "mmwDemo:/>"

def doneWord : List UInt8 := ascii "Done"

/-- A byte on its way, and when it is there. -/
structure Arrival where
  due : Nat
  byte : UInt8

/-- `k_uptime_get`, and by how much each of the sleeps to come will be late. -/
structure Clock where
  now : Nat
  late : Nat → Nat

def Clock.sleep (clock : Clock) (ms : Nat) : Clock :=
  ⟨clock.now + ms + clock.late 0, fun later => clock.late (later + 1)⟩

/-- The clock, and what will ever be in `rx_rb` of the bytes sent so far. -/
structure Uart extends Clock where
  rx : List Arrival

/-- The link at the start, when every sleep is on time. -/
def Uart.zero : Uart := ⟨⟨0, fun _ => 0⟩, []⟩

def ringBufGet (u : Uart) : Option (UInt8 × Uart) :=
  match u.rx with
  | [] => none
  | first :: rest => if first.due ≤ u.now then some (first.byte, { u with rx := rest }) else none

theorem ringBufGet_eq_some {u next : Uart} {b : UInt8} (got : ringBufGet u = some (b, next)) :
    ∃ due, u.rx = ⟨due, b⟩ :: next.rx ∧ due ≤ u.now ∧ next.toClock = u.toClock := by
  unfold ringBufGet at got
  split at got
  · cases got
  · next first rest queued =>
      split at got
      · next there =>
          cases got
          exact ⟨first.due, queued, there, rfl⟩
      · cases got

/-- Nothing is read while nothing is queued, or the first byte is not there yet. -/
theorem ringBufGet_eq_none {u : Uart} (nothing : ringBufGet u = none) :
    ∀ first ∈ u.rx.head?, u.now < first.due := by
  intro first queued
  unfold ringBufGet at nothing
  split at nothing
  · next empty =>
      rw [empty] at queued
      cases queued
  · next other rest there =>
      rw [there] at queued
      cases queued
      split at nothing
      · cases nothing
      · next later => exact Nat.lt_of_not_le later

def cliDrain (u : Uart) : Uart := { u with rx := u.rx.dropWhile fun first => first.due ≤ u.now }

def kMsleep (u : Uart) (ms : Nat) : Uart := { u with toClock := u.toClock.sleep ms }

/-- One character per millisecond. -/
def cliWrite (u : Uart) (s : List UInt8) : Uart := s.foldl (fun u _ => kMsleep u 1) u

/-- `strstr`, which does not look past a zero. -/
def strstr (buf word : List UInt8) : Bool := decide (word <:+: buf.takeWhile (· ≠ 0))

/-- `buf[0..fill)` and `done` in `cli_wait`. -/
structure Heard where
  buf : List UInt8
  done : Bool

/-- Slide, keeping a tail longer than either token so one straddling the boundary is not lost. -/
def slide (buf : List UInt8) : List UInt8 :=
  if buf.length ≥ 96 - 1 then buf.drop (buf.length - 16) else buf

/-- What `cli_wait` does with a byte; the second part is whether the prompt has come back. -/
def hear (heard : Heard) (b : UInt8) : Heard × Bool :=
  let buf := heard.buf ++ [b]
  let done := heard.done || strstr buf doneWord
  (⟨slide buf, done⟩, strstr buf radarPrompt)

def cliWaitLoop (deadline : Nat) : Nat → Uart → Heard → Option (Bool × Uart)
  | 0, _, _ => none
  | turns + 1, u, heard =>
      if u.now < deadline then
        match ringBufGet u with
        | none => cliWaitLoop deadline turns (kMsleep u 2) heard
        | some (b, u) =>
            let (heard, prompt) := hear heard b
            if prompt then some (heard.done, u) else cliWaitLoop deadline turns u heard
      else some (heard.done, u)

def cliWait (u : Uart) (timeoutMs : Nat) : Option (Bool × Uart) :=
  cliWaitLoop (u.now + timeoutMs) (u.rx.length + timeoutMs + 1) u ⟨[], false⟩

/-- What is sent comes after all that was sent before, so many milliseconds from now. -/
def sends (u : Uart) (bytes : List (Nat × UInt8)) : Uart :=
  { u with rx := u.rx ++ bytes.map fun sent => ⟨u.now + sent.1, sent.2⟩ }

/-! ## Sleeps -/

theorem kMsleep_now (u : Uart) (ms : Nat) : (kMsleep u ms).now = u.now + ms + u.late 0 := rfl

@[simp] theorem kMsleep_rx (u : Uart) (ms : Nat) : (kMsleep u ms).rx = u.rx := rfl

@[simp] theorem cliDrain_clock (u : Uart) : (cliDrain u).toClock = u.toClock := rfl

@[simp] theorem sends_clock (u : Uart) (bytes : List (Nat × UInt8)) :
    (sends u bytes).toClock = u.toClock := rfl

@[simp] theorem cliWrite_rx (u : Uart) (s : List UInt8) : (cliWrite u s).rx = u.rx := by
  induction s generalizing u with
  | nil => rfl
  | cons c rest ih => exact ih (kMsleep u 1)

theorem cliWrite_now (u : Uart) (s : List UInt8) : u.now + s.length ≤ (cliWrite u s).now := by
  induction s generalizing u with
  | nil => exact Nat.le_refl _
  | cons c rest ih =>
      have later := ih (kMsleep u 1)
      rw [kMsleep_now] at later
      change _ ≤ (cliWrite (kMsleep u 1) rest).now
      rw [List.length_cons]
      omega

def Clock.Within (most : Nat) (clock : Clock) : Prop := ∀ later, clock.late later ≤ most

theorem Clock.Within.sleep {most : Nat} {clock : Clock} (within : clock.Within most) (ms : Nat) :
    (clock.sleep ms).Within most := fun later => within (later + 1)

theorem cliWrite_within {most : Nat} {u : Uart} (within : u.Within most) (s : List UInt8) :
    (cliWrite u s).Within most ∧ (cliWrite u s).now ≤ u.now + s.length * (1 + most) := by
  induction s generalizing u with
  | nil => exact ⟨within, Nat.le_add_right _ _⟩
  | cons c rest ih =>
      obtain ⟨still, written⟩ := @ih (kMsleep u 1) (within.sleep 1)
      have first := within 0
      refine ⟨still, written.trans ?_⟩
      rw [kMsleep_now, List.length_cons, Nat.succ_mul]
      omega

/-! ## Calls -/

/-- A line, the time it is given, and how the demo answers it. -/
structure Call where
  line : String
  timeoutMs : Nat
  reply : List (Nat × UInt8)

def Call.written (call : Call) : List UInt8 := ascii call.line ++ [10]

def cliLine (u : Uart) (call : Call) : Option (Bool × Uart) :=
  cliWait (sends (cliWrite (cliDrain u) call.written) call.reply) call.timeoutMs

/-- A call that was made, where it was made, and what it returned. -/
structure Verdict where
  uart : Uart
  call : Call
  ok : Bool

/-- The demo: an answer to each line in turn, and what it says when it boots. -/
structure Demo where
  replies : Nat → String → List (Nat × UInt8)
  banner : List (Nat × UInt8)

def callLine (demo : Demo) (u : Uart) (number : Nat) (line : String) (timeoutMs : Nat) :
    Option (Verdict × Uart) :=
  let call : Call := ⟨line, timeoutMs, demo.replies number line⟩
  (cliLine u call).map fun result => (⟨u, call, result.1⟩, result.2)

def radarReset (demo : Demo) (u : Uart) : Option (List Verdict × Uart) := do
  let (stop, u) ← callLine demo u 0 "sensorStop 0" 2000
  let (warm, u) ← callLine demo u 1 "sensorWarmRst 0" 2000
  let u := kMsleep u 20
  let u := cliDrain (kMsleep (sends u demo.banner) 2000)
  let (half, u) ← callLine demo u 2 "" 500
  some ([stop, warm, half], u)

def cfgLines : List String := [
  "sensorStop 0",
  "channelCfg 7 3 0",
  "chirpComnCfg 8 0 0 256 4 23 2",
  "chirpTimingCfg 6 24 0 75 60.5",
  "frameCfg 2 4 600 4 250 0",
  "guiMonitor 2 0 0 0 0 1 1 0 1 0 0 0",
  "sigProcChainCfg 64 4 3 2 4 4 0 0.5",
  "cfarCfg 2 8 4 3 0 15 0 0.5 0 1 1 1",
  "aoaFovCfg -70 70 -60 60",
  "rangeSelCfg 0.25 7.5",
  "clutterRemoval 1",
  "compRangeBiasAndRxChanPhase 0.0 1.00000 0.00000 -1.00000 0.00000 1.00000 0.00000 " ++
    "-1.00000 0.00000 1.00000 0.00000 -1.00000 0.00000",
  "adcDataSource 0 adc_data_0001_CtestAdc6Ant.bin",
  "adcLogging 0",
  "lowPowerCfg 0",
  "factoryCalibCfg 1 0 36 3 0x1ff000",
  "sensorPosition 0 0 1.5 0 0",
  "mpdBoundaryBox 1 -3.5 3.5 0 7 0 3",
  "minorStateCfg 4 3 12 8 5 20 4 20",
  "clusterCfg 1 1 2",
  "trackingCfg 1 2 100 3 61.4 191.8 250",
  "sensorStart 0 0 0 0"]

def isStart (line : String) : Bool := (ascii "sensorStart").isPrefixOf (ascii line)

/-- What `radar_configure` returns, and the calls that it has made. -/
structure Configured where
  result : Int
  calls : List Verdict
  uart : Uart

def configureLoop (demo : Demo) : List String → Nat → List Verdict → Uart → Option Configured
  | [], _, calls, u => some ⟨0, calls, u⟩
  | line :: rest, number, calls, u => do
      let (verdict, u) ← callLine demo u number line (if isStart line then 15000 else 3000)
      let calls := calls ++ [verdict]
      if verdict.ok then configureLoop demo rest (number + 1) calls u
      else if isStart line then some ⟨eio, calls, u⟩
      else configureLoop demo rest (number + 1) calls u

def radarConfigure (demo : Demo) (u : Uart) : Option Configured := do
  let (calls, u) ← radarReset demo u
  configureLoop demo cfgLines 3 calls u

end PresenceNode.Radar
