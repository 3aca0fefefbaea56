import Mathlib.Algebra.GroupWithZero.Nat
import PresenceNode.Library.Fifo
import PresenceNode.Radar.Summary
import PresenceNode.Tlv.Refinement

/-!
# The link to the radar

The interrupt handler puts what the uart has received into `rx_rb`, and the
radar thread takes it out: byte by byte while it configures the radar, and in
chunks while the radar streams.  The ring buffer of the kernel is a parameter.

Between any two steps of the thread the handler may run, and it finds anything
in the uart.  The commands of the bring-up are left out; what they hear is
taken out of the ring all the same.
-/

namespace PresenceNode.Radar

open Library Library.Deframer Tlv

def rxRingSize : Nat := 4096

def radarStallMs : Int := 10000

structure Receiver (ρ : Type) where
  rxRb : ρ
  rxTotal : UInt32
  rxDropped : UInt32

/-- The static `re`, and the local `last_frame` of `radar_thread` while the radar streams. -/
structure Link (ρ : Type) where
  uart : Receiver ρ
  re : TlvReasm
  lastFrame : Option Int

inductive LinkEvent where
  /-- The handler, with `uart_irq_update` and what each `uart_fifo_read` gives. -/
  | isr (update : Bool) (reads : List (List UInt8))
  /-- `ring_buf_get` in `cli_drain` or in `cli_wait`. -/
  | hear
  /-- `radar_configure` returns zero. -/
  | configured (now : Int)
  /-- One turn of the streaming loop, with the uptime at its condition and after each byte. -/
  | turn (now : Int) (clock : Nat → Int)

inductive LinkOutput where
  | quiet
  | heard (bytes : List UInt8)
  /-- What a turn took out of the ring, and the frames that it handled with their times. -/
  | chunk (bytes : List UInt8) (frames : List (List UInt8 × Int))
  | stalled

section Ring

variable {ρ : Type} (ops : FifoOps ρ UInt8)

/-- The loop of `uart_isr`; a read of nothing ends it. -/
def isrLoop (s : Receiver ρ) : List (List UInt8) → Receiver ρ
  | [] => s
  | [] :: _ => s
  | bytes :: rest =>
      let (rxRb, count) := ops.put s.rxRb bytes
      isrLoop
        { rxRb := rxRb
          rxTotal := s.rxTotal + UInt32.ofNat bytes.length
          rxDropped := if count < bytes.length then s.rxDropped + 1 else s.rxDropped } rest

def uartIsr (s : Receiver ρ) (update : Bool) (reads : List (List UInt8)) : Receiver ρ :=
  if update = false then s else isrLoop ops s reads

def timed (made : List (Option (List UInt8))) (clock : Nat → Int) : List (List UInt8 × Int) :=
  made.zipIdx.filterMap fun output => output.1.map fun frame => (frame, clock output.2)

def lastTime (last : Int) (frames : List (List UInt8 × Int)) : Int :=
  (frames.getLast?.map Prod.snd).getD last

def link : Machine (Link ρ) LinkEvent LinkOutput where
  step s event :=
    match event, s.lastFrame with
    | .isr update reads, _ => some ({ s with uart := uartIsr ops s.uart update reads }, .quiet)
    | .hear, none =>
        let (rxRb, bytes) := ops.get s.uart.rxRb 1
        some ({ s with uart := { s.uart with rxRb := rxRb } }, .heard bytes)
    | .configured now, none =>
        some ({ s with re := tlvReset s.re, lastFrame := some now }, .quiet)
    | .turn now clock, some last =>
        if now - last < radarStallMs then
          let (rxRb, bytes) := ops.get s.uart.rxRb 64
          (reassembler.run s.re bytes).map fun (re, made) =>
            let frames := timed made clock
            (⟨{ s.uart with rxRb := rxRb }, re, some (lastTime last frames)⟩, .chunk bytes frames)
        else some ({ s with lastFrame := none }, .stalled)
    | _, _ => none

end Ring

/-! ## What goes through -/

def sentIn (reads : List (List UInt8)) : List UInt8 :=
  (reads.takeWhile fun bytes => bytes ≠ []).flatten

/-- The bytes that the uart has handed over. -/
def sentOf (events : List LinkEvent) : List UInt8 :=
  events.flatMap fun event =>
    match event with
    | .isr true reads => sentIn reads
    | _ => []

def takenOf (outputs : List LinkOutput) : List UInt8 :=
  outputs.flatMap fun output =>
    match output with
    | .heard bytes => bytes
    | .chunk bytes _ => bytes
    | _ => []

/-- How many puts of one call of the handler are short. -/
def shortIn {ρ : Type} (ops : FifoOps ρ UInt8) (ring : ρ) : List (List UInt8) → Nat
  | [] => 0
  | [] :: _ => 0
  | bytes :: rest =>
      (if (ops.put ring bytes).2 < bytes.length then 1 else 0) +
        shortIn ops (ops.put ring bytes).1 rest

theorem shortIn_cons {ρ : Type} (ops : FifoOps ρ UInt8) (ring : ρ) (byte : UInt8)
    (bytes : List UInt8) (rest : List (List UInt8)) :
    shortIn ops ring ((byte :: bytes) :: rest) =
      (if (ops.put ring (byte :: bytes)).2 < (byte :: bytes).length then 1 else 0) +
        shortIn ops (ops.put ring (byte :: bytes)).1 rest := rfl

/-- The short puts of a call of the handler, from the ring that it finds. -/
def shortPuts {ρ : Type} (ops : FifoOps ρ UInt8) (s : Link ρ) : LinkEvent → Option Nat
  | .isr true reads => some (shortIn ops s.uart.rxRb reads)
  | _ => none

def shortOf {ρ : Type} (ops : FifoOps ρ UInt8) (s : Link ρ) (events : List LinkEvent) : Nat :=
  ((link ops).gather (shortPuts ops) s events).sum

def handledOf (outputs : List LinkOutput) : List (List UInt8 × Int) :=
  outputs.flatMap fun output =>
    match output with
    | .chunk _ frames => frames
    | _ => []

/-! ## The handler -/

section Lawful

variable {ρ : Type} {ops : FifoOps ρ UInt8} {held : ρ → List UInt8}

/-- The statics of the handler against the bytes that have gone through since they were `base`. -/
structure Carries (held : ρ → List UInt8) (base : Receiver ρ) (sent taken : List UInt8) (short : Nat)
    (s : Receiver ρ) : Prop where
  flow : FifoOps.Flow rxRingSize held (held base.rxRb ++ sent) taken s.rxRb short
  total : s.rxTotal = base.rxTotal + UInt32.ofNat sent.length
  dropped : s.rxDropped = base.rxDropped + UInt32.ofNat short

variable {base s : Receiver ρ} {sent taken : List UInt8} {short : Nat}

theorem Carries.start (room : (held base.rxRb).length ≤ rxRingSize) :
    Carries held base [] [] 0 base :=
  ⟨⟨room, by simp, by simp⟩, by simp, by simp⟩

theorem Carries.put (carries : Carries held base sent taken short s)
    (lawful : ops.Lawful rxRingSize held) (bytes : List UInt8) :
    Carries held base (sent ++ bytes) taken
      (short + if (ops.put s.rxRb bytes).2 < bytes.length then 1 else 0)
      { rxRb := (ops.put s.rxRb bytes).1
        rxTotal := s.rxTotal + UInt32.ofNat bytes.length
        rxDropped := if (ops.put s.rxRb bytes).2 < bytes.length then s.rxDropped + 1
          else s.rxDropped } := by
  refine ⟨?_, ?_, ?_⟩
  · rw [← List.append_assoc]
    exact carries.flow.put lawful bytes
  · rw [List.length_append, UInt32.ofNat_add, ← UInt32.add_assoc, ← carries.total]
  · split
    · rw [UInt32.ofNat_add, ← UInt32.add_assoc, ← carries.dropped]
      rfl
    · exact carries.dropped

theorem Carries.get (carries : Carries held base sent taken short s)
    (lawful : ops.Lawful rxRingSize held) (count : Nat) :
    Carries held base sent (taken ++ (ops.get s.rxRb count).2) short
      { s with rxRb := (ops.get s.rxRb count).1 } :=
  ⟨carries.flow.get lawful count, carries.total, carries.dropped⟩

/-- One call of the handler, and when it does not come up short. -/
theorem Carries.isrLoop (carries : Carries held base sent taken short s)
    (lawful : ops.Lawful rxRingSize held) (reads : List (List UInt8)) :
    Carries held base (sent ++ sentIn reads) taken (short + shortIn ops s.rxRb reads)
        (isrLoop ops s reads) ∧
      ((held s.rxRb).length + (sentIn reads).length ≤ rxRingSize →
        shortIn ops s.rxRb reads = 0) := by
  induction reads generalizing sent short s with
  | nil => exact ⟨by simpa [sentIn, shortIn, Radar.isrLoop] using carries, fun _ => rfl⟩
  | cons bytes rest ih =>
      cases bytes with
      | nil => exact ⟨by simpa [sentIn, shortIn, Radar.isrLoop] using carries, fun _ => rfl⟩
      | cons byte bytes =>
          have grown : sentIn ((byte :: bytes) :: rest) = (byte :: bytes) ++ sentIn rest := by
            simp [sentIn]
          obtain ⟨after, fits⟩ := ih (carries.put lawful (byte :: bytes))
          constructor
          · rw [grown, ← List.append_assoc, shortIn_cons, ← Nat.add_assoc]
            exact after
          · intro room
            rw [grown, List.length_append] at room
            have whole : ¬ (ops.put s.rxRb (byte :: bytes)).2 < (byte :: bytes).length := by
              rw [lawful.short_iff carries.flow.room]
              omega
            rw [shortIn_cons, if_neg whole, Nat.zero_add]
            refine fits ?_
            rw [lawful.put_held _ _ carries.flow.room,
              List.take_of_length_le (Nat.le_of_not_lt whole), List.length_append]
            omega

end Lawful

/-! ## What a step can do -/

section Steps

variable {ρ : Type} {ops : FifoOps ρ UInt8}

inductive LinkStep (ops : FifoOps ρ UInt8) (s : Link ρ) :
    LinkEvent → Link ρ → LinkOutput → Prop where
  | isr (update : Bool) (reads : List (List UInt8)) :
      LinkStep ops s (.isr update reads) { s with uart := uartIsr ops s.uart update reads } .quiet
  | hear (idle : s.lastFrame = none) :
      LinkStep ops s .hear
        { s with uart := { s.uart with rxRb := (ops.get s.uart.rxRb 1).1 } }
        (.heard (ops.get s.uart.rxRb 1).2)
  | configured (now : Int) (idle : s.lastFrame = none) :
      LinkStep ops s (.configured now) { s with re := tlvReset s.re, lastFrame := some now } .quiet
  | chunk {now last : Int} {clock : Nat → Int} {re : TlvReasm} {made : List (Option (List UInt8))}
      (streaming : s.lastFrame = some last) (alive : now < last + radarStallMs)
      (pushed : reassembler.run s.re (ops.get s.uart.rxRb 64).2 = some (re, made)) :
      LinkStep ops s (.turn now clock)
        ⟨{ s.uart with rxRb := (ops.get s.uart.rxRb 64).1 }, re,
          some (lastTime last (timed made clock))⟩
        (.chunk (ops.get s.uart.rxRb 64).2 (timed made clock))
  | stalled {now last : Int} (clock : Nat → Int) (streaming : s.lastFrame = some last)
      (late : last + radarStallMs ≤ now) :
      LinkStep ops s (.turn now clock) { s with lastFrame := none } .stalled

theorem link_step {s next : Link ρ} {event : LinkEvent} {output : LinkOutput}
    (stepped : (link ops).step s event = some (next, output)) :
    LinkStep ops s event next output := by
  simp only [link] at stepped
  split at stepped
  · cases stepped
    exact .isr _ _
  · next idle =>
      cases stepped
      exact .hear idle
  · next idle =>
      cases stepped
      exact .configured _ idle
  · next streaming =>
      split at stepped
      · next alive =>
          obtain ⟨⟨re, made⟩, pushed, same⟩ := Option.map_eq_some_iff.mp stepped
          cases same
          exact .chunk streaming (by omega) pushed
      · next late =>
          cases stepped
          exact .stalled _ streaming (by omega)
  · cases stepped

end Steps

end PresenceNode.Radar
