import PresenceNode.Radar.Link
import PresenceNode.Radar.TypeWalk
import PresenceNode.Tlv.Streams

/-!
# What comes over the link

The ring loses bytes only by a put that is short, and counts every such put.
While the radar streams, the frames that are handled are those that the
reassembler makes of what the thread took, and the thread gives up exactly when
ten seconds have passed since the last of them.
-/

namespace PresenceNode.Radar

open Library Library.Deframer Library.Pattern Tlv

section Lawful

variable {ρ : Type} {ops : FifoOps ρ UInt8} {held : ρ → List UInt8}

/-! ## Bytes -/

def Roomy (held : ρ → List UInt8) (s : Link ρ) : LinkEvent → Prop
  | .isr true reads => (held s.uart.rxRb).length + (sentIn reads).length ≤ rxRingSize
  | _ => True

@[simp] theorem sentOf_concat (events : List LinkEvent) (event : LinkEvent) :
    sentOf (events ++ [event]) = sentOf events ++ sentOf [event] := by
  simp [sentOf]

@[simp] theorem takenOf_concat (outputs : List LinkOutput) (output : LinkOutput) :
    takenOf (outputs ++ [output]) = takenOf outputs ++ takenOf [output] := by
  simp [takenOf]

@[simp] theorem handledOf_concat (outputs : List LinkOutput) (output : LinkOutput) :
    handledOf (outputs ++ [output]) = handledOf outputs ++ handledOf [output] := by
  simp [handledOf]

/-- One step of the link, and when it does not come up short. -/
theorem Carries.step {base : Receiver ρ} {sent taken : List UInt8} {short : Nat}
    {s next : Link ρ} {event : LinkEvent} {output : LinkOutput}
    (carries : Carries held base sent taken short s.uart) (lawful : ops.Lawful rxRingSize held)
    (step : LinkStep ops s event next output) :
    Carries held base (sent ++ sentOf [event]) (taken ++ takenOf [output])
        (short + (shortPuts ops s event).toList.sum) next.uart ∧
      (Roomy held s event → (shortPuts ops s event).toList.sum = 0) := by
  cases step with
  | isr update reads =>
      cases update with
      | false =>
          exact ⟨by simpa [sentOf, takenOf, shortPuts, uartIsr] using carries, fun _ => rfl⟩
      | true =>
          obtain ⟨after, fits⟩ := carries.isrLoop lawful reads
          refine ⟨by simpa [sentOf, takenOf, shortPuts, uartIsr] using after, fun room => ?_⟩
          simpa [shortPuts] using fits room
  | hear idle =>
      exact ⟨by simpa [sentOf, takenOf, shortPuts] using carries.get lawful 1, fun _ => rfl⟩
  | configured now idle =>
      exact ⟨by simpa [sentOf, takenOf, shortPuts] using carries, fun _ => rfl⟩
  | chunk streaming alive pushed =>
      exact ⟨by simpa [sentOf, takenOf, shortPuts] using carries.get lawful 64, fun _ => rfl⟩
  | stalled clock streaming late =>
      exact ⟨by simpa [sentOf, takenOf, shortPuts] using carries, fun _ => rfl⟩

theorem Carries.run {base : Receiver ρ} {sent taken : List UInt8} {short : Nat}
    {s final : Link ρ} {events : List LinkEvent} {outputs : List LinkOutput}
    (carries : Carries held base sent taken short s.uart) (lawful : ops.Lawful rxRingSize held)
    (ran : (link ops).run s events = some (final, outputs)) :
    Carries held base (sent ++ sentOf events) (taken ++ takenOf outputs)
        (short + shortOf ops s events) final.uart ∧
      ((link ops).Guarded (Roomy held) s events → shortOf ops s events = 0) := by
  induction events generalizing s sent taken short outputs with
  | nil =>
      cases ran
      exact ⟨by simpa [sentOf, takenOf, shortOf, Machine.gather] using carries, fun _ => rfl⟩
  | cons event rest ih =>
      obtain ⟨next, output, tail, stepped, ranRest, rfl⟩ := Machine.run_cons_eq_some.mp ran
      obtain ⟨after, fits⟩ := carries.step lawful (link_step stepped)
      obtain ⟨last, roomy⟩ := ih after ranRest
      have sum : shortOf ops s (event :: rest) =
          (shortPuts ops s event).toList.sum + shortOf ops next rest := by
        rw [shortOf, Machine.gather_cons stepped, List.sum_append, shortOf]
      have sentCons : sentOf (event :: rest) = sentOf [event] ++ sentOf rest :=
        @List.flatMap_append _ _ [event] _ _
      have takenCons : takenOf (output :: tail) = takenOf [output] ++ takenOf tail :=
        @List.flatMap_append _ _ [output] _ _
      rw [sum, sentCons, takenCons, ← List.append_assoc, ← List.append_assoc, ← Nat.add_assoc]
      refine ⟨last, fun guarded => ?_⟩
      rw [fits guarded.1, roomy (guarded.2 next output stepped)]

theorem link_carries {s final : Link ρ} {events : List LinkEvent} {outputs : List LinkOutput}
    (lawful : ops.Lawful rxRingSize held) (room : (held s.uart.rxRb).length ≤ rxRingSize)
    (ran : (link ops).run s events = some (final, outputs)) :
    Carries held s.uart (sentOf events) (takenOf outputs) (shortOf ops s events) final.uart ∧
      ((link ops).Guarded (Roomy held) s events → shortOf ops s events = 0) := by
  have carried := (Carries.start room).run lawful ran
  rwa [List.nil_append, List.nil_append, Nat.zero_add] at carried

theorem link_carries_roomy {s final : Link ρ} {events : List LinkEvent}
    {outputs : List LinkOutput} (lawful : ops.Lawful rxRingSize held)
    (room : (held s.uart.rxRb).length ≤ rxRingSize)
    (roomy : (link ops).Guarded (Roomy held) s events)
    (ran : (link ops).run s events = some (final, outputs)) :
    takenOf outputs ++ held final.uart.rxRb = held s.uart.rxRb ++ sentOf events := by
  obtain ⟨carries, fits⟩ := link_carries lawful room ran
  exact carries.flow.whole.mp (fits roomy)

/--
Whatever the handler finds and whenever it runs, the thread gets bytes of the
uart in their order and each at most once, the ring stays within its size,
`rx_total` counts every byte and `rx_dropped` every put that was short.  There
is no such put exactly if no byte was lost, and there is none as long as what
is read fits behind what is held.
-/
theorem link_accounts (lawful : ops.Lawful rxRingSize held) {s final : Link ρ}
    (room : (held s.uart.rxRb).length ≤ rxRingSize) {events : List LinkEvent}
    {outputs : List LinkOutput} (ran : (link ops).run s events = some (final, outputs)) :
    (held final.uart.rxRb).length ≤ rxRingSize ∧
      (takenOf outputs ++ held final.uart.rxRb).Sublist (held s.uart.rxRb ++ sentOf events) ∧
      final.uart.rxTotal = s.uart.rxTotal + UInt32.ofNat (sentOf events).length ∧
      final.uart.rxDropped = s.uart.rxDropped + UInt32.ofNat (shortOf ops s events) ∧
      (shortOf ops s events = 0 ↔
        takenOf outputs ++ held final.uart.rxRb = held s.uart.rxRb ++ sentOf events) ∧
      ((link ops).Guarded (Roomy held) s events → shortOf ops s events = 0) := by
  obtain ⟨carries, fits⟩ := link_carries lawful room ran
  exact ⟨carries.flow.room, carries.flow.order, carries.total, carries.dropped,
    carries.flow.whole, fits⟩

/-! ## Frames -/

def LinkEvent.InSession : LinkEvent → Prop
  | .isr _ _ => True
  | .turn _ _ => True
  | _ => False

theorem timed_frames (made : List (Option (List UInt8))) (clock : Nat → Int) :
    (timed made clock).map Prod.fst = delivered made := by
  have each (start : Nat) : ((made.zipIdx start).filterMap fun output =>
      output.1.map fun frame => (frame, clock output.2)).map Prod.fst = delivered made := by
    induction made generalizing start with
    | nil => rfl
    | cons output rest ih =>
        cases output with
        | none => simpa [delivered] using ih (start + 1)
        | some frame => simpa [delivered] using ih (start + 1)
  exact each 0

theorem handledOf_chunk (bytes : List UInt8) (made : List (Option (List UInt8)))
    (clock : Nat → Int) :
    (handledOf [.chunk bytes (timed made clock)]).map Prod.fst = delivered made := by
  rw [← timed_frames made clock]
  exact congrArg (List.map Prod.fst) (List.append_nil _)

theorem lastTime_append (last : Int) (earlier later : List (List UInt8 × Int)) :
    lastTime last (earlier ++ later) = lastTime (lastTime last earlier) later := by
  rcases List.eq_nil_or_concat later with rfl | ⟨front, final, rfl⟩
  · simp [lastTime]
  · simp [lastTime, List.getLast?_append]

/-- A session that began at `t0`, with the reassembler reset. -/
structure Streams (start : TlvReasm) (t0 : Int) (outputs : List LinkOutput) (s : Link ρ) :
    Prop where
  frames : ∃ made, reassembler.run start (takenOf outputs) = some (s.re, made) ∧
    (handledOf outputs).map Prod.fst = delivered made
  last : ∀ last, s.lastFrame = some last → last = lastTime t0 (handledOf outputs)

theorem Streams.step {start : TlvReasm} {t0 : Int} {outputs : List LinkOutput} {s next : Link ρ}
    {event : LinkEvent} {output : LinkOutput} (streams : Streams start t0 outputs s)
    (inside : event.InSession) (step : LinkStep ops s event next output) :
    Streams start t0 (outputs ++ [output]) next := by
  obtain ⟨made, ran, handled⟩ := streams.frames
  constructor <;> rw [handledOf_concat]
  · rw [takenOf_concat]
    cases step with
    | isr update reads =>
        exact ⟨made, by simpa [takenOf] using ran, by simpa [handledOf] using handled⟩
    | hear idle => exact inside.elim
    | configured now idle => exact inside.elim
    | chunk streaming alive pushed =>
        refine ⟨_, by simpa [takenOf] using Machine.run_append ran pushed, ?_⟩
        rw [List.map_append, handled, delivered_append]
        simp [handledOf, timed_frames]
    | stalled clock streaming late =>
        exact ⟨made, by simpa [takenOf] using ran, by simpa [handledOf] using handled⟩
  · cases step with
    | isr update reads => simpa [handledOf] using streams.last
    | hear idle => exact inside.elim
    | configured now idle => exact inside.elim
    | chunk streaming alive pushed =>
        rintro last ⟨⟩
        rw [streams.last _ streaming, ← lastTime_append]
        simp [handledOf]
    | stalled clock streaming late => exact nofun

theorem Streams.run {start : TlvReasm} {t0 : Int} {outputs more : List LinkOutput}
    {s final : Link ρ} {events : List LinkEvent} (streams : Streams start t0 outputs s)
    (inside : ∀ event ∈ events, event.InSession)
    (ran : (link ops).run s events = some (final, more)) :
    Streams start t0 (outputs ++ more) final := by
  induction events generalizing s outputs more with
  | nil =>
      cases ran
      rwa [List.append_nil]
  | cons event rest ih =>
      obtain ⟨next, output, tail, stepped, ranRest, rfl⟩ := Machine.run_cons_eq_some.mp ran
      have after := streams.step (inside event (List.mem_cons_self ..)) (link_step stepped)
      rw [List.append_cons]
      exact ih after (fun other member => inside other (List.mem_cons_of_mem _ member)) ranRest

/-- The session that a successful `radar_configure` begins. -/
theorem session_streams {s final : Link ρ} {t0 : Int} {events : List LinkEvent}
    {outputs : List LinkOutput} (inside : ∀ event ∈ events, event.InSession)
    (ran : (link ops).run s (.configured t0 :: events) = some (final, outputs)) :
    Streams (tlvReset s.re) t0 outputs final := by
  obtain ⟨next, output, tail, stepped, ranRest, rfl⟩ := Machine.run_cons_eq_some.mp ran
  cases link_step stepped with
  | configured now idle =>
      have start : Streams (tlvReset s.re) t0 [.quiet]
          { s with re := tlvReset s.re, lastFrame := some t0 } :=
        ⟨⟨[], rfl, rfl⟩, by rintro last ⟨⟩; rfl⟩
      exact start.run inside ranRest

/-- On such a frame `on_frame` stays inside it, with its walks where no entry takes them back. -/
structure Handleable (frame : List UInt8) : Prop where
  valid : ValidFrame frame
  counted : ∀ acc now, ∃ after, onFrame acc frame now = some after
  reported : ∀ h entries, tlvHeaderGet frame = some h → TypeEntries frame tlvHdrLen entries →
    Onward h.numTlvs.toNat entries → ∀ typesSeen, ∃ report, reportTypes typesSeen frame = some report

theorem delivered_handled {r next : TlvReasm} {bytes : List UInt8}
    {made : List (Option (List UInt8))} (ran : reassembler.run (tlvReset r) bytes = some (next, made))
    {frame : List UInt8} (member : frame ∈ delivered made) : Handleable frame := by
  obtain ⟨_, _, outputs, concrete, abstract, _⟩ :=
    reassembler_run_defined (represents_reset r) bytes
  obtain rfl : outputs = made := by
    rw [concrete] at ran
    exact congrArg Prod.snd (Option.some.inj ran)
  obtain ⟨output, inside, same⟩ := List.mem_filterMap.mp member
  obtain rfl : output = some frame := same
  obtain ⟨index, found⟩ := List.mem_iff_getElem?.mp inside
  have valid := validFrame_iff.mpr ((Deframer.accounts abstract).frames index frame found).1
  refine ⟨valid, fun acc now => ⟨account acc (trackerIn frame) (countIn frame) now, ?_⟩,
    fun h entries read listed steady => reportTypes_defined valid read listed steady⟩
  rw [onFrame, (sight_valid valid).1, Option.map_some]

/-- In whatever runs of the link, every frame that is handled is valid. -/
theorem link_frames_valid {s final : Link ρ} {phase : Phase UInt8} (represents : Represents s.re phase)
    {events : List LinkEvent} {outputs : List LinkOutput}
    (ran : (link ops).run s events = some (final, outputs)) :
    ∀ frame ∈ (handledOf outputs).map Prod.fst, ValidFrame frame := by
  have preserved : ∀ (history : List LinkEvent) outputs middle event next output,
      ((∃ phase, Represents middle.re phase) ∧
        ∀ frame ∈ (handledOf outputs).map Prod.fst, ValidFrame frame) →
      (link ops).step middle event = some (next, output) →
      (∃ phase, Represents next.re phase) ∧
        ∀ frame ∈ (handledOf (outputs ++ [output])).map Prod.fst, ValidFrame frame := by
    rintro history outputs middle event next output ⟨⟨phase, represents⟩, valid⟩ stepped
    rw [handledOf_concat, List.map_append]
    cases link_step stepped with
    | configured now idle =>
        exact ⟨⟨_, represents_reset middle.re⟩, by simpa [handledOf] using valid⟩
    | chunk streaming alive pushed =>
        obtain ⟨_, last, _, concrete, abstract, after⟩ := reassembler_run_defined represents _
        cases pushed.symm.trans concrete
        refine ⟨⟨last, after⟩, fun frame member => ?_⟩
        rcases List.mem_append.mp member with earlier | here
        · exact valid frame earlier
        · rw [handledOf_chunk] at here
          exact validFrame_iff.mpr (represents.sound.delivers abstract here)
    | _ => exact ⟨⟨phase, represents⟩, by simpa [handledOf] using valid⟩
  exact (Machine.run_invariant_unguarded preserved ⟨⟨phase, represents⟩, nofun⟩ ran).2

/--
From a successful `radar_configure` on, whatever the uart delivers and loses:
the frames handled are those that the reassembler, reset, makes of the bytes
taken; each is valid, and `on_frame` stays inside it, but for type walks over an
entry that takes them back; and a turn of the loop gives the radar up exactly if
ten seconds have passed since the last frame that was handled, or since the
start if there was none.
-/
theorem session_supervised {s final : Link ρ} {t0 : Int} {events : List LinkEvent}
    {outputs : List LinkOutput} (inside : ∀ event ∈ events, event.InSession)
    (ran : (link ops).run s (.configured t0 :: events) = some (final, outputs)) :
    (∃ made, reassembler.run (tlvReset s.re) (takenOf outputs) = some (final.re, made) ∧
      (handledOf outputs).map Prod.fst = delivered made) ∧
      (∀ frame ∈ (handledOf outputs).map Prod.fst, Handleable frame) ∧
      ∀ (before after : List LinkEvent) now clock, events = before ++ .turn now clock :: after →
        (outputs[before.length + 1]? = some .stalled ↔
          lastTime t0 (handledOf (outputs.take (before.length + 1))) + radarStallMs ≤ now) := by
  have streams := session_streams inside ran
  refine ⟨streams.frames, ?_, ?_⟩
  · obtain ⟨made, reassembled, handled⟩ := streams.frames
    rw [handled]
    exact fun frame member => delivered_handled reassembled member
  · rintro before after now clock rfl
    rw [← List.cons_append] at ran
    obtain ⟨middle, made, tail, ranBefore, ranAfter, rfl⟩ := Machine.run_append_eq_some.mp ran
    obtain ⟨next, output, rest, stepped, _, rfl⟩ := Machine.run_cons_eq_some.mp ranAfter
    have length : made.length = before.length + 1 := Machine.run_length ranBefore
    have until_ := session_streams (fun event member => inside event (by simp [member])) ranBefore
    rw [← length, List.getElem?_append_right (Nat.le_refl _), Nat.sub_self, List.take_left]
    cases link_step stepped with
    | chunk streaming alive pushed =>
        rw [← until_.last _ streaming]
        refine ⟨nofun, fun late => absurd alive (by omega)⟩
    | stalled clock streaming late =>
        rw [← until_.last _ streaming]
        exact ⟨fun _ => late, fun _ => rfl⟩

/--
What a session handles, as long as nothing is lost on the way and frames come
between separators: those whose last byte has been taken out of the ring.
-/
theorem session_handled (lawful : ops.Lawful rxRingSize held) {s final : Link ρ}
    (room : (held s.uart.rxRb).length ≤ rxRingSize) {t0 : Int} {events : List LinkEvent}
    {outputs : List LinkOutput} (inside : ∀ event ∈ events, event.InSession)
    (roomy : (link ops).Guarded (Roomy held) s (.configured t0 :: events))
    (ran : (link ops).run s (.configured t0 :: events) = some (final, outputs))
    {pieces : List (List UInt8 × List UInt8)} {tail : List UInt8}
    (gaps : ∀ piece ∈ pieces, FirstAt tlvMagic (piece.1 ++ tlvMagic) piece.1.length)
    (frames : ∀ piece ∈ pieces, ValidFrame piece.2) (ending : ¬ tlvMagic <:+: tail)
    (sent : held s.uart.rxRb ++ sentOf events <+: stream pieces tail) :
    takenOf outputs ++ held final.uart.rxRb = held s.uart.rxRb ++ sentOf events ∧
      (handledOf outputs).map Prod.fst =
        delivered ((returns pieces tail).take (takenOf outputs).length) ∧
      (takenOf outputs = stream pieces tail →
        (handledOf outputs).map Prod.fst = pieces.map Prod.snd) := by
  have whole := link_carries_roomy lawful room roomy ran
  have same : sentOf (.configured t0 :: events) = sentOf events := rfl
  rw [same] at whole
  obtain ⟨made, reassembled, handled⟩ := (session_streams inside ran).frames
  obtain ⟨phase, segmented⟩ :=
    segments tlvFormat gaps (fun piece member => validFrame_iff.mp (frames piece member)) ending
  obtain ⟨last, concrete, _⟩ := reassembler_run (represents_reset s.re) segmented
  obtain ⟨after, split⟩ :=
    (whole ▸ List.prefix_append (takenOf outputs) (held final.uart.rxRb)).trans sent
  have count := Machine.run_length concrete
  -- The bytes taken are the beginning of the stream, and so are the outputs.
  have taken : (handledOf outputs).map Prod.fst =
      delivered ((returns pieces tail).take (takenOf outputs).length) := by
    rw [← split] at concrete
    obtain ⟨middle, before, rest, ranBefore, _, parts⟩ := Machine.run_append_eq_some.mp concrete
    rw [reassembled] at ranBefore
    cases ranBefore
    rw [handled, parts, ← Machine.run_length reassembled, List.take_left]
  refine ⟨whole, taken, fun all => ?_⟩
  rw [taken, all, ← count, List.take_length, delivered_returns]

theorem delivered_take (pieces : List (List UInt8 × List UInt8)) (tail : List UInt8)
    (count : Nat) : delivered ((returns pieces tail).take count) <+: pieces.map Prod.snd := by
  rw [← delivered_returns pieces tail]
  exact (List.take_prefix _ _).filterMap id

/--
As long as nothing is lost on the way, frames between separators are handled
one by one, in their order and each once, however the handler and the thread
take turns: those whose last byte has been taken out of the ring.
-/
theorem session_delivers (lawful : ops.Lawful rxRingSize held) {s final : Link ρ}
    (room : (held s.uart.rxRb).length ≤ rxRingSize) {t0 : Int} {events : List LinkEvent}
    {outputs : List LinkOutput} (inside : ∀ event ∈ events, event.InSession)
    (roomy : (link ops).Guarded (Roomy held) s (.configured t0 :: events))
    (ran : (link ops).run s (.configured t0 :: events) = some (final, outputs))
    {pieces : List (List UInt8 × List UInt8)} {tail : List UInt8}
    (gaps : ∀ piece ∈ pieces, FirstAt tlvMagic (piece.1 ++ tlvMagic) piece.1.length)
    (frames : ∀ piece ∈ pieces, ValidFrame piece.2) (ending : ¬ tlvMagic <:+: tail)
    (sent : held s.uart.rxRb ++ sentOf events <+: stream pieces tail) :
    (handledOf outputs).map Prod.fst =
        delivered ((returns pieces tail).take (takenOf outputs).length) ∧
      (handledOf outputs).map Prod.fst <+: pieces.map Prod.snd ∧
      (held s.uart.rxRb ++ sentOf events = stream pieces tail → held final.uart.rxRb = [] →
        (handledOf outputs).map Prod.fst = pieces.map Prod.snd) := by
  obtain ⟨whole, handled, complete⟩ :=
    session_handled lawful room inside roomy ran gaps frames ending sent
  refine ⟨handled, handled ▸ delivered_take pieces tail _, fun all empty => complete ?_⟩
  rw [← all, ← whole, empty, List.append_nil]

end Lawful

/-! ## A ring that is a list -/

def Link.zero : Link (List UInt8) :=
  ⟨⟨[], 0, 0⟩, ⟨Vector.replicate 2048 0, 0, 0, 0⟩, none⟩

/-- The link over such a ring. -/
abbrev benchLink : Machine (Link (List UInt8)) LinkEvent LinkOutput :=
  link (FifoOps.ofList rxRingSize)

def Link.full : Link (List UInt8) :=
  { Link.zero with uart := ⟨List.replicate 4096 0, 4096, 0⟩ }

theorem Link.full_length : Link.full.uart.rxRb.length = rxRingSize := List.length_replicate

theorem shortOf_full {s : Link (List UInt8)} (full : s.uart.rxRb.length = rxRingSize) :
    shortOf (FifoOps.ofList rxRingSize) s [.isr true [[2, 3], [4]]] = 2 := by
  simp [shortOf, Machine.gather, link, shortPuts, shortIn, FifoOps.ofList, full]

theorem link_accounts_two :
    (∃ final outputs, benchLink.run Link.zero [.isr true [[2, 3], [], [4]], .hear] =
        some (final, outputs) ∧
      final.uart.rxTotal = 2 ∧ final.uart.rxDropped = 0 ∧
      takenOf outputs ++ final.uart.rxRb = [2, 3]) ∧
    ∃ final outputs, benchLink.run Link.full [.isr true [[2, 3], [4]]] = some (final, outputs) ∧
      final.uart.rxTotal = 4099 ∧ final.uart.rxDropped = 2 ∧
      takenOf outputs ++ final.uart.rxRb ≠ List.replicate 4096 0 ++ [2, 3, 4] := by
  constructor
  · obtain ⟨final, outputs, ran⟩ : ∃ final outputs, benchLink.run Link.zero
        [.isr true [[2, 3], [], [4]], .hear] = some (final, outputs) := ⟨_, _, rfl⟩
    obtain ⟨_, _, total, dropped, whole, fits⟩ :=
      link_accounts (FifoOps.ofList_lawful rxRingSize) (Nat.zero_le _) ran
    have roomy : benchLink.Guarded (Roomy id) Link.zero [.isr true [[2, 3], [], [4]], .hear] :=
      Machine.guarded_cons (show 0 + 2 ≤ 4096 by decide) rfl
        (Machine.guarded_cons trivial rfl trivial)
    rw [fits roomy] at dropped
    exact ⟨final, outputs, ran, total, dropped, whole.mp (fits roomy)⟩
  · obtain ⟨final, outputs, ran⟩ : ∃ final outputs, benchLink.run Link.full
        [.isr true [[2, 3], [4]]] = some (final, outputs) := ⟨_, _, rfl⟩
    obtain ⟨_, _, total, dropped, whole, _⟩ :=
      link_accounts (FifoOps.ofList_lawful rxRingSize)
        (Nat.le_of_eq Link.full_length) ran
    rw [shortOf_full Link.full_length] at whole dropped
    exact ⟨final, outputs, ran, total, dropped, fun same => absurd (whole.mpr same) (by decide)⟩

/-- One byte of garbage, and then nothing for ten seconds. -/
theorem session_supervised_silence :
    ∃ final outputs, benchLink.run Link.zero (.configured 0 ::
        [.isr true [[7]], .turn 5 (fun _ => 6), .turn 10000 fun _ => 0]) =
          some (final, outputs) ∧
      (∀ frame ∈ (handledOf outputs).map Prod.fst, Handleable frame) ∧
      (outputs[3]? = some .stalled ↔
        lastTime 0 (handledOf (outputs.take 3)) + radarStallMs ≤ 10000) := by
  have inside : ∀ event ∈ [LinkEvent.isr true [[7]], .turn 5 (fun _ => 6), .turn 10000 fun _ => 0],
      event.InSession := by simp [LinkEvent.InSession]
  obtain ⟨final, outputs, ran⟩ : ∃ final outputs, benchLink.run Link.zero (.configured 0 ::
      [.isr true [[7]], .turn 5 (fun _ => 6), .turn 10000 fun _ => 0]) =
        some (final, outputs) := ⟨_, _, rfl⟩
  obtain ⟨_, handled, stalls⟩ := session_supervised inside ran
  exact ⟨final, outputs, ran, handled,
    stalls [.isr true [[7]], .turn 5 fun _ => 6] [] 10000 (fun _ => 0) rfl⟩

theorem session_delivers_headerFrame :
    ∃ final outputs, benchLink.run Link.zero
        (.configured 0 :: [.isr true [headerFrame], .turn 5 fun _ => 6]) =
          some (final, outputs) ∧
      (handledOf outputs).map Prod.fst = [headerFrame] := by
  obtain ⟨next, _, made, pushed, _⟩ :=
    reassembler_run_defined (represents_reset Link.zero.re) headerFrame
  have begun : benchLink.step Link.zero (.configured 0) =
      some (⟨⟨[], 0, 0⟩, tlvReset Link.zero.re, some 0⟩, .quiet) := rfl
  have received : benchLink.step ⟨⟨[], 0, 0⟩, tlvReset Link.zero.re, some 0⟩
      (.isr true [headerFrame]) =
        some (⟨⟨headerFrame, 40, 0⟩, tlvReset Link.zero.re, some 0⟩, .quiet) := rfl
  have handled : benchLink.step ⟨⟨headerFrame, 40, 0⟩, tlvReset Link.zero.re, some 0⟩
      (.turn 5 fun _ => 6) =
        some (⟨⟨[], 40, 0⟩, next, some (lastTime 0 (timed made fun _ => 6))⟩,
          .chunk headerFrame (timed made fun _ => 6)) := by
    have chunk : (FifoOps.ofList rxRingSize).get headerFrame 64 = ([], headerFrame) := rfl
    have alive : (5 : Int) - 0 < radarStallMs := by decide
    simp only [link, if_pos alive, chunk, pushed, Option.map_some]
  have ran : benchLink.run Link.zero
      (.configured 0 :: [.isr true [headerFrame], .turn 5 fun _ => 6]) = some (_, _) :=
    Machine.run_cons begun (Machine.run_cons received
      (Machine.run_cons handled (Machine.run_nil benchLink _)))
  have roomy : benchLink.Guarded (Roomy id) Link.zero
      (.configured 0 :: [.isr true [headerFrame], .turn 5 fun _ => 6]) :=
    Machine.guarded_cons trivial begun
      (Machine.guarded_cons (show 0 + 40 ≤ 4096 by decide) received
        (Machine.guarded_cons trivial handled trivial))
  have delivers := session_delivers (FifoOps.ofList_lawful rxRingSize) (Nat.zero_le _)
    (by simp [LinkEvent.InSession]) roomy ran
    (show ∀ piece ∈ [([], headerFrame)], FirstAt tlvMagic (piece.1 ++ tlvMagic) piece.1.length
      by decide)
    (show ∀ piece ∈ [([], headerFrame)], ValidFrame piece.2 by
      intro piece member
      rw [List.mem_singleton.mp member]
      exact ⟨by decide, by decide, by decide, by decide⟩)
    (show ¬ tlvMagic <:+: [] by decide) (List.prefix_refl headerFrame)
  exact ⟨_, _, ran, delivers.2.2 rfl rfl⟩

end PresenceNode.Radar
