import PresenceNode.Library.Buffer
import PresenceNode.Library.Pattern
import PresenceNode.Radar.Cli

/-!
# The buffers of `cli_wait`

`cliWaitBuffers` is `cli_wait` with its window `buf` and the statics for the
last line of a failed call.  A store outside a buffer is undefined, and so is
a `strstr` over a window without a zero.  It does what `cliWait` does, so it
never leaves its buffers.  The level of the receive line is only printed, and
left out.
-/

namespace PresenceNode.Radar

open Library Library.Pattern

/-- The locals `buf`, `fill` and `done`, and the statics `cli_rx_n` and `cli_rx_head`. -/
structure WaitBuffers where
  buf : Vector UInt8 96
  fill : Nat
  done : Bool
  cliRxN : UInt32
  cliRxHead : Vector UInt8 129

def printable (b : UInt8) : UInt8 := if b ≥ 0x20 ∧ b < 0x7F then b else 0x2E

def noteHead (w : WaitBuffers) (b : UInt8) : Option WaitBuffers :=
  if w.cliRxN < 129 - 1 then do
    let head ← Buffer.store w.cliRxHead w.cliRxN.toNat (printable b)
    let head ← Buffer.store head (w.cliRxN + 1).toNat 0
    some { w with cliRxHead := head, cliRxN := w.cliRxN + 1 }
  else some { w with cliRxN := w.cliRxN + 1 }

/-- The string that begins with the buffer, undefined when nothing ends it there. -/
def cString {size : Nat} (buf : Vector UInt8 size) : Option (List UInt8) :=
  if 0 ∈ buf.toList then some (buf.toList.takeWhile (· ≠ 0)) else none

def strstrIn {size : Nat} (buf : Vector UInt8 size) (word : List UInt8) : Option Bool :=
  (cString buf).map fun text => decide (word <:+: text)

def slideBuf (w : WaitBuffers) : Option WaitBuffers :=
  if w.fill ≥ 96 - 1 then do
    let buf ← Buffer.move w.buf 0 (w.fill - 16) 16
    let buf ← Buffer.store buf 16 0
    some { w with buf := buf, fill := 16 }
  else some w

/-- `done` after the next look: once it is set, `strstr` is not called again. -/
def lookForDone {size : Nat} (done : Bool) (buf : Vector UInt8 size) : Option Bool :=
  if done then some true else strstrIn buf doneWord

/-- The loop body of `cli_wait` for a byte; the second part is whether the prompt has come back. -/
def takeByte (w : WaitBuffers) (b : UInt8) : Option (WaitBuffers × Bool) := do
  let w ← noteHead w b
  let buf ← Buffer.store w.buf w.fill b
  let buf ← Buffer.store buf (w.fill + 1) 0
  let done ← lookForDone w.done buf
  let w := { w with buf := buf, fill := w.fill + 1, done := done }
  let prompt ← strstrIn w.buf radarPrompt
  if prompt then some (w, true) else (slideBuf w).map fun w => (w, false)

def cliWaitBuffersLoop (deadline : Nat) :
    Nat → Uart → WaitBuffers → Option (Bool × Uart × WaitBuffers)
  | 0, _, _ => none
  | turns + 1, u, w =>
      if u.now < deadline then
        match ringBufGet u with
        | none => cliWaitBuffersLoop deadline turns (kMsleep u 2) w
        | some (b, u) => do
            let (w, prompt) ← takeByte w b
            if prompt then some (w.done, u, w) else cliWaitBuffersLoop deadline turns u w
      else some (w.done, u, w)

/-- `cli_wait`, with whatever its locals and statics hold before. -/
def cliWaitBuffers (buf : Vector UInt8 96) (head : Vector UInt8 129) (u : Uart)
    (timeoutMs : Nat) : Option (Bool × Uart × WaitBuffers) := do
  let buf ← Buffer.store buf 0 0
  let head ← Buffer.store head 0 0
  cliWaitBuffersLoop (u.now + timeoutMs) (u.rx.length + timeoutMs + 1) u ⟨buf, 0, false, 0, head⟩

/-! ## The buffers hold what has been heard -/

/-- The window holds what has been heard, with room for one more byte and the zero. -/
structure Holds (w : WaitBuffers) (heard : Heard) : Prop where
  fill : w.fill = heard.buf.length
  held : Buffer.held w.buf w.fill = heard.buf
  room : w.fill < 95
  done : w.done = heard.done

/-- A zero behind the fill mark has `strstr` search what is held. -/
theorem strstrIn_stored {size fill : Nat} {buf next : Vector UInt8 size} (word : List UInt8)
    (stored : Buffer.store buf fill 0 = some next) :
    strstrIn next word = some (strstr (Buffer.held buf fill) word) := by
  have split : next.toList =
      Buffer.held buf fill ++ 0 :: next.toList.drop (fill + 1) := by
    rw [List.append_cons, ← Buffer.held_store stored, Buffer.held, List.take_append_drop]
  have ends : (0 : UInt8) ∈ next.toList := by
    rw [split]
    exact List.mem_append_right _ (List.mem_cons_self ..)
  rw [strstrIn, cString, if_pos ends, split, takeWhile_ended (by decide)]
  rfl

theorem noteHead_defined (w : WaitBuffers) (b : UInt8) :
    ∃ head, noteHead w b = some { w with cliRxHead := head, cliRxN := w.cliRxN + 1 } := by
  unfold noteHead
  split
  · next few =>
      have bound : w.cliRxN.toNat < 128 := UInt32.lt_iff_toNat_lt.mp few
      have next : (w.cliRxN + 1).toNat = w.cliRxN.toNat + 1 := by
        rw [UInt32.toNat_add]
        exact Nat.mod_eq_of_lt (by change w.cliRxN.toNat + 1 < 2 ^ 32; omega)
      obtain ⟨first, stored⟩ := Buffer.store_defined w.cliRxHead (printable b)
        (show w.cliRxN.toNat < 129 by omega)
      obtain ⟨second, ended⟩ := Buffer.store_defined first 0
        (show (w.cliRxN + 1).toNat < 129 by omega)
      exact ⟨second, by simp only [stored, ended, Option.bind_eq_bind, Option.bind_some]⟩
  · exact ⟨w.cliRxHead, rfl⟩

theorem slideBuf_slides {w : WaitBuffers} {text : List UInt8} (fill : w.fill = text.length)
    (held : Buffer.held w.buf w.fill = text) (room : w.fill < 96) :
    ∃ next, slideBuf w = some next ∧ Holds next ⟨slide text, w.done⟩ := by
  unfold slideBuf
  by_cases full : w.fill ≥ 96 - 1
  · obtain ⟨moved, copied, front⟩ := Buffer.move_front w.buf
      (show 16 ≤ w.fill by omega) (Nat.le_of_lt room)
    obtain ⟨last, ended⟩ := Buffer.store_defined moved 0 (show 16 < 96 by decide)
    have tail : slide text = text.drop (text.length - 16) := if_pos (by rw [← fill]; exact full)
    rw [if_pos full]
    refine ⟨{ w with buf := last, fill := 16 }, ?_, ?_, ?_, show 16 < 95 by decide, rfl⟩
    · simp only [copied, ended, Option.bind_eq_bind, Option.bind_some]
    · rw [tail, List.length_drop]
      change 16 = _
      omega
    · rw [Buffer.held_below ended, front, held, tail, fill]
  · have same : slide text = text := if_neg (by rw [← fill]; exact full)
    rw [if_neg full]
    refine ⟨w, rfl, ?_, ?_, by omega, rfl⟩
    · rw [same, fill]
    · rw [same, held]

/-- The buffers take a byte as `hear` does, and stay within their bounds. -/
theorem takeByte_hears {w : WaitBuffers} {heard : Heard} (holds : Holds w heard) (b : UInt8) :
    ∃ next, takeByte w b = some (next, (hear heard b).2) ∧ next.done = (hear heard b).1.done ∧
      ((hear heard b).2 = false → Holds next (hear heard b).1) := by
  obtain ⟨head, noted⟩ := noteHead_defined w b
  obtain ⟨first, stored⟩ := Buffer.store_defined w.buf b (Nat.lt_of_lt_of_le holds.room (by decide))
  obtain ⟨second, ended⟩ := Buffer.store_defined first 0
    (show w.fill + 1 < 96 by have room := holds.room; omega)
  have text : Buffer.held first (w.fill + 1) = heard.buf ++ [b] := by
    rw [Buffer.held_store stored, holds.held]
  have search : ∀ word, strstrIn second word = some (strstr (heard.buf ++ [b]) word) := by
    intro word
    rw [strstrIn_stored word ended, text]
  have done : lookForDone w.done second =
      some (heard.done || strstr (heard.buf ++ [b]) doneWord) := by
    rw [lookForDone, search, holds.done]
    cases heard.done <;> rfl
  let after : WaitBuffers := { w with
    cliRxHead := head, cliRxN := w.cliRxN + 1, buf := second, fill := w.fill + 1,
    done := heard.done || strstr (heard.buf ++ [b]) doneWord }
  have body : takeByte w b = if strstr (heard.buf ++ [b]) radarPrompt then some (after, true)
      else (slideBuf after).map fun w => (w, false) := by
    simp only [takeByte, noted, stored, ended, done, search, Option.bind_eq_bind, Option.bind_some]
    rfl
  have filled : after.fill = (heard.buf ++ [b]).length := by
    rw [List.length_append, ← holds.fill]
    rfl
  have kept : Buffer.held after.buf after.fill = heard.buf ++ [b] := by
    rw [← text]
    exact Buffer.held_below ended
  obtain ⟨slid, moved, holdsNext⟩ := slideBuf_slides filled kept
    (by have room := holds.room; change w.fill + 1 < 96; omega)
  rw [body]
  by_cases prompt : strstr (heard.buf ++ [b]) radarPrompt = true
  · rw [if_pos prompt]
    refine ⟨after, ?_, rfl, fun waiting => ?_⟩
    · rw [← prompt]
      rfl
    · exact absurd (prompt.symm.trans waiting) nofun
  · have waiting : strstr (heard.buf ++ [b]) radarPrompt = false := Bool.eq_false_iff.mpr prompt
    rw [if_neg prompt, moved]
    refine ⟨slid, ?_, holdsNext.done, fun _ => holdsNext⟩
    rw [← waiting]
    rfl

theorem cliWaitBuffersLoop_hears {deadline turns : Nat} {u next : Uart} {w : WaitBuffers}
    {heard : Heard} {ok : Bool} (holds : Holds w heard)
    (ran : cliWaitLoop deadline turns u heard = some (ok, next)) :
    ∃ last, cliWaitBuffersLoop deadline turns u w = some (ok, next, last) := by
  induction turns generalizing u w heard with
  | zero => cases ran
  | succ turns ih =>
      rw [cliWaitLoop] at ran
      rw [cliWaitBuffersLoop]
      split at ran
      · next running =>
          rw [if_pos running]
          cases got : ringBufGet u with
          | none =>
              rw [got] at ran
              exact ih holds ran
          | some taken =>
              obtain ⟨b, later⟩ := taken
              rw [got] at ran
              obtain ⟨after, took, done, holdsNext⟩ := takeByte_hears holds b
              simp only at ran
              simp only [took, Option.bind_eq_bind, Option.bind_some]
              split at ran
              · next prompt =>
                  cases ran
                  rw [if_pos prompt]
                  exact ⟨after, by rw [done]⟩
              · next waiting =>
                  rw [if_neg waiting]
                  exact ih (holdsNext (Bool.eq_false_iff.mpr waiting)) ran
      · next late =>
          rw [if_neg late]
          cases ran
          exact ⟨w, by rw [holds.done]⟩

/-- `cli_wait` never leaves its buffers, whatever they hold before, and returns what it hears. -/
theorem cliWaitBuffers_hears (buf : Vector UInt8 96) (head : Vector UInt8 129) {u next : Uart}
    {timeoutMs : Nat} {ok : Bool} (ran : cliWait u timeoutMs = some (ok, next)) :
    ∃ last, cliWaitBuffers buf head u timeoutMs = some (ok, next, last) := by
  obtain ⟨first, stored⟩ := Buffer.store_defined buf 0 (show 0 < 96 by decide)
  obtain ⟨second, noted⟩ := Buffer.store_defined head 0 (show 0 < 129 by decide)
  have empty : Holds ⟨first, 0, false, 0, second⟩ ⟨[], false⟩ := by
    refine ⟨rfl, List.take_zero, show 0 < 95 by decide, rfl⟩
  obtain ⟨last, done⟩ := cliWaitBuffersLoop_hears empty ran
  refine ⟨last, ?_⟩
  simp only [cliWaitBuffers, stored, noted, Option.bind_eq_bind, Option.bind_some]
  exact done

end PresenceNode.Radar
