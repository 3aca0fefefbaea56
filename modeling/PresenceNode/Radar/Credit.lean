import Mathlib.Data.List.TakeWhile
import PresenceNode.Radar.Script

/-!
# Which line a reply is credited to

The drain before a line removes what has arrived by then.  An answer to an
earlier line that arrives later is read as the answer to this one, so a line
is judged by its own answer exactly if no `Done` of an earlier one comes into
sight while its wait goes on.
-/

namespace PresenceNode.Radar

open Library.Pattern

def Call.answered (call : Call) : List UInt8 := call.reply.map Prod.snd

def Call.Accepted (call : Call) : Prop := doneWord <:+: call.answered

/-- What is still to come once the line's drain has run: bytes that no reply to it has. -/
def stale (u : Uart) : List Arrival := (cliDrain u).rx

/-- At the byte with that number the window holds the word at the index, with no zero before it. -/
def Shown (word text : List UInt8) (number index : Nat) : Prop :=
  OccursAt word text index ∧ index + word.length ≤ number ∧ Visible text number index

/--
Unless the line is answered `Done` itself, no `Done` that begins in a byte of
something earlier comes into sight before the prompt has been in sight.
-/
def Unmixed (u : Uart) (call : Call) : Prop :=
  ∀ number ≤ (call.awaited u).length, ∀ index < (stale u).length,
    Shown doneWord (call.awaited u) number index →
    (∀ earlier < number, ∀ other, ¬ Shown radarPrompt (call.awaited u) earlier other) →
    call.Accepted

/-! ## One call -/

/-- The bytes that are read are those before which the prompt has not been in sight. -/
theorem Ended.reaches {deadline : Nat} {text read : List UInt8} {next : Uart}
    (ended : Ended deadline text read next) (before : read <+: text) (number : Nat) :
    number ≤ read.length ↔ number ≤ text.length ∧
      ∀ earlier < number, ∀ index, ¬ Shown radarPrompt text earlier index := by
  cases ended with
  | prompted _ front b split unseen shows =>
      have length : read.length = front.length + 1 := by
        rw [split, List.length_append, List.length_singleton]
      have frontBefore : front <+: text := List.IsPrefix.trans ⟨[b], split.symm⟩ before
      constructor
      · intro inside
        refine ⟨inside.trans before.length_le, fun earlier lower index ⟨occurs, ends, visible⟩ => ?_⟩
        exact unseen ((seen_iff prompt_plain.1 prompt_plain.2 frontBefore).mpr
          ⟨index, earlier, occurs, ends, by omega, visible⟩)
      · rintro ⟨_, hidden⟩
        refine Nat.le_of_not_lt fun beyond => ?_
        obtain ⟨index, occurs, visible⟩ := (shows_iff prompt_plain.1).mp shows
        have inside := occurs.inside prompt_plain.2
        obtain ⟨rest, whole⟩ := before
        refine hidden read.length beyond index ⟨?_, inside, ?_⟩
        · rw [← whole]
          exact occurs.append rest
        · exact (visible_front ⟨rest, whole⟩ (by omega)).mp visible
  | expired _ whole unseen =>
      rw [whole] at unseen ⊢
      refine ⟨fun inside => ⟨inside, fun earlier lower index ⟨occurs, ends, visible⟩ => ?_⟩,
        And.left⟩
      exact unseen ((seen_iff prompt_plain.1 prompt_plain.2 List.prefix_rfl).mpr
        ⟨index, earlier, occurs, ends, by omega, visible⟩)

/-- A `Done` that does not begin in something earlier is in the reply. -/
theorem accepted_of_late {u : Uart} {call : Call} {index : Nat}
    (occurs : OccursAt doneWord (call.awaited u) index) (late : (stale u).length ≤ index) :
    call.Accepted := by
  have all : ((call.sent u).rx).map Arrival.byte = (stale u).map Arrival.byte ++ call.answered := by
    rw [call.sent_rx, List.map_append, List.map_map]
    rfl
  have whole : call.awaited u <+: (stale u).map Arrival.byte ++ call.answered := by
    rw [← all]
    exact (attended_front _ _ _).map _
  obtain ⟨more, split⟩ := whole
  have inside := occurs.append more
  rw [split] at inside
  unfold OccursAt at inside
  rw [List.drop_append, List.drop_eq_nil_of_le (by rw [List.length_map]; exact late),
    List.nil_append] at inside
  exact inside.isInfix.trans (List.drop_suffix _ _).isInfix

/-- A call succeeds only on its own reply exactly if it is unmixed. -/
theorem cliLine_credited_iff {u next : Uart} {call : Call} {ok : Bool}
    (ran : cliLine u call = some (ok, next)) :
    (ok = true → call.Accepted) ↔ Unmixed u call := by
  obtain ⟨verdict, last, taken, again, _, before, done, ended⟩ := cliLine_ends u call
  rw [ran] at again
  cases again
  rw [done, seen_iff done_plain.1 done_plain.2 before]
  constructor
  · rintro credited number inside index _ ⟨occurs, ends, visible⟩ hidden
    have reached := (ended.reaches before number).mpr ⟨inside, hidden⟩
    exact credited ⟨index, number, occurs, ends, reached, visible⟩
  · rintro unmixed ⟨index, number, occurs, ends, reached, visible⟩
    obtain ⟨inside, hidden⟩ := (ended.reaches before number).mp reached
    by_cases early : index < (stale u).length
    · exact unmixed number inside index early ⟨occurs, ends, visible⟩ hidden
    · exact accepted_of_late occurs (Nat.le_of_not_lt early)

theorem Settled.unmixed {u : Uart} (settled : Settled u) (call : Call) : Unmixed u call := by
  intro _ _ index early
  rw [stale, settled.drained] at early
  exact absurd early (Nat.not_lt_zero _)

/-! ## A whole configuration -/

/--
In every configuration each call succeeds only if the demo's reply to that very
line contains `Done`, exactly if the call is unmixed; and the configuration
succeeds only if `sensorStart` was answered `Done`, exactly if that call is.
-/
theorem radarConfigure_credits (demo : Demo) (u : Uart) :
    ∃ configured last, radarConfigure demo u = some configured ∧
      configured.calls.map Verdict.call = callsOf demo 0 script ∧
      configured.calls.getLast? = some last ∧
      last.call = ⟨"sensorStart 0 0 0 0", 15000, demo.replies 24 "sensorStart 0 0 0 0"⟩ ∧
      (∀ verdict ∈ configured.calls,
        (verdict.ok = true → verdict.call.Accepted) ↔ Unmixed verdict.uart verdict.call) ∧
      ((configured.result = 0 → last.call.Accepted) ↔ Unmixed last.uart last.call) := by
  obtain ⟨stops, first, empty, second, made, verdict, last, stopped, flushed, looped, ran⟩ :=
    radarConfigure_called demo u
  have each : ∀ one ∈ stops ++ empty ++ (made ++ [verdict]),
      (one.ok = true → one.call.Accepted) ↔ Unmixed one.uart one.call := by
    intro one member
    have called : ∃ next, cliLine one.uart one.call = some (one.ok, next) := by
      rcases List.mem_append.mp member with before | within
      · rcases List.mem_append.mp before with stop | flush
        · exact stopped.made one stop
        · exact flushed.made one flush
      · exact looped.made one within
    obtain ⟨next, answered⟩ := called
    exact cliLine_credited_iff answered
  refine ⟨_, verdict, ran, ?_, ?_, cfgScript_last looped.calls, each, ?_⟩
  · rw [List.map_append, List.map_append, stopped.calls, flushed.calls, looped.calls, script,
      callsOf_append, callsOf_append]
    rfl
  · rw [← List.append_assoc, List.getLast?_concat]
  · rw [result_eq_zero_iff]
    exact each verdict (by simp)

/-! ## A demo that answers one line late -/

theorem Settled.ringBufGet {u next : Uart} {b : UInt8} (settled : Settled u)
    (got : ringBufGet u = some (b, next)) : Settled next := by
  obtain ⟨due, queued, _, clock⟩ := ringBufGet_eq_some got
  intro first member
  rw [clock]
  exact settled first (by rw [queued]; exact List.mem_cons_of_mem _ member)

theorem cliWaitLoop_settled {deadline turns : Nat} {u next : Uart} {heard : Heard} {ok : Bool}
    (settled : Settled u) (ran : cliWaitLoop deadline turns u heard = some (ok, next)) :
    Settled next := by
  induction turns generalizing u heard with
  | zero => cases ran
  | succ turns ih =>
      rw [cliWaitLoop] at ran
      split at ran
      · cases got : ringBufGet u with
        | none =>
            rw [got] at ran
            exact ih (settled.sleep 2) ran
        | some taken =>
            obtain ⟨b, later⟩ := taken
            rw [got] at ran
            simp only at ran
            split at ran
            · cases ran
              exact settled.ringBufGet got
            · exact ih (settled.ringBufGet got) ran
      · cases ran
        exact settled

/-- Answers without delay leave the link settled, whatever the verdicts. -/
theorem Called.settled {demo : Demo} {number : Nat} {u last : Uart} {entries : List Entry}
    {verdicts : List Verdict} (called : Called demo number u entries verdicts last)
    (prompt : ∀ other < number + entries.length, ∀ line, ∀ sent ∈ demo.replies other line,
      sent.1 = 0) (settled : Settled u) :
    Settled last ∧ ∀ verdict ∈ verdicts, Settled verdict.uart := by
  induction called with
  | done => exact ⟨settled, fun _ impossible => nomatch impossible⟩
  | @call number u _ _ entry rest verdict _ made others ih =>
      rw [List.length_cons, Nat.add_comm rest.length, ← Nat.add_assoc] at prompt
      obtain ⟨uart, call, ran⟩ := callLine_eq_some made
      have sent : Settled (verdict.call.sent u) := by
        intro first member
        rw [Call.sent_rx, settled.drained, List.nil_append] at member
        obtain ⟨one, oneBy, rfl⟩ := List.mem_map.mp member
        rw [call] at oneBy
        change _ + one.1 ≤ _
        rw [prompt number (by omega) entry.line one oneBy]
        exact Nat.le_refl _
      rw [cliLine_eq] at ran
      obtain ⟨settledLast, rest⟩ := ih prompt (cliWaitLoop_settled sent ran)
      refine ⟨settledLast, fun one member => ?_⟩
      rcases List.mem_cons.mp member with rfl | later
      · exact uart ▸ settled
      · exact rest one later

def answer (line : String) (delay : Nat) (text : String) : List (Nat × UInt8) :=
  (ascii line ++ ascii text ++ radarPrompt).map fun byte => (delay, byte)

/-- `sensorStart` is answered with an error, and `trackingCfg` with `Done` after some time. -/
def refusingDemo (delay : Nat) : Demo where
  replies number line :=
    if number = 24 then answer line 0 "\r\nError -1\r\n"
    else if number = 23 then answer line delay "\r\nDone\r\n"
    else answer line 0 "\r\nDone\r\n"
  banner := answer "" 100 "\r\n"

theorem answer_delay {line text : String} {delay : Nat} {sent : Nat × UInt8}
    (member : sent ∈ answer line delay text) : sent.1 = delay := by
  obtain ⟨_, _, rfl⟩ := List.mem_map.mp member
  rfl

theorem refusingDemo_delay {delay number : Nat} {line : String} {sent : Nat × UInt8}
    (member : sent ∈ (refusingDemo delay).replies number line) :
    sent.1 = if number = 23 then delay else 0 := by
  simp only [refusingDemo] at member
  split at member
  · next last =>
      rw [last, answer_delay member]
      rfl
  · split at member
    · next tracking => rw [answer_delay member, if_pos tracking]
    · next other => rw [answer_delay member, if_neg other]

theorem refusingDemo_refuses (delay : Nat) :
    ¬ (Call.mk "sensorStart 0 0 0 0" 15000
      ((refusingDemo delay).replies 24 "sensorStart 0 0 0 0")).Accepted := by
  change ¬ doneWord <:+: ((answer "sensorStart 0 0 0 0" 0 "\r\nError -1\r\n").map Prod.snd)
  decide +kernel

/-- When every answer comes at once and the banner is over in time, every call finds the link settled. -/
theorem radarConfigure_settled {demo : Demo} {u : Uart} {configured : Configured}
    (settled : Settled u) (booted : ∀ sent ∈ demo.banner, sent.1 ≤ 2000)
    (prompt : ∀ other line, ∀ sent ∈ demo.replies other line, sent.1 = 0)
    (ran : radarConfigure demo u = some configured) :
    ∀ verdict ∈ configured.calls, Settled verdict.uart := by
  obtain ⟨stops, first, empty, second, made, verdict, last, stopped, flushed, looped, again⟩ :=
    radarConfigure_called demo u
  rw [ran] at again
  cases again
  obtain ⟨settledFirst, settledStops⟩ := stopped.settled (fun other _ => prompt other) settled
  obtain ⟨settledSecond, settledEmpty⟩ :=
    flushed.settled (fun other _ => prompt other) (rebooted_settled settledFirst booted)
  obtain ⟨_, settledLoop⟩ := looped.settled (fun other _ => prompt other) settledSecond
  intro one member
  rcases List.mem_append.mp member with before | within
  · rcases List.mem_append.mp before with stop | flush
    · exact settledStops one stop
    · exact settledEmpty one flush
  · exact settledLoop one within

/-- A demo that answers at once is credited with what it says, and is not taken to have started. -/
theorem radarConfigure_credits_prompt :
    ∃ configured last, radarConfigure (refusingDemo 0) Uart.zero = some configured ∧
      configured.calls.getLast? = some last ∧
      (∀ verdict ∈ configured.calls, Unmixed verdict.uart verdict.call ∧
        (verdict.ok = true → verdict.call.Accepted)) ∧
      Unmixed last.uart last.call ∧ configured.result ≠ 0 := by
  obtain ⟨configured, last, ran, _, final, start, each, starts⟩ :=
    radarConfigure_credits (refusingDemo 0) Uart.zero
  have settled : ∀ verdict ∈ configured.calls, Settled verdict.uart := by
    refine radarConfigure_settled (settled_of_nil rfl)
      (fun sent member => (answer_delay member).trans_le (by decide)) ?_ ran
    intro other line sent member
    rw [refusingDemo_delay member, ite_self]
  have unmixed : ∀ verdict ∈ configured.calls, Unmixed verdict.uart verdict.call :=
    fun verdict member => (settled verdict member).unmixed verdict.call
  have lastUnmixed := unmixed last (List.mem_of_getLast? final)
  refine ⟨configured, last, ran, final, fun verdict member =>
    ⟨unmixed verdict member, (each verdict member).mpr (unmixed verdict member)⟩, lastUnmixed, ?_⟩
  intro zero
  have accepted := starts.mpr lastUnmixed zero
  rw [start] at accepted
  exact refusingDemo_refuses 0 accepted

/-! ## A late answer -/

/-- A line none of whose answer comes in time fails, and the answer stays on its way. -/
theorem cliLine_silent {most : Nat} {u next : Uart} {call : Call} {ok : Bool}
    (settled : Settled u) (within : u.Within most)
    (late : ∀ sent ∈ call.reply, call.timeoutMs ≤ sent.1)
    (ran : cliLine u call = some (ok, next)) :
    next.rx = (call.sent u).rx ∧ call.deadline u ≤ next.now ∧
      next.now ≤ call.deadline u + 1 + most ∧ next.Within most := by
  obtain ⟨_, _, taken, again, split, before, _, ended⟩ := cliLine_ends u call
  rw [ran] at again
  cases again
  have nothing : call.awaited u = [] := by
    rw [Call.awaited, attended_none, List.map_nil]
    intro first member
    rw [call.sent_rx, settled.drained, List.nil_append] at member
    obtain ⟨one, oneBy, rfl⟩ := List.mem_map.mp member
    exact Nat.add_le_add_left (late one oneBy) _
  rw [nothing] at before ended
  have none : taken.map Arrival.byte = [] := List.prefix_nil.mp before
  rw [List.map_eq_nil_iff.mp none, List.nil_append] at split
  have past : call.deadline u ≤ next.now := by
    cases ended with
    | prompted _ front b ends => exact absurd (none.symm.trans ends) (by simp)
    | expired late _ _ => exact late
  rw [cliLine_eq] at ran
  obtain ⟨still, bound⟩ := cliWaitLoop_within (call.sent_within within).1
    (by unfold Call.deadline; omega) ran
  exact ⟨split.symm, past, bound, still⟩

theorem cliDrain_late {u : Uart} (late : ∀ first ∈ u.rx, u.now < first.due) :
    (cliDrain u).rx = u.rx := by
  cases queued : u.rx with
  | nil => rw [cliDrain, queued, List.dropWhile_nil]
  | cons first rest =>
      have due := late first (by rw [queued]; exact List.mem_cons_self ..)
      rw [cliDrain, queued, List.dropWhile_cons_of_neg (by simpa using due)]

/-- An answer to `trackingCfg` 10 ms after its time is what `sensorStart` is judged by. -/
theorem refusingDemo_starts {u next last : Uart} {tracking start : Verdict} (settled : Settled u)
    (within : u.Within 0)
    (tracked : callLine (refusingDemo 3010) u 23 "trackingCfg 1 2 100 3 61.4 191.8 250" 3000 =
      some (tracking, next))
    (started : callLine (refusingDemo 3010) next 24 "sensorStart 0 0 0 0" 15000 =
      some (start, last)) : start.ok = true := by
  obtain ⟨_, called, ran⟩ := callLine_eq_some tracked
  obtain ⟨_, starting, judged⟩ := callLine_eq_some started
  have delayed : ∀ sent ∈ tracking.call.reply, sent.1 = 3010 := by
    rw [called]
    intro sent member
    exact @refusingDemo_delay 3010 23 _ sent member
  have given : tracking.call.timeoutMs = 3000 := by rw [called]
  obtain ⟨rx, past, bound, still⟩ := cliLine_silent settled within
    (fun sent member => by rw [delayed sent member, given]; decide) ran
  rw [tracking.call.sent_rx, settled.drained, List.nil_append] at rx
  -- The answer is still to come when the next line is drained, and there when it is written.
  have due : ∀ first ∈ next.rx, next.now < first.due ∧ first.due ≤ next.now + 10 := by
    intro first member
    rw [rx] at member
    obtain ⟨sent, sentBy, rfl⟩ := List.mem_map.mp member
    have delay := delayed sent sentBy
    rw [Call.deadline, given] at past bound
    change next.now < _ + sent.1 ∧ _ + sent.1 ≤ _
    omega
  have drained := cliDrain_late fun first member => (due first member).1
  have length : start.call.written.length = 20 := by rw [starting]; decide +kernel
  have written := start.call.sent_now next
  have sentRx := start.call.sent_rx next
  rw [drained] at sentRx
  have early : ∀ first ∈ (start.call.sent next).rx,
      (start.call.sent next).now < start.call.deadline next ∧
        first.due + 1 + 0 < start.call.deadline next := by
    have timed : start.call.timeoutMs = 15000 := by rw [starting]
    intro first member
    rw [Call.deadline, timed]
    rw [sentRx] at member
    rcases List.mem_append.mp member with earlier | own
    · have arrived := (due first earlier).2
      omega
    · obtain ⟨sent, sentBy, rfl⟩ := List.mem_map.mp own
      rw [starting] at sentBy
      have delay := @refusingDemo_delay 3010 24 _ sent sentBy
      change _ ∧ _ + sent.1 + 1 + 0 < _
      rw [delay, if_neg (by decide)]
      omega
  have bytes : (start.call.sent next).rx.map Arrival.byte =
      ((refusingDemo 3010).replies 23 "trackingCfg 1 2 100 3 61.4 191.8 250").map Prod.snd ++
        ((refusingDemo 3010).replies 24 "sensorStart 0 0 0 0").map Prod.snd := by
    rw [sentRx, rx, called, starting, List.map_append, List.map_map, List.map_map]
    rfl
  obtain ⟨ok, after, _, again, _, _, counts⟩ :=
    cliLine_whole still early (by rw [bytes]; decide +kernel)
  rw [judged] at again
  cases again
  rw [counts, bytes]
  decide +kernel

theorem cfgScript_ends : cfgScript = (cfgLines.take 20).map cfgEntry ++
    [⟨"trackingCfg 1 2 100 3 61.4 191.8 250", 3000⟩, ⟨"sensorStart 0 0 0 0", 15000⟩] := by
  have tracking : cfgEntry "trackingCfg 1 2 100 3 61.4 191.8 250" =
      ⟨"trackingCfg 1 2 100 3 61.4 191.8 250", 3000⟩ := by
    have ordinary : isStart "trackingCfg 1 2 100 3 61.4 191.8 250" = false := by decide +kernel
    rw [cfgEntry, ordinary]
    rfl
  have start : cfgEntry "sensorStart 0 0 0 0" = ⟨"sensorStart 0 0 0 0", 15000⟩ := by
    rw [cfgEntry, isStart_sensorStart]
    rfl
  rw [← tracking, ← start]
  rfl

/-- The late `Done` of `trackingCfg` starts a sensor that has refused to start. -/
theorem sensorStart_credited_late :
    ∃ configured, radarConfigure (refusingDemo 3010) Uart.zero = some configured ∧
      configured.result = 0 ∧ ∃ verdict ∈ configured.calls,
        verdict.call.line = "sensorStart 0 0 0 0" ∧ verdict.ok = true ∧
        ¬ verdict.call.Accepted := by
  obtain ⟨stops, first, empty, second, made, start, last, stopped, flushed, looped, ran⟩ :=
    radarConfigure_called (refusingDemo 3010) Uart.zero
  have early : ∀ other < 23, ∀ line, ∀ sent ∈ (refusingDemo 3010).replies other line,
      sent.1 = 0 := by
    intro other lower line sent member
    rw [refusingDemo_delay member, if_neg (Nat.ne_of_lt lower)]
  have onTime : Uart.zero.Within 0 := fun _ => Nat.le_refl _
  have settledFirst := (stopped.settled (fun other lower => early other (by
    change other < 0 + 2 at lower; omega)) (settled_of_nil rfl)).1
  have settledSecond := (flushed.settled (fun other lower => early other (by
    change other < 2 + 1 at lower; omega)) (rebooted_settled settledFirst
      fun sent member => (answer_delay member).trans_le (by decide))).1
  have withinSecond :=
    (flushed.within (rebooted_within _ (stopped.within onTime).1).1).1
  have accepted : start.ok = true := by
    rw [cfgScript_ends] at looped
    obtain ⟨before, ready, after, setup, lastTwo, parts⟩ := looped.split
    have settledReady := (setup.settled (fun other lower => early other (by
      change other < 3 + 20 at lower; omega)) settledSecond).1
    cases lastTwo with
    | call tracked others =>
        cases others with
        | call started none =>
            cases none
            have final := congrArg List.getLast? parts
            simp only [List.getLast?_append, List.getLast?_cons_cons, List.getLast?_singleton,
              Option.some_or, Option.some_inj] at final
            rw [final]
            exact refusingDemo_starts settledReady (setup.within withinSecond).1 tracked started
  have call := cfgScript_last looped.calls
  refine ⟨_, ran, by rw [accepted]; rfl, start, by simp, by rw [call], accepted, ?_⟩
  rw [call]
  exact refusingDemo_refuses 3010

end PresenceNode.Radar
