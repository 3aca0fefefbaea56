import PresenceNode.Radar.Credit

/-!
# The bring-up of the radar

If each line is answered before its own time is over, or not at all, then
nothing of an answer is left for the line behind it, and each call returns what
its own answer says.  The margin is what a sleep can be late, and 2 ms.
-/

namespace PresenceNode.Radar

open Library Library.Pattern

/-- An answer that is over in time, without zeros, and with the prompt at most at its end. -/
structure Punctual (most timeoutMs : Nat) (reply : List (Nat × UInt8)) : Prop where
  inTime : ∀ sent ∈ reply, sent.1 + 2 + most ≤ timeoutMs
  nonzero : 0 ∉ reply.map Prod.snd
  once : ¬ radarPrompt <:+: (reply.map Prod.snd).dropLast

theorem upToPrompt_once {text : List UInt8} (once : ¬ radarPrompt <:+: text.dropLast) :
    upToPrompt text = text := by
  cases search : find radarPrompt text with
  | none => rw [upToPrompt, search]
  | some index =>
      have first := firstAt_of_find search
      have last := ((first_iff first.1).mp once).2
      rw [upToPrompt_first first, last, List.take_length]

/-- A punctual answer is read as a whole, and decides what the call returns. -/
theorem cliLine_punctual {most : Nat} {u next : Uart} {call : Call} {ok : Bool}
    (settled : Settled u) (within : u.Within most)
    (punctual : Punctual most call.timeoutMs call.reply) (ran : cliLine u call = some (ok, next)) :
    next.rx = [] ∧ (ok = true ↔ call.Accepted) := by
  have rx : (call.sent u).rx = call.reply.map fun one => ⟨(call.sent u).now + one.1, one.2⟩ := by
    rw [call.sent_rx, settled.drained, List.nil_append]
  have bytes : (call.sent u).rx.map Arrival.byte = call.answered := by
    rw [rx, List.map_map]
    rfl
  have early : ∀ first ∈ (call.sent u).rx, (call.sent u).now < call.deadline u ∧
      first.due + 1 + most < call.deadline u := by
    intro first member
    rw [rx] at member
    obtain ⟨one, oneBy, rfl⟩ := List.mem_map.mp member
    have inTime := punctual.inTime one oneBy
    rw [Call.deadline]
    change _ ∧ (call.sent u).now + one.1 + 1 + most < _
    omega
  obtain ⟨_, _, taken, again, split, whole, counts⟩ :=
    cliLine_whole within early (by rw [bytes]; exact punctual.nonzero)
  rw [ran] at again
  cases again
  have once : upToPrompt call.answered = call.answered := upToPrompt_once punctual.once
  rw [bytes, once] at whole counts
  refine ⟨?_, counts⟩
  have sizes := congrArg List.length split
  have lengths := congrArg List.length (whole.trans bytes.symm)
  rw [List.length_map, List.length_map] at lengths
  rw [List.length_append] at sizes
  exact List.eq_nil_of_length_eq_zero (by omega)

/-- Punctual answers leave nothing to the lines behind theirs. -/
theorem Called.punctual {most : Nat} {demo : Demo} {number : Nat} {u last : Uart}
    {entries : List Entry} {verdicts : List Verdict}
    (called : Called demo number u entries verdicts last) (settled : Settled u)
    (within : u.Within most)
    (punctual : ∀ call ∈ callsOf demo number entries, Punctual most call.timeoutMs call.reply) :
    Settled last ∧ (entries ≠ [] → last.rx = []) ∧
      ∀ verdict ∈ verdicts, verdict.ok = true ↔ verdict.call.Accepted := by
  induction called with
  | done => exact ⟨settled, fun some => absurd rfl some, nofun⟩
  | call made others ih =>
      obtain ⟨_, call, ran⟩ := callLine_eq_some made
      obtain ⟨drained, credited⟩ := cliLine_punctual settled within
        (by rw [call]; exact punctual _ (List.mem_cons_self ..)) ran
      obtain ⟨settledLast, emptied, rest⟩ := ih (settled_of_nil drained)
        (callLine_within within made).1
        fun call member => punctual call (List.mem_cons_of_mem _ member)
      refine ⟨settledLast, fun _ => ?_, fun verdict member => ?_⟩
      · cases others with
        | done => exact drained
        | call => exact emptied (List.cons_ne_nil _ _)
      · rcases List.mem_cons.mp member with rfl | later
        · exact credited
        · exact rest verdict later

/-- The calls of a configuration that is answered in time, those of the loop apart. -/
theorem radarConfigure_settles {most : Nat} {demo : Demo} {u : Uart} (settled : Settled u)
    (within : u.Within most) (booted : ∀ sent ∈ demo.banner, sent.1 ≤ 2000)
    (punctual : ∀ call ∈ callsOf demo 0 script, Punctual most call.timeoutMs call.reply) :
    ∃ before made verdict last, radarConfigure demo u =
        some ⟨if verdict.ok then 0 else eio, before ++ (made ++ [verdict]), last⟩ ∧
      before.map Verdict.call = callsOf demo 0 (stopScript ++ emptyScript) ∧
      (made ++ [verdict]).map Verdict.call = callsOf demo 3 cfgScript ∧
      (∀ one ∈ before ++ (made ++ [verdict]), one.ok = true ↔ one.call.Accepted) ∧
      last.rx = [] := by
  obtain ⟨stops, first, empty, second, made, verdict, last, stopped, flushed, configured, ran⟩ :=
    radarConfigure_called demo u
  have parts : callsOf demo 0 script = callsOf demo 0 stopScript ++ callsOf demo 2 emptyScript ++
      callsOf demo 3 cfgScript := by
    rw [script, callsOf_append, callsOf_append]
    rfl
  rw [parts] at punctual
  have withinBoot := (rebooted_within demo (stopped.within within).1).1
  have settledFirst := stopped.punctual settled within fun call member =>
    punctual call (List.mem_append_left _ (List.mem_append_left _ member))
  have settledSecond := flushed.punctual (rebooted_settled settledFirst.1 booted) withinBoot
    fun call member => punctual call (List.mem_append_left _ (List.mem_append_right _ member))
  have settledLast := configured.punctual settledSecond.1 (flushed.within withinBoot).1
    fun call member => punctual call (List.mem_append_right _ member)
  refine ⟨stops ++ empty, made, verdict, last, ran, ?_, configured.calls, ?_,
    settledLast.2.1 (List.cons_ne_nil _ _)⟩
  · rw [List.map_append, stopped.calls, flushed.calls, callsOf_append]
    rfl
  · intro one member
    rcases List.mem_append.mp member with earlier | looped
    · rcases List.mem_append.mp earlier with stop | flush
      · exact settledFirst.2.2 one stop
      · exact settledSecond.2.2 one flush
    · exact settledLast.2.2 one looped

/--
Where no sleep is late by more than so many milliseconds, a demo that answers
every line that much in time, or not at all, is configured as it says: each call returns whether the answer to that very line contains `Done`,
the configuration succeeds exactly if the answer to `sensorStart` does, and
nothing that was answered is left to be read as data.
-/
theorem radarConfigure_punctual {most : Nat} {demo : Demo} {u : Uart} (settled : Settled u)
    (within : u.Within most) (booted : ∀ sent ∈ demo.banner, sent.1 ≤ 2000)
    (punctual : ∀ call ∈ callsOf demo 0 script, Punctual most call.timeoutMs call.reply) :
    ∃ configured, radarConfigure demo u = some configured ∧
      configured.calls.map Verdict.call = callsOf demo 0 script ∧
      (∀ verdict ∈ configured.calls, verdict.ok = true ↔ verdict.call.Accepted) ∧
      (configured.result = 0 ↔
        doneWord <:+: (demo.replies 24 "sensorStart 0 0 0 0").map Prod.snd) ∧
      configured.uart.rx = [] := by
  obtain ⟨before, made, verdict, last, ran, opening, looped, credited, drained⟩ :=
    radarConfigure_settles settled within booted punctual
  refine ⟨_, ran, ?_, credited, ?_, drained⟩
  · rw [List.map_append, opening, looped, script, callsOf_append]
    rfl
  · have decides := credited verdict (by simp)
    rw [cfgScript_last looped] at decides
    exact (result_eq_zero_iff verdict.ok).trans decides

/-- `sensorWarmRst` is not answered, `trackingCfg` is answered with an error, the others `Done`. -/
def plainDemo : Demo where
  replies number _ :=
    if number = 1 then []
    else if number = 23 then answer "" 10 "Error -1\r\n" else answer "" 10 "Done\r\n"
  banner := answer "" 100 "\r\n"

theorem plainDemo_punctual {most timeoutMs : Nat} (timed : 12 + most ≤ timeoutMs) (number : Nat)
    (line : String) : Punctual most timeoutMs (plainDemo.replies number line) := by
  have spoken : ∀ text : String, 0 ∉ (answer "" 10 text).map Prod.snd →
      ¬ radarPrompt <:+: ((answer "" 10 text).map Prod.snd).dropLast →
      Punctual most timeoutMs (answer "" 10 text) := by
    intro text nonzero once
    refine ⟨fun sent member => ?_, nonzero, once⟩
    rw [answer_delay member]
    exact timed
  simp only [plainDemo]
  split
  · exact ⟨nofun, nofun, by decide +kernel⟩
  · split
    · exact spoken _ (by decide +kernel) (by decide +kernel)
    · exact spoken _ (by decide +kernel) (by decide +kernel)

theorem script_timed : ∀ entry ∈ script, 500 ≤ entry.timeoutMs := by
  have fixed : ∀ entry ∈ stopScript ++ emptyScript, 500 ≤ entry.timeoutMs := by decide
  have listed : ∀ entry ∈ cfgScript, 500 ≤ entry.timeoutMs := by
    intro entry member
    obtain ⟨line, _, rfl⟩ := List.mem_map.mp member
    change 500 ≤ if isStart line then 15000 else 3000
    split <;> decide
  intro entry member
  rcases List.mem_append.mp member with before | loop
  · exact fixed entry before
  · exact listed entry loop

def sleepyUart : Uart := ⟨⟨0, fun later => if later % 2 = 0 then 3 else 0⟩, []⟩

theorem sleepyUart_within : sleepyUart.Within 3 := by
  intro later
  change (if later % 2 = 0 then 3 else 0) ≤ 3
  split <;> decide

theorem radarConfigure_punctual_plain :
    ∃ configured, radarConfigure plainDemo sleepyUart = some configured ∧
      configured.calls.map Verdict.call = callsOf plainDemo 0 script ∧
      (∀ verdict ∈ configured.calls, verdict.ok = true ↔ verdict.call.Accepted) ∧
      (configured.result = 0 ↔
        doneWord <:+: (plainDemo.replies 24 "sensorStart 0 0 0 0").map Prod.snd) ∧
      configured.uart.rx = [] := by
  refine radarConfigure_punctual (settled_of_nil rfl) sleepyUart_within ?_ ?_
  · exact fun sent member => (answer_delay member).trans_le (by decide)
  · intro call member
    obtain ⟨other, _, entry, inside, rfl⟩ := mem_callsOf member
    exact plainDemo_punctual ((script_timed entry inside).trans' (by decide)) other entry.line

end PresenceNode.Radar
