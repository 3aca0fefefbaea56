import Mathlib.Tactic.Ring
import PresenceNode.Radar.Hearing

/-!
# The script of the bring-up

`radar_configure` makes every call of its script once and in order, whatever is
answered, and it ends in time: a sleep is late by what the others do, and there
are 746 of them that can add to the length of the script.
-/

namespace PresenceNode.Radar

open Library Library.Pattern

/-- A line and the time that its answer is given. -/
structure Entry where
  line : String
  timeoutMs : Nat

def stopScript : List Entry := [⟨"sensorStop 0", 2000⟩, ⟨"sensorWarmRst 0", 2000⟩]

def emptyScript : List Entry := [⟨"", 500⟩]

def cfgEntry (line : String) : Entry := ⟨line, if isStart line then 15000 else 3000⟩

def cfgScript : List Entry := cfgLines.map cfgEntry

def script : List Entry := stopScript ++ emptyScript ++ cfgScript

/-- How long it takes to write the lines, one character per millisecond. -/
def writing : List Entry → Nat
  | [] => 0
  | entry :: rest => (ascii entry.line ++ [10]).length + writing rest

/-- How long the calls can take: each may sleep a millisecond past its time. -/
def longest : List Entry → Nat
  | [] => 0
  | entry :: rest => (ascii entry.line ++ [10]).length + entry.timeoutMs + 1 + longest rest

/-- The calls of a script as the demo answers them, the first of them under this number. -/
def callsOf (demo : Demo) : Nat → List Entry → List Call
  | _, [] => []
  | number, entry :: rest =>
      ⟨entry.line, entry.timeoutMs, demo.replies number entry.line⟩ ::
        callsOf demo (number + 1) rest

/-- The calls of a script, made one after the other. -/
inductive Called (demo : Demo) : Nat → Uart → List Entry → List Verdict → Uart → Prop where
  | done (number : Nat) (u : Uart) : Called demo number u [] [] u
  | call {number : Nat} {u next last : Uart} {entry : Entry} {rest : List Entry}
      {verdict : Verdict} {verdicts : List Verdict}
      (made : callLine demo u number entry.line entry.timeoutMs = some (verdict, next))
      (others : Called demo (number + 1) next rest verdicts last) :
      Called demo number u (entry :: rest) (verdict :: verdicts) last

theorem callsOf_append (demo : Demo) (number : Nat) (first second : List Entry) :
    callsOf demo number (first ++ second) =
      callsOf demo number first ++ callsOf demo (number + first.length) second := by
  induction first generalizing number with
  | nil => rfl
  | cons entry rest ih =>
      rw [List.cons_append, callsOf, ih, callsOf, List.cons_append, List.length_cons,
        Nat.add_comm rest.length, Nat.add_assoc]

/-- What the calls of a script take from it and from the demo. -/
theorem mem_callsOf {demo : Demo} {number : Nat} {entries : List Entry} {call : Call}
    (member : call ∈ callsOf demo number entries) :
    ∃ other < number + entries.length, ∃ entry ∈ entries,
      call = ⟨entry.line, entry.timeoutMs, demo.replies other entry.line⟩ := by
  induction entries generalizing number with
  | nil => cases member
  | cons entry rest ih =>
      rcases List.mem_cons.mp member with rfl | later
      · exact ⟨number, Nat.lt_add_of_pos_right (Nat.succ_pos _), entry, List.mem_cons_self .., rfl⟩
      · obtain ⟨other, lower, found, inside, same⟩ := ih later
        refine ⟨other, ?_, found, List.mem_cons_of_mem _ inside, same⟩
        rw [List.length_cons]
        omega

/-! ## One call -/

/-- The link when `cli_line` begins to wait for the answer. -/
def Call.sent (call : Call) (u : Uart) : Uart :=
  sends (cliWrite (cliDrain u) call.written) call.reply

def Call.deadline (call : Call) (u : Uart) : Nat := (call.sent u).now + call.timeoutMs

/-- What `cli_wait` can get to read, if the prompt does not stop it. -/
def Call.awaited (call : Call) (u : Uart) : List UInt8 :=
  (attended (call.deadline u) (call.sent u).rx (call.sent u).toClock).map Arrival.byte

theorem Call.sent_now (call : Call) (u : Uart) :
    u.now + call.written.length ≤ (call.sent u).now :=
  cliWrite_now (cliDrain u) call.written

theorem Call.sent_within {most : Nat} {u : Uart} (call : Call) (within : u.Within most) :
    (call.sent u).Within most ∧
      (call.sent u).now ≤ u.now + call.written.length * (1 + most) :=
  @cliWrite_within most (cliDrain u) within call.written

theorem Call.sent_rx (call : Call) (u : Uart) :
    (call.sent u).rx = (cliDrain u).rx ++
      call.reply.map fun one => ⟨(call.sent u).now + one.1, one.2⟩ := by
  change (cliWrite (cliDrain u) call.written).rx ++ _ = _
  rw [cliWrite_rx]
  rfl

theorem cliLine_eq (u : Uart) (call : Call) :
    cliLine u call = cliWaitLoop (call.deadline u)
      ((call.sent u).rx.length + call.timeoutMs + 1) (call.sent u) ⟨[], false⟩ := rfl

/-- Every call comes to an end, and what it returns is in the bytes that it has read. -/
theorem cliLine_ends (u : Uart) (call : Call) :
    ∃ ok next taken, cliLine u call = some (ok, next) ∧
      (call.sent u).rx = taken ++ next.rx ∧ taken.map Arrival.byte <+: call.awaited u ∧
      (ok = true ↔ Seen doneWord (taken.map Arrival.byte)) ∧
      Ended (call.deadline u) (call.awaited u) (taken.map Arrival.byte) next := by
  have enough : (call.sent u).rx.length + (call.deadline u - (call.sent u).now) <
      (call.sent u).rx.length + call.timeoutMs + 1 := by
    unfold Call.deadline
    omega
  obtain ⟨ok, next, taken, ran, split, before, done, ended⟩ :=
    cliWaitLoop_ends enough hears_nil (not_seen_nil _)
  rw [List.nil_append] at done ended
  exact ⟨ok, next, taken, ran, split, before.map _, done, ended⟩

/-- An answer without zeros that comes in time is read up to its first prompt, and judged by that. -/
theorem cliLine_whole {most : Nat} {u : Uart} {call : Call} (within : u.Within most)
    (early : ∀ first ∈ (call.sent u).rx, (call.sent u).now < call.deadline u ∧
      first.due + 1 + most < call.deadline u)
    (nonzero : 0 ∉ (call.sent u).rx.map Arrival.byte) :
    ∃ ok next taken, cliLine u call = some (ok, next) ∧ (call.sent u).rx = taken ++ next.rx ∧
      taken.map Arrival.byte = upToPrompt ((call.sent u).rx.map Arrival.byte) ∧
      (ok = true ↔ doneWord <:+: upToPrompt ((call.sent u).rx.map Arrival.byte)) := by
  obtain ⟨ok, next, taken, ran, split, before, done, ended⟩ := cliLine_ends u call
  rw [Call.awaited, attended_all (call.sent_within within).1 early] at before ended
  have clear := clear_of_nonzero nonzero
  have whole := (ended.reads before clear.prompt).1
  have counts := ((ended.counts_iff before done).mpr clear).done
  rw [whole] at counts
  exact ⟨ok, next, taken, ran, split, whole, counts⟩

theorem callLine_defined (demo : Demo) (u : Uart) (number : Nat) (line : String)
    (timeoutMs : Nat) : ∃ verdict next, callLine demo u number line timeoutMs = some (verdict, next) := by
  obtain ⟨ok, next, _, ran, _⟩ := cliLine_ends u ⟨line, timeoutMs, demo.replies number line⟩
  exact ⟨⟨u, _, ok⟩, next, by rw [callLine, ran]; rfl⟩

theorem callLine_eq_some {demo : Demo} {u next : Uart} {number timeoutMs : Nat} {line : String}
    {verdict : Verdict} (made : callLine demo u number line timeoutMs = some (verdict, next)) :
    verdict.uart = u ∧ verdict.call = ⟨line, timeoutMs, demo.replies number line⟩ ∧
      cliLine u verdict.call = some (verdict.ok, next) := by
  obtain ⟨result, ran, same⟩ := Option.map_eq_some_iff.mp made
  cases same
  exact ⟨rfl, rfl, ran⟩

/-- All that is queued has arrived, so the next drain takes it. -/
def Settled (u : Uart) : Prop := ∀ first ∈ u.rx, first.due ≤ u.now

theorem Settled.drained {u : Uart} (settled : Settled u) : (cliDrain u).rx = [] :=
  List.dropWhile_eq_nil_iff.mpr fun first member => decide_eq_true (settled first member)

theorem Settled.sleep {u : Uart} (settled : Settled u) (ms : Nat) : Settled (kMsleep u ms) := by
  intro first member
  have due := settled first member
  rw [kMsleep_now]
  omega

theorem settled_of_nil {u : Uart} (nothing : u.rx = []) : Settled u := by
  intro first member
  rw [nothing] at member
  cases member

theorem cliWaitLoop_now {deadline turns : Nat} {u next : Uart} {heard : Heard} {ok : Bool}
    (ran : cliWaitLoop deadline turns u heard = some (ok, next)) : u.now ≤ next.now := by
  induction turns generalizing u heard with
  | zero => cases ran
  | succ turns ih =>
      rw [cliWaitLoop] at ran
      split at ran
      · cases got : ringBufGet u with
        | none =>
            rw [got] at ran
            have later := ih ran
            rw [kMsleep_now] at later
            omega
        | some taken =>
            obtain ⟨b, rest⟩ := taken
            obtain ⟨_, _, _, clock⟩ := ringBufGet_eq_some got
            rw [got] at ran
            simp only at ran
            rw [← clock]
            split at ran
            · cases ran
              exact Nat.le_refl _
            · exact ih ran
      · cases ran
        exact Nat.le_refl _

/-- It ends at most a millisecond after its time, and by what its last sleep is late. -/
theorem cliWaitLoop_within {most deadline turns : Nat} {u next : Uart} {heard : Heard} {ok : Bool}
    (within : u.Within most) (timely : u.now ≤ deadline + 1 + most)
    (ran : cliWaitLoop deadline turns u heard = some (ok, next)) :
    next.Within most ∧ next.now ≤ deadline + 1 + most := by
  induction turns generalizing u heard with
  | zero => cases ran
  | succ turns ih =>
      rw [cliWaitLoop] at ran
      split at ran
      · next running =>
          cases got : ringBufGet u with
          | none =>
              rw [got] at ran
              have late := within 0
              exact @ih (kMsleep u 2) heard (within.sleep 2) (by rw [kMsleep_now]; omega) ran
          | some taken =>
              obtain ⟨b, rest⟩ := taken
              obtain ⟨_, _, _, clock⟩ := ringBufGet_eq_some got
              rw [← clock] at within timely
              rw [got] at ran
              simp only at ran
              split at ran
              · cases ran
                exact ⟨within, timely⟩
              · exact ih within timely ran
      · cases ran
        exact ⟨within, timely⟩

theorem callLine_now {demo : Demo} {u next : Uart} {number : Nat} {entry : Entry}
    {verdict : Verdict}
    (made : callLine demo u number entry.line entry.timeoutMs = some (verdict, next)) :
    u.now + (ascii entry.line ++ [10]).length ≤ next.now := by
  obtain ⟨_, call, ran⟩ := callLine_eq_some made
  have written := verdict.call.sent_now u
  rw [cliLine_eq] at ran
  rw [call] at ran written
  exact written.trans (cliWaitLoop_now ran)

theorem callLine_within {demo : Demo} {u next : Uart} {number most : Nat} {entry : Entry}
    {verdict : Verdict} (within : u.Within most)
    (made : callLine demo u number entry.line entry.timeoutMs = some (verdict, next)) :
    next.Within most ∧ next.now ≤ u.now + (ascii entry.line ++ [10]).length * (1 + most) +
      entry.timeoutMs + 1 + most := by
  obtain ⟨_, call, ran⟩ := callLine_eq_some made
  obtain ⟨still, written⟩ := verdict.call.sent_within within
  rw [cliLine_eq] at ran
  obtain ⟨last, ends⟩ := cliWaitLoop_within still (by unfold Call.deadline; omega) ran
  refine ⟨last, ends.trans ?_⟩
  rw [Call.deadline]
  rw [call] at written ⊢
  change _ ≤ u.now + (ascii entry.line ++ [10]).length * (1 + most) at written
  change _ + entry.timeoutMs + 1 + most ≤ _
  omega

/-! ## All calls of a script -/

namespace Called

variable {demo : Demo} {number : Nat} {u last : Uart} {entries : List Entry}
  {verdicts : List Verdict}

theorem exists_of (demo : Demo) (number : Nat) (u : Uart) (entries : List Entry) :
    ∃ verdicts last, Called demo number u entries verdicts last := by
  induction entries generalizing number u with
  | nil => exact ⟨[], u, .done number u⟩
  | cons entry rest ih =>
      obtain ⟨verdict, next, made⟩ := callLine_defined demo u number entry.line entry.timeoutMs
      obtain ⟨verdicts, last, others⟩ := ih (number + 1) next
      exact ⟨verdict :: verdicts, last, .call made others⟩

theorem calls (called : Called demo number u entries verdicts last) :
    verdicts.map Verdict.call = callsOf demo number entries := by
  induction called with
  | done => rfl
  | call made others ih => rw [List.map_cons, ih, (callLine_eq_some made).2.1, callsOf]

/-- Each verdict is what `cli_line` returned for the call where it was made. -/
theorem made (called : Called demo number u entries verdicts last) :
    ∀ verdict ∈ verdicts, ∃ next, cliLine verdict.uart verdict.call = some (verdict.ok, next) := by
  induction called with
  | done => exact fun _ impossible => nomatch impossible
  | call made others ih =>
      intro verdict member
      rcases List.mem_cons.mp member with rfl | later
      · obtain ⟨uart, _, ran⟩ := callLine_eq_some made
        exact ⟨_, uart ▸ ran⟩
      · exact ih verdict later

theorem split {second : List Entry} (called : Called demo number u (entries ++ second) verdicts last) :
    ∃ before next after, Called demo number u entries before next ∧
      Called demo (number + entries.length) next second after last ∧
      verdicts = before ++ after := by
  induction entries generalizing number u verdicts with
  | nil => exact ⟨[], u, verdicts, .done number u, called, rfl⟩
  | cons entry rest ih =>
      cases called with
      | call made others =>
          obtain ⟨before, next, after, first, behind, rfl⟩ := ih others
          refine ⟨_ :: before, next, after, .call made first, ?_, rfl⟩
          rw [List.length_cons, Nat.add_comm rest.length, ← Nat.add_assoc]
          exact behind

theorem now (called : Called demo number u entries verdicts last) :
    u.now + writing entries ≤ last.now := by
  induction called with
  | done => exact Nat.le_refl _
  | call made others ih =>
      have least := callLine_now made
      rw [writing]
      omega

/-- Every character and every wait of the script can be late. -/
theorem within {most : Nat} (called : Called demo number u entries verdicts last)
    (within : u.Within most) : last.Within most ∧
      last.now ≤ u.now + longest entries + (writing entries + entries.length) * most := by
  induction called with
  | done => exact ⟨within, Nat.le_add_right _ _⟩
  | @call _ _ _ _ entry rest _ _ made others ih =>
      obtain ⟨still, first⟩ := callLine_within within made
      obtain ⟨ends, behind⟩ := ih still
      refine ⟨ends, behind.trans ?_⟩
      have parts : (writing (entry :: rest) + (entry :: rest).length) * most =
          (ascii entry.line ++ [10]).length * most + most +
            (writing rest + rest.length) * most := by
        rw [writing, List.length_cons]
        ring
      rw [parts, longest]
      rw [Nat.mul_add, Nat.mul_one] at first
      omega

end Called

/-! ## The whole configuration -/

/-- The loop goes on after every call but a failed `sensorStart`. -/
theorem configureLoop_cons {demo : Demo} {line : String} {number : Nat} {u next : Uart}
    {verdict : Verdict} (rest : List String) (calls : List Verdict)
    (called : callLine demo u number line (if isStart line then 15000 else 3000) =
      some (verdict, next)) :
    configureLoop demo (line :: rest) number calls u =
      if isStart line = true → verdict.ok = true then
        configureLoop demo rest (number + 1) (calls ++ [verdict]) next
      else some ⟨eio, calls ++ [verdict], next⟩ := by
  rw [configureLoop, called]
  simp only [Option.bind_eq_bind, Option.bind_some]
  by_cases accepted : verdict.ok = true
  · rw [if_pos accepted, if_pos fun _ => accepted]
  · rw [if_neg accepted]
    by_cases start : isStart line = true
    · rw [if_pos start, if_neg fun needed => accepted (needed start)]
    · rw [if_neg start, if_pos fun impossible => absurd impossible start]

theorem isStart_sensorStart : isStart "sensorStart 0 0 0 0" = true := by decide +kernel

/-- The three calls of `radar_reset`, the last of them after the boot. -/
theorem radarReset_eq {demo : Demo} {u first second third : Uart} {stop warm half : Verdict}
    (stopped : callLine demo u 0 "sensorStop 0" 2000 = some (stop, first))
    (warmed : callLine demo first 1 "sensorWarmRst 0" 2000 = some (warm, second))
    (ended : callLine demo
      (cliDrain (kMsleep (sends (kMsleep second 20) demo.banner) 2000)) 2 "" 500 =
        some (half, third)) :
    radarReset demo u = some ([stop, warm, half], third) := by
  simp only [radarReset, stopped, warmed, ended, Option.bind_eq_bind, Option.bind_some]

/-- The loop goes through all lines when `sensorStart` is the last, and returns what it says. -/
theorem configureLoop_called {demo : Demo} {setup : List String} {start : String}
    (ordinary : ∀ line ∈ setup, isStart line = false) (starts : isStart start = true)
    (number : Nat) (before : List Verdict) (u : Uart) :
    ∃ made verdict last,
      Called demo number u ((setup ++ [start]).map cfgEntry) (made ++ [verdict]) last ∧
      configureLoop demo (setup ++ [start]) number before u =
        some ⟨if verdict.ok then 0 else eio, before ++ (made ++ [verdict]), last⟩ := by
  induction setup generalizing number before u with
  | nil =>
      obtain ⟨verdict, next, called⟩ := callLine_defined demo u number start
        (if isStart start then 15000 else 3000)
      refine ⟨[], verdict, next, .call called (.done _ _), ?_⟩
      rw [List.nil_append, configureLoop_cons [] before called]
      by_cases accepted : verdict.ok = true
      · rw [if_pos fun _ => accepted, if_pos accepted]
        rfl
      · rw [if_neg fun needed => accepted (needed starts), if_neg accepted]
        rfl
  | cons line rest ih =>
      have other := ordinary line (List.mem_cons_self ..)
      obtain ⟨verdict, next, called⟩ := callLine_defined demo u number line
        (if isStart line then 15000 else 3000)
      obtain ⟨made, final, last, others, ran⟩ :=
        ih (fun other member => ordinary other (List.mem_cons_of_mem _ member)) (number + 1)
          (before ++ [verdict]) next
      refine ⟨verdict :: made, final, last, .call called others, ?_⟩
      have goesOn : isStart line = true → verdict.ok = true := by simp [other]
      rw [List.cons_append, configureLoop_cons _ before called, if_pos goesOn, ran,
        List.append_assoc, List.singleton_append, List.cons_append]

def rebooted (demo : Demo) (u : Uart) : Uart :=
  cliDrain (kMsleep (sends (kMsleep u 20) demo.banner) 2000)

/-- A banner that is over within the sleep after the reset is drained. -/
theorem rebooted_settled {demo : Demo} {u : Uart} (settled : Settled u)
    (booted : ∀ sent ∈ demo.banner, sent.1 ≤ 2000) : Settled (rebooted demo u) := by
  refine settled_of_nil (Settled.drained ?_)
  intro arrival member
  rw [kMsleep_now]
  rcases List.mem_append.mp member with before | sentBy
  · have due := settled.sleep 20 arrival before
    rw [sends_clock]
    omega
  · obtain ⟨sent, spoken, rfl⟩ := List.mem_map.mp sentBy
    have due := booted sent spoken
    rw [sends_clock]
    change _ + sent.1 ≤ _
    omega

def setupLines : List String := cfgLines.dropLast

theorem setupLines_ordinary : ∀ line ∈ setupLines, isStart line = false := by decide +kernel

theorem cfgLines_split : cfgLines = setupLines ++ ["sensorStart 0 0 0 0"] := rfl

theorem cfgScript_split :
    cfgScript = setupLines.map cfgEntry ++ [cfgEntry "sensorStart 0 0 0 0"] := rfl

/-- The calls of `radar_configure`: two, the reset, one, and those of the loop. -/
theorem radarConfigure_called (demo : Demo) (u : Uart) :
    ∃ stops first empty second made verdict last,
      Called demo 0 u stopScript stops first ∧
      Called demo 2 (rebooted demo first) emptyScript empty second ∧
      Called demo 3 second cfgScript (made ++ [verdict]) last ∧
      radarConfigure demo u =
        some ⟨if verdict.ok then 0 else eio, stops ++ empty ++ (made ++ [verdict]), last⟩ := by
  obtain ⟨stop, first, stopped⟩ := callLine_defined demo u 0 "sensorStop 0" 2000
  obtain ⟨warm, second, warmed⟩ := callLine_defined demo first 1 "sensorWarmRst 0" 2000
  obtain ⟨half, third, ended⟩ := callLine_defined demo (rebooted demo second) 2 "" 500
  obtain ⟨made, verdict, last, others, ran⟩ := @configureLoop_called demo _ _
    setupLines_ordinary isStart_sensorStart 3 [stop, warm, half] third
  refine ⟨[stop, warm], second, [half], third, made, verdict, last,
    .call stopped (.call warmed (.done _ _)), .call ended (.done _ _), others, ?_⟩
  simp only [radarConfigure, radarReset_eq stopped warmed ended, Option.bind_eq_bind,
    Option.bind_some]
  exact ran

theorem cfgScript_last {demo : Demo} {made : List Verdict} {verdict : Verdict}
    (calls : (made ++ [verdict]).map Verdict.call = callsOf demo 3 cfgScript) :
    verdict.call = ⟨"sensorStart 0 0 0 0", 15000, demo.replies 24 "sensorStart 0 0 0 0"⟩ := by
  rw [cfgScript_split, callsOf_append, List.map_append] at calls
  have ends := (List.append_inj' calls rfl).2
  rw [List.map_singleton, callsOf, callsOf, List.singleton_inj, cfgEntry, isStart_sensorStart]
    at ends
  exact ends

theorem result_eq_zero_iff (ok : Bool) : (if ok then (0 : Int) else eio) = 0 ↔ ok = true := by
  cases ok <;> decide

theorem writing_append (first second : List Entry) :
    writing (first ++ second) = writing first + writing second := by
  induction first with
  | nil => exact (Nat.zero_add _).symm
  | cons entry rest ih => rw [List.cons_append, writing, ih, writing, Nat.add_assoc]

theorem longest_append (first second : List Entry) :
    longest (first ++ second) = longest first + longest second := by
  induction first with
  | nil => exact (Nat.zero_add _).symm
  | cons entry rest ih =>
      rw [List.cons_append, longest, ih, longest]
      omega

theorem longest_uniform {entries : List Entry} {timeoutMs : Nat}
    (same : ∀ entry ∈ entries, entry.timeoutMs = timeoutMs) :
    longest entries = writing entries + entries.length * (timeoutMs + 1) := by
  induction entries with
  | nil => simp [longest, writing]
  | cons entry rest ih =>
      rw [longest, writing, ih fun other member => same other (List.mem_cons_of_mem _ member),
        same entry (List.mem_cons_self ..), List.length_cons, Nat.succ_mul]
      omega

/-- Writing `cfg_lines` takes 689 ms, and answers to them may take 78022 ms. -/
theorem cfgScript_time : writing cfgScript = 689 ∧ longest cfgScript = 689 + 78022 := by
  have all : writing cfgScript = 689 := by decide +kernel
  have ordinary : ∀ entry ∈ setupLines.map cfgEntry, entry.timeoutMs = 3000 := by
    intro entry member
    obtain ⟨line, listed, rfl⟩ := List.mem_map.mp member
    rw [cfgEntry, setupLines_ordinary line listed]
    rfl
  have start : ∀ entry ∈ [cfgEntry "sensorStart 0 0 0 0"], entry.timeoutMs = 15000 := by
    intro entry member
    rw [List.mem_singleton.mp member, cfgEntry, isStart_sensorStart]
    rfl
  have count : (setupLines.map cfgEntry).length = 21 := rfl
  refine ⟨all, ?_⟩
  rw [cfgScript_split, writing_append] at all
  rw [cfgScript_split, longest_append, longest_uniform ordinary, longest_uniform start, count,
    List.length_singleton]
  generalize writing (setupLines.map cfgEntry) = setup at all ⊢
  generalize writing [cfgEntry "sensorStart 0 0 0 0"] = last at all ⊢
  omega

theorem rebooted_now (demo : Demo) (u : Uart) : u.now + 2020 ≤ (rebooted demo u).now := by
  change _ ≤ u.now + 20 + u.late 0 + 2000 + u.late 1
  omega

theorem rebooted_within {most : Nat} (demo : Demo) {u : Uart} (within : u.Within most) :
    (rebooted demo u).Within most ∧ (rebooted demo u).now ≤ u.now + 2020 + 2 * most := by
  have first := within 0
  have second := within 1
  refine ⟨fun later => within (later + 2), ?_⟩
  change u.now + 20 + u.late 0 + 2000 + u.late 1 ≤ _
  omega

/--
Whatever the demo answers and whenever, `radar_configure` makes each call of
its script once and in order, and returns what `cli_line` returned for the
last of them.  It takes at least 2739 ms, and at most 85264 ms besides what its
sleeps are late: at most 746 times the most that one of them is.
-/
theorem radarConfigure_runs_script (demo : Demo) (u : Uart) :
    ∃ configured last, radarConfigure demo u = some configured ∧
      configured.calls.map Verdict.call = callsOf demo 0 script ∧
      configured.calls.getLast? = some last ∧
      configured.result = (if last.ok then 0 else eio) ∧
      u.now + 2739 ≤ configured.uart.now ∧
      ∀ most, u.Within most → configured.uart.now ≤ u.now + 85264 + 746 * most := by
  obtain ⟨stops, first, empty, second, made, verdict, last, stopped, flushed, configured, ran⟩ :=
    radarConfigure_called demo u
  obtain ⟨writes, waits⟩ := cfgScript_time
  have stopTimes : writing stopScript = 29 ∧ longest stopScript = 4031 := by decide +kernel
  have emptyTimes : writing emptyScript = 1 ∧ longest emptyScript = 502 := by decide +kernel
  refine ⟨_, verdict, ran, ?_, ?_, rfl, ?_, fun most within => ?_⟩
  · rw [List.map_append, List.map_append, stopped.calls, flushed.calls, configured.calls, script,
      callsOf_append, callsOf_append]
    rfl
  · rw [← List.append_assoc, List.getLast?_concat]
  · have spent := stopped.now
    have reset := flushed.now
    have listed := configured.now
    have booted := rebooted_now demo first
    change _ ≤ last.now
    omega
  · obtain ⟨withinFirst, spent⟩ := stopped.within within
    obtain ⟨withinBoot, booted⟩ := rebooted_within demo withinFirst
    obtain ⟨withinSecond, reset⟩ := flushed.within withinBoot
    obtain ⟨_, listed⟩ := configured.within withinSecond
    have counts : stopScript.length = 2 ∧ emptyScript.length = 1 ∧ cfgScript.length = 22 :=
      ⟨rfl, rfl, rfl⟩
    rw [counts.1, stopTimes.1, stopTimes.2] at spent
    rw [counts.2.1, emptyTimes.1, emptyTimes.2] at reset
    rw [counts.2.2, writes, waits] at listed
    change last.now ≤ _
    omega

def silentDemo : Demo := ⟨fun _ _ => [], []⟩

theorem radarConfigure_runs_script_silent :
    ∃ configured, radarConfigure silentDemo Uart.zero = some configured ∧
      configured.calls.length = 25 ∧ 2739 ≤ configured.uart.now ∧
      configured.uart.now ≤ 85264 := by
  obtain ⟨configured, _, ran, calls, _, _, least, most⟩ :=
    radarConfigure_runs_script silentDemo Uart.zero
  refine ⟨configured, ran, ?_, least, most 0 fun _ => Nat.le_refl _⟩
  rw [← List.length_map Verdict.call, calls]
  rfl

end PresenceNode.Radar
