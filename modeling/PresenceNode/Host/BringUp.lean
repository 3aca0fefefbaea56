import Mathlib.Data.List.DropRight
import PresenceNode.Radar.BringUp

/-!
# The bring-up from the host

`radar.py` sends the same kind of lines to the same demo.  `send` reads until
what was read ends in the prompt, in whatever pieces the port gives it; a line
is rejected when no `Done` is in its reply.  The sleeps, the speed of the port
and what is printed are left out.
-/

namespace PresenceNode.Host

open Radar

/-- What `bytes.rstrip` takes for space, and `str.split` in a line of printable characters. -/
def isSpace (character : UInt8) : Bool :=
  character ∈ ([0x20, 0x09, 0x0A, 0x0B, 0x0C, 0x0D] : List UInt8)

/-- The turns of the loop in `send` before its deadline: what was read in each, if anything. -/
abbrev Turns := List (Option (List UInt8))

def sendLoop : Turns → List UInt8 → List UInt8
  | [], buf => buf
  | none :: turns, buf => sendLoop turns buf
  | some chunk :: turns, buf =>
      let buf := buf ++ chunk
      if radarPrompt <:+ buf.rdropWhile isSpace then buf else sendLoop turns buf

def send (turns : Turns) : List UInt8 := sendLoop turns []

def failed (reply : List UInt8) : Bool := !decide (doneWord <:+: reply)

def firstWord (text : List UInt8) : List UInt8 × List UInt8 :=
  (text.dropWhile isSpace).span fun character => !isSpace character

/-- `int` of a word of decimal digits. -/
def int (word : List UInt8) : Option Nat :=
  if !word.isEmpty && word.all fun character => 0x30 ≤ character && character ≤ 0x39 then
    some (word.foldl (fun value character => 10 * value + (character.toNat - 0x30)) 0)
  else none

/--
`send_cfg`: the lines that were rejected, and nothing where it raises.  A call
of `send` is known by its number; that of a `baudRate` line sends `version`.
-/
def sendCfg (turns : Nat → Turns) : Nat → List String → Option (List String)
  | _, [] => some []
  | number, line :: rest => do
      let (cmd, args) := firstWord (ascii line)
      if cmd = [] then none
      else
        if cmd = ascii "baudRate" then
          let _ ← int (firstWord args).1
        let bad ← sendCfg turns (number + 1) rest
        some (if failed (send (turns number)) then line :: bad else bad)

/-! ## One reply -/

def received (turns : Turns) : List UInt8 := (turns.filterMap id).flatten

/-- A reply with the prompt at most at its end is read as a whole, in whatever pieces it comes. -/
theorem sendLoop_whole {turns : Turns} {buf : List UInt8}
    (once : ¬ radarPrompt <:+: (buf ++ received turns).dropLast) :
    sendLoop turns buf = buf ++ received turns := by
  induction turns generalizing buf with
  | nil => exact (List.append_nil buf).symm
  | cons turn rest ih =>
      cases turn with
      | none => exact ih once
      | some chunk =>
          have text : received (some chunk :: rest) = chunk ++ received rest := rfl
          rw [text, ← List.append_assoc] at once ⊢
          rw [sendLoop]
          split
          · next ended =>
              -- The prompt has come, so nothing is behind it.
              have shown : radarPrompt <:+: buf ++ chunk :=
                ended.isInfix.trans (List.rdropWhile_prefix isSpace (buf ++ chunk)).isInfix
              cases more : received rest with
              | nil => rw [List.append_nil]
              | cons first others =>
                  rw [more, List.dropLast_append_of_ne_nil (List.cons_ne_nil _ _)] at once
                  exact absurd (shown.trans (List.prefix_append _ _).isInfix) once
          · exact ih once

theorem failed_iff (reply : List UInt8) : failed reply = true ↔ ¬ doneWord <:+: reply := by
  simp [failed]

/-- A punctual answer is rejected exactly if `Done` is not in it. -/
theorem failed_send {turns : Turns} {most timeoutMs : Nat} {reply : List (Nat × UInt8)}
    (same : received turns = reply.map Prod.snd) (punctual : Punctual most timeoutMs reply) :
    failed (send turns) = true ↔ ¬ doneWord <:+: reply.map Prod.snd := by
  have whole : send turns = received turns := @sendLoop_whole turns [] (same ▸ punctual.once)
  rw [whole, same]
  exact failed_iff _

/-! ## All lines -/

def Ordinary (line : String) : Prop :=
  (firstWord (ascii line)).1 ≠ [] ∧ (firstWord (ascii line)).1 ≠ ascii "baudRate"

instance (line : String) : Decidable (Ordinary line) := inferInstanceAs (Decidable (_ ∧ _))

theorem sendCfg_ordinary {turns : Nat → Turns} {number : Nat} {line : String} {rest : List String}
    (ordinary : Ordinary line) :
    sendCfg turns number (line :: rest) = (sendCfg turns (number + 1) rest).map fun bad =>
      if failed (send (turns number)) then line :: bad else bad := by
  rw [sendCfg]
  simp only [if_neg ordinary.1, if_neg ordinary.2]
  cases sendCfg turns (number + 1) rest <;> rfl

theorem cfgLines_ordinary : ∀ line ∈ cfgLines, Ordinary line := by decide +kernel

def rejected (verdicts : List Verdict) : List String :=
  (verdicts.filter fun verdict => !verdict.ok).map fun verdict => verdict.call.line

theorem rejected_cons (verdict : Verdict) (others : List Verdict) :
    rejected (verdict :: others) =
      if verdict.ok then rejected others else verdict.call.line :: rejected others := by
  rw [rejected, List.filter_cons]
  cases verdict.ok <;> rfl

theorem mem_rejected {verdicts : List Verdict} {line : String} :
    line ∈ rejected verdicts ↔
      ∃ verdict ∈ verdicts, ¬ verdict.ok = true ∧ verdict.call.line = line := by
  simp [rejected, and_assoc]

/-- Where both are answered alike, `send_cfg` rejects the lines that the calls do. -/
theorem sendCfg_rejected {turns : Nat → Turns} {demo : Demo} {most number first : Nat}
    {entries : List Radar.Entry} {verdicts : List Verdict}
    (ordinary : ∀ entry ∈ entries, Ordinary entry.line)
    (calls : verdicts.map Verdict.call = callsOf demo first entries)
    (credited : ∀ verdict ∈ verdicts, verdict.ok = true ↔ verdict.call.Accepted)
    (punctual : ∀ call ∈ callsOf demo first entries, Punctual most call.timeoutMs call.reply)
    (same : ∀ index line, (entries.map Radar.Entry.line)[index]? = some line →
      received (turns (number + index)) = (demo.replies (first + index) line).map Prod.snd) :
    sendCfg turns number (entries.map Radar.Entry.line) = some (rejected verdicts) := by
  induction entries generalizing number first verdicts with
  | nil =>
      cases List.map_eq_nil_iff.mp calls
      rfl
  | cons entry rest ih =>
      obtain ⟨verdict, others, rfl, called, looped⟩ := List.map_eq_cons_iff.mp calls
      have behind : sendCfg turns (number + 1) (rest.map Radar.Entry.line) =
          some (rejected others) := by
        refine ih (fun one member => ordinary one (List.mem_cons_of_mem _ member)) looped
          (fun one member => credited one (List.mem_cons_of_mem _ member))
          (fun call member => punctual call (List.mem_cons_of_mem _ member)) ?_
        intro index line listed
        rw [Nat.add_assoc, Nat.add_assoc, Nat.add_comm 1]
        exact same (index + 1) line listed
      have decides : failed (send (turns number)) = true ↔
          ¬ doneWord <:+: (demo.replies first entry.line).map Prod.snd :=
        failed_send (same 0 entry.line rfl) (punctual _ (List.mem_cons_self ..))
      have accepted := credited verdict (List.mem_cons_self ..)
      rw [called] at accepted
      rw [List.map_cons, sendCfg_ordinary (ordinary entry (List.mem_cons_self ..)), behind,
        Option.map_some, rejected_cons, called]
      by_cases judged : verdict.ok = true
      · rw [if_pos judged, if_neg fun wrong => decides.mp wrong (accepted.mp judged)]
      · rw [if_neg judged, if_pos (decides.mpr fun done => judged (accepted.mpr done))]

theorem callsOf_lines (demo : Demo) (number : Nat) (entries : List Radar.Entry) :
    (callsOf demo number entries).map Call.line = entries.map Radar.Entry.line := by
  induction entries generalizing number with
  | nil => rfl
  | cons entry rest ih => rw [callsOf, List.map_cons, List.map_cons, ih]

/-- `sensorStart` is rejected exactly if its call, the last of the loop, is not accepted. -/
theorem start_rejected_iff {demo : Demo} {made : List Verdict} {verdict : Verdict}
    (looped : (made ++ [verdict]).map Verdict.call = callsOf demo 3 cfgScript) :
    "sensorStart 0 0 0 0" ∈ rejected (made ++ [verdict]) ↔ ¬ verdict.ok = true := by
  have lines : made.map (fun one => one.call.line) = setupLines ∧
      verdict.call.line = "sensorStart 0 0 0 0" := by
    have all := congrArg (List.map Call.line) looped
    rw [callsOf_lines, List.map_map, List.map_append] at all
    obtain ⟨setup, start⟩ := List.append_inj' (all.trans cfgLines_split) rfl
    exact ⟨setup, List.singleton_inj.mp start⟩
  refine mem_rejected.trans ⟨?_, fun refused => ⟨verdict, by simp, refused, lines.2⟩⟩
  rintro ⟨one, member, refused, start⟩
  rcases List.mem_append.mp member with earlier | final
  · have setup := lines.1 ▸ List.mem_map_of_mem earlier
    rw [start] at setup
    exact absurd isStart_sensorStart (Bool.not_eq_true _ ▸ setupLines_ordinary _ setup)
  · exact List.mem_singleton.mp final ▸ refused

/--
When the demo answers both alike, in time and with the prompt at most at the
end, `send_cfg` and `radar_configure` reject the same of `cfg_lines`, in
whatever pieces the port gives the answers.  The firmware has configured the
radar exactly if `sensorStart` is not among them.
-/
theorem bring_up_agrees {most : Nat} {demo : Demo} {u : Uart} (settled : Settled u)
    (within : u.Within most) (booted : ∀ sent ∈ demo.banner, sent.1 ≤ 2000)
    (punctual : ∀ call ∈ callsOf demo 0 script, Punctual most call.timeoutMs call.reply)
    {turns : Nat → Turns}
    (same : ∀ index line, cfgLines[index]? = some line →
      received (turns index) = (demo.replies (3 + index) line).map Prod.snd) :
    ∃ configured bad, radarConfigure demo u = some configured ∧
      sendCfg turns 0 cfgLines = some bad ∧ bad = rejected (configured.calls.drop 3) ∧
      (configured.result = 0 ↔ "sensorStart 0 0 0 0" ∉ bad) := by
  obtain ⟨before, made, verdict, last, ran, opening, looped, credited, _⟩ :=
    radarConfigure_settles settled within booted punctual
  have three : before.length = 3 := by
    have sizes := congrArg List.length opening
    rwa [List.length_map] at sizes
  have lines : cfgScript.map Radar.Entry.line = cfgLines := rfl
  have judged : ∀ one ∈ made ++ [verdict], one.ok = true ↔ one.call.Accepted := fun one member =>
    credited one (List.mem_append_right _ member)
  have agrees : sendCfg turns 0 cfgLines = some (rejected (made ++ [verdict])) := by
    rw [← lines]
    refine @sendCfg_rejected turns demo most 0 3 cfgScript (made ++ [verdict]) ?_ looped judged ?_ ?_
    · intro entry member
      obtain ⟨line, listed, rfl⟩ := List.mem_map.mp member
      exact cfgLines_ordinary line listed
    · intro call member
      refine punctual call ?_
      rw [script, callsOf_append]
      exact List.mem_append_right _ member
    · intro index line listed
      rw [Nat.zero_add]
      exact same index line listed
  refine ⟨_, _, ran, agrees, ?_, ?_⟩
  · rw [← three, List.drop_left]
  · rw [start_rejected_iff looped, not_not]
    exact result_eq_zero_iff verdict.ok

/-- The port gives each answer of `plainDemo` in one piece, after a turn without any. -/
theorem bring_up_agrees_plain :
    ∃ configured bad, radarConfigure plainDemo sleepyUart = some configured ∧
      sendCfg (fun index => [none, some ((plainDemo.replies (3 + index) "").map Prod.snd)]) 0
        cfgLines = some bad ∧
      bad = rejected (configured.calls.drop 3) ∧
      (configured.result = 0 ↔ "sensorStart 0 0 0 0" ∉ bad) := by
  refine bring_up_agrees (settled_of_nil rfl) sleepyUart_within ?_ ?_ ?_
  · exact fun sent member => (answer_delay member).trans_le (by decide)
  · intro call member
    obtain ⟨other, _, entry, inside, rfl⟩ := mem_callsOf member
    exact plainDemo_punctual ((script_timed entry inside).trans' (by decide)) other entry.line
  · intro index line _
    exact List.append_nil _

end PresenceNode.Host
