import PresenceNode.Radar.CliWait

/-!
# What `cli_wait` hears

The window is cut down to its last 16 bytes whenever it is full, and `strstr`
does not look past the first zero in it.  So a word that comes is found at a
byte exactly if it is still in the window there with no zero before it.  No
word straddles a cut, but a zero can hide the prompt or every `Done`.
-/

namespace PresenceNode.Radar

open Library Library.Pattern

/-! ## The window after any number of slides -/

def slid (count : Nat) : Nat := 79 * ((count - 16) / 79)

theorem slid_le (count : Nat) : slid count ≤ count - 16 := Nat.mul_div_le _ _

theorem slid_full {count : Nat} (full : 95 ≤ count + 1 - slid count) :
    slid (count + 1) = count + 1 - 16 := by
  unfold slid at *
  omega

theorem slid_room {count : Nat} (room : count + 1 - slid count < 95) :
    slid (count + 1) = slid count := by
  unfold slid at *
  omega

/-- The window shows the word when the last byte of what was read is looked at. -/
def Shows (word seen : List UInt8) : Prop :=
  strstr (seen.drop (slid (seen.length - 1))) word = true

def Seen (word text : List UInt8) : Prop := ∃ seen, seen <+: text ∧ seen ≠ [] ∧ Shows word seen

theorem not_seen_nil (word : List UInt8) : ¬ Seen word [] := by
  rintro ⟨seen, before, nonempty, _⟩
  exact nonempty (List.prefix_nil.mp before)

theorem seen_concat {word text : List UInt8} {b : UInt8} :
    Seen word (text ++ [b]) ↔ Seen word text ∨ Shows word (text ++ [b]) := by
  constructor
  · rintro ⟨seen, before, nonempty, shows⟩
    rcases List.prefix_concat_iff.mp before with rfl | earlier
    · exact .inr shows
    · exact .inl ⟨seen, earlier, nonempty, shows⟩
  · rintro (⟨seen, before, nonempty, shows⟩ | shows)
    · exact ⟨seen, before.trans (List.prefix_append _ _), nonempty, shows⟩
    · exact ⟨text ++ [b], List.prefix_rfl, by simp, shows⟩

structure Hears (heard : Heard) (read : List UInt8) : Prop where
  window : heard.buf = read.drop (slid read.length)
  done : heard.done = true ↔ Seen doneWord read

theorem hears_nil : Hears ⟨[], false⟩ [] :=
  ⟨rfl, ⟨nofun, fun seen => absurd seen (not_seen_nil _)⟩⟩

/-- The step lemma: a byte is looked at behind the window, and the window slides. -/
theorem Hears.hear {heard : Heard} {read : List UInt8} (hears : Hears heard read) (b : UInt8) :
    ((hear heard b).2 = true ↔ Shows radarPrompt (read ++ [b])) ∧
      Hears (hear heard b).1 (read ++ [b]) := by
  have bound := slid_le read.length
  have looked : heard.buf ++ [b] = (read ++ [b]).drop (slid ((read ++ [b]).length - 1)) := by
    rw [List.length_append, List.length_singleton, Nat.add_sub_cancel,
      List.drop_append_of_le_length (by omega), hears.window]
  refine ⟨by rw [Shows, ← looked]; rfl, ?_, ?_⟩
  · change slide (heard.buf ++ [b]) = _
    have length : (heard.buf ++ [b]).length = read.length + 1 - slid read.length := by
      rw [List.length_append, hears.window, List.length_drop, List.length_singleton]
      omega
    unfold slide
    rw [looked, List.length_append, List.length_singleton, Nat.add_sub_cancel] at *
    split
    · next full =>
        rw [length] at full ⊢
        rw [List.drop_drop, slid_full (by omega)]
        congr 1
        omega
    · next room =>
        rw [length] at room
        rw [slid_room (by omega)]
  · change (heard.done || strstr (heard.buf ++ [b]) doneWord) = true ↔ _
    rw [Bool.or_eq_true, hears.done, seen_concat, Shows, ← looked]

/-! ## What the loop reads -/

/-- A loop that sleeps 2 ms at a time, for at most `turns` turns, until a time has come. -/
def sleepTo (due : Nat) : Nat → Clock → Clock
  | 0, clock => clock
  | turns + 1, clock => if clock.now < due then sleepTo due turns (clock.sleep 2) else clock

/-- When that loop first looks at or after a time. -/
def look (clock : Clock) (due : Nat) : Clock := sleepTo due (due - clock.now) clock

theorem sleepTo_enough {due turns other : Nat} {clock : Clock} (enough : due - clock.now ≤ turns)
    (more : due - clock.now ≤ other) : sleepTo due turns clock = sleepTo due other clock := by
  induction turns generalizing other clock with
  | zero =>
      cases other with
      | zero => rfl
      | succ other => rw [sleepTo, sleepTo, if_neg (by omega)]
  | succ turns ih =>
      cases other with
      | zero => rw [sleepTo, sleepTo, if_neg (by omega)]
      | succ other =>
          have slept : clock.now + 2 ≤ (clock.sleep 2).now := Nat.le_add_right _ _
          have same : sleepTo due turns (clock.sleep 2) = sleepTo due other (clock.sleep 2) :=
            ih (by omega) (by omega)
          rw [sleepTo, sleepTo, same]

theorem look_there {clock : Clock} {due : Nat} (there : due ≤ clock.now) : look clock due = clock := by
  rw [look, Nat.sub_eq_zero_of_le there]
  rfl

theorem look_sleep {clock : Clock} {due : Nat} (later : clock.now < due) :
    look clock due = look (clock.sleep 2) due := by
  have slept : clock.now + 2 ≤ (clock.sleep 2).now := Nat.le_add_right _ _
  obtain ⟨turns, left⟩ : ∃ turns, due - clock.now = turns + 1 := ⟨due - clock.now - 1, by omega⟩
  rw [look, left, sleepTo, if_pos later, look]
  exact sleepTo_enough (by omega) (Nat.le_refl _)

theorem le_look (clock : Clock) (due : Nat) : clock.now ≤ (look clock due).now := by
  unfold look
  generalize due - clock.now = turns
  induction turns generalizing clock with
  | zero => exact Nat.le_refl _
  | succ turns ih =>
      rw [sleepTo]
      split
      · have slept : clock.now + 2 ≤ (clock.sleep 2).now := Nat.le_add_right _ _
        have later := ih (clock.sleep 2)
        omega
      · exact Nat.le_refl _

theorem le_sleepTo {due turns : Nat} {clock : Clock} (enough : due ≤ clock.now + turns) :
    due ≤ (sleepTo due turns clock).now := by
  induction turns generalizing clock with
  | zero => exact enough
  | succ turns ih =>
      have slept : clock.now + 2 ≤ (clock.sleep 2).now := Nat.le_add_right _ _
      rw [sleepTo]
      split
      · exact ih (by omega)
      · next there => exact Nat.le_of_not_lt there

theorem due_le_look (clock : Clock) (due : Nat) : due ≤ (look clock due).now :=
  le_sleepTo (by omega)

/-- No later than a millisecond after it, and by what the last sleep is late. -/
theorem look_within {most : Nat} {clock : Clock} (within : clock.Within most) (due : Nat) :
    (look clock due).Within most ∧ (look clock due).now ≤ max clock.now (due + 1 + most) := by
  unfold look
  generalize due - clock.now = turns
  induction turns generalizing clock with
  | zero => exact ⟨within, Nat.le_max_left _ _⟩
  | succ turns ih =>
      rw [sleepTo]
      split
      · next early =>
          have late := within 0
          have slept : (clock.sleep 2).now = clock.now + 2 + clock.late 0 := rfl
          obtain ⟨still, bound⟩ := ih (within.sleep 2)
          exact ⟨still, by omega⟩
      · exact ⟨within, Nat.le_max_left _ _⟩

/-- What can be read before the deadline: each byte at the first look once it is there. -/
def attended (deadline : Nat) : List Arrival → Clock → List Arrival
  | [], _ => []
  | first :: rest, clock =>
      if (look clock first.due).now < deadline then
        first :: attended deadline rest (look clock first.due)
      else []

theorem attended_front (deadline : Nat) (rx : List Arrival) (clock : Clock) :
    attended deadline rx clock <+: rx := by
  induction rx generalizing clock with
  | nil => exact List.prefix_rfl
  | cons first rest ih =>
      rw [attended]
      split
      · exact List.cons_prefix_cons.mpr ⟨rfl, ih _⟩
      · exact List.nil_prefix

theorem attended_late {deadline : Nat} {clock : Clock} (late : deadline ≤ clock.now)
    (rx : List Arrival) : attended deadline rx clock = [] := by
  cases rx with
  | nil => rfl
  | cons first rest =>
      have bound := le_look clock first.due
      exact if_neg (by omega)

/-- Whatever is due early enough is read before the deadline. -/
theorem attended_all {most deadline : Nat} {clock : Clock} {rx : List Arrival}
    (within : clock.Within most)
    (early : ∀ first ∈ rx, clock.now < deadline ∧ first.due + 1 + most < deadline) :
    attended deadline rx clock = rx := by
  induction rx generalizing clock with
  | nil => rfl
  | cons first rest ih =>
      obtain ⟨running, due⟩ := early first (List.mem_cons_self ..)
      obtain ⟨still, bound⟩ := look_within within first.due
      have looked : (look clock first.due).now < deadline := by omega
      rw [attended, if_pos looked, ih still fun other member =>
        ⟨looked, (early other (List.mem_cons_of_mem _ member)).2⟩]

theorem attended_none {deadline : Nat} {rx : List Arrival} (late : ∀ first ∈ rx, deadline ≤ first.due)
    (clock : Clock) : attended deadline rx clock = [] := by
  cases rx with
  | nil => rfl
  | cons first rest =>
      have due := late first (List.mem_cons_self ..)
      have bound := due_le_look clock first.due
      exact if_neg (by omega)

theorem attended_read {u next : Uart} {b : UInt8} {deadline : Nat} (running : u.now < deadline)
    (got : ringBufGet u = some (b, next)) :
    ∃ first, u.rx = first :: next.rx ∧ first.byte = b ∧
      attended deadline u.rx u.toClock = first :: attended deadline next.rx next.toClock := by
  obtain ⟨due, queued, there, clock⟩ := ringBufGet_eq_some got
  refine ⟨⟨due, b⟩, queued, rfl, ?_⟩
  rw [queued, attended, look_there there, if_pos running, clock]

/-- A sleep while nothing is there changes nothing about what can be read. -/
theorem attended_sleep {u : Uart} (deadline : Nat) (nothing : ringBufGet u = none) :
    attended deadline u.rx (u.toClock.sleep 2) = attended deadline u.rx u.toClock := by
  have late := ringBufGet_eq_none nothing
  cases queued : u.rx with
  | nil => rfl
  | cons first rest =>
      rw [queued] at late
      rw [attended, attended, look_sleep (late first rfl)]

/-- How the loop ends, by the bytes that could be read and those that were. -/
inductive Ended (deadline : Nat) (text read : List UInt8) (next : Uart) : Prop where
  /-- The window has shown the prompt at the last byte, and not before. -/
  | prompted (early : next.now < deadline) (before : List UInt8) (b : UInt8)
      (split : read = before ++ [b]) (unseen : ¬ Seen radarPrompt before)
      (shows : Shows radarPrompt read)
  /-- The time is over, and the window has not shown the prompt. -/
  | expired (late : deadline ≤ next.now) (whole : read = text) (unseen : ¬ Seen radarPrompt read)

theorem cliWaitLoop_ends {deadline turns : Nat} {u : Uart} {heard : Heard} {read : List UInt8}
    (enough : u.rx.length + (deadline - u.now) < turns) (hears : Hears heard read)
    (unseen : ¬ Seen radarPrompt read) :
    ∃ ok next taken, cliWaitLoop deadline turns u heard = some (ok, next) ∧
      u.rx = taken ++ next.rx ∧ taken <+: attended deadline u.rx u.toClock ∧
      (ok = true ↔ Seen doneWord (read ++ taken.map Arrival.byte)) ∧
      Ended deadline (read ++ (attended deadline u.rx u.toClock).map Arrival.byte)
        (read ++ taken.map Arrival.byte) next := by
  induction turns generalizing u heard read with
  | zero => exact absurd enough (Nat.not_lt_zero _)
  | succ turns ih =>
      rw [cliWaitLoop]
      by_cases running : u.now < deadline
      · rw [if_pos running]
        cases got : ringBufGet u with
        | none =>
            obtain ⟨ok, next, taken, ran, split, before, done, ended⟩ :=
              @ih (kMsleep u 2) heard read
                (by rw [kMsleep_rx, kMsleep_now]; omega) hears unseen
            have same : attended deadline (kMsleep u 2).rx (kMsleep u 2).toClock =
                attended deadline u.rx u.toClock := attended_sleep deadline got
            rw [same] at before ended
            exact ⟨ok, next, taken, ran, split, before, done, ended⟩
        | some result =>
            obtain ⟨b, later⟩ := result
            obtain ⟨first, queued, rfl, reads⟩ := attended_read running got
            obtain ⟨prompt, hearsNext⟩ := hears.hear first.byte
            rw [reads, List.map_cons, List.append_cons]
            simp only
            by_cases shown : (hear heard first.byte).2 = true
            · rw [if_pos shown]
              obtain ⟨_, _, _, clock⟩ := ringBufGet_eq_some got
              refine ⟨_, later, [first], rfl, queued,
                List.cons_prefix_cons.mpr ⟨rfl, List.nil_prefix⟩, hearsNext.done, ?_⟩
              exact .prompted (by rw [clock]; exact running) read first.byte rfl unseen
                (prompt.mp shown)
            · rw [if_neg shown]
              have still : ¬ Seen radarPrompt (read ++ [first.byte]) := by
                rw [seen_concat, not_or]
                exact ⟨unseen, fun shows => shown (prompt.mpr shows)⟩
              obtain ⟨ok, next, taken, ran, split, before, done, ended⟩ := @ih later _ _
                (by
                  obtain ⟨_, _, _, clock⟩ := ringBufGet_eq_some got
                  rw [queued, List.length_cons] at enough
                  rw [clock]
                  omega) hearsNext still
              have joined : read ++ (first :: taken).map Arrival.byte =
                  read ++ [first.byte] ++ taken.map Arrival.byte := by
                rw [List.map_cons, List.append_cons]
              refine ⟨ok, next, first :: taken, ran, by rw [queued, split, List.cons_append],
                List.cons_prefix_cons.mpr ⟨rfl, before⟩, ?_, ?_⟩
              · rw [joined]
                exact done
              · rw [joined]
                exact ended
      · have late := Nat.le_of_not_lt running
        rw [if_neg running, attended_late late]
        refine ⟨heard.done, u, [], rfl, rfl, List.prefix_rfl, ?_, ?_⟩
        · rw [List.map_nil, List.append_nil]
          exact hears.done
        · rw [List.map_nil, List.append_nil]
          exact .expired late rfl unseen

/-! ## Zeros in the window -/

/-- At the byte with that number the window still holds the index, with no zero before it. -/
def Visible (text : List UInt8) (number index : Nat) : Prop :=
  slid (number - 1) ≤ index ∧
    ∀ earlier, slid (number - 1) ≤ earlier → earlier < index → text[earlier]? ≠ some 0

/-- What the window shows stands in it with no zero before it. -/
theorem shows_iff {word seen : List UInt8} (plain : 0 ∉ word) :
    Shows word seen ↔ ∃ index, OccursAt word seen index ∧ Visible seen seen.length index := by
  have letters : ∀ letter ∈ word, decide (letter ≠ 0) = true :=
    fun letter member => decide_eq_true fun zero => plain (zero ▸ member)
  rw [Shows, strstr, decide_eq_true_iff, infix_takeWhile_iff letters]
  constructor
  · rintro ⟨index, occurs, clear⟩
    refine ⟨slid (seen.length - 1) + index, occursAt_drop.mp occurs, Nat.le_add_right _ _, ?_⟩
    intro earlier inside before zero
    have there : (seen.drop (slid (seen.length - 1)))[earlier - slid (seen.length - 1)]? =
        some 0 := by
      rw [List.getElem?_drop, Nat.add_sub_cancel' inside]
      exact zero
    exact absurd (clear _ (by omega) 0 there) (by decide)
  · rintro ⟨index, occurs, inside, clear⟩
    refine ⟨index - slid (seen.length - 1), ?_, fun earlier before letter there => ?_⟩
    · rw [occursAt_drop, Nat.add_sub_cancel' inside]
      exact occurs
    · rw [List.getElem?_drop] at there
      refine decide_eq_true fun zero => clear _ (Nat.le_add_right _ earlier) (by omega) ?_
      rw [there, zero]

/-- What has been read when the prompt is first complete, or the whole text. -/
def upToPrompt (text : List UInt8) : List UInt8 :=
  match find radarPrompt text with
  | some index => text.take (index + radarPrompt.length)
  | none => text

theorem upToPrompt_front (text : List UInt8) : upToPrompt text <+: text := by
  unfold upToPrompt
  split
  · exact List.take_prefix _ _
  · exact List.prefix_rfl

theorem upToPrompt_first {text : List UInt8} {index : Nat} (first : FirstAt radarPrompt text index) :
    upToPrompt text = text.take (index + radarPrompt.length) := by
  unfold upToPrompt
  cases search : find radarPrompt text with
  | none => exact absurd (infix_of_occursAt first.1) (find_eq_none.mp search)
  | some other => rw [(firstAt_of_find search).unique first]

theorem upToPrompt_absent {text : List UInt8} (absent : ¬ radarPrompt <:+: text) :
    upToPrompt text = text := by
  rw [upToPrompt, find_eq_none.mpr absent]

/-- What is visible at a byte is decided by the text up to it. -/
theorem visible_front {seen text : List UInt8} (before : seen <+: text) {number index : Nat}
    (inside : index ≤ seen.length) : Visible seen number index ↔ Visible text number index := by
  obtain ⟨rest, rfl⟩ := before
  have same : ∀ earlier < index, (seen ++ rest)[earlier]? = seen[earlier]? :=
    fun earlier lower => List.getElem?_append_left (Nat.lt_of_lt_of_le lower inside)
  constructor
  · rintro ⟨held, clear⟩
    exact ⟨held, fun earlier since lower => by rw [same earlier lower]; exact clear _ since lower⟩
  · rintro ⟨held, clear⟩
    exact ⟨held, fun earlier since lower => by rw [← same earlier lower]; exact clear _ since lower⟩

/-- The window shows a word at some byte exactly if it is visible at one of those from its end on. -/
theorem seen_iff {word read text : List UInt8} (plain : 0 ∉ word) (nonempty : word ≠ [])
    (before : read <+: text) :
    Seen word read ↔ ∃ index number, OccursAt word text index ∧ index + word.length ≤ number ∧
      number ≤ read.length ∧ Visible text number index := by
  constructor
  · rintro ⟨seen, front, _, shows⟩
    obtain ⟨index, occurs, visible⟩ := (shows_iff plain).mp shows
    have inside := occurs.inside nonempty
    obtain ⟨rest, whole⟩ := front.trans before
    refine ⟨index, seen.length, ?_, inside, front.length_le, ?_⟩
    · rw [← whole]
      exact occurs.append rest
    · exact (visible_front (front.trans before) (by omega)).mp visible
  · rintro ⟨index, number, occurs, ends, inside, visible⟩
    have positive := List.length_pos_iff.mpr nonempty
    have length : (read.take number).length = number := List.length_take_of_le inside
    have front : read.take number <+: text := (List.take_prefix _ _).trans before
    refine ⟨read.take number, List.take_prefix _ _, ?_, (shows_iff plain).mpr ⟨index, ?_, ?_⟩⟩
    · intro empty
      rw [empty] at length
      change 0 = number at length
      omega
    · obtain ⟨rest, whole⟩ := front
      rw [← whole] at occurs
      exact occurs.of_append (by omega)
    · rw [length]
      exact (visible_front front (by omega)).mpr visible

/--
No zero hides what counts: at the byte that first completes the prompt none
stands before it in the window, and if a `Done` comes no later than that, none
stands before one of them at some byte from its own last letter on.
-/
structure Clear (text : List UInt8) : Prop where
  prompt : ∀ index, FirstAt radarPrompt text index →
    Visible text (index + radarPrompt.length) index
  done : doneWord <:+: upToPrompt text → ∃ index number, OccursAt doneWord text index ∧
    index + doneWord.length ≤ number ∧ number ≤ (upToPrompt text).length ∧
    Visible text number index

theorem prompt_plain : 0 ∉ radarPrompt ∧ radarPrompt ≠ [] := by decide +kernel

theorem done_plain : 0 ∉ doneWord ∧ doneWord ≠ [] := by decide +kernel

theorem prompt_length : radarPrompt.length = 10 := by decide +kernel

theorem done_length : doneWord.length = 4 := by decide +kernel

/-- Without zeros nothing is hidden: a word never straddles a cut of the window. -/
theorem clear_of_nonzero {text : List UInt8} (nonzero : 0 ∉ text) : Clear text := by
  have visible : ∀ {index number : Nat}, slid (number - 1) ≤ index → Visible text number index :=
    fun inside => ⟨inside, fun earlier _ _ zero => nonzero (List.mem_of_getElem? zero)⟩
  have prompts := prompt_length
  have dones := done_length
  constructor
  · intro index _
    have bound := slid_le (index + radarPrompt.length - 1)
    exact visible (by omega)
  · intro found
    obtain ⟨index, occurs⟩ := infix_iff_occursAt.mp found
    have within := occurs.inside done_plain.2
    have bound := slid_le (index + doneWord.length - 1)
    obtain ⟨rest, whole⟩ := upToPrompt_front text
    refine ⟨index, index + doneWord.length, ?_, Nat.le_refl _, within, visible (by omega)⟩
    have longer := occurs.append rest
    rwa [whole] at longer

/-- Exactly the bytes of `Done` count, and the loop stops at the prompt or when the time is over. -/
structure Counts (deadline : Nat) (read : List UInt8) (ok : Bool) (next : Uart) : Prop where
  done : ok = true ↔ doneWord <:+: read
  first : ¬ radarPrompt <:+: read.dropLast
  stops : radarPrompt <:+: read ↔ next.now < deadline

theorem first_iff {text : List UInt8} {index : Nat} (occurs : OccursAt radarPrompt text index) :
    ¬ radarPrompt <:+: text.dropLast ↔
      FirstAt radarPrompt text index ∧ index + radarPrompt.length = text.length := by
  have inside := occurs.inside prompt_plain.2
  have shorter : text.dropLast.length = text.length - 1 := List.length_dropLast
  have prompts := prompt_length
  obtain ⟨last, whole⟩ := List.dropLast_prefix text
  constructor
  · intro absent
    have ends : ∀ other, OccursAt radarPrompt text other → text.length ≤ other + 10 := by
      intro other there
      refine Nat.le_of_not_lt fun early => absent ?_
      rw [← whole] at there
      exact infix_of_occursAt (there.of_append (by omega))
    have latest := ends index occurs
    refine ⟨⟨occurs, fun earlier before there => ?_⟩, by omega⟩
    have late := ends earlier there
    omega
  · rintro ⟨first, ends⟩ found
    obtain ⟨other, there⟩ := infix_iff_occursAt.mp found
    have within := there.inside prompt_plain.2
    have again := there.append last
    rw [whole] at again
    exact first.2 other (by omega) again

namespace Ended

variable {deadline : Nat} {text read : List UInt8} {next : Uart}

/-- A loop that stops where it should has had the prompt in sight. -/
theorem visible (ended : Ended deadline text read next) (before : read <+: text)
    (first : ¬ radarPrompt <:+: read.dropLast) (stops : radarPrompt <:+: read ↔ next.now < deadline)
    {index : Nat} (firstAt : FirstAt radarPrompt text index) :
    Visible text (index + radarPrompt.length) index := by
  cases ended with
  | prompted _ earlier b split _ shows =>
      obtain ⟨other, occurs, visible⟩ := (shows_iff prompt_plain.1).mp shows
      obtain ⟨firstRead, ends⟩ := (first_iff occurs).mp first
      obtain ⟨rest, whole⟩ := before
      have same : FirstAt radarPrompt text other := by
        rw [← whole]
        exact firstRead.append prompt_plain.2 rest
      rw [firstAt.unique same, ends]
      exact (visible_front ⟨rest, whole⟩ (by omega)).mp visible
  | expired late whole _ =>
      rw [whole] at stops
      exact absurd (stops.mp (infix_of_occursAt firstAt.1)) (Nat.not_lt.mpr late)

/-- With the prompt in sight the loop reads up to it and no further. -/
theorem reads (ended : Ended deadline text read next) (before : read <+: text)
    (visible : ∀ index, FirstAt radarPrompt text index →
      Visible text (index + radarPrompt.length) index) :
    read = upToPrompt text ∧ ¬ radarPrompt <:+: read.dropLast ∧
      (radarPrompt <:+: read ↔ next.now < deadline) := by
  cases ended with
  | prompted early earlier b split unseen shows =>
      obtain ⟨other, occurs, _⟩ := (shows_iff prompt_plain.1).mp shows
      have inside := occurs.inside prompt_plain.2
      have found := infix_of_occursAt occurs
      obtain ⟨index, lower, firstRead⟩ := firstAt_of_occursAt occurs
      obtain ⟨rest, whole⟩ := before
      have first : FirstAt radarPrompt text index := by
        rw [← whole]
        exact firstRead.append prompt_plain.2 rest
      -- Had the prompt been complete earlier, the window would have shown it then.
      have last : index + radarPrompt.length = read.length := by
        refine Nat.le_antisymm (by omega) (Nat.le_of_not_lt fun sooner => unseen ?_)
        have length : read.length = earlier.length + 1 := by
          rw [split, List.length_append, List.length_singleton]
        have front : earlier <+: text := ⟨[b] ++ rest, by rw [← List.append_assoc, ← split, whole]⟩
        exact (seen_iff prompt_plain.1 prompt_plain.2 front).mpr
          ⟨index, _, first.1, Nat.le_refl _, by omega, visible index first⟩
      refine ⟨?_, (first_iff firstRead.1).mpr ⟨firstRead, last⟩, fun _ => early, fun _ => found⟩
      rw [upToPrompt_first first, last, ← whole, List.take_left]
  | expired late whole unseen =>
      have absent : ¬ radarPrompt <:+: text := by
        intro found
        obtain ⟨other, occurs⟩ := infix_iff_occursAt.mp found
        obtain ⟨index, _, first⟩ := firstAt_of_occursAt occurs
        have inside := first.1.inside prompt_plain.2
        refine unseen ((seen_iff prompt_plain.1 prompt_plain.2 before).mpr
          ⟨index, _, first.1, Nat.le_refl _, ?_, visible index first⟩)
        rw [whole]
        exact inside
      rw [whole]
      refine ⟨(upToPrompt_absent absent).symm, fun found => absent ?_, fun found => absurd found absent,
        fun early => absurd early (Nat.not_lt.mpr late)⟩
      exact found.trans (List.dropLast_prefix text).isInfix

/-- What the loop makes of its bytes is right exactly if no zero hides what counts. -/
theorem counts_iff (ended : Ended deadline text read next) (before : read <+: text) {ok : Bool}
    (done : ok = true ↔ Seen doneWord read) : Counts deadline read ok next ↔ Clear text := by
  have seen := seen_iff done_plain.1 done_plain.2 before
  constructor
  · rintro ⟨counted, first, stops⟩
    have prompt : ∀ index, FirstAt radarPrompt text index →
        Visible text (index + radarPrompt.length) index :=
      fun index firstAt => ended.visible before first stops firstAt
    obtain ⟨whole, _, _⟩ := ended.reads before prompt
    refine ⟨prompt, fun found => ?_⟩
    rw [← whole] at found ⊢
    exact seen.mp (done.mp (counted.mpr found))
  · rintro ⟨prompt, shown⟩
    obtain ⟨whole, first, stops⟩ := ended.reads before prompt
    refine ⟨?_, first, stops⟩
    rw [done]
    constructor
    · rintro ⟨part, front, _, shows⟩
      obtain ⟨index, occurs, _⟩ := (shows_iff done_plain.1).mp shows
      exact (infix_of_occursAt occurs).trans front.isInfix
    · intro found
      rw [whole] at found
      rw [seen, whole]
      exact shown found

end Ended

/--
`cli_wait` comes to an end inside its buffers, whatever arrives and whenever.
It succeeds exactly on a `Done` among the bytes that it reads, and stops at the
byte that first completes the prompt or when the time is over, exactly if no
zero among the bytes it can read hides the prompt or every `Done`.
-/
theorem cliWait_counts_iff (buf : Vector UInt8 96) (head : Vector UInt8 129) (u : Uart)
    (timeoutMs : Nat) :
    ∃ ok next last taken, cliWaitBuffers buf head u timeoutMs = some (ok, next, last) ∧
      u.rx = taken ++ next.rx ∧
      (Counts (u.now + timeoutMs) (taken.map Arrival.byte) ok next ↔
        Clear ((attended (u.now + timeoutMs) u.rx u.toClock).map Arrival.byte)) := by
  have enough : u.rx.length + (u.now + timeoutMs - u.now) < u.rx.length + timeoutMs + 1 := by omega
  obtain ⟨ok, next, taken, ran, split, before, done, ended⟩ :=
    cliWaitLoop_ends enough hears_nil (not_seen_nil _)
  obtain ⟨last, buffered⟩ := cliWaitBuffers_hears buf head (show cliWait u timeoutMs = _ from ran)
  rw [List.nil_append] at done ended
  exact ⟨ok, next, last, taken, buffered, split, ended.counts_iff (before.map _) done⟩

def hiddenReply : Uart :=
  { Uart.zero with rx := ([0] ++ doneWord ++ radarPrompt).map fun byte => ⟨0, byte⟩ }

/-- The zero in front of the reply hides both words. -/
theorem cliWait_hidden :
    ¬ ∀ (buf : Vector UInt8 96) (head : Vector UInt8 129) (u next : Uart) (timeoutMs : Nat)
        (ok : Bool) (last : WaitBuffers) (taken : List Arrival),
      cliWaitBuffers buf head u timeoutMs = some (ok, next, last) → u.rx = taken ++ next.rx →
        Counts (u.now + timeoutMs) (taken.map Arrival.byte) ok next := by
  intro claimed
  have waited : (cliWait hiddenReply 2).map (fun result => (result.1, result.2.rx.length)) =
      some (false, 0) := by decide +kernel
  obtain ⟨⟨ok, next⟩, ran, same⟩ := Option.map_eq_some_iff.mp waited
  have failed : ok = false := congrArg Prod.fst same
  have nothing : next.rx = [] := List.eq_nil_of_length_eq_zero (congrArg Prod.snd same)
  obtain ⟨last, buffered⟩ :=
    cliWaitBuffers_hears (Vector.replicate 96 0) (Vector.replicate 129 0) ran
  have counts := claimed _ _ _ _ _ _ _ hiddenReply.rx buffered (by rw [nothing, List.append_nil])
  have heard : doneWord <:+: hiddenReply.rx.map Arrival.byte := by decide +kernel
  exact absurd (failed.symm.trans (counts.done.mpr heard)) nofun

end PresenceNode.Radar
