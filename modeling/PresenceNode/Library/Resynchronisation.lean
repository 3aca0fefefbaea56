import Mathlib.Data.Nat.Find
import PresenceNode.Library.DeframerSoundness

/-!
# Resynchronisation of the deframer

Whatever the phase, a stream of valid frames with the sync word at frame
starts only is delivered from some frame on.  A wrong header consumes at most
`limit - sync.length` items of the stream, so every frame that starts after
them is delivered, and at most one frame is made of older items.
-/

namespace PresenceNode.Library.Deframer

open Pattern

variable {α : Type}

def startOf (frames : List (List α)) (index : Nat) : Nat := (frames.take index).flatten.length

def SyncAtStartsOnly (sync : List α) (frames : List (List α)) : Prop :=
  ∀ position, OccursAt sync frames.flatten position →
    ∃ index < frames.length, position = startOf frames index

/-- Only the positions inside the text need to be looked at. -/
theorem syncAtStartsOnly_of_inside {sync : List α} {frames : List (List α)} (nonempty : sync ≠ [])
    (inside : ∀ position < frames.flatten.length, OccursAt sync frames.flatten position →
      ∃ index < frames.length, position = startOf frames index) :
    SyncAtStartsOnly sync frames := by
  intro position occurs
  have bound := occurs.length_le
  have positive := List.length_pos_iff.mpr nonempty
  rw [List.length_drop] at bound
  exact inside position (by omega) occurs

theorem startOf_mono (frames : List (List α)) {first second : Nat} (order : first ≤ second) :
    startOf frames first ≤ startOf frames second :=
  (List.take_prefix_take_left order).flatten.length_le

theorem startOf_length (frames : List (List α)) :
    startOf frames frames.length = frames.flatten.length := by
  simp [startOf]

theorem flatten_split (frames : List (List α)) (index : Nat) :
    frames.flatten = (frames.take index).flatten ++ (frames.drop index).flatten := by
  rw [← List.flatten_append, List.take_append_drop]

variable {format : Format α}

/--
From any position of the stream, the items up to the next frame start are a
gap: the first sync word after the position is the one of that frame, and
after the last frame start there is none.
-/
theorem gap_to_next_start {frames : List (List α)} {position : Nat}
    (valid : ∀ frame ∈ frames, format.Valid frame)
    (starts : SyncAtStartsOnly format.sync frames) (inside : position ≤ frames.flatten.length) :
    ∃ next gap, next ≤ frames.length ∧
      frames.flatten.drop position = gap ++ (frames.drop next).flatten ∧
      (next < frames.length → FirstAt format.sync (gap ++ format.sync) gap.length) ∧
      (next = frames.length → ¬ format.sync <:+: gap) ∧
      ∀ index, position ≤ startOf frames index → next ≤ index := by
  have reachable : ∃ index, position ≤ startOf frames index :=
    ⟨frames.length, by rw [startOf_length]; exact inside⟩
  let next := Nat.find reachable
  have here : position ≤ startOf frames next := Nat.find_spec reachable
  have least : ∀ index, position ≤ startOf frames index → next ≤ index :=
    fun index later => Nat.find_min' reachable later
  have bound : next ≤ frames.length := least _ (by rw [startOf_length]; exact inside)
  let gap := (frames.take next).flatten.drop position
  have rest : frames.flatten.drop position = gap ++ (frames.drop next).flatten := by
    rw [flatten_split frames next, List.drop_append_of_le_length here]
  have length : gap.length = startOf frames next - position := List.length_drop
  -- A sync word inside the gap would stand at a frame start between the
  -- position and the next one, and there is no such start.
  have none_inside : ∀ offset, OccursAt format.sync (gap ++ (frames.drop next).flatten) offset →
      gap.length ≤ offset := by
    intro offset occurs
    rw [← rest, OccursAt, List.drop_drop] at occurs
    obtain ⟨index, _, same⟩ := starts _ occurs
    have order := least index (by omega)
    have mono := startOf_mono frames order
    omega
  refine ⟨next, gap, bound, rest, ?_, ?_, least⟩
  · intro before
    refine ⟨by simp [OccursAt], ?_⟩
    intro earlier inGap occurs
    have begins : format.sync <+: (frames.drop next).flatten := by
      rw [List.drop_eq_getElem_cons before, List.flatten_cons]
      exact (valid _ (List.getElem_mem before)).begins.trans (List.prefix_append _ _)
    obtain ⟨more, split⟩ := begins
    have total := occurs.append more
    rw [List.append_assoc, split] at total
    have after := none_inside earlier total
    omega
  · intro last contained
    obtain ⟨offset, occurs⟩ := infix_iff_occursAt.mp contained
    have after := none_inside offset (occurs.append _)
    have beyond := occurs.length_le
    rw [List.length_drop] at beyond
    have positive := format.sync_pos
    omega

/-- Frames without gaps between them, as pieces of a stream. -/
theorem stream_gapless (frames : List (List α)) :
    stream (frames.map fun frame => ([], frame)) [] = frames.flatten := by
  simp [stream, List.flatMap_map]

/-- Nothing can stand between two frames that follow each other at once. -/
theorem firstAt_nil : FirstAt format.sync ([] ++ format.sync) ([] : List α).length :=
  ⟨by simp [OccursAt], fun earlier impossible => absurd impossible (Nat.not_lt_zero earlier)⟩

variable [DecidableEq α]

/-- Valid frames that follow each other at once, after a quiet gap, are all delivered. -/
theorem frames_from {seen gap frame : List α} {matched : Nat} {frames : List (List α)}
    (tracks : Tracks format.sync seen matched)
    (quiet : Quiet format.sync seen (gap ++ format.sync.dropLast)) (valid : format.Valid frame)
    (others : ∀ other ∈ frames, format.Valid other) :
    ∃ final outputs,
      format.deframer.run (.hunting matched) (gap ++ (frame :: frames).flatten) =
        some (final, outputs) ∧ delivered outputs = frame :: frames := by
  let pieces : List (List α × List α) := frames.map fun other => ([], other)
  have gapless : ∀ piece ∈ pieces, FirstAt format.sync (piece.1 ++ format.sync) piece.1.length := by
    intro piece member
    obtain ⟨other, _, rfl⟩ := List.mem_map.mp member
    exact firstAt_nil
  have valid_ : ∀ piece ∈ pieces, format.Valid piece.2 := by
    intro piece member
    obtain ⟨other, inside, rfl⟩ := List.mem_map.mp member
    exact others other inside
  have ending : ¬ format.sync <:+: [] :=
    fun contained => format.sync_ne_nil (List.infix_nil.mp contained)
  obtain ⟨later, ran⟩ := segments_from tracks quiet valid gapless valid_ ending
  refine ⟨.hunting later, returns ((gap, frame) :: pieces) [], ?_, ?_⟩
  · rw [← ran]
    congr 1
    have tailStream := stream_gapless frames
    simp only [stream, List.append_nil] at tailStream
    simp [stream, pieces, tailStream]
  · rw [delivered_returns]
    simp [pieces, Function.comp_def]

/-- From the initial phase in the middle of the stream, every frame that is still to start arrives. -/
theorem resume {frames : List (List α)} {position : Nat}
    (valid : ∀ frame ∈ frames, format.Valid frame)
    (starts : SyncAtStartsOnly format.sync frames) (inside : position ≤ frames.flatten.length) :
    ∃ next final outputs, next ≤ frames.length ∧
      format.deframer.run (.hunting 0) (frames.flatten.drop position) = some (final, outputs) ∧
      delivered outputs = frames.drop next ∧
      ∀ index, position ≤ startOf frames index → next ≤ index := by
  obtain ⟨next, gap, bound, rest, first, last, least⟩ := gap_to_next_start valid starts inside
  rw [rest]
  have start := tracks_nil format.sync_ne_nil
  rcases Nat.lt_or_eq_of_le bound with before | done
  · have quiet := quiet_of_firstAt (first before) format.sync_ne_nil
    rw [List.drop_eq_getElem_cons before]
    obtain ⟨final, outputs, ran, frames_⟩ := frames_from start quiet
      (valid _ (List.getElem_mem before))
      (fun other member => valid other (List.mem_of_mem_drop member))
    exact ⟨next, final, outputs, bound, ran, frames_.trans (List.drop_eq_getElem_cons before).symm,
      least⟩
  · obtain ⟨later, ran, _⟩ := Format.hunt start (quiet_of_absent (last done))
    refine ⟨next, .hunting later, List.replicate gap.length none, bound, ?_, ?_, least⟩
    · rw [done, List.drop_length, List.flatten_nil, List.append_nil]
      exact ran
    · simp [done]

/--
What a sound collecting phase does with a stream: either the stream ends
first, or some of it, `limit` items with those held at most, completes the
frame or shows that its header is wrong.
-/
theorem collect_settles {held : List α} (text : List α) (sound : format.Sound (.collecting held)) :
    (∃ final, format.deframer.run (.collecting held) text =
        some (final, List.replicate text.length none) ∧
      held.length + text.length < format.limit) ∨
    ∃ used rest outputs, text = used ++ rest ∧ held.length + used.length ≤ format.limit ∧
      format.deframer.run (.collecting held) used = some (.hunting 0, outputs) ∧
      (delivered outputs = [] ∨ delivered outputs = [held ++ used]) := by
  induction text generalizing held with
  | nil => exact .inl ⟨.collecting held, rfl, sound.room⟩
  | cons item rest ih =>
      have room := sound.room
      have count : (held ++ [item]).length = held.length + 1 := by simp
      rcases sound.receive item with ⟨result, soundNext⟩ | ⟨result, _⟩ | result
      · have stepped : format.deframer.step (.collecting held) item =
            some (.collecting (held ++ [item]), none) := by
          simp only [Format.deframer, Format.step, result]
        rcases ih soundNext with
          ⟨final, ran, bound⟩ | ⟨used, others, outputs, split, bound, ran, frames⟩
        · refine .inl ⟨final, Machine.run_cons stepped ran, ?_⟩
          rw [List.length_cons]
          omega
        · refine .inr ⟨item :: used, others, none :: outputs, by rw [split]; rfl, ?_,
            Machine.run_cons stepped ran, ?_⟩
          · rw [List.length_cons]
            omega
          · simpa [delivered] using frames
      · have stepped : format.deframer.step (.collecting held) item =
            some (.hunting 0, some (held ++ [item])) := by
          simp only [Format.deframer, Format.step, result]
        refine .inr ⟨[item], rest, [some (held ++ [item])], rfl, ?_,
          Machine.run_cons stepped rfl, .inr rfl⟩
        rw [List.length_singleton]
        omega
      · have stepped : format.deframer.step (.collecting held) item =
            some (.hunting 0, none) := by
          simp only [Format.deframer, Format.step, result]
        refine .inr ⟨[item], rest, [none], rfl, ?_, Machine.run_cons stepped rfl, .inl rfl⟩
        rw [List.length_singleton]
        omega

/-- The frames from `next` on are delivered, after at most one that begins with older items. -/
structure Resynchronises (format : Format α) (phase : Phase α) (frames made : List (List α))
    (next : Nat) (junk : Option (List α)) : Prop where
  split : made = junk.toList ++ frames.drop next
  bound : next ≤ frames.length
  reach : ∀ index < frames.length,
    format.limit - format.sync.length ≤ startOf frames index → next ≤ index
  older : ∀ frame, junk = some frame → ∃ held used, phase = .collecting held ∧ held ≠ [] ∧
    used <+: frames.flatten ∧ frame = held ++ used
  lossless : ∀ matched, phase = .hunting matched → next = 0 ∧ junk = none

/--
Resynchronisation.  From any sound phase, a stream of valid frames with the
sync word at frame starts only is delivered from some frame on, which is one
of those that start within `limit - sync.length` items, or the first after
them; one frame at most is made of older items; a hunting phase loses nothing.
-/
theorem resynchronises (format : Format α) {phase : Phase α} {frames : List (List α)}
    (sound : format.Sound phase)
    (valid : ∀ frame ∈ frames, format.Valid frame)
    (starts : SyncAtStartsOnly format.sync frames) :
    ∃ final outputs next junk, format.deframer.run phase frames.flatten = some (final, outputs) ∧
      Resynchronises format phase frames (delivered outputs) next junk := by
  cases phase with
  | hunting matched =>
      cases frames with
      | nil =>
          exact ⟨_, _, 0, none, rfl, ⟨rfl, Nat.le_refl _, fun index _ _ => Nat.zero_le index,
            nofun, fun _ _ => ⟨rfl, rfl⟩⟩⟩
      | cons frame rest =>
          have unfinished : ¬ format.sync <:+ format.sync.take matched := by
            intro ends
            have bound := ends.length_le
            have short : matched < format.sync.length := sound
            rw [List.length_take_of_le (by omega)] at bound
            omega
          have quiet : Quiet format.sync (format.sync.take matched)
              ([] ++ format.sync.dropLast) := quiet_dropLast format.sync_nodup unfinished
          obtain ⟨final, outputs, ran, made⟩ := frames_from (tracks_take sound) quiet
            (valid frame (List.mem_cons_self ..))
            (fun other member => valid other (List.mem_cons_of_mem _ member))
          exact ⟨final, outputs, 0, none, ran, ⟨made, Nat.zero_le _,
            fun index _ _ => Nat.zero_le index, nofun, fun _ _ => ⟨rfl, rfl⟩⟩⟩
  | collecting held =>
      have nonempty : held ≠ [] := by
        rintro rfl
        exact format.sync_ne_nil (List.prefix_nil.mp sound.1)
      have heldBound := sound.1.length_le
      rcases collect_settles frames.flatten sound with
        ⟨final, ran, bound⟩ | ⟨used, rest, before, split, bound, ran, settled⟩
      · refine ⟨final, _, frames.length, none, ran, ⟨by simp, Nat.le_refl _, ?_, nofun, nofun⟩⟩
        -- The stream ended before a frame could start so far into it.
        intro index inside late
        have order := startOf_mono frames (Nat.le_of_lt inside)
        rw [startOf_length] at order
        omega
      · have length : used.length ≤ frames.flatten.length := by rw [split]; simp
        have dropped : frames.flatten.drop used.length = rest := by rw [split, List.drop_left]
        obtain ⟨next, final, after, nextBound, ranRest, made, least⟩ :=
          resume valid starts length
        rw [dropped] at ranRest
        have total : format.deframer.run (.collecting held) frames.flatten =
            some (final, before ++ after) := by
          rw [split]
          exact Machine.run_append ran ranRest
        have reach : ∀ index < frames.length,
            format.limit - format.sync.length ≤ startOf frames index → next ≤ index :=
          fun index _ late => least index (by omega)
        rcases settled with nothing | junk
        · exact ⟨final, before ++ after, next, none, total,
            ⟨by rw [delivered_append, made, nothing]; rfl, nextBound, reach, nofun, nofun⟩⟩
        · refine ⟨final, before ++ after, next, some (held ++ used), total,
            ⟨by rw [delivered_append, made, junk]; rfl, nextBound, reach, ?_, nofun⟩⟩
          intro frame same
          exact ⟨held, used, rfl, nonempty, ⟨rest, split.symm⟩, (Option.some.inj same).symm⟩

end PresenceNode.Library.Deframer
