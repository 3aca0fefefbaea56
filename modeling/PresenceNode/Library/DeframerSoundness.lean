import PresenceNode.Library.Deframer

/-!
# Soundness of the deframer for an arbitrary stream

Whatever is read, the phase stays sound, a delivered frame is valid and is the
end of the stream read up to its delivery, and no two delivered frames share
an item.  The invariant keeps the pending items apart from every delivery.
-/

namespace PresenceNode.Library.Deframer

open Pattern

variable {α : Type}

theorem getElem?_concat_eq_some {ω : Type} {outputs : List ω} {output found : ω} {index : Nat} :
    (outputs ++ [output])[index]? = some found ↔
      outputs[index]? = some found ∨ (index = outputs.length ∧ output = found) := by
  rcases Nat.lt_trichotomy index outputs.length with before | here | beyond
  · rw [List.getElem?_append_left before]
    exact ⟨.inl, fun either => either.resolve_right (fun last => by omega)⟩
  · subst here
    simp
  · have nothing : (outputs ++ [output])[index]? = none := by
      rw [List.getElem?_eq_none_iff, List.length_append, List.length_singleton]
      omega
    have nothingBefore : outputs[index]? = none := by
      rw [List.getElem?_eq_none_iff]
      omega
    rw [nothing, nothingBefore]
    constructor
    · intro impossible; cases impossible
    · rintro (impossible | ⟨last, _⟩)
      · cases impossible
      · omega

/-- What the outputs and the phase say about the items read so far. -/
structure Accounts (format : Format α) (history : List α) (outputs : List (Option (List α)))
    (phase : Phase α) : Prop where
  sound : format.Sound phase
  count : outputs.length = history.length
  /-- The pending items end the history and come after every delivery. -/
  recent : ∃ before, history = before ++ format.pending phase ∧
    ∀ index frame, outputs[index]? = some (some frame) → index < before.length
  frames : ∀ index frame, outputs[index]? = some (some frame) →
    format.Valid frame ∧ frame <:+ history.take (index + 1)
  apart : ∀ earlier later (first second : List α), earlier < later →
    outputs[earlier]? = some (some first) → outputs[later]? = some (some second) →
    earlier + second.length ≤ later

namespace Accounts

variable {format : Format α} {history : List α} {outputs : List (Option (List α))}
  {phase next : Phase α} {item : α}

theorem start (format : Format α) : Accounts format [] [] (.hunting 0) where
  sound := Format.sound_start
  count := rfl
  recent := ⟨[], by simp [Format.pending], by simp⟩
  frames := by simp
  apart := by simp

theorem of_sound (sound : format.Sound phase) :
    Accounts format (format.pending phase)
      (List.replicate (format.pending phase).length none) phase := by
  have silent : ∀ (index : Nat) frame,
      (List.replicate (format.pending phase).length (none : Option (List α)))[index]? ≠
        some (some frame) := by
    intro index frame found
    rw [List.getElem?_replicate] at found
    split at found <;> cases found
  exact {
    sound := sound
    count := List.length_replicate
    recent := ⟨[], rfl, fun index frame found => (silent index frame found).elim⟩
    frames := fun index frame found => (silent index frame found).elim
    apart := fun _ later _ second _ _ found => (silent later second found).elim }

theorem index_lt (accounts : Accounts format history outputs phase) {index : Nat}
    {frame : List α} (found : outputs[index]? = some (some frame)) :
    index < history.length := by
  rw [← accounts.count]
  exact (List.getElem?_eq_some_iff.mp found).1

theorem frames_concat (accounts : Accounts format history outputs phase) (item : α) {index : Nat}
    {frame : List α} (found : outputs[index]? = some (some frame)) :
    format.Valid frame ∧ frame <:+ (history ++ [item]).take (index + 1) := by
  have bound := accounts.index_lt found
  rw [List.take_append_of_le_length (by omega)]
  exact accounts.frames index frame found

/-- A step that delivers nothing may forget pending items, never invent them. -/
theorem silent (accounts : Accounts format history outputs phase)
    (sound : format.Sound next)
    (kept : format.pending next <:+ format.pending phase ++ [item]) :
    Accounts format (history ++ [item]) (outputs ++ [none]) next where
  sound := sound
  count := by simp [accounts.count]
  recent := by
    obtain ⟨before, whole, older⟩ := accounts.recent
    obtain ⟨forgotten, split⟩ := kept
    refine ⟨before ++ forgotten, ?_, ?_⟩
    · rw [List.append_assoc, split, whole, List.append_assoc]
    · intro index frame found
      rcases getElem?_concat_eq_some.mp found with found | ⟨_, impossible⟩
      · have bound := older index frame found
        rw [List.length_append]
        omega
      · cases impossible
  frames := by
    intro index frame found
    rcases getElem?_concat_eq_some.mp found with found | ⟨_, impossible⟩
    · exact accounts.frames_concat item found
    · cases impossible
  apart := by
    intro earlier later first second order foundFirst foundSecond
    rcases getElem?_concat_eq_some.mp foundFirst with foundFirst | ⟨_, impossible⟩
    · rcases getElem?_concat_eq_some.mp foundSecond with foundSecond | ⟨_, impossible⟩
      · exact accounts.apart earlier later first second order foundFirst foundSecond
      · cases impossible
    · cases impossible

theorem deliver (accounts : Accounts format history outputs phase)
    (valid : format.Valid (format.pending phase ++ [item])) :
    Accounts format (history ++ [item])
      (outputs ++ [some (format.pending phase ++ [item])]) (.hunting 0) where
  sound := Format.sound_start
  count := by simp [accounts.count]
  recent := by
    refine ⟨history ++ [item], by simp [Format.pending], ?_⟩
    intro index frame found
    have bound := (List.getElem?_eq_some_iff.mp found).1
    simpa [accounts.count] using bound
  frames := by
    intro index frame found
    rcases getElem?_concat_eq_some.mp found with found | ⟨rfl, same⟩
    · exact accounts.frames_concat item found
    · cases same
      refine ⟨valid, ?_⟩
      obtain ⟨before, whole, _⟩ := accounts.recent
      rw [List.take_of_length_le (by simp [accounts.count]), whole, List.append_assoc]
      exact List.suffix_append _ _
  apart := by
    intro earlier later first second order foundFirst foundSecond
    rcases getElem?_concat_eq_some.mp foundFirst with foundFirst | ⟨rfl, _⟩
    · rcases getElem?_concat_eq_some.mp foundSecond with foundSecond | ⟨rfl, same⟩
      · exact accounts.apart earlier later first second order foundFirst foundSecond
      · cases same
        obtain ⟨before, whole, older⟩ := accounts.recent
        have bound := older earlier first foundFirst
        rw [accounts.count, whole, List.length_append, List.length_append, List.length_singleton]
        omega
    · have bound := (List.getElem?_eq_some_iff.mp foundSecond).1
      rw [List.length_append, List.length_singleton] at bound
      omega

variable [DecidableEq α]

/-- The step lemma: reading one item keeps the account of the stream. -/
theorem step {output : Option (List α)} (accounts : Accounts format history outputs phase)
    (stepped : format.deframer.step phase item = some (next, output)) :
    Accounts format (history ++ [item]) (outputs ++ [output]) next := by
  have taken : format.step phase item = (next, output) := Option.some.inj stepped
  cases phase with
  | hunting matched =>
      have tracks : Tracks format.sync _ matched := tracks_take accounts.sound
      rw [Format.step] at taken
      split at taken
      · next found =>
          cases taken
          have lockedOn : format.Sound (.collecting format.sync) :=
            ⟨List.prefix_rfl, fun complete => absurd format.sync_lt_header (by omega)⟩
          exact accounts.silent lockedOn (tracks.completes_iff.mpr found)
      · next missing =>
          cases taken
          have incomplete := fun ends => missing (tracks.completes_iff.mp ends)
          have advanced := tracks.advance format.sync_nodup incomplete
          exact accounts.silent advanced.proper advanced.ends
  | collecting held =>
      change format.receive (held ++ [item]) = (next, output) at taken
      rcases Format.Sound.receive accounts.sound item with
        ⟨result, sound⟩ | ⟨result, valid⟩ | result
      · rw [result] at taken
        cases taken
        exact accounts.silent sound List.suffix_rfl
      · rw [result] at taken
        cases taken
        exact accounts.deliver valid
      · rw [result] at taken
        cases taken
        exact accounts.silent Format.sound_start (by simp [Format.pending])

end Accounts

variable [DecidableEq α] {format : Format α}

/-- The run lemma: every stream read from the initial phase is accounted for. -/
theorem accounts {history : List α} {outputs : List (Option (List α))} {phase : Phase α}
    (ran : format.deframer.run (.hunting 0) history = some (phase, outputs)) :
    Accounts format history outputs phase :=
  Machine.run_invariant_unguarded (fun _ _ _ _ _ _ before stepped => before.step stepped)
    (Accounts.start format) ran

/-- Whatever a sound phase goes on to deliver is valid. -/
theorem Format.Sound.delivers {phase final : Phase α} (sound : format.Sound phase) {items : List α}
    {outputs : List (Option (List α))}
    (ran : format.deframer.run phase items = some (final, outputs)) {frame : List α}
    (member : frame ∈ delivered outputs) : format.Valid frame := by
  have account := Machine.run_invariant_from
    (fun _ _ _ _ _ _ before (_ : True) stepped => Accounts.step before stepped)
    (Accounts.of_sound sound) (format.deframer.unguarded phase items) ran
  obtain ⟨output, inside, same⟩ := List.mem_filterMap.mp member
  obtain rfl : output = some frame := same
  obtain ⟨index, found⟩ := List.mem_iff_getElem?.mp (List.mem_append_right
    (List.replicate (format.pending phase).length none) inside)
  exact (account.frames index frame found).1

theorem deframer_run_defined (format : Format α) (phase : Phase α) (history : List α) :
    ∃ final outputs, format.deframer.run phase history = some (final, outputs) :=
  Machine.run_total (fun _ _ _ => ⟨_, _, rfl⟩) phase

end PresenceNode.Library.Deframer
