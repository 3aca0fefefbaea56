import PresenceNode.Library.DeframerSoundness
import Mathlib.Data.List.Perm.Subperm

/-!
# Counting a word in a stream

`count` goes over a text once and counts a word that stands in it, none over
another.  A word of distinct letters never stands over itself, so this is the
number of all places where it stands.  A deframer delivers no more frames
than there are sync words, and as many exactly if each begins a frame.
-/

namespace PresenceNode.Library.Pattern

variable {α : Type}

theorem occursAt_succ {word : List α} {letter : α} {rest : List α} {index : Nat} :
    OccursAt word (letter :: rest) (index + 1) ↔ OccursAt word rest index := Iff.rfl

/-- A word of distinct letters does not stand over itself. -/
theorem OccursAt.apart {word text : List α} {first second : Nat} (distinct : word.Nodup)
    (one : OccursAt word text first) (other : OccursAt word text second) (order : first < second) :
    first + word.length ≤ second := by
  by_contra! nearer
  have letter : ∀ {start index : Nat}, OccursAt word text start → index < word.length →
      text[start + index]? = word[index]? := by
    intro start index occurs inside
    rw [← List.getElem?_drop]
    obtain ⟨rest, split⟩ := occurs
    rw [← split, List.getElem?_append_left inside]
  -- The first letter of the second would be another one of the first as well.
  have inner := letter one (show second - first < word.length by omega)
  have outer := letter other (show 0 < word.length by omega)
  rw [Nat.add_sub_cancel' order.le] at inner
  rw [Nat.add_zero] at outer
  have same := (List.getElem?_inj (by omega) distinct).mp (inner.symm.trans outer)
  omega

variable [DecidableEq α]

def countFrom (word : List α) : Nat → List α → Nat
  | _, [] => 0
  | skip + 1, _ :: rest => countFrom word skip rest
  | 0, letter :: rest =>
      if word <+: letter :: rest then 1 + countFrom word (word.length - 1) rest
      else countFrom word 0 rest

/-- How often the word is met in the text, none over another. -/
def count (word text : List α) : Nat := countFrom word 0 text

def positions (word text : List α) : List Nat :=
  (List.range text.length).filter fun index => OccursAt word text index

theorem mem_positions {word text : List α} (nonempty : word ≠ []) {index : Nat} :
    index ∈ positions word text ↔ OccursAt word text index := by
  rw [positions, List.mem_filter, List.mem_range, decide_eq_true_iff, and_iff_right_iff_imp]
  intro occurs
  have inside := occurs.inside nonempty
  have positive := List.length_pos_iff.mpr nonempty
  omega

theorem length_positions_cons (word : List α) (letter : α) (rest : List α) :
    (positions word (letter :: rest)).length =
      (if word <+: letter :: rest then 1 else 0) + (positions word rest).length := by
  have later : ((List.range rest.length).map Nat.succ).filter
      (fun index => decide (OccursAt word (letter :: rest) index)) =
        (positions word rest).map Nat.succ := by
    rw [List.filter_map, positions]
    rfl
  rw [positions, List.length_cons, List.range_succ_eq_map, List.filter_cons, later]
  change (if decide (word <+: letter :: rest) = true then (_ : List Nat) else _).length = _
  by_cases stands : word <+: letter :: rest
  · rw [if_pos stands, if_pos (decide_eq_true stands), List.length_cons, List.length_map,
      Nat.add_comm]
  · rw [if_neg stands, if_neg fun here => stands (of_decide_eq_true here), List.length_map,
      Nat.zero_add]

theorem countFrom_eq {word : List α} (distinct : word.Nodup) {skip : Nat} {text : List α}
    (skipped : ∀ index < skip, ¬ OccursAt word text index) :
    countFrom word skip text = (positions word text).length := by
  induction text generalizing skip with
  | nil => cases skip <;> rfl
  | cons letter rest ih =>
      rw [length_positions_cons]
      cases skip with
      | zero =>
          rw [countFrom]
          split
          · next stands =>
              rw [ih]
              intro index before occurs
              have clear := OccursAt.apart distinct (show OccursAt word (letter :: rest) 0 from
                stands) (occursAt_succ.mpr occurs) (Nat.succ_pos index)
              omega
          · rw [ih fun index before => absurd before (Nat.not_lt_zero index), Nat.zero_add]
      | succ skip =>
          have missing : ¬ word <+: letter :: rest := skipped 0 (Nat.succ_pos skip)
          rw [countFrom, if_neg missing, Nat.zero_add]
          exact ih fun index before => skipped (index + 1) (Nat.succ_lt_succ before)

/-- None is missed although none over another is counted. -/
theorem count_eq {word : List α} (distinct : word.Nodup) (text : List α) :
    count word text = (positions word text).length :=
  countFrom_eq distinct fun index before => absurd before (Nat.not_lt_zero index)

theorem count_eq_zero_iff {word : List α} (distinct : word.Nodup) (nonempty : word ≠ [])
    {text : List α} : count word text = 0 ↔ ¬ word <:+: text := by
  rw [count_eq distinct, List.length_eq_zero_iff, List.eq_nil_iff_forall_not_mem,
    infix_iff_occursAt, not_exists]
  exact forall_congr' fun index => not_congr (mem_positions nonempty)

end PresenceNode.Library.Pattern

namespace PresenceNode.Library.Deframer

open Pattern

variable {α : Type}

/-- A frame that is delivered begins at this position of the stream. -/
def Begins (outputs : List (Option (List α))) (position : Nat) : Prop :=
  ∃ index frame, outputs[index]? = some (some frame) ∧ position + frame.length = index + 1

/-- Where the frames begin that are delivered, the first output being that of `index`. -/
def begins : Nat → List (Option (List α)) → List Nat
  | _, [] => []
  | index, none :: rest => begins (index + 1) rest
  | index, some frame :: rest => (index + 1 - frame.length) :: begins (index + 1) rest

theorem begins_length (index : Nat) (outputs : List (Option (List α))) :
    (begins index outputs).length = (delivered outputs).length := by
  induction outputs generalizing index with
  | nil => rfl
  | cons output rest ih =>
      cases output with
      | none => exact ih (index + 1)
      | some frame => exact congrArg Nat.succ (ih (index + 1))

theorem mem_begins {index position : Nat} {outputs : List (Option (List α))} :
    position ∈ begins index outputs ↔ ∃ later frame, outputs[later]? = some (some frame) ∧
      position = index + later + 1 - frame.length := by
  induction outputs generalizing index with
  | nil => simp [begins]
  | cons output rest ih =>
      have behind : (∃ later frame, (output :: rest)[later]? = some (some frame) ∧
          position = index + later + 1 - frame.length) ↔
          (∃ frame, output = some frame ∧ position = index + 1 - frame.length) ∨
            position ∈ begins (index + 1) rest := by
        rw [ih]
        constructor
        · rintro ⟨later, frame, found, here⟩
          cases later with
          | zero => exact .inl ⟨frame, Option.some.inj found, here⟩
          | succ later => exact .inr ⟨later, frame, found, by omega⟩
        · rintro (⟨frame, rfl, here⟩ | ⟨later, frame, found, here⟩)
          · exact ⟨0, frame, rfl, here⟩
          · exact ⟨later + 1, frame, found, by omega⟩
      rw [behind]
      cases output with
      | none => simp [begins]
      | some frame => simp [begins]

/-- Frames that share no item begin one behind the other. -/
theorem begins_increase {index : Nat} {outputs : List (Option (List α))}
    (room : ∀ later frame, outputs[later]? = some (some frame) →
      0 < frame.length ∧ frame.length ≤ index + later + 1)
    (apart : ∀ earlier later (first second : List α), earlier < later →
      outputs[earlier]? = some (some first) → outputs[later]? = some (some second) →
      earlier + second.length ≤ later) : (begins index outputs).Pairwise (· < ·) := by
  induction outputs generalizing index with
  | nil => exact List.Pairwise.nil
  | cons output rest ih =>
      have behind : (begins (index + 1) rest).Pairwise (· < ·) := by
        refine ih (fun later frame found => ?_) fun earlier later first second order one other => ?_
        · have bounds := room (later + 1) frame found
          omega
        · have clear := apart (earlier + 1) (later + 1) first second (Nat.succ_lt_succ order) one
            other
          omega
      cases output with
      | none => exact behind
      | some frame =>
          refine List.pairwise_cons.mpr ⟨fun position member => ?_, behind⟩
          obtain ⟨later, other, found, here⟩ := mem_begins.mp member
          have clear := apart 0 (later + 1) frame other (Nat.succ_pos later) rfl found
          have bounds := room 0 frame rfl
          omega

theorem delivered_first {outputs : List (Option (List α))} {frame : List α}
    {others : List (List α)} (first : delivered outputs = frame :: others) :
    ∃ index : Nat, outputs[index]? = some (some frame) ∧
      ∀ (earlier : Nat) (other : List α), outputs[earlier]? = some (some other) →
        index ≤ earlier := by
  induction outputs with
  | nil => cases first
  | cons output rest ih =>
      cases output with
      | some one =>
          cases first
          exact ⟨0, rfl, fun earlier _ _ => Nat.zero_le earlier⟩
      | none =>
          obtain ⟨index, found, least⟩ := ih first
          refine ⟨index + 1, found, fun earlier other here => ?_⟩
          cases earlier with
          | zero => cases here
          | succ earlier => exact Nat.succ_le_succ (least earlier other here)

namespace Accounts

variable {format : Format α} {history : List α} {outputs : List (Option (List α))}
  {phase : Phase α}

/-- A frame that is delivered stands in the stream where it begins. -/
theorem stands (accounts : Accounts format history outputs phase) {index : Nat} {frame : List α}
    (found : outputs[index]? = some (some frame)) :
    ∃ before after, history = before ++ frame ++ after ∧ before.length + frame.length = index + 1 := by
  obtain ⟨_, before, ends⟩ := accounts.frames index frame found
  refine ⟨before, history.drop (index + 1), ?_, ?_⟩
  · rw [ends, List.take_append_drop]
  · rw [← List.length_append, ends, List.length_take, Nat.min_eq_left (accounts.index_lt found)]

theorem mem_begins_iff (accounts : Accounts format history outputs phase) {position : Nat} :
    position ∈ begins 0 outputs ↔ Begins outputs position := by
  rw [mem_begins]
  refine exists_congr fun index => exists_congr fun frame => and_congr_right fun found => ?_
  obtain ⟨before, _, _, ends⟩ := accounts.stands found
  omega

/-- The sync word stands where a frame begins that is delivered. -/
theorem occursAt (accounts : Accounts format history outputs phase) {position : Nat}
    (starts : Begins outputs position) : OccursAt format.sync history position := by
  obtain ⟨index, frame, found, ends⟩ := starts
  obtain ⟨before, after, whole, length⟩ := accounts.stands found
  obtain rfl : position = before.length := by omega
  rw [whole, List.append_assoc]
  unfold OccursAt
  rw [List.drop_left]
  exact (accounts.frames index frame found).1.begins.trans (List.prefix_append _ _)

theorem begins_subperm [DecidableEq α] (accounts : Accounts format history outputs phase) :
    (begins 0 outputs).Subperm (positions format.sync history) := by
  have increase : (begins 0 outputs).Pairwise (· < ·) := by
    refine begins_increase (fun later frame found => ?_) accounts.apart
    obtain ⟨before, _, _, ends⟩ := accounts.stands found
    have header := (accounts.frames later frame found).1.complete
    have short := format.sync_lt_header
    omega
  refine List.Nodup.subperm (increase.imp fun order => order.ne) fun position member => ?_
  exact (mem_positions format.sync_ne_nil).mpr
    (accounts.occursAt (accounts.mem_begins_iff.mp member))

theorem delivered_le_count [DecidableEq α] (accounts : Accounts format history outputs phase) :
    (delivered outputs).length ≤ Pattern.count format.sync history := by
  rw [count_eq format.sync_nodup, ← begins_length 0]
  exact accounts.begins_subperm.length_le

/-- As many are delivered exactly if each sync word begins a frame that is delivered. -/
theorem delivered_eq_count_iff [DecidableEq α] (accounts : Accounts format history outputs phase) :
    (delivered outputs).length = Pattern.count format.sync history ↔
      ∀ position, OccursAt format.sync history position → Begins outputs position := by
  rw [count_eq format.sync_nodup, ← begins_length 0]
  constructor
  · intro same position occurs
    have permuted := accounts.begins_subperm.perm_of_length_le same.ge
    rw [← accounts.mem_begins_iff, permuted.mem_iff]
    exact (mem_positions format.sync_ne_nil).mpr occurs
  · intro all
    refine Nat.le_antisymm accounts.begins_subperm.length_le (List.Subperm.length_le ?_)
    refine List.Nodup.subperm (List.nodup_range.filter _) fun position member => ?_
    exact accounts.mem_begins_iff.mpr (all position ((mem_positions format.sync_ne_nil).mp member))

/-- The first frame that is delivered stands behind the first sync word, or begins with it. -/
theorem first_stands (accounts : Accounts format history outputs phase) {first : Nat}
    {frame : List α} {others : List (List α)} (found : FirstAt format.sync history first)
    (delivers : delivered outputs = frame :: others) :
    ∃ before after, history = before ++ frame ++ after ∧ first ≤ before.length ∧
      (Begins outputs first → first = before.length) := by
  obtain ⟨index, here, least⟩ := delivered_first delivers
  obtain ⟨before, after, whole, ends⟩ := accounts.stands here
  have behind : first ≤ before.length := by
    by_contra! ahead
    exact found.2 _ ahead (accounts.occursAt ⟨index, frame, here, ends⟩)
  refine ⟨before, after, whole, behind, ?_⟩
  rintro ⟨other, begun, there, stops⟩
  rcases Nat.lt_or_eq_of_le (least other begun there) with later | rfl
  · have clear := accounts.apart index other frame begun later here there
    have header := (accounts.frames index frame here).1.complete
    have short := format.sync_lt_header
    omega
  · cases here.symm.trans there
    omega

end Accounts

end PresenceNode.Library.Deframer
