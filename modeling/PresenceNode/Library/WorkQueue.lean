import Mathlib.Data.List.Basic

/-!
# A queue that holds no item twice

An item that is submitted while it is queued stays where it is.  So what is
submitted last need not be what runs last, and `Answered` is the order that
matters: behind every `first` in the queue there is a `last`.
-/

namespace PresenceNode.Library.WorkQueue

variable {ι : Type} [DecidableEq ι]

def submit (queue : List ι) (item : ι) : List ι :=
  if item ∈ queue then queue else queue ++ [item]

theorem mem_submit {queue : List ι} {item other : ι} :
    other ∈ submit queue item ↔ other ∈ queue ∨ other = item := by
  unfold submit
  split
  · next queued =>
      constructor
      · exact .inl
      · rintro (earlier | rfl)
        · exact earlier
        · exact queued
  · rw [List.mem_append, List.mem_singleton]

/-- Behind every `first` in the queue there is a `last`. -/
def Answered (first last : ι) : List ι → Prop
  | [] => True
  | item :: rest => (item = first → last ∈ rest) ∧ Answered first last rest

instance decidableAnswered (first last : ι) : (queue : List ι) → Decidable (Answered first last queue)
  | [] => inferInstanceAs (Decidable True)
  | item :: rest =>
      have : Decidable (Answered first last rest) := decidableAnswered first last rest
      inferInstanceAs (Decidable ((item = first → last ∈ rest) ∧ Answered first last rest))

section Order

variable {first last : ι} {queue : List ι}

omit [DecidableEq ι] in
theorem answered_concat_last (distinct : last ≠ first) : Answered first last (queue ++ [last]) := by
  induction queue with
  | nil => exact ⟨fun same => absurd same distinct, trivial⟩
  | cons head rest ih => exact ⟨fun _ => List.mem_append_right _ (List.mem_singleton_self last), ih⟩

omit [DecidableEq ι] in
theorem not_answered_concat_first (queue : List ι) : ¬ Answered first last (queue ++ [first]) := by
  induction queue with
  | nil => exact fun answered => absurd (answered.1 rfl) List.not_mem_nil
  | cons head rest ih => exact fun answered => ih answered.2

/-- Submitting the answer leaves everything answered, unless it stays queued where it was. -/
theorem answered_submit_last (distinct : last ≠ first)
    (behind : last ∈ queue → Answered first last queue) :
    Answered first last (submit queue last) := by
  unfold submit
  split
  · next queued => exact behind queued
  · exact answered_concat_last distinct

end Order

end PresenceNode.Library.WorkQueue
