import Mathlib.Data.List.Basic

/-!
# Bounded queues by what they hold

A bounded queue takes the front of what is put into it, as much as there is
room for, and gives its items in the order in which it took them.  Its
operations are parameters, and `Lawful` says what they do to the items held.

`Flow` is the account of a queue over its life: nothing is invented, repeated
or reordered, and what is lost was lost by a put that came up short.
-/

namespace PresenceNode.Library

structure FifoOps (ρ α : Type) where
  put : ρ → List α → ρ × Nat
  get : ρ → Nat → ρ × List α

namespace FifoOps

variable {ρ α : Type}

structure Lawful (ops : FifoOps ρ α) (capacity : Nat) (held : ρ → List α) : Prop where
  put_count : ∀ queue items, (held queue).length ≤ capacity →
    (ops.put queue items).2 = min items.length (capacity - (held queue).length)
  put_held : ∀ queue items, (held queue).length ≤ capacity →
    held (ops.put queue items).1 = held queue ++ items.take (ops.put queue items).2
  get_items : ∀ queue count, (ops.get queue count).2 = (held queue).take count
  get_held : ∀ queue count, held (ops.get queue count).1 = (held queue).drop count

def ofList (capacity : Nat) : FifoOps (List α) α where
  put queue items :=
    let room := min items.length (capacity - queue.length)
    (queue ++ items.take room, room)
  get queue count := (queue.drop count, queue.take count)

theorem ofList_lawful (capacity : Nat) : (ofList (α := α) capacity).Lawful capacity id :=
  ⟨fun _ _ _ => rfl, fun _ _ _ => rfl, fun _ _ => rfl, fun _ _ => rfl⟩

/-- What has been sent and taken, and how many puts were short. -/
structure Flow (capacity : Nat) (held : ρ → List α) (sent taken : List α) (queue : ρ)
    (short : Nat) : Prop where
  room : (held queue).length ≤ capacity
  order : (taken ++ held queue).Sublist sent
  whole : short = 0 ↔ taken ++ held queue = sent

namespace Flow

variable {ops : FifoOps ρ α} {capacity : Nat} {held : ρ → List α} {sent taken : List α}
  {queue : ρ} {short : Nat}

theorem put (flow : Flow capacity held sent taken queue short)
    (lawful : ops.Lawful capacity held) (items : List α) :
    Flow capacity held (sent ++ items) taken (ops.put queue items).1
      (short + if (ops.put queue items).2 < items.length then 1 else 0) := by
  have count := lawful.put_count queue items flow.room
  have after := lawful.put_held queue items flow.room
  refine ⟨?_, ?_, ?_⟩
  · have room := flow.room
    rw [after, List.length_append, List.length_take, count]
    omega
  · rw [after, ← List.append_assoc]
    exact flow.order.append (List.take_sublist _ _)
  · rw [after, ← List.append_assoc]
    constructor
    · intro none_
      have full : ¬ (ops.put queue items).2 < items.length := by
        intro less
        rw [if_pos less] at none_
        omega
      rw [flow.whole.mp (by omega), List.take_of_length_le (Nat.le_of_not_lt full)]
    · intro same
      have least := flow.order.length_le
      have lengths := congrArg List.length same
      simp only [List.length_append, List.length_take] at lengths least
      have full : ¬ (ops.put queue items).2 < items.length := by omega
      have short_ : short = 0 := by
        rw [flow.whole]
        exact flow.order.eq_of_length_le (by simp only [List.length_append]; omega)
      rw [short_, if_neg full]

theorem get (flow : Flow capacity held sent taken queue short)
    (lawful : ops.Lawful capacity held) (count : Nat) :
    Flow capacity held sent (taken ++ (ops.get queue count).2) (ops.get queue count).1 short := by
  have parts : (ops.get queue count).2 ++ held (ops.get queue count).1 = held queue := by
    rw [lawful.get_items, lawful.get_held, List.take_append_drop]
  refine ⟨?_, ?_, ?_⟩
  · have room := flow.room
    rw [lawful.get_held, List.length_drop]
    omega
  · rw [List.append_assoc, parts]
    exact flow.order
  · rw [List.append_assoc, parts]
    exact flow.whole

end Flow

theorem Lawful.short_iff {ops : FifoOps ρ α} {capacity : Nat} {held : ρ → List α}
    (lawful : ops.Lawful capacity held) {queue : ρ} (room : (held queue).length ≤ capacity)
    (items : List α) :
    (ops.put queue items).2 < items.length ↔ capacity < (held queue).length + items.length := by
  rw [lawful.put_count queue items room]
  omega

end FifoOps

end PresenceNode.Library
