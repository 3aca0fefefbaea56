import Mathlib.Algebra.Order.BigOperators.Group.List
import Mathlib.Data.List.Induction
import Mathlib.Tactic.Linarith
import Mathlib.Tactic.Ring

/-!
# Loops on an absolute cadence

A loop has deadlines one period apart.  A turn works, waits for its deadline
when there is time left, and may wake late; without time left the next turn
begins at once.  The lag of a turn is how far behind the deadline before it it
begins.

A lag goes back to the last turn that waited, so what came before that turn is
forgotten: late turns do not add up.
-/

namespace PresenceNode.Library

/-- What a turn works, and how late it wakes if it waits. -/
structure Turn where
  work : Int
  late : Int

namespace Turn

def lagAfter (period lag : Int) (turn : Turn) : Int :=
  if lag + turn.work < period then turn.late else lag + turn.work - period

/-- The lag of the turn after these, the first of which begins with the given one. -/
def lag (period start : Int) (turns : List Turn) : Int := turns.foldl (lagAfter period) start

def total (turns : List Turn) : Int := (turns.map work).sum

variable {period start : Int} {turns : List Turn}

@[simp] theorem lag_concat (turn : Turn) :
    lag period start (turns ++ [turn]) = lagAfter period (lag period start turns) turn := by
  simp [lag]

theorem lag_append (more : List Turn) :
    lag period start (turns ++ more) = lag period (lag period start turns) more :=
  List.foldl_append

@[simp] theorem total_concat (turn : Turn) : total (turns ++ [turn]) = total turns + turn.work := by
  simp [total]

theorem lag_nonneg (early : 0 ≤ start) (lates : ∀ turn ∈ turns, 0 ≤ turn.late) :
    0 ≤ lag period start turns := by
  induction turns using List.reverseRecOn with
  | nil => exact early
  | append_singleton turns turn ih =>
      rw [lag_concat, lagAfter]
      split
      · exact lates turn (by simp)
      · omega

/--
The lag is what the turns since the last one that waited have worked beyond
their periods, on top of how late that one woke.
-/
theorem lag_since (period start : Int) (turns : List Turn) :
    ∃ before since base, turns = before ++ since ∧
      (before = [] ∧ base = start ∨ ∃ front turn, before = front ++ [turn] ∧ base = turn.late) ∧
      lag period start turns = base + total since - period * since.length := by
  induction turns using List.reverseRecOn with
  | nil => exact ⟨[], [], start, rfl, .inl ⟨rfl, rfl⟩, by simp [lag, total]⟩
  | append_singleton turns turn ih =>
      rw [lag_concat, lagAfter]
      split
      · exact ⟨turns ++ [turn], [], turn.late, by simp, .inr ⟨turns, turn, rfl, rfl⟩,
          by simp [total]⟩
      · obtain ⟨before, since, base, rfl, waited, same⟩ := ih
        refine ⟨before, since ++ [turn], base, by simp, waited, ?_⟩
        rw [same, total_concat, List.length_append, List.length_singleton]
        push_cast
        ring

/--
Turns that never work more than a burst beyond their periods, however many of
them are taken together, are never later than the burst.
-/
theorem lag_le {late burst : Int} (lates : ∀ turn ∈ turns, turn.late ≤ late) (first : start ≤ late)
    (bursts : ∀ before block, turns = before ++ block →
      total block ≤ period * block.length + burst) :
    lag period start turns ≤ late + burst := by
  obtain ⟨before, since, base, split, waited, same⟩ := lag_since period start turns
  have most : base ≤ late := by
    rcases waited with ⟨_, rfl⟩ | ⟨front, turn, rfl, rfl⟩
    · exact first
    · exact lates turn (by simp [split])
  have within := bursts before since split
  omega

/-- A lag is made up for by turns that leave enough of their periods. -/
theorem lag_recovers {late most : Int} (lates : ∀ turn ∈ turns, turn.late ≤ late)
    (works : ∀ turn ∈ turns, turn.work ≤ most) (slack : most ≤ period)
    (enough : start ≤ late + (period - most) * turns.length) :
    lag period start turns ≤ late := by
  obtain ⟨before, since, base, rfl, waited, same⟩ := lag_since period start turns
  have worked : total since ≤ most * since.length := by
    have inside : ∀ turn ∈ since, turn.work ≤ most :=
      fun turn member => works turn (List.mem_append_right _ member)
    have bound := List.sum_le_card_nsmul (since.map work) most (List.forall_mem_map.mpr inside)
    rw [List.length_map, nsmul_eq_mul, mul_comm] at bound
    exact bound
  rcases waited with ⟨rfl, rfl⟩ | ⟨front, turn, rfl, rfl⟩
  · simp only [List.nil_append] at enough same ⊢
    linarith
  · have woke : turn.late ≤ late := lates turn (by simp)
    have spare : 0 ≤ (period - most) * since.length :=
      mul_nonneg (by omega) (Int.natCast_nonneg _)
    rw [same]
    linarith

end Turn

end PresenceNode.Library
