import Mathlib.Data.List.Basic

/-!
# Buffers of a fixed size

A store outside the buffer is undefined.  The results read a buffer through the
items below a fill mark: a store at the mark appends one item to them.
-/

namespace PresenceNode.Library.Buffer

variable {α : Type} {size : Nat}

def held (buffer : Vector α size) (fill : Nat) : List α := buffer.toList.take fill

def window (buffer : Vector α size) (index count : Nat) : List α :=
  (buffer.toList.drop index).take count

def store (buffer : Vector α size) (index : Nat) (item : α) : Option (Vector α size) :=
  if inside : index < size then some (buffer.set index item inside) else none

def storeAll (buffer : Vector α size) (index : Nat) : List α → Option (Vector α size)
  | [] => some buffer
  | item :: rest => (store buffer index item).bind fun next => storeAll next (index + 1) rest

def move (buffer : Vector α size) (target source count : Nat) : Option (Vector α size) :=
  if source + count ≤ size then storeAll buffer target (window buffer source count) else none

@[simp] theorem held_length (buffer : Vector α size) (fill : Nat) :
    (held buffer fill).length = min fill size := by
  simp [held]

theorem store_eq_some {buffer next : Vector α size} {index : Nat} {item : α} :
    store buffer index item = some next ↔
      index < size ∧ next.toList = buffer.toList.set index item := by
  unfold store
  split
  · next inside =>
      rw [Option.some.injEq, ← Vector.toList_inj, Vector.toList_set]
      exact ⟨fun same => ⟨inside, same.symm⟩, fun same => same.2.symm⟩
  · next outside => simp [outside]

theorem store_defined (buffer : Vector α size) {index : Nat} (item : α) (inside : index < size) :
    ∃ next, store buffer index item = some next :=
  ⟨buffer.set index item inside, by simp [store, inside]⟩

/-- A store at the fill mark appends its item and keeps everything below. -/
theorem held_store {buffer next : Vector α size} {fill : Nat} {item : α}
    (stored : store buffer fill item = some next) :
    held next (fill + 1) = held buffer fill ++ [item] := by
  obtain ⟨inside, contents⟩ := store_eq_some.mp stored
  have bound : fill < buffer.toList.length := by simpa using inside
  simp only [held, contents]
  rw [List.take_succ_eq_append_getElem (by simpa using inside), List.take_set,
    List.getElem_set_self, List.set_eq_of_length_le (List.length_take_le _ _)]

theorem held_below {buffer next : Vector α size} {fill : Nat} {item : α}
    (stored : store buffer fill item = some next) : held next fill = held buffer fill := by
  have inside := (store_eq_some.mp stored).1
  have below : (held buffer fill).length = fill := by
    rw [held_length]
    omega
  have appended := congrArg (List.take fill) (held_store stored)
  rwa [held, List.take_take, Nat.min_eq_left (Nat.le_succ fill), List.take_left' below] at appended

theorem storeAll_defined (buffer : Vector α size) {index : Nat} {items : List α}
    (inside : index + items.length ≤ size) :
    ∃ next, storeAll buffer index items = some next := by
  induction items generalizing buffer index with
  | nil => exact ⟨buffer, rfl⟩
  | cons item rest ih =>
      rw [List.length_cons] at inside
      have first : index < size := by omega
      have others : index + 1 + rest.length ≤ size := by omega
      obtain ⟨middle, stored⟩ := store_defined buffer item first
      obtain ⟨next, filled⟩ := ih middle others
      exact ⟨next, by simp [storeAll, stored, filled]⟩

theorem held_storeAll {buffer next : Vector α size} {fill : Nat} {items : List α}
    (stored : storeAll buffer fill items = some next) :
    held next (fill + items.length) = held buffer fill ++ items := by
  induction items generalizing buffer fill with
  | nil =>
      simp only [storeAll, Option.some.injEq] at stored
      simp [stored]
  | cons item rest ih =>
      simp only [storeAll, Option.bind_eq_some_iff] at stored
      obtain ⟨middle, first, others⟩ := stored
      have tail := ih others
      rw [held_store first] at tail
      rw [List.length_cons, ← Nat.add_assoc, Nat.add_right_comm, tail, List.append_assoc,
        List.singleton_append]

theorem window_held (buffer : Vector α size) {fill count : Nat} (inside : count ≤ fill) :
    window buffer (fill - count) count = (held buffer fill).drop (fill - count) := by
  rw [window, held, List.drop_take, Nat.sub_sub_self inside]

theorem move_front (buffer : Vector α size) {fill count : Nat} (inside : count ≤ fill)
    (bound : fill ≤ size) :
    ∃ next, move buffer 0 (fill - count) count = some next ∧
      held next count = (held buffer fill).drop (fill - count) := by
  have length : (window buffer (fill - count) count).length = count := by
    rw [window_held buffer inside, List.length_drop, held_length]
    omega
  obtain ⟨next, stored⟩ := storeAll_defined buffer
    (show 0 + (window buffer (fill - count) count).length ≤ size by omega)
  have moved := held_storeAll stored
  rw [length, Nat.zero_add, window_held buffer inside] at moved
  refine ⟨next, ?_, moved⟩
  rw [move, if_pos (by omega)]
  exact stored

theorem window_storeAll {buffer next : Vector α size} {fill : Nat} {items : List α}
    (inside : fill + items.length ≤ size) (stored : storeAll buffer fill items = some next) :
    window next fill items.length = items := by
  have appended := held_storeAll stored
  have below : (held buffer fill).length = fill := by
    rw [held_length]
    omega
  have dropped := congrArg (List.drop fill) appended
  rw [List.drop_left' below, held, List.drop_take, Nat.add_sub_cancel_left] at dropped
  exact dropped

end PresenceNode.Library.Buffer
