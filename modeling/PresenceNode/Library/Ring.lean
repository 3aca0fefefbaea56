import Mathlib.Data.List.Induction
import Mathlib.Data.Nat.ModEq
import Mathlib.Logic.Function.Basic

/-!
# The end of a log, kept in a ring of slots

An append-only log numbers its items, and a ring keeps the newest of them in
the slot of their number modulo the capacity.  An append is two updates: the
item goes into its slot, where it takes the place of the oldest item kept, and
then the log counts it.  Between the two the ring has lost that oldest item
already, and the item that took its place has a number that is not its own.
-/

namespace PresenceNode.Library.Ring

variable {ρ : Type}

/-- The slots keep the items of the log that are neither below the floor nor out of the ring. -/
structure Keeps (capacity : Nat) (seqOf : ρ → Nat) (log : List ρ) (floor next : Nat)
    (slots : Nat → Option ρ) : Prop where
  increasing : log.Pairwise fun first second => seqOf first < seqOf second
  below : ∀ item ∈ log, seqOf item < next
  kept : ∀ seq, floor ≤ seq → seq < next → next ≤ seq + capacity →
    ∃ item ∈ log, seqOf item = seq ∧ (slots (seq % capacity) = some item ∨
      seq + capacity = next ∧ ∃ newer, slots (seq % capacity) = some newer ∧ seqOf newer = next)

def find (capacity : Nat) (seqOf : ρ → Nat) (slots : Nat → Option ρ) (seq : Nat) : Option ρ :=
  (slots (seq % capacity)).filter fun item => seqOf item = seq

section Find

variable {capacity : Nat} {seqOf : ρ → Nat} {slots : Nat → Option ρ} {seq : Nat} {item : ρ}

theorem find_number (found : find capacity seqOf slots seq = some item) : seqOf item = seq :=
  of_decide_eq_true (Option.filter_eq_some_iff.mp found).2

theorem find_slot (found : find capacity seqOf slots seq = some item) :
    slots (seq % capacity) = some item :=
  (Option.filter_eq_some_iff.mp found).1

theorem find_eq_some (held : slots (seq % capacity) = some item) (number : seqOf item = seq) :
    find capacity seqOf slots seq = some item := by
  rw [find, held]
  exact Option.filter_some_pos (by simp [number])

theorem find_eq_none (held : slots (seq % capacity) = some item) (other : seqOf item ≠ seq) :
    find capacity seqOf slots seq = none := by
  rw [find, held]
  exact Option.filter_some_neg (by simp [other])

end Find

/-- Two numbers that share a slot are at least a capacity apart. -/
theorem slot_apart {capacity older newer : Nat} (order : older < newer)
    (same : older % capacity = newer % capacity) : older + capacity ≤ newer := by
  have multiple : capacity ∣ newer - older :=
    (Nat.modEq_iff_dvd' (Nat.le_of_lt order)).mp same
  have least := Nat.le_of_dvd (Nat.sub_pos_of_lt order) multiple
  omega

theorem slot_shared {capacity older newer : Nat} (order : older < newer)
    (near : newer ≤ older + capacity) (same : older % capacity = newer % capacity) :
    older + capacity = newer :=
  Nat.le_antisymm (slot_apart order same) near

theorem eq_of_increasing {seqOf : ρ → Nat} {log : List ρ}
    (increasing : log.Pairwise fun first second => seqOf first < seqOf second) {first second : ρ}
    (memberFirst : first ∈ log) (memberSecond : second ∈ log)
    (same : seqOf first = seqOf second) : first = second := by
  have ordered : log.Pairwise fun left right => seqOf left = seqOf right → left = right :=
    increasing.imp fun order equal => absurd equal (Nat.ne_of_lt order)
  have reversed : log.Pairwise fun left right => seqOf right = seqOf left → right = left :=
    increasing.imp fun order equal => absurd equal.symm (Nat.ne_of_lt order)
  exact List.Pairwise.forall_of_forall_of_flip (fun _ _ _ => rfl) ordered reversed
    memberFirst memberSecond same

namespace Keeps

variable {capacity : Nat} {seqOf : ρ → Nat} {log : List ρ} {floor next : Nat}
  {slots : Nat → Option ρ}

theorem empty (hidden : next ≤ floor) (slots : Nat → Option ρ) :
    Keeps capacity seqOf [] floor next slots where
  increasing := List.Pairwise.nil
  below := by simp
  kept := by
    intro seq above before _
    omega

theorem fill (keeps : Keeps capacity seqOf log floor next slots) {item : ρ}
    (number : seqOf item = next) :
    Keeps capacity seqOf log floor next
      (Function.update slots (next % capacity) (some item)) where
  increasing := keeps.increasing
  below := keeps.below
  kept := by
    intro seq above before near
    obtain ⟨found, member, numbered, held⟩ := keeps.kept seq above before near
    refine ⟨found, member, numbered, ?_⟩
    by_cases shared : seq % capacity = next % capacity
    · rw [shared, Function.update_self]
      exact .inr ⟨slot_shared before near shared, item, rfl, number⟩
    · rw [Function.update_of_ne shared]
      exact held

theorem count (keeps : Keeps capacity seqOf log floor next slots) {item : ρ}
    (number : seqOf item = next) (filled : slots (next % capacity) = some item) :
    Keeps capacity seqOf (log ++ [item]) floor (next + 1) slots where
  increasing := by
    refine List.pairwise_append.mpr ⟨keeps.increasing, List.pairwise_singleton _ _, ?_⟩
    intro earlier member last same
    rw [List.mem_singleton.mp same, number]
    exact keeps.below earlier member
  below := by
    intro other member
    rcases List.mem_append.mp member with earlier | last
    · exact Nat.lt_succ_of_lt (keeps.below other earlier)
    · rw [List.mem_singleton.mp last, number]
      exact Nat.lt_succ_self next
  kept := by
    intro seq above before near
    rcases Nat.lt_succ_iff_lt_or_eq.mp before with earlier | rfl
    · obtain ⟨found, member, numbered, held⟩ := keeps.kept seq above earlier (by omega)
      refine ⟨found, List.mem_append_left _ member, numbered, .inl ?_⟩
      rcases held with own | ⟨last, _⟩
      · exact own
      · omega
    · exact ⟨item, by simp, number, .inl filled⟩

/-- The oldest number in the ring is found, or the item that took its place is refused. -/
theorem find_oldest (keeps : Keeps capacity seqOf log floor next slots) {seq : Nat}
    (above : floor ≤ seq) (before : seq < next) (near : next ≤ seq + capacity) :
    ∃ item ∈ log, seqOf item = seq ∧ (find capacity seqOf slots seq = some item ∨
      seq + capacity = next ∧ find capacity seqOf slots seq = none) := by
  obtain ⟨item, member, number, held⟩ := keeps.kept seq above before near
  refine ⟨item, member, number, ?_⟩
  rcases held with own | ⟨oldest, newer, taken, other⟩
  · exact .inl (find_eq_some own number)
  · exact .inr ⟨oldest, find_eq_none taken (other ▸ Nat.ne_of_gt before)⟩

theorem find_recent (keeps : Keeps capacity seqOf log floor next slots) {seq : Nat}
    (above : floor ≤ seq) (before : seq < next) (near : next < seq + capacity) :
    ∃ item ∈ log, seqOf item = seq ∧ find capacity seqOf slots seq = some item := by
  obtain ⟨item, member, number, found | ⟨oldest, _⟩⟩ :=
    keeps.find_oldest above before (Nat.le_of_lt near)
  · exact ⟨item, member, number, found⟩
  · exact absurd oldest (Nat.ne_of_gt near)

theorem find_sound (keeps : Keeps capacity seqOf log floor next slots) {seq : Nat} {item : ρ}
    (above : floor ≤ seq) (before : seq < next) (near : next ≤ seq + capacity)
    (found : find capacity seqOf slots seq = some item) : item ∈ log ∧ seqOf item = seq := by
  obtain ⟨other, member, number, same | ⟨_, nothing⟩⟩ := keeps.find_oldest above before near
  · cases found.symm.trans same
    exact ⟨member, number⟩
  · cases found.symm.trans nothing

end Keeps

/-! ## Appends in a row -/

def fillAll (capacity : Nat) (seqOf : ρ → Nat) (slots : Nat → Option ρ) (items : List ρ) :
    Nat → Option ρ :=
  items.foldl (fun slots item => Function.update slots (seqOf item % capacity) (some item)) slots

def Consecutive (seqOf : ρ → Nat) (next : Nat) (items : List ρ) : Prop :=
  items.map seqOf = List.range' next items.length

/-- An item a capacity above has gone into the slot, in this row or as its torn beginning. -/
def Overwritten (capacity : Nat) (seqOf : ρ → Nat) (slots : Nat → Option ρ) (next : Nat)
    (items : List ρ) (seq : Nat) : Prop :=
  (∃ item ∈ items, seqOf item = seq + capacity) ∨
    seq + capacity = next ∧ ∃ newer, slots (seq % capacity) = some newer ∧ seqOf newer = next

section Row

variable {capacity : Nat} {seqOf : ρ → Nat} {next : Nat} {items : List ρ}

theorem fillAll_concat (slots : Nat → Option ρ) (item : ρ) :
    fillAll capacity seqOf slots (items ++ [item]) =
      Function.update (fillAll capacity seqOf slots items) (seqOf item % capacity) (some item) := by
  simp [fillAll]

theorem Consecutive.concat (consecutive : Consecutive seqOf next items) {item : ρ}
    (number : seqOf item = next + items.length) : Consecutive seqOf next (items ++ [item]) := by
  rw [Consecutive, List.map_append, consecutive, List.length_append, List.map_singleton, number,
    List.length_singleton, List.range'_concat, Nat.one_mul]

theorem Consecutive.cons {item : ρ} (consecutive : Consecutive seqOf next (item :: items)) :
    seqOf item = next ∧ Consecutive seqOf (next + 1) items := by
  rw [Consecutive, List.map_cons, List.length_cons, List.range'_succ] at consecutive
  exact List.cons.inj consecutive

theorem Consecutive.mem (consecutive : Consecutive seqOf next items) {item : ρ}
    (member : item ∈ items) : next ≤ seqOf item ∧ seqOf item < next + items.length := by
  have inside : seqOf item ∈ items.map seqOf := List.mem_map_of_mem member
  rw [consecutive, List.mem_range'_1] at inside
  exact inside

theorem Consecutive.exists (consecutive : Consecutive seqOf next items) {number : Nat}
    (above : next ≤ number) (below : number < next + items.length) :
    ∃ item ∈ items, seqOf item = number := by
  have inside : number ∈ items.map seqOf := by
    rw [consecutive, List.mem_range'_1]
    exact ⟨above, below⟩
  exact List.mem_map.mp inside

theorem Consecutive.increasing (consecutive : Consecutive seqOf next items) :
    items.Pairwise fun first second => seqOf first < seqOf second := by
  have ordered : (items.map seqOf).Pairwise (· < ·) := by
    rw [consecutive]
    exact List.pairwise_lt_range'
  exact List.pairwise_map.mp ordered

theorem Consecutive.last (consecutive : Consecutive seqOf next items) (nonempty : items ≠ []) :
    ∃ item, items.getLast? = some item ∧ seqOf item + 1 = next + items.length := by
  have positive : items.length ≠ 0 := fun zero => nonempty (List.length_eq_zero_iff.mp zero)
  have number : items.getLast?.map seqOf = some (next + items.length - 1) := by
    rw [← List.getLast?_map, consecutive, List.getLast?_range', if_neg positive]
  obtain ⟨item, last, value⟩ := Option.map_eq_some_iff.mp number
  exact ⟨item, last, by omega⟩

/-- A slot has what was there, or the last of the items that went into it. -/
theorem fillAll_cases (capacity : Nat) (slots : Nat → Option ρ)
    (increasing : items.Pairwise fun first second => seqOf first < seqOf second) (index : Nat) :
    (fillAll capacity seqOf slots items index = slots index ∧
      ∀ item ∈ items, seqOf item % capacity ≠ index) ∨
    ∃ item ∈ items, fillAll capacity seqOf slots items index = some item ∧
      seqOf item % capacity = index ∧
      ∀ other ∈ items, seqOf other % capacity = index → seqOf other ≤ seqOf item := by
  induction items using List.reverseRecOn with
  | nil => exact .inl ⟨rfl, by simp⟩
  | append_singleton items item ih =>
      obtain ⟨earlier, _, later⟩ := List.pairwise_append.mp increasing
      rw [fillAll_concat]
      by_cases here : seqOf item % capacity = index
      · refine .inr ⟨item, by simp, by rw [← here, Function.update_self], here, ?_⟩
        intro other member _
        rcases List.mem_append.mp member with before | last
        · exact Nat.le_of_lt (later other before item (by simp))
        · rw [List.mem_singleton.mp last]
      · rw [Function.update_of_ne (Ne.symm here)]
        rcases ih earlier with ⟨same, untouched⟩ | ⟨found, member, held, shared, most⟩
        · refine .inl ⟨same, fun other member => ?_⟩
          rcases List.mem_append.mp member with before | last
          · exact untouched other before
          · rwa [List.mem_singleton.mp last]
        · refine .inr ⟨found, List.mem_append_left _ member, held, shared, ?_⟩
          intro other inside slot
          rcases List.mem_append.mp inside with before | last
          · exact most other before slot
          · rw [List.mem_singleton.mp last] at slot
            exact absurd slot here

variable {log : List ρ} {floor : Nat} {slots : Nat → Option ρ}

theorem find_overwritten (positive : 0 < capacity) (consecutive : Consecutive seqOf next items)
    {seq : Nat} (overwritten : Overwritten capacity seqOf slots next items seq) :
    find capacity seqOf (fillAll capacity seqOf slots items) seq = none := by
  rcases fillAll_cases capacity slots consecutive.increasing (seq % capacity) with
    ⟨same, untouched⟩ | ⟨last, inside, held, _, most⟩
  · rcases overwritten with ⟨item, member, number⟩ | ⟨torn, newer, taken, number⟩
    · have shared : seqOf item % capacity = seq % capacity := by rw [number, Nat.add_mod_right]
      exact absurd shared (untouched item member)
    · exact find_eq_none (same.trans taken) (by omega)
  · apply find_eq_none held
    rcases overwritten with ⟨item, member, number⟩ | ⟨torn, _⟩
    · have shared : seqOf item % capacity = seq % capacity := by rw [number, Nat.add_mod_right]
      have order := most item member shared
      omega
    · have order := (consecutive.mem inside).1
      omega

theorem Keeps.find_kept (keeps : Keeps capacity seqOf log floor next slots)
    (consecutive : Consecutive seqOf next items) {seq : Nat} (above : floor ≤ seq)
    (near : next ≤ seq + capacity) (before : seq < next + items.length)
    (kept : ¬ Overwritten capacity seqOf slots next items seq) :
    ∃ item ∈ log ++ items, seqOf item = seq ∧
      find capacity seqOf (fillAll capacity seqOf slots items) seq = some item := by
  obtain ⟨unwritten, untorn⟩ := not_or.mp kept
  -- Nothing that went into the slot is newer than the number.
  have oldest : ∀ item ∈ items, seqOf item % capacity = seq % capacity → seqOf item ≤ seq := by
    intro item member shared
    by_contra newer
    have most : seqOf item ≤ seq + capacity := by
      by_contra beyond
      obtain ⟨other, inside, number⟩ := consecutive.exists near
        (Nat.lt_trans (Nat.lt_of_not_le beyond) (consecutive.mem member).2)
      exact unwritten ⟨other, inside, number⟩
    exact unwritten ⟨item, member,
      (slot_shared (Nat.lt_of_not_le newer) most shared.symm).symm⟩
  by_cases recent : next ≤ seq
  · obtain ⟨item, member, number⟩ := consecutive.exists recent before
    rcases fillAll_cases capacity slots consecutive.increasing (seq % capacity) with
      ⟨_, untouched⟩ | ⟨last, inside, held, shared, most⟩
    · exact absurd (congrArg (· % capacity) number) (untouched item member)
    · have least := most item member (congrArg (· % capacity) number)
      have own : seqOf last = seq :=
        Nat.le_antisymm (oldest last inside shared) (number ▸ least)
      exact ⟨last, List.mem_append_right _ inside, own, find_eq_some held own⟩
  · obtain ⟨item, member, number, held⟩ := keeps.kept seq above (Nat.lt_of_not_le recent) near
    refine ⟨item, List.mem_append_left _ member, number, ?_⟩
    rcases fillAll_cases capacity slots consecutive.increasing (seq % capacity) with
      ⟨same, _⟩ | ⟨last, inside, _, shared, _⟩
    · rcases held with own | torn
      · exact find_eq_some (same.trans own) number
      · exact absurd torn untorn
    · have late := (consecutive.mem inside).1
      have early := oldest last inside shared
      omega

end Row

end PresenceNode.Library.Ring
