import PresenceNode.Library.Ring

/-!
# A ring whose counter may fall back

A write puts an item into the slot of its number, and a later write may take
the number again: the counter that hands the numbers out is saved after the
item, the save may fail, and a restart goes back to what was saved.  An item is
booked when its counter was saved.  From there on only greater numbers are
handed out, none of them left out, so a booked item stays in its slot until an
item whose number is a capacity above its own takes it.
-/

namespace PresenceNode.Library.Ring

variable {ρ : Type} {capacity : Nat} {seqOf : ρ → Nat}

/-! ## Slots after any writes -/

theorem fillAll_append (slots : Nat → Option ρ) (first second : List ρ) :
    fillAll capacity seqOf slots (first ++ second) =
      fillAll capacity seqOf (fillAll capacity seqOf slots first) second :=
  List.foldl_append

/-- A slot has what was there, or the last of the items that went into it. -/
theorem fillAll_last (slots : Nat → Option ρ) (items : List ρ) (index : Nat) :
    (fillAll capacity seqOf slots items index = slots index ∧
      ∀ item ∈ items, seqOf item % capacity ≠ index) ∨
    ∃ before item after, items = before ++ item :: after ∧
      fillAll capacity seqOf slots items index = some item ∧ seqOf item % capacity = index ∧
      ∀ later ∈ after, seqOf later % capacity ≠ index := by
  induction items using List.reverseRecOn with
  | nil => exact .inl ⟨rfl, by simp⟩
  | append_singleton items last ih =>
      rw [fillAll_concat]
      by_cases here : seqOf last % capacity = index
      · exact .inr ⟨items, last, [], rfl, by rw [← here, Function.update_self], here, by simp⟩
      · rw [Function.update_of_ne (Ne.symm here)]
        rcases ih with ⟨same, untouched⟩ | ⟨before, item, after, rfl, held, shared, passed⟩
        · refine .inl ⟨same, fun item member => ?_⟩
          rcases List.mem_append.mp member with earlier | only
          · exact untouched item earlier
          · rwa [List.mem_singleton.mp only]
        · refine .inr ⟨before, item, after ++ [last], by simp, held, shared, fun later member => ?_⟩
          rcases List.mem_append.mp member with earlier | only
          · exact passed later earlier
          · rwa [List.mem_singleton.mp only]

/-! ## What comes after a booked item -/

/-- The writes after that of an item have every number above it up to the next and to theirs. -/
structure Climbs (seqOf : ρ → Nat) (item : ρ) (next : Nat) (after : List ρ) : Prop where
  newer : ∀ later ∈ after, seqOf item < seqOf later
  handed : ∀ number, seqOf item < number → number < next → ∃ later ∈ after, seqOf later = number
  gapless : ∀ number, seqOf item < number → ∀ later ∈ after, number ≤ seqOf later →
    ∃ other ∈ after, seqOf other = number

namespace Climbs

variable {item : ρ} {next : Nat} {after : List ρ}

theorem start (number : next = seqOf item + 1) : Climbs seqOf item next [] where
  newer := by simp
  handed := by
    intro number above before
    omega
  gapless := by simp

theorem back (climbs : Climbs seqOf item next after) {counted : Nat} (order : counted ≤ next) :
    Climbs seqOf item counted after where
  newer := climbs.newer
  handed := fun number above before =>
    climbs.handed number above (Nat.lt_of_lt_of_le before order)
  gapless := climbs.gapless

theorem write (climbs : Climbs seqOf item next after) {last : ρ} (number : seqOf last = next)
    (below : seqOf item < next) : Climbs seqOf item (next + 1) (after ++ [last]) where
  newer := by
    intro later member
    rcases List.mem_append.mp member with earlier | only
    · exact climbs.newer later earlier
    · rwa [List.mem_singleton.mp only, number]
  handed := by
    intro wanted above before
    rcases Nat.lt_succ_iff_lt_or_eq.mp before with earlier | rfl
    · obtain ⟨later, member, same⟩ := climbs.handed wanted above earlier
      exact ⟨later, List.mem_append_left _ member, same⟩
    · exact ⟨last, by simp, number⟩
  gapless := by
    intro wanted above later member most
    rcases List.mem_append.mp member with earlier | only
    · obtain ⟨other, inside, same⟩ := climbs.gapless wanted above later earlier most
      exact ⟨other, List.mem_append_left _ inside, same⟩
    · rw [List.mem_singleton.mp only, number] at most
      rcases Nat.lt_or_eq_of_le most with before | rfl
      · obtain ⟨other, inside, same⟩ := climbs.handed wanted above before
        exact ⟨other, List.mem_append_left _ inside, same⟩
      · exact ⟨last, by simp, number⟩

variable {slots : Nat → Option ρ}

/-- The slot of the item has it, or an item above it, and then one a capacity above was written. -/
theorem find_cases (climbs : Climbs seqOf item next after)
    (held : slots (seqOf item % capacity) = some item) :
    (find capacity seqOf (fillAll capacity seqOf slots after) (seqOf item) = some item ∧
      ∀ later ∈ after, seqOf later ≠ seqOf item + capacity) ∨
    (find capacity seqOf (fillAll capacity seqOf slots after) (seqOf item) = none ∧
      ∃ later ∈ after, seqOf later = seqOf item + capacity) := by
  rcases fillAll_last slots after (seqOf item % capacity) with
    ⟨same, untouched⟩ | ⟨before, newer, rest, split, filled, shared, _⟩
  · refine .inl ⟨find_eq_some (same.trans held) rfl, fun later member number => ?_⟩
    exact untouched later member (by rw [number, Nat.add_mod_right])
  · have member : newer ∈ after := by simp [split]
    have order := climbs.newer newer member
    rcases Nat.eq_zero_or_pos capacity with rfl | positive
    · rw [Nat.mod_zero, Nat.mod_zero] at shared
      omega
    · exact .inr ⟨find_eq_none filled (Nat.ne_of_gt order),
        climbs.gapless _ (Nat.lt_add_of_pos_right positive) newer member
          (slot_apart order shared.symm)⟩

/-- While nothing a capacity above the item was written, the counter has not passed that number. -/
theorem next_le (climbs : Climbs seqOf item next after) (positive : 0 < capacity)
    (kept : ∀ later ∈ after, seqOf later ≠ seqOf item + capacity) :
    next ≤ seqOf item + capacity := by
  by_contra beyond
  obtain ⟨later, member, number⟩ := climbs.handed (seqOf item + capacity)
    (Nat.lt_add_of_pos_right positive) (Nat.lt_of_not_le beyond)
  exact kept later member number

end Climbs

/-! ## Booked items -/

/--
The numbers above the floor that were handed out, and the booked items among
them, with the counter that was saved and the one that hands out.
-/
structure Ledger (seqOf : ρ → Nat) (written booked : List ρ) (floor counted next : Nat) :
    Prop where
  order : counted ≤ next
  increasing : booked.Pairwise fun first second => seqOf first < seqOf second
  below : ∀ item ∈ booked, seqOf item < counted
  kept : ∀ item ∈ booked, ∃ before after, written = before ++ item :: after ∧
    Climbs seqOf item next after
  placed : ∀ number, floor ≤ number → number < next → ∃ before item after,
    written = before ++ item :: after ∧ seqOf item = number ∧ Climbs seqOf item next after

namespace Ledger

variable {written booked : List ρ} {floor counted next : Nat}

theorem empty (order : counted ≤ next) (hidden : next ≤ floor) :
    Ledger seqOf ([] : List ρ) [] floor counted next where
  order := order
  increasing := List.Pairwise.nil
  below := by simp
  kept := by simp
  placed := by
    intro number above before
    omega

theorem back (ledger : Ledger seqOf written booked floor counted next) :
    Ledger seqOf written booked floor counted counted where
  order := Nat.le_refl counted
  increasing := ledger.increasing
  below := ledger.below
  kept := by
    intro item member
    obtain ⟨before, after, split, climbs⟩ := ledger.kept item member
    exact ⟨before, after, split, climbs.back ledger.order⟩
  placed := by
    intro number above earlier
    obtain ⟨before, item, after, split, same, climbs⟩ :=
      ledger.placed number above (Nat.lt_of_lt_of_le earlier ledger.order)
    exact ⟨before, item, after, split, same, climbs.back ledger.order⟩

theorem write (ledger : Ledger seqOf written booked floor counted next) {last : ρ}
    (number : seqOf last = next) :
    Ledger seqOf (written ++ [last]) booked floor counted (next + 1) where
  order := Nat.le_succ_of_le ledger.order
  increasing := ledger.increasing
  below := ledger.below
  kept := by
    intro item member
    obtain ⟨before, after, rfl, climbs⟩ := ledger.kept item member
    exact ⟨before, after ++ [last], by simp,
      climbs.write number (Nat.lt_of_lt_of_le (ledger.below item member) ledger.order)⟩
  placed := by
    intro wanted above most
    rcases Nat.lt_succ_iff_lt_or_eq.mp most with earlier | rfl
    · obtain ⟨before, item, after, rfl, same, climbs⟩ := ledger.placed wanted above earlier
      exact ⟨before, item, after ++ [last], by simp, same, climbs.write number (same ▸ earlier)⟩
    · exact ⟨written, last, [], rfl, number, Climbs.start (by rw [number])⟩

theorem book (ledger : Ledger seqOf written booked floor counted next) {last : ρ}
    (number : seqOf last = next) :
    Ledger seqOf (written ++ [last]) (booked ++ [last]) floor (next + 1) (next + 1) where
  order := Nat.le_refl _
  increasing := by
    refine List.pairwise_append.mpr ⟨ledger.increasing, List.pairwise_singleton _ _, ?_⟩
    intro earlier member only same
    rw [List.mem_singleton.mp same, number]
    exact Nat.lt_of_lt_of_le (ledger.below earlier member) ledger.order
  below := by
    intro item member
    rcases List.mem_append.mp member with earlier | only
    · exact Nat.lt_succ_of_lt (Nat.lt_of_lt_of_le (ledger.below item earlier) ledger.order)
    · rw [List.mem_singleton.mp only, number]
      exact Nat.lt_succ_self next
  kept := by
    intro item member
    rcases List.mem_append.mp member with earlier | only
    · exact (ledger.write number).kept item earlier
    · rw [List.mem_singleton.mp only]
      exact ⟨written, [], rfl, Climbs.start (by rw [number])⟩
  placed := (ledger.write number).placed

end Ledger

end PresenceNode.Library.Ring
