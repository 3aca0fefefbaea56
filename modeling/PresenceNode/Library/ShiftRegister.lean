import Mathlib.Algebra.Ring.Parity
import Mathlib.Logic.Function.Iterate

/-!
# Shift registers that reduce by a polynomial

A register takes its input one bit at a time.  The bit that leaves it at the
top, against the bit that it takes, decides whether the polynomial is added, so
that a step is linear in the state and the input together.  With an odd
polynomial a step forgets nothing of the state, and a polynomial with an odd
number of bits keeps the parity of everything that was taken.
-/

namespace PresenceNode.Library.ShiftRegister

variable {w : Nat}

def feed (poly state : BitVec w) (bit : Bool) : BitVec w :=
  if state.msb ^^ bit then (state <<< 1) ^^^ poly else state <<< 1

def feedAll (poly state : BitVec w) (bits : List Bool) : BitVec w := bits.foldl (feed poly) state

def leading (word : BitVec w) (n : Nat) : List Bool := (List.range n).map word.getMsbD

@[simp] theorem leading_length (word : BitVec w) (n : Nat) : (leading word n).length = n := by
  simp [leading]

theorem leading_succ (word : BitVec w) (n : Nat) :
    leading word (n + 1) = word.msb :: leading (word <<< 1) n := by
  rw [leading, List.range_succ_eq_map, List.map_cons, List.map_map, BitVec.msb_eq_getMsbD_zero]
  congr 1
  apply List.map_congr_left
  intro k _
  exact (BitVec.getMsbD_shiftLeft word 1).symm

@[simp] theorem feedAll_nil (poly state : BitVec w) : feedAll poly state [] = state := rfl

@[simp] theorem feedAll_cons (poly state : BitVec w) (bit : Bool) (rest : List Bool) :
    feedAll poly state (bit :: rest) = feedAll poly (feed poly state bit) rest := rfl

theorem feedAll_append (poly state : BitVec w) (first second : List Bool) :
    feedAll poly state (first ++ second) = feedAll poly (feedAll poly state first) second :=
  List.foldl_append

/-! ## Linearity -/

theorem feed_eq (poly state : BitVec w) (bit : Bool) :
    feed poly state bit = (state <<< 1) ^^^ (if state.msb ^^ bit then poly else 0#w) := by
  rw [feed]
  split
  · rfl
  · exact BitVec.xor_zero.symm

theorem feed_xor (poly first second : BitVec w) (a b : Bool) :
    feed poly (first ^^^ second) (a ^^ b) = feed poly first a ^^^ feed poly second b := by
  have bits : ((first ^^^ second).msb ^^ (a ^^ b)) = ((first.msb ^^ a) ^^ (second.msb ^^ b)) := by
    rw [BitVec.msb_xor, Bool.xor_assoc, Bool.xor_assoc, Bool.xor_left_comm second.msb]
  have picks : ∀ c d : Bool, (if c ^^ d then poly else 0#w) =
      (if c then poly else 0#w) ^^^ (if d then poly else 0#w) := by
    intro c d
    cases c <;> cases d <;> simp
  rw [feed_eq, feed_eq, feed_eq, bits, picks, BitVec.shiftLeft_xor_distrib]
  ac_rfl

theorem feedAll_xor (poly first second : BitVec w) {a b : List Bool}
    (same : a.length = b.length) :
    feedAll poly (first ^^^ second) (a.zipWith xor b) =
      feedAll poly first a ^^^ feedAll poly second b := by
  induction a generalizing b first second with
  | nil =>
      cases List.length_eq_zero_iff.mp same.symm
      rfl
  | cons bit rest ih =>
      cases b with
      | nil => cases same
      | cons other tail =>
          rw [List.zipWith_cons_cons, feedAll_cons, feed_xor]
          exact ih _ _ (Nat.succ.inj same)

/-- Turning the register on a word at its top takes the bits of the word. -/
theorem iterate_feed (poly state word : BitVec w) (n : Nat) :
    (fun register => feed poly register false)^[n] (state ^^^ word) =
      feedAll poly state (leading word n) ^^^ (word <<< n) := by
  induction n generalizing state word with
  | zero => simp [leading]
  | succ n ih =>
      have itself : feed poly word word.msb = word <<< 1 := by simp [feed]
      have turn : feed poly (state ^^^ word) false =
          feed poly state word.msb ^^^ (word <<< 1) := by
        rw [← itself, ← feed_xor, Bool.xor_self]
      rw [Function.iterate_succ_apply, turn, ih, leading_succ, feedAll_cons, Nat.add_comm n 1,
        BitVec.shiftLeft_add]

/-! ## Nothing is forgotten -/

/-- The last bit of the register says whether an odd polynomial was added. -/
theorem feed_getMsbD_last {poly : BitVec w} (odd : poly.getLsbD 0 = true) (state : BitVec w)
    (bit : Bool) : (feed poly state bit).getMsbD (w - 1) = (state.msb ^^ bit) := by
  have wide : 0 < w := Nat.pos_of_ne_zero fun zero => by
    subst zero
    simp at odd
  have bottom : poly.getMsbD (w - 1) = true := by
    rw [BitVec.getMsbD_eq_getLsbD, decide_eq_true (Nat.sub_lt wide Nat.one_pos), Nat.sub_self, odd]
    rfl
  have shifted : (state <<< 1).getMsbD (w - 1) = false := by
    rw [BitVec.getMsbD_shiftLeft]
    exact BitVec.getMsbD_of_ge state _ (by omega)
  rw [feed_eq, BitVec.getMsbD_xor, shifted, Bool.false_xor]
  split
  · next added => rw [bottom, added]
  · next kept => rw [BitVec.getMsbD_zero, Bool.eq_false_iff.mpr kept]

/--
A register that is zero after at most as many bits as it has held exactly these
bits, at its top.
-/
theorem getMsbD_of_feedAll {poly : BitVec w} (odd : poly.getLsbD 0 = true) {bits : List Bool}
    (short : bits.length ≤ w) {state : BitVec w} (zero : feedAll poly state bits = 0#w) (k : Nat) :
    state.getMsbD k = bits[k]?.getD false := by
  induction bits generalizing state k with
  | nil =>
      rw [feedAll_nil] at zero
      rw [zero]
      exact BitVec.getMsbD_zero
  | cons bit rest ih =>
      rw [List.length_cons] at short
      have after := ih (Nat.le_of_succ_le short) zero
      -- The rest is too short to reach the last bit, so nothing was added.
      have kept : (state.msb ^^ bit) = false := by
        rw [← feed_getMsbD_last odd, after,
          List.getElem?_eq_none (by omega : rest.length ≤ w - 1)]
        rfl
      cases k with
      | zero =>
          rw [← BitVec.msb_eq_getMsbD_zero]
          exact bne_eq_false_iff_eq.mp kept
      | succ k =>
          rw [← BitVec.getMsbD_shiftLeft state 1, List.getElem?_cons_succ, ← after k, feed_eq, kept]
          simp

theorem feedAll_injective {poly : BitVec w} (odd : poly.getLsbD 0 = true) {first second : BitVec w}
    {bits : List Bool} (same : feedAll poly first bits = feedAll poly second bits) :
    first = second := by
  have wide : 0 < w := Nat.pos_of_ne_zero fun zero => by
    subst zero
    simp at odd
  induction bits generalizing first second with
  | nil => exact same
  | cons bit rest ih =>
      have stepped := ih same
      have zero : feedAll poly (first ^^^ second) [false] = 0#w := by
        rw [feedAll_cons, feedAll_nil, ← Bool.xor_self bit, feed_xor, stepped, BitVec.xor_self]
      apply BitVec.xor_eq_zero_iff.mp
      apply BitVec.eq_of_getMsbD_eq
      intro k _
      rw [getMsbD_of_feedAll odd (show [false].length ≤ w from wide) zero]
      cases k with
      | zero => simp
      | succ k => simp

/-- Different inputs that are no longer than the register leave different states. -/
theorem feedAll_inputs_injective {poly : BitVec w} (odd : poly.getLsbD 0 = true)
    {state : BitVec w} {a b : List Bool} (lengths : a.length = b.length) (short : a.length ≤ w)
    (same : feedAll poly state a = feedAll poly state b) : a = b := by
  have zero : feedAll poly 0#w (a.zipWith xor b) = 0#w := by
    have linear := feedAll_xor poly state state lengths
    rw [BitVec.xor_self, same, BitVec.xor_self] at linear
    exact linear
  have size : (a.zipWith xor b).length ≤ w := by
    rw [List.length_zipWith]
    omega
  apply List.ext_getElem lengths
  intro k insideA insideB
  have quiet := getMsbD_of_feedAll odd size zero k
  have found : (a.zipWith xor b)[k]? = some (a[k] ^^ b[k]) := by
    rw [List.getElem?_eq_getElem (by rw [List.length_zipWith]; omega), List.getElem_zipWith]
  have bits : (a[k] ^^ b[k]) = false := by
    rw [found] at quiet
    exact quiet.symm.trans BitVec.getMsbD_zero
  exact bne_eq_false_iff_eq.mp bits

/-! ## Errors -/

def differing (a b : List Bool) : List Nat :=
  (List.range a.length).filter fun k => a[k]? ≠ b[k]?

theorem mem_differing {a b : List Bool} (lengths : a.length = b.length) {k : Nat} :
    k ∈ differing a b ↔ a[k]? ≠ b[k]? := by
  simp only [differing, List.mem_filter, List.mem_range, decide_eq_true_eq, and_iff_right_iff_imp]
  intro distinct
  refine Nat.lt_of_not_le fun past => distinct ?_
  rw [List.getElem?_eq_none past, List.getElem?_eq_none (lengths ▸ past)]

/-- An error inside as many places as the register has changes the state. -/
theorem feedAll_burst {poly : BitVec w} (odd : poly.getLsbD 0 = true) {a b : List Bool}
    (lengths : a.length = b.length) (distinct : a ≠ b) {start : Nat}
    (burst : ∀ k ∈ differing a b, start ≤ k ∧ k < start + w) (state : BitVec w) :
    feedAll poly state a ≠ feedAll poly state b := by
  have agree : ∀ k, (k < start ∨ start + w ≤ k) → a[k]? = b[k]? := by
    intro k outside
    by_contra other
    have inside := burst k ((mem_differing lengths).mpr other)
    omega
  have before : a.take start = b.take start := by
    apply List.ext_getElem?
    intro k
    rw [List.getElem?_take, List.getElem?_take]
    split
    · next early => exact agree k (.inl early)
    · rfl
  have after : (a.drop start).drop w = (b.drop start).drop w := by
    apply List.ext_getElem?
    intro k
    rw [List.getElem?_drop, List.getElem?_drop, List.getElem?_drop, List.getElem?_drop]
    exact agree _ (.inr (by omega))
  intro same
  rw [← List.take_append_drop start a, ← List.take_append_drop start b, before,
    feedAll_append, feedAll_append] at same
  rw [← List.take_append_drop w (a.drop start), ← List.take_append_drop w (b.drop start), after,
    feedAll_append, feedAll_append] at same
  have middle : (a.drop start).take w = (b.drop start).take w :=
    feedAll_inputs_injective odd (by simp [lengths]) (List.length_take_le w _)
      (feedAll_injective odd same)
  apply distinct
  rw [← List.take_append_drop start a, ← List.take_append_drop w (a.drop start), before, middle,
    after, List.take_append_drop, List.take_append_drop]

theorem feed_zero (poly : BitVec w) : feed poly 0#w false = 0#w := by simp [feed]

/-- The register is zero exactly if the last word that it takes is the one that it held. -/
theorem feedAll_leading_eq_zero {poly : BitVec w} (odd : poly.getLsbD 0 = true)
    {state word : BitVec w} : feedAll poly state (leading word w) = 0#w ↔ state = word := by
  have pushed := iterate_feed poly state word w
  rw [BitVec.shiftLeft_eq_zero (Nat.le_refl w), BitVec.xor_zero] at pushed
  constructor
  · intro zero
    apply BitVec.eq_of_getMsbD_eq
    intro k inside
    rw [getMsbD_of_feedAll odd (Nat.le_of_eq (leading_length word w)) zero, leading,
      List.getElem?_map, List.getElem?_range inside]
    rfl
  · rintro rfl
    rw [← pushed, BitVec.xor_self]
    exact Function.iterate_fixed (f := fun register => feed poly register false)
      (feed_zero poly) w

theorem feedAll_zeros (poly : BitVec w) (n : Nat) :
    feedAll poly 0#w (List.replicate n false) = 0#w := by
  induction n with
  | zero => rfl
  | succ n ih => rw [List.replicate_succ, feedAll_cons, feed_zero, ih]

theorem xor_of_two {a b : List Bool} (lengths : a.length = b.length) {i j : Nat}
    (order : i < j) (inside : j < a.length) (places : ∀ k, k ∈ differing a b ↔ k = i ∨ k = j) :
    a.zipWith xor b = List.replicate i false ++
      (true :: List.replicate (j - i - 1) false ++ [true]) ++
      List.replicate (a.length - j - 1) false := by
  have size : (a.zipWith xor b).length = a.length := by
    rw [List.length_zipWith, ← lengths, Nat.min_self]
  apply List.ext_getElem
  · simp [size]
    omega
  · intro k first second
    rw [List.getElem_zipWith]
    have inA : k < a.length := size ▸ first
    have inB : k < b.length := lengths ▸ inA
    have flips : (a[k] ^^ b[k]) = decide (k = i ∨ k = j) := by
      rw [Bool.eq_iff_iff, decide_eq_true_iff, ← places, mem_differing lengths,
        List.getElem?_eq_getElem inA, List.getElem?_eq_getElem inB]
      simp
    rw [flips]
    simp only [List.getElem_append, List.length_append, List.length_replicate, List.length_cons,
      List.getElem_cons, List.getElem_replicate, List.length_nil]
    grind

/--
An error at two places changes the state, if the register tells two ones at
every distance inside the input apart.
-/
theorem feedAll_two {poly : BitVec w} (odd : poly.getLsbD 0 = true) {a b : List Bool}
    (lengths : a.length = b.length) (two : (differing a b).length = 2)
    (apart : ∀ gap < a.length - 1,
      feedAll poly 0#w (true :: List.replicate gap false ++ [true]) ≠ 0#w)
    (state : BitVec w) : feedAll poly state a ≠ feedAll poly state b := by
  obtain ⟨i, j, found⟩ : ∃ i j, differing a b = [i, j] := by
    match differing a b, two with
    | [i, j], _ => exact ⟨i, j, rfl⟩
  have sorted : (differing a b).Pairwise (· < ·) := List.pairwise_lt_range.filter _
  have order : i < j := by simpa [found] using sorted
  have places : ∀ k, k ∈ differing a b ↔ k = i ∨ k = j := by simp [found]
  have inside : j < a.length := by
    have member : j ∈ differing a b := (places j).mpr (.inr rfl)
    exact List.mem_range.mp (List.mem_filter.mp member).1
  intro same
  have zero : feedAll poly 0#w (a.zipWith xor b) = 0#w := by
    have linear := feedAll_xor poly state state lengths
    rw [BitVec.xor_self, same, BitVec.xor_self] at linear
    exact linear
  -- The zeros before the error do nothing, and those after it forget nothing.
  rw [xor_of_two lengths order inside places, feedAll_append, feedAll_append, feedAll_zeros]
    at zero
  have empty := zero.trans (feedAll_zeros poly (a.length - j - 1)).symm
  exact apart (j - i - 1) (by omega) (feedAll_injective odd empty)

/-! ## Parity -/

def parity (bits : List Bool) : Bool := bits.foldr xor false

@[simp] theorem parity_nil : parity [] = false := rfl

@[simp] theorem parity_cons (bit : Bool) (rest : List Bool) :
    parity (bit :: rest) = (bit ^^ parity rest) := rfl

theorem parity_append (first second : List Bool) :
    parity (first ++ second) = (parity first ^^ parity second) := by
  induction first with
  | nil => simp
  | cons bit rest ih => rw [List.cons_append, parity_cons, ih, parity_cons, Bool.xor_assoc]

theorem parity_map_xor {ι : Type} (places : List ι) (first second : ι → Bool) :
    parity (places.map fun place => first place ^^ second place) =
      (parity (places.map first) ^^ parity (places.map second)) := by
  induction places with
  | nil => rfl
  | cons place rest ih =>
      simp only [List.map_cons, parity_cons, ih]
      rw [Bool.xor_assoc, Bool.xor_assoc, Bool.xor_left_comm (second place)]

theorem parity_leading_xor (first second : BitVec w) (n : Nat) :
    parity (leading (first ^^^ second) n) =
      (parity (leading first n) ^^ parity (leading second n)) := by
  rw [leading, leading, leading, ← parity_map_xor]
  congr 1
  exact List.map_congr_left fun k _ => BitVec.getMsbD_xor

theorem parity_shift (state : BitVec w) :
    parity (leading (state <<< 1) w) = (state.msb ^^ parity (leading state w)) := by
  cases w with
  | zero => simp [leading, BitVec.msb_eq_getMsbD_zero]
  | succ n =>
      have lost : (state <<< 1).getMsbD n = false := by
        rw [BitVec.getMsbD_shiftLeft]
        exact BitVec.getMsbD_of_ge state _ (Nat.le_refl _)
      have grown : leading (state <<< 1) (n + 1) = leading (state <<< 1) n ++ [false] := by
        rw [leading, List.range_succ, List.map_append, List.map_singleton, lost, ← leading]
      rw [grown, parity_append, leading_succ, parity_cons state.msb, ← Bool.xor_assoc state.msb,
        Bool.xor_self]
      simp

/-- The register has the parity of what it took, if the polynomial has an odd number of bits. -/
theorem parity_feedAll {poly : BitVec w} (weight : parity (leading poly w) = true)
    (state : BitVec w) (bits : List Bool) :
    parity (leading (feedAll poly state bits) w) = (parity (leading state w) ^^ parity bits) := by
  induction bits generalizing state with
  | nil => exact (Bool.xor_false _).symm
  | cons bit rest ih =>
      have step : parity (leading (feed poly state bit) w) =
          (parity (leading state w) ^^ bit) := by
        rw [feed]
        cases out : state.msb <;> cases bit <;>
          simp [out, parity_leading_xor, parity_shift, weight]
      rw [feedAll_cons, ih, step, Bool.xor_assoc, parity_cons]

/-- The parities differ exactly if the inputs differ at an odd number of places. -/
theorem odd_differing_iff {a b : List Bool} (lengths : a.length = b.length) :
    Odd (differing a b).length ↔ parity a ≠ parity b := by
  induction a generalizing b with
  | nil =>
      cases List.length_eq_zero_iff.mp lengths.symm
      simp [differing]
  | cons bit rest ih =>
      cases b with
      | nil => cases lengths
      | cons other tail =>
          have tails := ih (Nat.succ.inj lengths)
          have count : (differing (bit :: rest) (other :: tail)).length =
              (differing rest tail).length + if bit ≠ other then 1 else 0 := by
            rw [differing, List.length_cons, List.range_succ_eq_map, List.filter_cons,
              List.filter_map, differing]
            by_cases equal : bit = other
            · simp [equal, Function.comp_def]
            · simp [equal, Function.comp_def]
          rw [count, parity_cons, parity_cons]
          by_cases equal : bit = other
          · simp [equal, tails]
          · have flipped : bit = !other := by
              cases bit <;> cases other <;> simp_all
            rw [if_pos equal, Nat.odd_add_one, tails, flipped]
            cases other <;> cases parity rest <;> cases parity tail <;> simp

/-- An error at an odd number of places changes the state. -/
theorem feedAll_odd {poly : BitVec w} (weight : parity (leading poly w) = true) {a b : List Bool}
    (lengths : a.length = b.length) (many : Odd (differing a b).length) (state : BitVec w) :
    feedAll poly state a ≠ feedAll poly state b := by
  intro same
  have parities := parity_feedAll weight state a
  rw [same, parity_feedAll weight] at parities
  exact (odd_differing_iff lengths).mp many (Bool.xor_right_inj.mp parities).symm

end PresenceNode.Library.ShiftRegister
