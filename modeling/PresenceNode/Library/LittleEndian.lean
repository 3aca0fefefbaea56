import Mathlib.Algebra.Group.Nat.Defs
import Mathlib.Data.List.Basic

/-!
# Little-endian words

A word is put together from its bytes by shifts and disjunctions, and taken
apart by shifts and truncation.  The numeric value of a word that is put
together is the sum of its bytes at their places, and from it both round trips
are arithmetic.
-/

namespace PresenceNode.Library.LittleEndian

def join16 (b0 b1 : UInt8) : UInt16 := b0.toUInt16 ||| (b1.toUInt16 <<< 8)

def join32 (b0 b1 b2 b3 : UInt8) : UInt32 :=
  b0.toUInt32 ||| (b1.toUInt32 <<< 8) ||| (b2.toUInt32 <<< 16) ||| (b3.toUInt32 <<< 24)

def bytes16 (word : UInt16) : List UInt8 := [word.toUInt8, (word >>> 8).toUInt8]

def bytes32 (word : UInt32) : List UInt8 :=
  [word.toUInt8, (word >>> 8).toUInt8, (word >>> 16).toUInt8, (word >>> 24).toUInt8]

@[simp] theorem bytes16_length (word : UInt16) : (bytes16 word).length = 2 := rfl

/-- Disjunction with a part shifted beyond the other one is addition. -/
theorem or_shiftLeft {low : Nat} (high shift : Nat) (bound : low < 2 ^ shift) :
    low ||| high <<< shift = low + high * 2 ^ shift := by
  rw [Nat.or_comm, ← Nat.shiftLeft_add_eq_or_of_lt bound, Nat.shiftLeft_eq, Nat.add_comm]

theorem join16_toNat (b0 b1 : UInt8) : (join16 b0 b1).toNat = b0.toNat + b1.toNat * 2 ^ 8 := by
  have low := b0.toNat_lt
  have high := b1.toNat_lt
  have shifted : (b1.toUInt16 <<< 8).toNat = b1.toNat <<< 8 := by
    rw [UInt16.toNat_shiftLeft, UInt8.toNat_toUInt16, Nat.shiftLeft_eq]
    change b1.toNat * 2 ^ 8 % 2 ^ 16 = _
    rw [Nat.shiftLeft_eq, Nat.mod_eq_of_lt (by omega)]
  rw [join16, UInt16.toNat_or, shifted, UInt8.toNat_toUInt16, or_shiftLeft _ 8 low]

theorem byte_shiftLeft_toNat (byte : UInt8) {shift : UInt32} (bound : shift.toNat ≤ 24) :
    (byte.toUInt32 <<< shift).toNat = byte.toNat <<< shift.toNat := by
  have small := byte.toNat_lt
  have power : 2 ^ shift.toNat ≤ 2 ^ 24 := Nat.pow_le_pow_right (by decide) bound
  have fits : byte.toNat * 2 ^ shift.toNat < 2 ^ 32 :=
    calc byte.toNat * 2 ^ shift.toNat
        ≤ 255 * 2 ^ 24 := Nat.mul_le_mul (by omega) power
      _ < 2 ^ 32 := by decide
  rw [UInt32.toNat_shiftLeft, UInt8.toNat_toUInt32, Nat.mod_eq_of_lt (by omega : shift.toNat < 32),
    Nat.shiftLeft_eq, Nat.mod_eq_of_lt fits]

theorem join32_toNat (b0 b1 b2 b3 : UInt8) :
    (join32 b0 b1 b2 b3).toNat =
      b0.toNat + b1.toNat * 2 ^ 8 + b2.toNat * 2 ^ 16 + b3.toNat * 2 ^ 24 := by
  have bound0 := b0.toNat_lt
  have bound1 := b1.toNat_lt
  have bound2 := b2.toNat_lt
  rw [join32, UInt32.toNat_or, UInt32.toNat_or, UInt32.toNat_or,
    byte_shiftLeft_toNat b1 (by decide), byte_shiftLeft_toNat b2 (by decide),
    byte_shiftLeft_toNat b3 (by decide), UInt8.toNat_toUInt32]
  change b0.toNat ||| b1.toNat <<< 8 ||| b2.toNat <<< 16 ||| b3.toNat <<< 24 = _
  have two : b0.toNat + b1.toNat * 2 ^ 8 < 2 ^ 16 := by omega
  have three : b0.toNat + b1.toNat * 2 ^ 8 + b2.toNat * 2 ^ 16 < 2 ^ 24 := by omega
  rw [or_shiftLeft _ 8 bound0, or_shiftLeft _ 16 two, or_shiftLeft _ 24 three]

theorem byte16_toNat (word : UInt16) :
    word.toUInt8.toNat = word.toNat % 2 ^ 8 ∧ (word >>> 8).toUInt8.toNat = word.toNat / 2 ^ 8 := by
  have bound := word.toNat_lt
  constructor
  · rw [UInt16.toNat_toUInt8]
  · rw [UInt16.toNat_toUInt8, UInt16.toNat_shiftRight, Nat.shiftRight_eq_div_pow]
    exact Nat.mod_eq_of_lt (by change word.toNat / 2 ^ 8 < _; omega)

theorem join16_bytes (word : UInt16) : join16 word.toUInt8 (word >>> 8).toUInt8 = word := by
  apply UInt16.toNat_inj.mp
  obtain ⟨low, high⟩ := byte16_toNat word
  rw [join16_toNat, low, high]
  omega

theorem byte32_toNat (word : UInt32) {shift : UInt32} (bound : shift.toNat < 32) :
    (word >>> shift).toUInt8.toNat = word.toNat / 2 ^ shift.toNat % 2 ^ 8 := by
  rw [UInt32.toNat_toUInt8, UInt32.toNat_shiftRight, Nat.mod_eq_of_lt bound,
    Nat.shiftRight_eq_div_pow]

theorem join32_bytes (word : UInt32) :
    join32 word.toUInt8 (word >>> 8).toUInt8 (word >>> 16).toUInt8 (word >>> 24).toUInt8 = word := by
  apply UInt32.toNat_inj.mp
  have bound := word.toNat_lt
  rw [join32_toNat, UInt32.toNat_toUInt8, byte32_toNat word (by decide),
    byte32_toNat word (by decide), byte32_toNat word (by decide)]
  change word.toNat % 2 ^ 8 + word.toNat / 2 ^ 8 % 2 ^ 8 * 2 ^ 8 +
    word.toNat / 2 ^ 16 % 2 ^ 8 * 2 ^ 16 + word.toNat / 2 ^ 24 % 2 ^ 8 * 2 ^ 24 = word.toNat
  omega

theorem low_byte (word : UInt16) : (word &&& 0xFF).toUInt8 = word.toUInt8 := by
  apply UInt8.toNat_inj.mp
  have mask : word.toNat &&& 255 = word.toNat % 2 ^ 8 := Nat.and_two_pow_sub_one_eq_mod _ 8
  rw [UInt16.toNat_toUInt8, UInt16.toNat_and, UInt16.toNat_toUInt8]
  change (word.toNat &&& 255) % 2 ^ 8 = _
  rw [mask, Nat.mod_mod]

/-! ## Words in a list of bytes -/

def read16 (bytes : List UInt8) (offset : Nat) : Option UInt16 := do
  let b0 ← bytes[offset]?
  let b1 ← bytes[offset + 1]?
  some (join16 b0 b1)

def read32 (bytes : List UInt8) (offset : Nat) : Option UInt32 := do
  let b0 ← bytes[offset]?
  let b1 ← bytes[offset + 1]?
  let b2 ← bytes[offset + 2]?
  let b3 ← bytes[offset + 3]?
  some (join32 b0 b1 b2 b3)

theorem read16_append {bytes : List UInt8} {offset : Nat} {word : UInt16}
    (found : read16 bytes offset = some word) (more : List UInt8) :
    read16 (bytes ++ more) offset = some word := by
  obtain ⟨low, _, rest⟩ := Option.bind_eq_some_iff.mp found
  obtain ⟨high, there, _⟩ := Option.bind_eq_some_iff.mp rest
  have second : offset + 1 < bytes.length := (List.getElem?_eq_some_iff.mp there).1
  have first : offset < bytes.length := by omega
  rw [← found]
  simp only [read16, List.getElem?_append_left first, List.getElem?_append_left second]

theorem read32_drop (object : List UInt8) (start offset : Nat) :
    read32 (object.drop start) offset = read32 object (start + offset) := by
  simp only [read32, List.getElem?_drop, Nat.add_assoc]

theorem read32_append (bytes more : List UInt8) {offset : Nat}
    (inside : offset + 4 ≤ bytes.length) :
    read32 (bytes ++ more) offset = read32 bytes offset := by
  have first : offset < bytes.length := by omega
  have second : offset + 1 < bytes.length := by omega
  have third : offset + 2 < bytes.length := by omega
  have fourth : offset + 3 < bytes.length := by omega
  simp only [read32, List.getElem?_append_left first, List.getElem?_append_left second,
    List.getElem?_append_left third, List.getElem?_append_left fourth]

theorem read16_defined {bytes : List UInt8} {offset : Nat} (inside : offset + 2 ≤ bytes.length) :
    ∃ word, read16 bytes offset = some word := by
  have byte : ∀ index, offset ≤ index → index < offset + 2 → ∃ value, bytes[index]? = some value :=
    fun index _ last => ⟨_, List.getElem?_eq_getElem (by omega)⟩
  obtain ⟨b0, h0⟩ := byte offset (by omega) (by omega)
  obtain ⟨b1, h1⟩ := byte (offset + 1) (by omega) (by omega)
  exact ⟨join16 b0 b1, by simp [read16, h0, h1]⟩

theorem read32_defined {bytes : List UInt8} {offset : Nat} (inside : offset + 4 ≤ bytes.length) :
    ∃ word, read32 bytes offset = some word := by
  have first : offset < bytes.length := by omega
  have second : offset + 1 < bytes.length := by omega
  have third : offset + 2 < bytes.length := by omega
  have fourth : offset + 3 < bytes.length := by omega
  simp only [read32, List.getElem?_eq_getElem first, List.getElem?_eq_getElem second,
    List.getElem?_eq_getElem third, List.getElem?_eq_getElem fourth]
  exact ⟨_, rfl⟩

theorem read16_bytes (before after : List UInt8) (word : UInt16) :
    read16 (before ++ (bytes16 word ++ after)) before.length = some word := by
  simp [read16, bytes16, join16_bytes]

theorem read32_bytes (before after : List UInt8) (word : UInt32) :
    read32 (before ++ (bytes32 word ++ after)) before.length = some word := by
  simp [read32, bytes32, join32_bytes]

@[simp] theorem bytes32_length (word : UInt32) : (bytes32 word).length = 4 := rfl

theorem flatMap_bytes32_length (words : List UInt32) :
    (words.flatMap bytes32).length = 4 * words.length := by
  rw [List.length_flatMap]
  simp [Nat.mul_comm]

theorem read32_words (before after : List UInt8) {words : List UInt32} {k : Nat}
    (inside : k < words.length) :
    read32 (before ++ (words.flatMap bytes32 ++ after)) (before.length + 4 * k) =
      some words[k] := by
  have earlier : (before ++ (words.take k).flatMap bytes32).length = before.length + 4 * k := by
    rw [List.length_append, flatMap_bytes32_length, List.length_take,
      Nat.min_eq_left (Nat.le_of_lt inside)]
  have parts : words.flatMap bytes32 =
      (words.take k).flatMap bytes32 ++
        (bytes32 words[k] ++ (words.drop (k + 1)).flatMap bytes32) := by
    rw [← List.flatMap_cons, ← List.drop_eq_getElem_cons inside, ← List.flatMap_append,
      List.take_append_drop]
  have split : before ++ (words.flatMap bytes32 ++ after) =
      (before ++ (words.take k).flatMap bytes32) ++
        (bytes32 words[k] ++ ((words.drop (k + 1)).flatMap bytes32 ++ after)) := by
    rw [parts, List.append_assoc, List.append_assoc, List.append_assoc]
  rw [← earlier, split]
  exact read32_bytes _ _ _

end PresenceNode.Library.LittleEndian
