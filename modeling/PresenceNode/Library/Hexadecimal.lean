import Mathlib.Data.Nat.Digits.Lemmas

/-!
# Numbers in capital hexadecimal digits

A number is printed with its most significant digit first, padded with zeros
to a least width, and read back digit by digit.
-/

namespace PresenceNode.Library.Hexadecimal

def digit (value : Nat) : UInt8 := UInt8.ofNat (if value < 10 then 0x30 + value else 0x37 + value)

def digitValue (character : UInt8) : Option Nat :=
  if 0x30 ≤ character ∧ character ≤ 0x39 then some (character.toNat - 0x30)
  else if 0x41 ≤ character ∧ character ≤ 0x46 then some (character.toNat - 0x37)
  else none

def printed (width value : Nat) : List UInt8 :=
  ((Nat.digits 16 value).reverse.map digit).leftpad width 0x30

def readFrom (value : Nat) : List UInt8 → Option Nat
  | [] => some value
  | character :: rest => (digitValue character).bind fun next => readFrom (16 * value + next) rest

def read (text : List UInt8) : Option Nat := readFrom 0 text

theorem digitValue_digit {value : Nat} (small : value < 16) :
    digitValue (digit value) = some value := by
  interval_cases value <;> decide

theorem readFrom_append (value : Nat) (first second : List UInt8) :
    readFrom value (first ++ second) =
      (readFrom value first).bind fun next => readFrom next second := by
  induction first generalizing value with
  | nil => rfl
  | cons character rest ih =>
      rw [List.cons_append, readFrom, readFrom]
      cases digitValue character with
      | none => rfl
      | some next => exact ih _

theorem readFrom_digits {digits : List Nat} (small : ∀ value ∈ digits, value < 16) (value : Nat) :
    readFrom value (digits.reverse.map digit) =
      some (value * 16 ^ digits.length + Nat.ofDigits 16 digits) := by
  induction digits with
  | nil => simp [readFrom, Nat.ofDigits]
  | cons last rest ih =>
      rw [List.reverse_cons, List.map_append, readFrom_append,
        ih fun other member => small other (List.mem_cons_of_mem _ member), Option.bind_some,
        List.map_singleton, readFrom, digitValue_digit (small last (List.mem_cons_self ..)),
        Option.bind_some, readFrom, Nat.ofDigits_cons, List.length_cons, Nat.pow_succ]
      congr 1
      ring

theorem readFrom_zeros (count : Nat) (rest : List UInt8) :
    readFrom 0 (List.replicate count 0x30 ++ rest) = readFrom 0 rest := by
  induction count with
  | zero => rfl
  | succ count ih =>
      rw [List.replicate_succ, List.cons_append, readFrom]
      exact ih

theorem read_printed (width value : Nat) : read (printed width value) = some value := by
  have small : ∀ other ∈ Nat.digits 16 value, other < 16 :=
    fun _ member => Nat.digits_lt_base (by decide) member
  rw [read, printed, List.leftpad, readFrom_zeros, readFrom_digits small, Nat.zero_mul,
    Nat.zero_add, Nat.ofDigits_digits]

theorem printed_length {width value : Nat} (fits : value < 16 ^ width) :
    (printed width value).length = width := by
  have few := (Nat.digits_length_le_iff (by decide : 1 < 16) value).mpr fits
  rw [printed, List.length_leftpad, List.length_map, List.length_reverse]
  exact Nat.max_eq_left few

theorem printed_nonzero (width value : Nat) : ∀ character ∈ printed width value, character ≠ 0 := by
  intro character member
  rcases List.mem_append.mp member with padding | inside
  · rw [List.eq_of_mem_replicate padding]
    decide
  · obtain ⟨other, listed, rfl⟩ := List.mem_map.mp inside
    have small : other < 16 := Nat.digits_lt_base (by decide) (List.mem_reverse.mp listed)
    interval_cases other <;> decide

end PresenceNode.Library.Hexadecimal
