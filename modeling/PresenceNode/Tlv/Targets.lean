import PresenceNode.Tlv.Decode

/-!
# The two layouts of a target list

A target is its identifier and a fixed number of words, 27 in the 3D layout and
18 in the 2D layout.  The decoder tells them apart by the length of the payload,
and no payload that fits into a frame is a whole number of both.
-/

namespace PresenceNode.Tlv

open Library LittleEndian

/-- A target as the sensor sends it, with so many words after the identifier. -/
structure RawTarget (n : Nat) where
  tid : UInt32
  words : Vector UInt32 n

def RawTarget.encode {n : Nat} (target : RawTarget n) : List UInt8 :=
  (target.tid :: target.words.toList).flatMap bytes32

def encodeTargets {n : Nat} (targets : List (RawTarget n)) : List UInt8 :=
  targets.flatMap RawTarget.encode

/-- What the decoder should make of a target of the 3D layout. -/
def RawTarget.seen3D (target : RawTarget 27) : TlvTarget where
  tid := target.tid
  x := target.words[0]
  y := target.words[1]
  z := target.words[2]

/-- A target of the 2D layout has no height. -/
def RawTarget.seen2D (target : RawTarget 18) : TlvTarget where
  tid := target.tid
  x := target.words[0]
  y := target.words[1]
  z := 0

/-- The largest payload of an entry in a frame of the reassembler. -/
def mostPayload : Nat := tlvMaxFrame - tlvHdrLen - 8

example : mostPayload = 2000 := rfl

section Layout

variable {n : Nat}

@[simp] theorem encode_length (target : RawTarget n) : target.encode.length = 4 * (n + 1) := by
  rw [RawTarget.encode, flatMap_bytes32_length]
  simp

theorem encodeTargets_length (targets : List (RawTarget n)) :
    (encodeTargets targets).length = targets.length * (4 * (n + 1)) := by
  rw [encodeTargets, List.length_flatMap]
  simp

theorem read_encode (before after : List UInt8) (target : RawTarget n) :
    rdU32 (before ++ (target.encode ++ after)) before.length = some target.tid ∧
      ∀ k (inside : k < n), rdU32 (before ++ (target.encode ++ after))
        (before.length + (4 + 4 * k)) = some target.words[k] := by
  constructor
  · have first : 0 < (target.tid :: target.words.toList).length := Nat.zero_lt_succ _
    exact read32_words before after first
  · intro k inside
    have later : k + 1 < (target.tid :: target.words.toList).length := by simp [inside]
    have read := read32_words before after later
    rw [show 4 + 4 * k = 4 * (k + 1) by omega]
    exact read.trans (by simp)

/-- The loop decodes the targets one after the other, as long as there is room. -/
theorem targetsLoop_encoded (wide : 2 ≤ n) {seen : RawTarget n → TlvTarget}
    (fields : ∀ target, (seen target).tid = target.tid ∧ (seen target).x = target.words[0] ∧
      (seen target).y = target.words[1])
    (third : ∀ before target after, targetZ (before ++ (RawTarget.encode target ++ after))
      (4 * (n + 1)) before.length = some (seen target).z)
    (before : List UInt8) (targets : List (RawTarget n)) (left : Nat) :
    targetsLoop (before ++ encodeTargets targets) (4 * (n + 1)) left before.length =
      some ((targets.take left).map seen) := by
  induction targets generalizing before left with
  | nil =>
      cases left with
      | zero => rfl
      | succ left =>
          have past : ¬ before.length + 4 * (n + 1) ≤
              (before ++ encodeTargets ([] : List (RawTarget n))).length := by
            simp [encodeTargets]
          rw [targetsLoop, if_neg past]
          rfl
  | cons target rest ih =>
      cases left with
      | zero => rfl
      | succ left =>
          have payload : before ++ encodeTargets (target :: rest) =
              before ++ (target.encode ++ encodeTargets rest) := rfl
          have room : before.length + 4 * (n + 1) ≤
              (before ++ (target.encode ++ encodeTargets rest)).length := by
            simp only [List.length_append, encode_length]
            omega
          have others := ih (before ++ target.encode) left
          rw [List.length_append, encode_length, List.append_assoc] at others
          obtain ⟨tid, words⟩ := read_encode before (encodeTargets rest) target
          obtain ⟨sameTid, sameX, sameY⟩ := fields target
          rw [payload, targetsLoop, if_pos room, tid, words 0 (by omega), words 1 (by omega),
            third before target (encodeTargets rest), others]
          simp only [Option.bind_eq_bind, Option.bind_some, List.take_succ_cons, List.map_cons,
            ← sameTid, ← sameX, ← sameY]

end Layout

/-! ## The layout is guessed right -/

theorem targetZ_3D (before : List UInt8) (target : RawTarget 27) (after : List UInt8) :
    targetZ (before ++ (target.encode ++ after)) (4 * (27 + 1)) before.length =
      some target.words[2] :=
  (read_encode before after target).2 2 (by decide)

/-- A payload of whole 3D targets is decoded as such. -/
theorem tlvTargets_3D {targets : List (RawTarget 27)} (nonempty : targets ≠ []) (max : Int) :
    tlvTargets (encodeTargets targets) max =
      some ((targets.take max.toNat).map RawTarget.seen3D) := by
  have length := encodeTargets_length targets
  have positive := List.length_pos_iff.mpr nonempty
  have bytes : ¬ (encodeTargets targets).length = 0 := by omega
  have whole : (encodeTargets targets).length % target3DSize = 0 := by
    rw [length]
    exact Nat.mul_mod_left _ _
  rw [tlvTargets, if_neg bytes, if_pos whole]
  exact targetsLoop_encoded (by decide) (fun _ => ⟨rfl, rfl, rfl⟩) targetZ_3D [] targets _

/-- Fewer than 28 targets of 76 bytes are no whole number of 112 bytes. -/
theorem tlvTargets_2D {targets : List (RawTarget 18)} (nonempty : targets ≠ [])
    (fits : (encodeTargets targets).length ≤ mostPayload) (max : Int) :
    tlvTargets (encodeTargets targets) max =
      some ((targets.take max.toNat).map RawTarget.seen2D) := by
  have length := encodeTargets_length targets
  have positive := List.length_pos_iff.mpr nonempty
  have most : mostPayload = 2000 := rfl
  have bytes : ¬ (encodeTargets targets).length = 0 := by omega
  -- The first length of both layouts is 28 * 76 = 19 * 112 = 2128.
  have broken : ¬ (encodeTargets targets).length % target3DSize = 0 := by
    change ¬ (encodeTargets targets).length % 112 = 0
    omega
  have whole : (encodeTargets targets).length % target2DSize = 0 := by
    rw [length]
    exact Nat.mul_mod_left _ _
  rw [tlvTargets, if_neg bytes, if_neg broken, if_pos whole]
  exact targetsLoop_encoded (by decide) (fun _ => ⟨rfl, rfl, rfl⟩) (fun _ _ _ => rfl) [] targets _

theorem tlvTargets_neither {payload : List UInt8}
    (other : ∀ k, 0 < k → payload.length ≠ k * target3DSize ∧ payload.length ≠ k * target2DSize)
    (max : Int) : tlvTargets payload max = some [] := by
  rw [tlvTargets]
  by_cases empty : payload.length = 0
  · rw [if_pos empty]
  · have whole : ∀ size, payload.length % size = 0 →
        payload.length = payload.length / size * size ∧ 0 < payload.length / size := by
      intro size divides
      have product := Nat.div_mul_cancel (Nat.dvd_of_mod_eq_zero divides)
      refine ⟨product.symm, Nat.pos_of_ne_zero fun zero => empty ?_⟩
      rw [← product, zero, Nat.zero_mul]
    have not3D : ¬ payload.length % target3DSize = 0 := fun divides =>
      (other _ (whole _ divides).2).1 (whole _ divides).1
    have not2D : ¬ payload.length % target2DSize = 0 := fun divides =>
      (other _ (whole _ divides).2).2 (whole _ divides).1
    rw [if_neg empty, if_neg not3D, if_neg not2D]

/--
Whatever targets a frame can carry in either layout, the decoder returns them
in order as far as there is room, with the fields of their layout; no payload
makes it write past its room, and one of neither size makes it write nothing.
-/
theorem tlvTargets_layouts (max : Int) :
    (∀ targets : List (RawTarget 27), targets ≠ [] →
      (encodeTargets targets).length ≤ mostPayload →
      tlvTargets (encodeTargets targets) max =
          some ((targets.take max.toNat).map RawTarget.seen3D) ∧
        ((targets.take max.toNat).map RawTarget.seen3D).length =
          min targets.length max.toNat) ∧
    (∀ targets : List (RawTarget 18), targets ≠ [] →
      (encodeTargets targets).length ≤ mostPayload →
      tlvTargets (encodeTargets targets) max =
          some ((targets.take max.toNat).map RawTarget.seen2D) ∧
        ((targets.take max.toNat).map RawTarget.seen2D).length =
          min targets.length max.toNat) ∧
    (∀ payload, ∃ written, tlvTargets payload max = some written ∧
      written.length ≤ max.toNat) ∧
    ∀ payload : List UInt8,
      (∀ k, 0 < k → payload.length ≠ k * target3DSize ∧ payload.length ≠ k * target2DSize) →
      tlvTargets payload max = some [] := by
  refine ⟨fun targets nonempty _ => ⟨tlvTargets_3D nonempty max, ?_⟩,
    fun targets nonempty fits => ⟨tlvTargets_2D nonempty fits max, ?_⟩,
    fun payload => tlvTargets_defined payload max,
    fun payload other => tlvTargets_neither other max⟩
  · rw [List.length_map, List.length_take, Nat.min_comm]
  · rw [List.length_map, List.length_take, Nat.min_comm]

def onesTarget (n : Nat) : RawTarget n := ⟨7, Vector.replicate n 1⟩

theorem tlvTargets_layouts_ones :
    tlvTargets (encodeTargets [onesTarget 27, onesTarget 27]) 1 =
        some (([onesTarget 27, onesTarget 27].take 1).map RawTarget.seen3D) ∧
      tlvTargets (encodeTargets [onesTarget 18]) 20 =
        some (([onesTarget 18].take 20).map RawTarget.seen2D) ∧
      tlvTargets [1, 2, 3] 20 = some [] := by
  have length3D := encodeTargets_length [onesTarget 27, onesTarget 27]
  have length2D := encodeTargets_length [onesTarget 18]
  have fits3D : (encodeTargets [onesTarget 27, onesTarget 27]).length ≤ mostPayload := by
    rw [length3D]
    decide
  have fits2D : (encodeTargets [onesTarget 18]).length ≤ mostPayload := by
    rw [length2D]
    decide
  refine ⟨((tlvTargets_layouts 1).1 _ (by simp) fits3D).1,
    ((tlvTargets_layouts 20).2.1 _ (by simp) fits2D).1,
    (tlvTargets_layouts 20).2.2.2 _ fun k positive => ?_⟩
  change 3 ≠ k * 112 ∧ 3 ≠ k * 76
  omega

end PresenceNode.Tlv
