import PresenceNode.Library.Resynchronisation
import PresenceNode.Tlv.Reasm

/-!
# The reassembler refines the deframer

Every push is matched by a step of the deframer for the radar's format, with
the same frame delivered or none, and with no access outside a buffer.  All
results on streams are results of the deframer carried over by this simulation.
-/

namespace PresenceNode.Tlv

open Library Library.Deframer Library.Pattern

/-! ## The branches of a push -/

section Branches

variable {r : TlvReasm} {byte : UInt8} {buf : Vector UInt8 tlvMaxFrame}

theorem tlvPush_collecting (len : r.len ≠ 0)
    (stored : Buffer.store r.buf r.len.toNat byte = some buf) :
    tlvPush r byte =
      if r.want = 0 then
        if (r.len + 1).toNat < tlvHdrLen then
          some ({ r with buf := buf, len := r.len + 1 }, false)
        else
          (rdU32 buf.toList 12).bind fun want =>
            if want.toNat < tlvHdrLen ∨ tlvMaxFrame < want.toNat then
              some (tlvReset { r with buf := buf, len := r.len + 1, want := want }, false)
            else
              some (tlvComplete { r with buf := buf, len := r.len + 1, want := want })
      else
        some (tlvComplete { r with buf := buf, len := r.len + 1 }) := by
  simp only [tlvPush, if_neg len, stored, Option.bind_eq_bind, Option.bind_some]

/-- A byte inside the header is stored and nothing more. -/
theorem tlvPush_in_header (len : r.len ≠ 0)
    (stored : Buffer.store r.buf r.len.toNat byte = some buf) (want : r.want = 0)
    (short : (r.len + 1).toNat < tlvHdrLen) :
    tlvPush r byte = some ({ r with buf := buf, len := r.len + 1 }, false) := by
  rw [tlvPush_collecting len stored, if_pos want, if_pos short]

/-- The byte that completes the header has the length field judged. -/
theorem tlvPush_header (len : r.len ≠ 0)
    (stored : Buffer.store r.buf r.len.toNat byte = some buf) (want : r.want = 0)
    (complete : ¬ (r.len + 1).toNat < tlvHdrLen) {word : UInt32}
    (read : rdU32 buf.toList 12 = some word) :
    tlvPush r byte =
      if word.toNat < tlvHdrLen ∨ tlvMaxFrame < word.toNat then
        some (tlvReset { r with buf := buf, len := r.len + 1, want := word }, false)
      else
        some (tlvComplete { r with buf := buf, len := r.len + 1, want := word }) := by
  rw [tlvPush_collecting len stored, if_pos want, if_neg complete, read, Option.bind_some]

theorem tlvPush_past_header (len : r.len ≠ 0)
    (stored : Buffer.store r.buf r.len.toNat byte = some buf) (want : r.want ≠ 0) :
    tlvPush r byte = some (tlvComplete { r with buf := buf, len := r.len + 1 }) := by
  rw [tlvPush_collecting len stored, if_neg want]

end Branches

theorem receive_eq (bytes : List UInt8) :
    tlvFormat.receive bytes =
      if bytes.length < tlvHdrLen then (.collecting bytes, none)
      else if declaredLen bytes < tlvHdrLen ∨ tlvMaxFrame < declaredLen bytes then
        (.hunting 0, none)
      else if bytes.length < declaredLen bytes then (.collecting bytes, none)
      else (.hunting 0, some bytes) := rfl

/-! ## One push, one step -/

/-- Once the header is in, the push ends as the deframer decides. -/
theorem deliver_complete {r : TlvReasm} {bytes : List UInt8} (len : r.len.toNat = bytes.length)
    (held : Buffer.held r.buf bytes.length = bytes) (want : r.want.toNat = declaredLen bytes)
    (matched : r.matched = 0) (begins : tlvMagic <+: bytes) (complete : tlvHdrLen ≤ bytes.length)
    (least : tlvHdrLen ≤ declaredLen bytes) (most : declaredLen bytes ≤ tlvMaxFrame)
    (short : bytes.length ≤ declaredLen bytes) :
    ∃ next, deliver (tlvComplete r) = (next, (tlvFormat.receive bytes).2) ∧
      Represents next (tlvFormat.receive bytes).1 := by
  rw [receive_eq, if_neg (by omega), if_neg (by omega)]
  by_cases waiting : bytes.length < declaredLen bytes
  · have less : r.len < r.want := by
      rw [UInt32.lt_iff_toNat_lt, len, want]
      exact waiting
    rw [if_pos waiting, tlvComplete, if_pos less]
    refine ⟨r, rfl, len, held, ?_, matched, begins, fun _ => ⟨least, most, waiting⟩⟩
    rw [want, if_neg (by omega)]
  · have notLess : ¬ r.len < r.want := by
      rw [UInt32.lt_iff_toNat_lt, len, want]
      exact waiting
    have whole : declaredLen bytes = bytes.length := by omega
    rw [if_neg waiting, tlvComplete, if_neg notLess]
    refine ⟨tlvReset { r with len := r.want, want := 0 }, ?_, represents_reset _⟩
    simp only [deliver, if_true, want, whole, held]

theorem feedByte_collecting {r : TlvReasm} {bytes : List UInt8} (collects : Collects r bytes)
    (byte : UInt8) :
    ∃ next, feedByte r byte = some (next, (tlvFormat.receive (bytes ++ [byte])).2) ∧
      Represents next (tlvFormat.receive (bytes ++ [byte])).1 := by
  have room := collects.length_lt
  have begins : tlvMagic <+: bytes ++ [byte] := collects.sound.1.trans (List.prefix_append _ _)
  have length : (bytes ++ [byte]).length = bytes.length + 1 := by simp
  obtain ⟨buf, stored⟩ := Buffer.store_defined r.buf byte (show r.len.toNat < tlvMaxFrame by
    rw [collects.len]
    exact room)
  have held : Buffer.held buf (bytes ++ [byte]).length = bytes ++ [byte] := by
    rw [collects.len] at stored
    rw [length, Buffer.held_store stored, collects.held]
  have len := collects.len_succ
  rw [← length] at len
  by_cases before : tlvHdrLen ≤ bytes.length
  · -- The header came earlier: `want` is set, and only the frame can be completed.
    obtain ⟨want, least, most, short⟩ := collects.want_past_header before
    have settled : declaredLen (bytes ++ [byte]) = declaredLen bytes :=
      tlvFormat.declared_append bytes [byte] before
    have nonzero : r.want ≠ 0 := by
      intro zero
      have value := congrArg UInt32.toNat zero
      rw [want] at value
      change declaredLen bytes = 0 at value
      have minimum : tlvHdrLen = 40 := rfl
      omega
    rw [feedByte, tlvPush_past_header collects.len_ne_zero stored nonzero]
    obtain ⟨next, result, represents⟩ := deliver_complete
      (r := { r with buf := buf, len := r.len + 1 }) len held (by rw [settled, want])
      collects.matched begins (by omega) (by omega) (by omega) (by omega)
    exact ⟨next, by rw [Option.map_some, result], represents⟩
  · have zero : r.want = 0 := by
      apply UInt32.toNat_inj.mp
      rw [collects.want, if_pos (by omega)]
      rfl
    by_cases short : (bytes ++ [byte]).length < tlvHdrLen
    · -- Still inside the header.
      rw [feedByte, tlvPush_in_header collects.len_ne_zero stored zero (by rw [len]; exact short),
        receive_eq, if_pos short]
      refine ⟨{ r with buf := buf, len := r.len + 1 }, rfl, len, held, ?_, collects.matched,
        begins, fun complete => ?_⟩
      · rw [if_pos short]
        exact congrArg UInt32.toNat zero
      · exact absurd short (Nat.not_lt.mpr complete)
    · -- The byte that completes the header: the length field is judged now.
      have complete : tlvHdrLen ≤ (bytes ++ [byte]).length := Nat.le_of_not_lt short
      have full : (bytes ++ [byte]).length = tlvHdrLen := by omega
      have inside : tlvHdrLen = 40 := rfl
      obtain ⟨word, found⟩ := LittleEndian.read32_defined
        (show 12 + 4 ≤ (bytes ++ [byte]).length by omega)
      have declared : declaredLen (bytes ++ [byte]) = word.toNat := by
        rw [declaredLen, rdU32, found]
        rfl
      have read : rdU32 buf.toList 12 = some word := by
        have split : buf.toList = (bytes ++ [byte]) ++ buf.toList.drop (bytes ++ [byte]).length := by
          conv_lhs => rw [← List.take_append_drop (bytes ++ [byte]).length buf.toList]
          exact congrArg (· ++ _) held
        rw [rdU32, split, LittleEndian.read32_append _ _ (by omega), found]
      rw [feedByte, tlvPush_header collects.len_ne_zero stored zero (by rw [len]; exact short) read]
      by_cases bogus : word.toNat < tlvHdrLen ∨ tlvMaxFrame < word.toNat
      · rw [if_pos bogus, receive_eq, if_neg short, if_pos (by rw [declared]; exact bogus)]
        exact ⟨_, rfl, represents_reset _⟩
      · rw [if_neg bogus]
        obtain ⟨next, result, represents⟩ := deliver_complete
          (r := { r with buf := buf, len := r.len + 1, want := word }) len held declared.symm
          collects.matched begins (by omega) (by omega) (by omega) (by omega)
        exact ⟨next, by rw [Option.map_some, result], represents⟩

theorem feedByte_hunting {r : TlvReasm} {matched : Nat} (represents : Represents r (.hunting matched))
    (byte : UInt8) :
    ∃ next, feedByte r byte = some (next, (tlvFormat.step (.hunting matched) byte).2) ∧
      Represents next (tlvFormat.step (.hunting matched) byte).1 := by
  obtain ⟨len, want, count, proper⟩ := represents
  have inside : matched < tlvMagic.length := proper
  have eight : tlvMagicLen = 8 := rfl
  have expected : tlvMagic[matched]? = some tlvMagic[matched] := List.getElem?_eq_getElem inside
  have succ : (r.matched + 1).toNat = matched + 1 := by
    rw [UInt8.toNat_add, count]
    exact Nat.mod_eq_of_lt (by change matched + 1 < 2 ^ 8; omega)
  change ∃ next, feedByte r byte = some (next,
      (if tlvMagic[matched]? = some byte ∧ matched + 1 = tlvMagicLen then
        (Phase.collecting tlvMagic, none)
      else (Phase.hunting (advance tlvMagic matched byte), none)).2) ∧ Represents next
      (if tlvMagic[matched]? = some byte ∧ matched + 1 = tlvMagicLen then
        (Phase.collecting tlvMagic, (none : Option (List UInt8)))
      else (Phase.hunting (advance tlvMagic matched byte), none)).1
  by_cases hit : byte = tlvMagic[matched]
  · subst hit
    by_cases last : matched + 1 = tlvMagicLen
    · obtain ⟨buf, stored⟩ := Buffer.storeAll_defined r.buf
        (show 0 + tlvMagic.length ≤ tlvMaxFrame by decide)
      have held := Buffer.held_storeAll stored
      have pushed : tlvPush r tlvMagic[matched] =
          some ({ buf := buf, len := 8, want := 0, matched := 0 }, false) := by
        simp [tlvPush, len, count, expected, succ, last, stored]
      rw [if_pos ⟨expected, last⟩]
      exact ⟨_, by rw [feedByte, pushed]; rfl, rfl, held, rfl, rfl, List.prefix_rfl,
        fun complete => absurd complete (by decide)⟩
    · have pushed : tlvPush r tlvMagic[matched] =
          some ({ r with matched := r.matched + 1 }, false) := by
        simp [tlvPush, len, count, expected, succ, last]
      rw [if_neg (fun full => last full.2)]
      have next : advance tlvMagic matched tlvMagic[matched] = matched + 1 := by
        simp [advance, expected]
      rw [next]
      exact ⟨{ r with matched := r.matched + 1 }, by rw [feedByte, pushed]; rfl, len, want, succ,
        by omega⟩
  · have missed : ¬ tlvMagic[matched]? = some byte := by
      rw [expected]
      exact fun same => hit (Option.some.inj same).symm
    have pushed : tlvPush r byte =
        some ({ r with matched := if tlvMagic[0]? = some byte then 1 else 0 }, false) := by
      simp [tlvPush, len, count, expected, hit]
    rw [if_neg (fun full => missed full.1)]
    refine ⟨{ r with matched := if tlvMagic[0]? = some byte then 1 else 0 },
      by rw [feedByte, pushed]; rfl, len, want, ?_, ?_⟩
    · simp only [advance, if_neg missed]
      split <;> rfl
    · simp only [advance, if_neg missed]
      split <;> decide

/-- The simulation: a push does what a step of the deframer does. -/
theorem reassembler_simulates : reassembler.Simulates tlvFormat.deframer Represents := by
  intro r phase byte phaseNext output represents stepped
  have taken : tlvFormat.step phase byte = (phaseNext, output) := Option.some.inj stepped
  cases phase with
  | hunting matched =>
      obtain ⟨next, fed, after⟩ := feedByte_hunting represents byte
      rw [taken] at fed after
      exact ⟨next, fed, after⟩
  | collecting bytes =>
      obtain ⟨next, fed, after⟩ := feedByte_collecting represents byte
      change tlvFormat.receive (bytes ++ [byte]) = _ at taken
      rw [taken] at fed after
      exact ⟨next, fed, after⟩

/-- A run of the deframer from a represented phase is a run of the reassembler. -/
theorem reassembler_run {r : TlvReasm} {phase final : Phase UInt8} {bytes : List UInt8}
    {outputs : List (Option (List UInt8))} (represents : Represents r phase)
    (ran : tlvFormat.deframer.run phase bytes = some (final, outputs)) :
    ∃ next, reassembler.run r bytes = some (next, outputs) ∧ Represents next final :=
  Machine.Simulates.run reassembler_simulates represents ran

theorem reassembler_run_defined {r : TlvReasm} {phase : Phase UInt8}
    (represents : Represents r phase) (bytes : List UInt8) :
    ∃ next final outputs, reassembler.run r bytes = some (next, outputs) ∧
      tlvFormat.deframer.run phase bytes = some (final, outputs) ∧ Represents next final := by
  obtain ⟨final, outputs, ran⟩ := deframer_run_defined tlvFormat phase bytes
  obtain ⟨next, concrete, after⟩ := reassembler_run represents ran
  exact ⟨next, final, outputs, concrete, ran, after⟩

end PresenceNode.Tlv
