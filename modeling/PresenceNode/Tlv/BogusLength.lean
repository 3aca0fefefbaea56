import PresenceNode.Library.Scanner
import PresenceNode.Tlv.Streams

/-!
# What a bogus length costs

The length is judged once 40 bytes of header are in, and the reassembler then
hunts from the byte after them: whatever began among these bytes is lost.  A
frame that follows a rejected magic is therefore delivered exactly when it
begins at least 32 bytes after that magic.
-/

namespace PresenceNode.Tlv

open Library Library.Deframer Library.Pattern

/-- A hunting reassembler counts the magic up to its last byte, whatever `want` is. -/
theorem reassembler_hunts (buf : Vector UInt8 tlvMaxFrame) (want : UInt32) :
    reassembler.run ⟨buf, 0, want, 0⟩ (tlvMagic.take 7) =
      some (⟨buf, 0, want, 7⟩, List.replicate 7 none) := rfl

theorem feedByte_magic {old buf : Vector UInt8 tlvMaxFrame} (want : UInt32)
    (stored : Buffer.storeAll old 0 tlvMagic = some buf) :
    feedByte ⟨old, 0, want, 7⟩ 7 = some (⟨buf, 8, 0, 0⟩, none) := by
  have pushed : tlvPush ⟨old, 0, want, 7⟩ 7 =
      (Buffer.storeAll old 0 tlvMagic).bind fun taken => some (⟨taken, 8, 0, 0⟩, false) := rfl
  rw [feedByte, pushed, stored]
  rfl

/-- The magic is taken by any hunting reassembler that has matched nothing, whatever `want` is. -/
theorem reassembler_magic {r : TlvReasm} (len : r.len = 0) (matched : r.matched = 0) :
    ∃ next, reassembler.run r tlvMagic = some (next, List.replicate 8 none) ∧
      Represents next (.collecting tlvMagic) := by
  obtain ⟨buf, stored⟩ := Buffer.storeAll_defined r.buf
    (show 0 + tlvMagic.length ≤ tlvMaxFrame by decide)
  have held := Buffer.held_storeAll stored
  refine ⟨⟨buf, 8, 0, 0⟩, ?_, rfl, held, rfl, rfl, List.prefix_rfl,
    fun complete => absurd complete (by decide)⟩
  obtain ⟨old, _, want, _⟩ := r
  cases len
  cases matched
  have last : reassembler.run ⟨old, 0, want, 7⟩ [7] = some (⟨buf, 8, 0, 0⟩, [none]) := by
    rw [Machine.run]
    change (feedByte ⟨old, 0, want, 7⟩ 7).bind _ = _
    rw [feedByte_magic want stored]
    rfl
  exact Machine.run_append (reassembler_hunts old want) last

/-- The whole stream delivers the frame when it begins after the header, and nothing otherwise. -/
theorem bogus_delivers {r : TlvReasm} {gap frame : List UInt8} (len : r.len = 0)
    (matched : r.matched = 0) (valid : ValidFrame frame)
    (only : ∀ index, OccursAt tlvMagic (gap ++ frame) index → index = gap.length)
    (bogus : tlvFormat.Bogus (declaredLen (tlvMagic ++ (gap ++ frame)))) :
    ∃ final outputs, reassembler.run r (tlvMagic ++ (gap ++ frame)) = some (final, outputs) ∧
      delivered outputs = if 32 ≤ gap.length then [frame] else [] := by
  obtain ⟨next, ranMagic, represents⟩ := reassembler_magic len matched
  have least := valid.least
  have header : tlvHdrLen = 40 := rfl
  have start := tracks_nil tlvFormat.sync_ne_nil
  -- The 32 bytes after the magic complete the header, which is then rejected.
  have count : (tlvMagic ++ (gap ++ frame).take 32).length = tlvHdrLen := by
    rw [List.length_append, List.length_take, List.length_append, header]
    change 8 + _ = 40
    omega
  have same : declaredLen (tlvMagic ++ (gap ++ frame)) =
      declaredLen (tlvMagic ++ (gap ++ frame).take 32) := by
    conv_lhs => rw [← List.take_append_drop 32 (gap ++ frame), ← List.append_assoc]
    exact tlvFormat.declared_append _ _ (Nat.le_of_eq count.symm)
  rw [same] at bogus
  have rejected : tlvFormat.deframer.run (.collecting tlvMagic) ((gap ++ frame).take 32) = _ :=
    Format.collect_rejected List.prefix_rfl (by decide) count bogus
  by_cases clear : 32 ≤ gap.length
  · have rest : (gap ++ frame).drop 32 = gap.drop 32 ++ frame :=
      List.drop_append_of_le_length clear
    have first : FirstAt tlvMagic (gap.drop 32 ++ tlvMagic) (gap.drop 32).length := by
      refine ⟨by simp [OccursAt], fun earlier before occurs => ?_⟩
      obtain ⟨more, split⟩ := valid.begins
      have inside := occurs.append more
      rw [List.append_assoc, split, ← rest, occursAt_drop] at inside
      have same := only _ inside
      rw [List.length_drop] at before
      omega
    have ran := Machine.run_append rejected
      (Format.gap_frame start (quiet_of_firstAt first tlvFormat.sync_ne_nil)
        (validFrame_iff.mp valid))
    rw [← rest, List.take_append_drop] at ran
    obtain ⟨final, concrete, _⟩ := reassembler_run represents ran
    refine ⟨final, _, Machine.run_append ranMagic concrete, ?_⟩
    rw [if_pos clear, delivered_append, delivered_append, delivered_append,
      delivered_replicate_none, delivered_replicate_none, delivered_replicate_none]
    rfl
  · have absent : ¬ tlvMagic <:+: (gap ++ frame).drop 32 := by
      intro found
      obtain ⟨index, occurs⟩ := infix_iff_occursAt.mp found
      have same := only _ (occursAt_drop.mp occurs)
      omega
    obtain ⟨later, hunted, _⟩ := Format.hunt start (quiet_of_absent absent)
    have ran := Machine.run_append rejected hunted
    rw [List.take_append_drop] at ran
    obtain ⟨final, concrete, _⟩ := reassembler_run represents ran
    refine ⟨final, _, Machine.run_append ranMagic concrete, ?_⟩
    rw [if_neg clear, delivered_append, delivered_append, delivered_replicate_none,
      delivered_replicate_none, delivered_replicate_none]
    rfl

/--
After a bogus length the next frame is delivered exactly when it begins no
earlier than 32 bytes after the rejected magic.
-/
theorem bogus_costs_header_iff {r : TlvReasm} {x f : List UInt8} (len : r.len = 0)
    (matched : r.matched = 0) (valid : ValidFrame f)
    (only : ∀ index, OccursAt tlvMagic (x ++ f) index → index = x.length)
    (bogus : ∀ total, rdU32 (tlvMagic ++ (x ++ f)) 12 = some total →
      total.toNat < tlvHdrLen ∨ tlvMaxFrame < total.toNat) :
    ∃ final outputs, reassembler.run r (tlvMagic ++ (x ++ f)) = some (final, outputs) ∧
      (f ∈ delivered outputs ↔ 32 ≤ x.length) := by
  have least := valid.least
  have header : tlvHdrLen = 40 := rfl
  obtain ⟨total, found⟩ := LittleEndian.read32_defined
    (show 12 + 4 ≤ (tlvMagic ++ (x ++ f)).length by simp only [List.length_append]; omega)
  have declared : declaredLen (tlvMagic ++ (x ++ f)) = total.toNat := by
    rw [declaredLen, rdU32, found]
    rfl
  obtain ⟨final, outputs, ran, delivers⟩ := bogus_delivers len matched valid only
    (by rw [declared]; exact bogus total found)
  refine ⟨final, outputs, ran, ?_⟩
  rw [delivers]
  split
  · next clear => simp [clear]
  · next tight => simp [tight]

theorem zeros_only {count : Nat} (few : count ≤ 32) (index : Nat)
    (occurs : OccursAt tlvMagic (List.replicate count 0 ++ headerFrame) index) :
    index = (List.replicate count (0 : UInt8)).length := by
  have inside := occurs.inside (by decide)
  have length : headerFrame.length = 40 := by decide
  rw [List.length_append, List.length_replicate, length] at inside
  have all : ∀ zeros ≤ 32, ∀ start < zeros + 40,
      OccursAt tlvMagic (List.replicate zeros 0 ++ headerFrame) start → start = zeros := by
    decide +kernel
  have positive : 0 < tlvMagic.length := by decide
  rw [List.length_replicate]
  exact all count few index (by omega) occurs

theorem bogus_costs_header_clear :
    ∃ final outputs, reassembler.run ⟨Vector.replicate 2048 0, 0, 0, 0⟩
        (tlvMagic ++ (List.replicate 32 0 ++ headerFrame)) = some (final, outputs) ∧
      (headerFrame ∈ delivered outputs ↔ 32 ≤ (List.replicate 32 (0 : UInt8)).length) :=
  bogus_costs_header_iff rfl rfl headerFrame_valid (zeros_only (by decide))
    (fun total found => .inl (by
      have zero : rdU32 (tlvMagic ++ (List.replicate 32 0 ++ headerFrame)) 12 = some 0 := by decide
      rw [zero] at found
      cases found
      decide))

/-- A frame that begins eight bytes after the rejected magic is swallowed by its header. -/
theorem bogus_swallows_frame :
    ¬ ∀ (r : TlvReasm) (x f : List UInt8), r.len = 0 → r.matched = 0 → ValidFrame f →
      (∀ index, OccursAt tlvMagic (x ++ f) index → index = x.length) →
      (∀ total, rdU32 (tlvMagic ++ (x ++ f)) 12 = some total →
        total.toNat < tlvHdrLen ∨ tlvMaxFrame < total.toNat) →
      ∃ final outputs, reassembler.run r (tlvMagic ++ (x ++ f)) = some (final, outputs) ∧
        f ∈ delivered outputs := by
  intro claimed
  have zero : rdU32 (tlvMagic ++ (List.replicate 8 0 ++ headerFrame)) 12 = some 0 := by decide
  have short : declaredLen (tlvMagic ++ (List.replicate 8 0 ++ headerFrame)) = 0 := by
    rw [declaredLen, zero]
    rfl
  have only := @zeros_only 8 (by decide)
  obtain ⟨final, outputs, ran, member⟩ := claimed ⟨Vector.replicate 2048 0, 0, 0, 0⟩
    (List.replicate 8 0) headerFrame rfl rfl headerFrame_valid only
    (fun total found => .inl (by rw [zero] at found; cases found; decide))
  obtain ⟨last, others, ranOther, delivers⟩ :=
    @bogus_delivers ⟨Vector.replicate 2048 0, 0, 0, 0⟩ _ _ rfl rfl headerFrame_valid only
      (by rw [short]; exact .inl (by decide))
  rw [ran] at ranOther
  cases ranOther
  rw [delivers, if_neg (by decide)] at member
  cases member

end PresenceNode.Tlv
