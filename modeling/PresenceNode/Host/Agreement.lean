import PresenceNode.Host.Split
import PresenceNode.Tlv.Refinement

/-!
# One framing on the firmware and on the host

The reassembler takes byte after byte and the splitter buffer after buffer.
Where no header is out of bounds for either, both find what a scan of the
whole stream finds, so they find the same.
-/

namespace PresenceNode.Host

open Library Library.Deframer Library.Pattern Tlv

/-- Every header that a call of `split` examines declares a length in the bounds of the firmware. -/
def InBounds (buf : List UInt8) : Prop :=
  ∀ rest ∈ hostFormat.judged buf,
    tlvHdrLen ≤ declaredTotal rest ∧ declaredTotal rest ≤ tlvMaxFrame

/-- The host's format is the firmware's with another limit. -/
theorem hostFormat_eq : hostFormat = tlvFormat.within maxTotal (by decide) := rfl

namespace InBounds

variable {buf : List UInt8}

/-- Neither side rejects a header that is in bounds. -/
theorem agree (bounds : InBounds buf) :
    ∀ rest ∈ (tlvFormat.within maxTotal (by decide)).judged buf,
      (tlvFormat.Bogus (tlvFormat.declared rest) ↔
        (tlvFormat.within maxTotal (by decide)).Bogus (tlvFormat.declared rest)) := by
  intro rest member
  obtain ⟨least, most⟩ := bounds rest member
  have limit : tlvMaxFrame ≤ maxTotal := by decide
  change tlvHdrLen ≤ tlvFormat.declared rest at least
  change tlvFormat.declared rest ≤ tlvMaxFrame at most
  change tlvFormat.declared rest < tlvHdrLen ∨ tlvMaxFrame < tlvFormat.declared rest ↔
    tlvFormat.declared rest < tlvHdrLen ∨ maxTotal < tlvFormat.declared rest
  omega

theorem judged_eq (bounds : InBounds buf) : hostFormat.judged buf = tlvFormat.judged buf := by
  rw [hostFormat_eq]
  exact Format.judged_within bounds.agree

theorem scan_eq (bounds : InBounds buf) : hostFormat.scan buf = tlvFormat.scan buf := by
  rw [hostFormat_eq]
  exact Format.scan_within bounds.agree

theorem safe (bounds : InBounds buf) : ¬ Loses buf := by
  rintro ⟨earlier, rest, judged, bogus, _⟩
  have member : rest ∈ hostFormat.judged buf := by
    rw [judged]
    exact List.mem_append_right _ (List.mem_singleton_self rest)
  obtain ⟨least, most⟩ := bounds rest member
  rw [bogus_iff] at bogus
  have limit : tlvMaxFrame ≤ maxTotal := by decide
  have header : hdrLen = tlvHdrLen := rfl
  omega

end InBounds

structure CarriedInBounds (chunks : List (List UInt8)) (got : List (List (List UInt8)))
    (kept : List UInt8) : Prop extends Carried chunks got kept where
  bounds : InBounds chunks.flatten

theorem carriedInBounds_nil : CarriedInBounds [] [] [] where
  toCarried := carried_nil
  bounds := by
    intro rest member
    have nothing : hostFormat.judged [] = [] := Format.judged_absent (by decide)
    rw [List.flatten_nil, nothing] at member
    cases member

/-- Headers that are in bounds read by read are in bounds in the whole stream. -/
theorem CarriedInBounds.step {chunks : List (List UInt8)} {got : List (List (List UInt8))}
    {kept chunk next : List UInt8} {frames : List (List UInt8)}
    (carried : CarriedInBounds chunks got kept) (bounds : InBounds (kept ++ chunk))
    (stepped : splitter.step kept chunk = some (next, frames)) :
    CarriedInBounds (chunks ++ [chunk]) (got ++ [frames]) next where
  toCarried := carried.toCarried.step bounds.safe stepped
  bounds := by
    obtain ⟨settled, cut⟩ := carried.resumes
    intro rest member
    rw [List.flatten_concat, cut.resumes] at member
    rcases List.mem_append.mp member with earlier | later
    · obtain ⟨first, inside, rfl⟩ := List.mem_map.mp earlier
      have complete := (cut.settles first inside).1
      have judged : first ∈ hostFormat.judged chunks.flatten := by
        rw [cut.judged_eq]
        exact List.mem_append_left _ inside
      have same : declaredTotal (first ++ chunk) = declaredTotal first :=
        hostFormat.declared_append first chunk complete
      rw [same]
      exact carried.bounds first judged
    · exact bounds rest later

/--
The reassembler and the splitter find the same frames in every stream, however
it is cut into reads, in which every header declares a length that the
firmware admits.
-/
theorem framing_agrees (r : TlvReasm) {chunks : List (List UInt8)}
    (bounds : splitter.Guarded (fun kept chunk => InBounds (kept ++ chunk)) [] chunks) :
    ∃ final outputs last got, reassembler.run (tlvReset r) chunks.flatten = some (final, outputs) ∧
      splitter.run [] chunks = some (last, got) ∧ delivered outputs = got.flatten := by
  obtain ⟨last, got, ranHost⟩ := splitter_run_defined [] chunks
  have carried : CarriedInBounds chunks got last :=
    Machine.run_invariant (fun _ _ _ _ _ _ before met stepped => before.step met stepped)
      carriedInBounds_nil bounds ranHost
  have admitted : ∀ rest ∈ tlvFormat.judged chunks.flatten,
      ¬ tlvFormat.Bogus (tlvFormat.declared rest) := by
    intro rest member
    rw [← carried.bounds.judged_eq] at member
    obtain ⟨least, most⟩ := carried.bounds rest member
    exact not_or.mpr ⟨Nat.not_lt.mpr least, Nat.not_lt.mpr most⟩
  obtain ⟨phase, outputs, ran, delivers⟩ := Format.deframer_scans admitted
  obtain ⟨final, concrete, _⟩ := reassembler_run (represents_reset r) ran
  refine ⟨final, outputs, last, got, concrete, ranHost, ?_⟩
  rw [delivers, carried.delivers, carried.bounds.scan_eq]

/-- A frame of 40 bytes after a stray byte. -/
theorem judged_stray : hostFormat.judged ([9] ++ (magic ++ shortFrame)) = [magic ++ shortFrame] := by
  have first : FirstAt magic ([9] ++ (magic ++ shortFrame)) 1 := by decide
  have nothing : hostFormat.judged [] = [] := Format.judged_absent (by decide)
  have frame : hostFormat.judged (magic ++ shortFrame) =
      (magic ++ shortFrame) :: hostFormat.judged [] :=
    Format.judged_frame (by decide) (by decide) (by decide) (by decide)
  rw [Format.judged_first first]
  rw [nothing] at frame
  exact frame

theorem framing_agrees_stray :
    splitter.Guarded (fun kept chunk => InBounds (kept ++ chunk)) []
        [9 :: magic.take 3, magic.drop 3 ++ shortFrame] ∧
      ∃ final outputs last got,
        reassembler.run (tlvReset ⟨Vector.replicate 2048 0, 0, 0, 0⟩)
          [9 :: magic.take 3, magic.drop 3 ++ shortFrame].flatten = some (final, outputs) ∧
        splitter.run [] [9 :: magic.take 3, magic.drop 3 ++ shortFrame] = some (last, got) ∧
        delivered outputs = got.flatten := by
  have first : InBounds ([] ++ 9 :: magic.take 3) := by
    intro rest member
    have nothing : hostFormat.judged ([] ++ 9 :: magic.take 3) = [] :=
      Format.judged_absent (by decide)
    rw [nothing] at member
    cases member
  have second : InBounds (9 :: magic.take 3 ++ (magic.drop 3 ++ shortFrame)) := by
    intro rest member
    have judged : hostFormat.judged (9 :: magic.take 3 ++ (magic.drop 3 ++ shortFrame)) =
        [magic ++ shortFrame] := judged_stray
    rw [judged] at member
    rw [List.mem_singleton.mp member]
    decide
  have bounds : splitter.Guarded (fun kept chunk => InBounds (kept ++ chunk)) []
      [9 :: magic.take 3, magic.drop 3 ++ shortFrame] :=
    Machine.guarded_cons first
      (show splitter.step [] (9 :: magic.take 3) = some (9 :: magic.take 3, []) by decide)
      ⟨second, fun _ _ _ => trivial⟩
  exact ⟨bounds, framing_agrees _ bounds⟩

end PresenceNode.Host
