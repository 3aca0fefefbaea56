import PresenceNode.Library.LittleEndian
import PresenceNode.Library.Scanner

/-!
# The stream splitter of `tlv.py`

`split` pulls the complete frames out of a buffer, and `monitor.py` calls it
on what the last call left with the next read appended.  `none` stands for an
exception, or for a loop that does not end; neither happens.

`split` scans: its frames are those of the scanner on the same buffer.  What
it leaves is enough to resume the scan, except where it returns from a header
with a bogus length: there it leaves nothing, and a magic word that had begun
at the end of the buffer is lost.
-/

namespace PresenceNode.Host

open Library Library.Deframer Library.Pattern

def magic : List UInt8 := [2, 1, 4, 3, 6, 5, 8, 7]

def hdrLen : Nat := 40

def maxTotal : Nat := 65536

def findMagic (buf : List UInt8) (start : Nat) : Option Nat :=
  (find magic (buf.drop start)).map (start + ·)

def unpackU32 (buf : List UInt8) (offset : Nat) : Option Nat :=
  (LittleEndian.read32 buf offset).map UInt32.toNat

def splitLoop (buf : List UInt8) : Nat → Nat → List (List UInt8) →
    Option (List (List UInt8) × List UInt8)
  | 0, _, _ => none
  | turns + 1, i, out =>
      if i + hdrLen ≤ buf.length then do
        let total ← unpackU32 buf (i + 12)
        if ¬ (hdrLen ≤ total ∧ total ≤ maxTotal) then
          -- bogus length, resync
          match findMagic buf (i + magic.length) with
          | none => some (out, [])
          | some i => splitLoop buf turns i out
        else if buf.length < i + total then
          -- frame still arriving
          some (out, buf.drop i)
        else
          let out := out ++ [(buf.drop i).take total]
          let i := i + total
          if (buf.drop i).take magic.length ≠ magic then
            match findMagic buf i with
            | none => some (out, buf.drop i)
            | some j => splitLoop buf turns j out
          else splitLoop buf turns i out
      else some (out, buf.drop i)

def split (buf : List UInt8) : Option (List (List UInt8) × List UInt8) :=
  match findMagic buf 0 with
  | none =>
      -- Keep only a possible partial magic at the tail.
      some ([], if buf.length > magic.length then buf.drop (buf.length - magic.length) else buf)
  | some i => splitLoop buf (buf.length + 1) i []

/-- The read loop of `monitor.py`: the state is the remainder, an input what one read returned. -/
def splitter : Machine (List UInt8) (List UInt8) (List (List UInt8)) where
  step buf chunk := (split (buf ++ chunk)).map fun result => (result.2, result.1)

/-! ## The splitter is a scanner -/

def declaredTotal (bytes : List UInt8) : Nat := (unpackU32 bytes 12).getD 0

def hostFormat : Format UInt8 where
  sync := magic
  header := hdrLen
  limit := maxTotal
  declared := declaredTotal
  sync_nodup := by decide
  sync_ne_nil := by decide
  sync_lt_header := by decide
  header_le_limit := by decide
  declared_append := by
    intro bytes more complete
    rw [declaredTotal, unpackU32,
      LittleEndian.read32_append bytes more (Nat.le_trans (by decide) complete)]
    rfl

theorem unpackU32_total {buf : List UInt8} {i : Nat} (complete : i + hdrLen ≤ buf.length) :
    unpackU32 buf (i + 12) = some (declaredTotal (buf.drop i)) := by
  have header : hdrLen = 40 := rfl
  obtain ⟨word, found⟩ := LittleEndian.read32_defined
    (show 12 + 4 ≤ (buf.drop i).length by rw [List.length_drop]; omega)
  rw [declaredTotal, unpackU32, unpackU32, ← LittleEndian.read32_drop, found]
  rfl

theorem bogus_iff {total : Nat} :
    hostFormat.Bogus total ↔ ¬ (hdrLen ≤ total ∧ total ≤ maxTotal) := by
  change total < hdrLen ∨ maxTotal < total ↔ _
  omega

/--
The last header in the buffer has a bogus length and no magic word after it,
but the buffer ends in the first bytes of one.
-/
def Loses (buf : List UInt8) : Prop :=
  ∃ earlier rest, hostFormat.judged buf = earlier ++ [rest] ∧
    hostFormat.Bogus (declaredTotal rest) ∧ ¬ magic <:+: rest.drop magic.length ∧
    ∃ count, 0 < count ∧ count < magic.length ∧ magic.take count <:+ buf

/-- How a call of `split` can end, by the frames it returns and what it leaves. -/
inductive Outcome (buf : List UInt8) : List (List UInt8) → List UInt8 → Prop where
  /-- The scan can resume on what is left. -/
  | resumes (settled : List (List UInt8)) (kept : List UInt8) (cut : hostFormat.Cut buf settled kept)
      (silent : hostFormat.scan kept = []) (safe : ¬ Loses buf) :
      Outcome buf (settled.filterMap hostFormat.frameAt) kept
  /-- The last header has a bogus length and no magic word after it: nothing is left. -/
  | rejects (settled : List (List UInt8)) (rest : List UInt8)
      (cut : hostFormat.Cut buf (settled ++ [rest]) (rest.drop magic.length))
      (bogus : hostFormat.Bogus (declaredTotal rest))
      (absent : ¬ magic <:+: rest.drop magic.length) :
      Outcome buf ((settled ++ [rest]).filterMap hostFormat.frameAt) []

/-- A magic word follows the last header, if that one has a bogus length. -/
def Followed (settled : List (List UInt8)) : Prop :=
  ∀ earlier rest, settled = earlier ++ [rest] → hostFormat.Bogus (declaredTotal rest) →
    magic <:+: rest.drop magic.length

theorem followed_nil : Followed [] := fun earlier rest same =>
  absurd same.symm (List.append_ne_nil_of_right_ne_nil earlier (List.cons_ne_nil rest []))

theorem Followed.concat {settled : List (List UInt8)} {rest : List UInt8}
    (follows : hostFormat.Bogus (declaredTotal rest) → magic <:+: rest.drop magic.length) :
    Followed (settled ++ [rest]) := by
  intro earlier last same bogus
  have equal := List.append_inj_right' same rfl
  cases equal
  exact follows bogus

/-- When the judged headers are those settled, and the last one is followed, nothing is lost. -/
theorem Followed.safe {buf : List UInt8} {settled : List (List UInt8)}
    (followed : Followed settled) (judged : hostFormat.judged buf = settled) : ¬ Loses buf := by
  rintro ⟨earlier, rest, same, bogus, absent, _⟩
  exact absent (followed earlier rest (judged.symm.trans same) bogus)

theorem findMagic_none {buf : List UInt8} {start : Nat} (none : findMagic buf start = none) :
    ¬ magic <:+: buf.drop start :=
  find_eq_none.mp (Option.map_eq_none_iff.mp none)

theorem findMagic_some {buf : List UInt8} {start index : Nat}
    (found : findMagic buf start = some index) :
    ∃ offset, index = start + offset ∧ FirstAt magic (buf.drop start) offset := by
  obtain ⟨offset, foundOffset, rfl⟩ := Option.map_eq_some_iff.mp found
  exact ⟨offset, rfl, firstAt_of_find foundOffset⟩

/-- The loop stands at a magic word, with these headers settled. -/
structure Stands (buf : List UInt8) (settled : List (List UInt8)) (i : Nat) : Prop where
  cut : hostFormat.Cut buf settled (buf.drop i)
  begins : magic <+: buf.drop i
  followed : Followed settled

theorem stands_of_found {buf : List UInt8} {settled : List (List UInt8)} {start index : Nat}
    (cut : hostFormat.Cut buf settled (buf.drop start))
    (found : findMagic buf start = some index)
    (followed : magic <:+: buf.drop start → Followed settled) :
    Stands buf settled index ∧ start ≤ index ∧ index < buf.length := by
  obtain ⟨offset, rfl, first⟩ := findMagic_some found
  have inside := first.1.inside (by decide)
  have length : magic.length = 8 := rfl
  have later := cut.seek first
  rw [List.drop_drop] at later
  have begins := first.1
  rw [OccursAt, List.drop_drop] at begins
  rw [List.length_drop] at inside
  exact ⟨⟨later, begins, followed (infix_of_occursAt first.1)⟩, by omega, by omega⟩

theorem outcome_absent {buf kept : List UInt8} {settled : List (List UInt8)}
    (cut : hostFormat.Cut buf settled kept) (absent : ¬ magic <:+: kept)
    (followed : Followed settled) : Outcome buf (settled.filterMap hostFormat.frameAt) kept := by
  have nothing : hostFormat.judged kept = [] := Format.judged_absent absent
  have all := cut.judged_eq
  rw [nothing, List.append_nil] at all
  exact .resumes settled kept cut (Format.scan_absent absent) (followed.safe all)

namespace Stands

variable {buf : List UInt8} {settled : List (List UInt8)} {i : Nat}

theorem short (stands : Stands buf settled i) (short : (buf.drop i).length < hostFormat.header) :
    Outcome buf (settled.filterMap hostFormat.frameAt) (buf.drop i) := by
  have all := stands.cut.judged_eq
  rw [Format.judged_short stands.begins short, List.append_nil] at all
  exact .resumes settled _ stands.cut (Format.scan_short stands.begins short)
    (stands.followed.safe all)

theorem waits (stands : Stands buf settled i) (complete : hostFormat.header ≤ (buf.drop i).length)
    (admitted : ¬ hostFormat.Bogus (declaredTotal (buf.drop i)))
    (short : (buf.drop i).length < declaredTotal (buf.drop i)) :
    Outcome buf (settled.filterMap hostFormat.frameAt) (buf.drop i) := by
  have all := stands.cut.judged_eq
  rw [Format.judged_waiting stands.begins complete admitted short] at all
  refine .resumes settled _ stands.cut
    (Format.scan_waiting stands.begins complete admitted short) (Followed.safe ?_ all)
  exact .concat fun bogus => absurd bogus admitted

/-- A bogus length has the magic word passed over, and no frame delivered. -/
theorem reject (stands : Stands buf settled i) (complete : hostFormat.header ≤ (buf.drop i).length)
    (bogus : hostFormat.Bogus (declaredTotal (buf.drop i))) :
    hostFormat.Cut buf (settled ++ [buf.drop i]) ((buf.drop i).drop magic.length) ∧
      (settled ++ [buf.drop i]).filterMap hostFormat.frameAt =
        settled.filterMap hostFormat.frameAt := by
  have rejected : hostFormat.frameAt (buf.drop i) = none := if_pos (.inl bogus)
  refine ⟨stands.cut.reject stands.begins complete bogus, ?_⟩
  rw [List.filterMap_append, List.filterMap_cons_none rejected, List.filterMap_nil,
    List.append_nil]

theorem take (stands : Stands buf settled i) (complete : hostFormat.header ≤ (buf.drop i).length)
    (admitted : ¬ hostFormat.Bogus (declaredTotal (buf.drop i)))
    (whole : declaredTotal (buf.drop i) ≤ (buf.drop i).length) :
    hostFormat.Cut buf (settled ++ [buf.drop i]) (buf.drop (i + declaredTotal (buf.drop i))) ∧
      (settled ++ [buf.drop i]).filterMap hostFormat.frameAt =
        settled.filterMap hostFormat.frameAt ++
          [(buf.drop i).take (declaredTotal (buf.drop i))] := by
  have frame : hostFormat.frameAt (buf.drop i) =
      some ((buf.drop i).take (declaredTotal (buf.drop i))) := by
    refine if_neg ?_
    rw [not_or]
    exact ⟨admitted, Nat.not_lt.mpr whole⟩
  constructor
  · rw [← List.drop_drop]
    exact stands.cut.take stands.begins complete admitted whole
  · rw [List.filterMap_append, List.filterMap_cons_some frame, List.filterMap_nil]

end Stands

theorem splitLoop_outcome {buf : List UInt8} {settled : List (List UInt8)} {turns i : Nat}
    (stands : Stands buf settled i) (enough : buf.length - i < turns) :
    ∃ frames kept, splitLoop buf turns i (settled.filterMap hostFormat.frameAt) =
      some (frames, kept) ∧ Outcome buf frames kept := by
  have header : hdrLen = 40 := rfl
  have length : magic.length = 8 := rfl
  induction turns generalizing settled i with
  | zero => exact absurd enough (Nat.not_lt_zero _)
  | succ turns ih =>
      have left : (buf.drop i).length = buf.length - i := List.length_drop
      unfold splitLoop
      by_cases complete : i + hdrLen ≤ buf.length
      · have completeLeft : hostFormat.header ≤ (buf.drop i).length := by
          change hdrLen ≤ _
          omega
        rw [if_pos complete, unpackU32_total complete]
        simp only [Option.bind_eq_bind, Option.bind_some]
        by_cases bogus : hostFormat.Bogus (declaredTotal (buf.drop i))
        · -- The header is rejected: its magic is passed over, and the next one looked for.
          obtain ⟨later, same⟩ := stands.reject completeLeft bogus
          rw [if_pos (bogus_iff.mp bogus), ← same]
          cases search : findMagic buf (i + magic.length) with
          | none =>
              have absent := findMagic_none search
              rw [← List.drop_drop] at absent
              exact ⟨_, [], rfl, .rejects settled _ later bogus absent⟩
          | some j =>
              rw [List.drop_drop] at later
              obtain ⟨standsNext, after, _⟩ := stands_of_found later search fun follows =>
                .concat fun _ => by rw [List.drop_drop]; exact follows
              exact ih standsNext (by omega)
        · have admitted : hdrLen ≤ declaredTotal (buf.drop i) ∧ _ :=
            not_not.mp (mt bogus_iff.mpr bogus)
          rw [if_neg (not_not.mpr admitted)]
          by_cases waiting : buf.length < i + declaredTotal (buf.drop i)
          · rw [if_pos waiting]
            exact ⟨_, _, rfl, stands.waits completeLeft bogus (by omega)⟩
          · obtain ⟨later, same⟩ := stands.take completeLeft bogus (by omega)
            have follows : Followed (settled ++ [buf.drop i]) :=
              .concat fun impossible => absurd impossible bogus
            rw [if_neg waiting, ← same]
            by_cases next : (buf.drop (i + declaredTotal (buf.drop i))).take magic.length = magic
            · rw [if_neg (not_not.mpr next)]
              exact ih ⟨later, List.prefix_iff_eq_take.mpr next.symm, follows⟩ (by omega)
            · rw [if_pos next]
              cases search : findMagic buf (i + declaredTotal (buf.drop i)) with
              | none => exact ⟨_, _, rfl, outcome_absent later (findMagic_none search) follows⟩
              | some j =>
                  obtain ⟨standsNext, after, _⟩ := stands_of_found later search fun _ => follows
                  exact ih standsNext (by omega)
      · rw [if_neg complete]
        exact ⟨_, _, rfl, stands.short (by change _ < hdrLen; omega)⟩

theorem split_outcome (buf : List UInt8) :
    ∃ frames kept, split buf = some (frames, kept) ∧ Outcome buf frames kept := by
  unfold split
  have start := Format.Cut.start hostFormat buf
  cases search : findMagic buf 0 with
  | none =>
      have absent := findMagic_none search
      rw [List.drop_zero] at absent
      by_cases long : buf.length > magic.length
      · have kept : (buf.drop (buf.length - magic.length)).length = magic.length := by
          rw [List.length_drop]
          omega
        have trimmed : hostFormat.Cut buf [] (buf.drop (buf.length - magic.length)) := by
          refine start.trim _ absent fun count inside _ => ?_
          rw [kept]
          exact Nat.le_of_lt inside
        have absentKept : ¬ magic <:+: buf.drop (buf.length - magic.length) :=
          fun found => absent (found.trans (List.drop_suffix _ _).isInfix)
        exact ⟨[], _, by rw [if_pos long], outcome_absent trimmed absentKept followed_nil⟩
      · exact ⟨[], buf, by rw [if_neg long], outcome_absent start absent followed_nil⟩
  | some i =>
      have whole : hostFormat.Cut buf [] (buf.drop 0) := start
      obtain ⟨stands, _, inside⟩ := stands_of_found whole search fun _ => followed_nil
      exact splitLoop_outcome stands (by omega)

/-- A call of `split` finds what a scan of its buffer finds, and leaves what the scan resumes on. -/
theorem split_scans (buf : List UInt8) :
    ∃ kept, split buf = some (hostFormat.scan buf, kept) ∧ hostFormat.scan kept = [] ∧
      (¬ Loses buf → ∃ settled, hostFormat.Cut buf settled kept) := by
  obtain ⟨frames, kept, result, outcome⟩ := split_outcome buf
  cases outcome with
  | resumes settled kept cut silent safe =>
      have frames := cut.scan_eq
      rw [silent, List.append_nil] at frames
      rw [frames]
      exact ⟨kept, result, silent, fun _ => ⟨settled, cut⟩⟩
  | rejects settled rest cut bogus absent =>
      have last : hostFormat.scan (rest.drop magic.length) = [] := Format.scan_absent absent
      have frames := cut.scan_eq
      rw [last, List.append_nil] at frames
      rw [frames]
      have nothing : hostFormat.scan [] = [] := Format.scan_absent (by decide)
      refine ⟨[], result, nothing, fun safe => ⟨settled ++ [rest], ?_⟩⟩
      have ended : hostFormat.judged (rest.drop magic.length) = [] := Format.judged_absent absent
      have judged := cut.judged_eq
      rw [ended, List.append_nil] at judged
      -- No magic has begun at the end of the buffer, so nothing of it is needed.
      have trimmed := cut.trim (rest.drop magic.length).length absent fun size inside ends => by
        refine Nat.le_of_not_lt fun positive => safe ⟨settled, rest, judged, bogus, absent, size,
          ?_, inside, ends.trans cut.ending⟩
        exact Nat.zero_lt_of_lt positive
      rw [List.drop_length] at trimmed
      exact trimmed

/-! ## Read boundaries -/

/-- What the reads so far have delivered, and what they have left to be scanned again. -/
structure Carried (chunks : List (List UInt8)) (got : List (List (List UInt8)))
    (kept : List UInt8) : Prop where
  silent : hostFormat.scan kept = []
  delivers : got.flatten = hostFormat.scan chunks.flatten
  resumes : ∃ settled, hostFormat.Cut chunks.flatten settled kept

theorem carried_nil : Carried [] [] [] where
  silent := Format.scan_absent (by decide)
  delivers := (Format.scan_absent (by decide)).symm
  resumes := ⟨[], Format.Cut.start hostFormat []⟩

/-- A read that loses nothing carries the scan on. -/
theorem Carried.step {chunks : List (List UInt8)} {got : List (List (List UInt8))}
    {kept chunk next : List UInt8} {frames : List (List UInt8)} (carried : Carried chunks got kept)
    (safe : ¬ Loses (kept ++ chunk)) (stepped : splitter.step kept chunk = some (next, frames)) :
    Carried (chunks ++ [chunk]) (got ++ [frames]) next := by
  obtain ⟨later, result, silent, resumes⟩ := split_scans (kept ++ chunk)
  simp only [splitter, result, Option.map_some, Option.some.injEq, Prod.mk.injEq] at stepped
  obtain ⟨rfl, rfl⟩ := stepped
  obtain ⟨settled, cut⟩ := carried.resumes
  obtain ⟨settledNext, cutNext⟩ := resumes safe
  have earlier := cut.scan_eq
  rw [carried.silent, List.append_nil] at earlier
  constructor
  · exact silent
  · rw [List.flatten_concat, List.flatten_concat, carried.delivers, earlier, cut.scan_append]
  · rw [List.flatten_concat]
    exact ⟨_, cut.append cutNext⟩

theorem splitter_run_defined (kept : List UInt8) (chunks : List (List UInt8)) :
    ∃ final got, splitter.run kept chunks = some (final, got) := by
  apply Machine.run_total
  intro chunk _ state
  obtain ⟨later, result, _⟩ := split_scans (state ++ chunk)
  exact ⟨later, _, by simp only [splitter, result]; rfl⟩

/-- Reads none of which loses anything deliver what a scan of the whole stream finds. -/
theorem splitter_scans {chunks : List (List UInt8)}
    (safe : splitter.Guarded (fun kept chunk => ¬ Loses (kept ++ chunk)) [] chunks) :
    ∃ final got, splitter.run [] chunks = some (final, got) ∧
      got.flatten = hostFormat.scan chunks.flatten := by
  obtain ⟨final, got, ran⟩ := splitter_run_defined [] chunks
  have carried : Carried chunks got final :=
    Machine.run_invariant (fun _ _ _ _ _ _ before met stepped => before.step met stepped)
      carried_nil safe ran
  exact ⟨final, got, ran, carried.delivers⟩

/--
Read boundaries do not matter to a run in which no call returns from a bogus
length with a magic word begun at the end of its buffer: the frames are those
of one call on the whole stream.
-/
theorem split_boundaries {chunks : List (List UInt8)}
    (safe : splitter.Guarded (fun kept chunk => ¬ Loses (kept ++ chunk)) [] chunks) :
    ∃ final got frames rest, splitter.run [] chunks = some (final, got) ∧
      split chunks.flatten = some (frames, rest) ∧ got.flatten = frames := by
  obtain ⟨final, got, ran, whole⟩ := splitter_scans safe
  obtain ⟨rest, result, _⟩ := split_scans chunks.flatten
  exact ⟨final, got, _, rest, ran, result, whole⟩

def shortFrame : List UInt8 := [0, 0, 0, 0] ++ [40, 0, 0, 0] ++ List.replicate 24 0

/-- Wherever a call loses something, there is a next read that a frame is lost with. -/
theorem split_lost_at_boundary {buf : List UInt8} (loses : Loses buf) :
    ∃ chunk final got frames rest, splitter.run [] [buf, chunk] = some (final, got) ∧
      split (buf ++ chunk) = some (frames, rest) ∧ got.flatten ≠ frames := by
  obtain ⟨frames, kept, result, outcome⟩ := split_outcome buf
  cases outcome with
  | resumes settled kept cut silent safe => exact absurd loses safe
  | rejects settled rest cut bogus absent =>
      obtain ⟨_, _, _, _, _, count, positive, inside, ends⟩ := loses
      let chunk := magic.drop count ++ shortFrame
      -- Alone the chunk holds no magic word, so it delivers nothing.
      have alone : ∀ size < magic.length, 0 < size → ¬ magic <:+: magic.drop size ++ shortFrame := by
        decide +kernel
      have nothing : hostFormat.scan chunk = [] := Format.scan_absent (alone count inside positive)
      obtain ⟨left, second, _⟩ := split_scans chunk
      rw [nothing] at second
      -- After the buffer it completes the magic word of a frame.
      have complete := (cut.settles rest (by simp)).1
      have within : magic.take count <:+ rest.drop magic.length := by
        refine List.suffix_of_suffix_length_le ends cut.ending ?_
        have header : hostFormat.header = 40 := rfl
        have length : magic.length = 8 := rfl
        rw [List.length_take, List.length_drop]
        omega
      have first : FirstAt magic (rest.drop magic.length ++ chunk) _ :=
        firstAt_completed hostFormat.sync_nodup absent positive inside within shortFrame
      have whole : (rest.drop magic.length ++ chunk).drop
          ((rest.drop magic.length).length - count) = magic ++ shortFrame := by
        obtain ⟨gap, split⟩ := within
        have length : (magic.take count).length = count :=
          List.length_take_of_le (Nat.le_of_lt inside)
        rw [← split, List.length_append, length, Nat.add_sub_cancel, List.append_assoc,
          List.drop_left, ← List.append_assoc, List.take_append_drop]
      have found : hostFormat.scan (rest.drop magic.length ++ chunk) =
          (magic ++ shortFrame) :: hostFormat.scan [] := by
        rw [Format.scan_first first, whole]
        exact Format.scan_frame (by decide) (by decide) (by decide) (by decide)
      obtain ⟨last, third, _⟩ := split_scans (buf ++ chunk)
      rw [cut.scan_append chunk, found] at third
      refine ⟨chunk, left, _, _, last, Machine.run_cons (by simp only [splitter]; exact congrArg _ result)
        (Machine.run_cons (by simp only [splitter]; exact congrArg _ second) rfl), third, ?_⟩
      simp

/-- A buffer that does not end in the first bytes of a magic word loses none. -/
theorem not_loses_of_ending {buf : List UInt8}
    (ending : ∀ count < magic.length, 0 < count → ¬ magic.take count <:+ buf) : ¬ Loses buf := by
  rintro ⟨_, _, _, _, _, count, positive, inside, ends⟩
  exact ending count inside positive ends

def bogusHeader : List UInt8 := magic ++ List.replicate 32 0

theorem split_boundaries_bogus :
    splitter.Guarded (fun kept chunk => ¬ Loses (kept ++ chunk)) []
        [bogusHeader, magic ++ shortFrame] ∧
      ∃ final got frames rest,
        splitter.run [] [bogusHeader, magic ++ shortFrame] = some (final, got) ∧
        split [bogusHeader, magic ++ shortFrame].flatten = some (frames, rest) ∧
        got.flatten = frames := by
  have safe : splitter.Guarded (fun kept chunk => ¬ Loses (kept ++ chunk)) []
      [bogusHeader, magic ++ shortFrame] := by
    refine Machine.guarded_cons (not_loses_of_ending (by decide +kernel))
      (show splitter.step [] bogusHeader = some ([], []) by decide +kernel) ?_
    exact ⟨not_loses_of_ending (by decide +kernel), fun _ _ _ => trivial⟩
  exact ⟨safe, split_boundaries safe⟩

/-- The next read brings the rest of a magic word whose first byte was dropped. -/
theorem split_boundaries_lost :
    ¬ ∀ chunks : List (List UInt8), ∃ final got frames rest,
      splitter.run [] chunks = some (final, got) ∧
        split chunks.flatten = some (frames, rest) ∧ got.flatten = frames := by
  intro claimed
  obtain ⟨final, got, frames, rest, ran, result, same⟩ :=
    claimed [bogusHeader ++ magic.take 1, magic.drop 1 ++ shortFrame]
  have loses : splitter.run [] [bogusHeader ++ magic.take 1, magic.drop 1 ++ shortFrame] =
      some ((magic.drop 1 ++ shortFrame).drop 31, [[], []]) := by decide +kernel
  have finds : split [bogusHeader ++ magic.take 1, magic.drop 1 ++ shortFrame].flatten =
      some ([magic ++ shortFrame], []) := by decide +kernel
  rw [loses] at ran
  rw [finds] at result
  cases ran
  cases result
  exact absurd same (by decide)

end PresenceNode.Host
