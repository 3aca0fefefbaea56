import PresenceNode.Tlv.Refinement

/-!
# What the reassembler makes of a stream

Exact segmentation of a clean stream, soundness for an arbitrary one, and
recovery after lost or corrupted bytes.  Each result is the deframer's, read
on the fields of `tlv_reasm`.
-/

namespace PresenceNode.Tlv

open Library Library.Deframer Library.Pattern

/-! ## Segmentation -/

/--
Frames between separators are delivered one by one, each with its last byte
and at no other push, whatever the buffer held before the reset.
-/
theorem reassembler_segments (r : TlvReasm) {pieces : List (List UInt8 × List UInt8)}
    {tail : List UInt8}
    (gaps : ∀ piece ∈ pieces, FirstAt tlvMagic (piece.1 ++ tlvMagic) piece.1.length)
    (frames : ∀ piece ∈ pieces, ValidFrame piece.2) (ending : ¬ tlvMagic <:+: tail) :
    ∃ final, reassembler.run (tlvReset r) (stream pieces tail) =
        some (final, returns pieces tail) ∧
      delivered (returns pieces tail) = pieces.map Prod.snd := by
  obtain ⟨later, ran⟩ := segments tlvFormat gaps
    (fun piece member => validFrame_iff.mp (frames piece member)) ending
  obtain ⟨final, concrete, _⟩ := reassembler_run (represents_reset r) ran
  exact ⟨final, concrete, delivered_returns pieces tail⟩

def echoFrame : List UInt8 :=
  tlvMagic ++ [0, 0, 0, 0] ++ [48, 0, 0, 0] ++ List.replicate 24 0 ++ tlvMagic

theorem echoFrame_valid : ValidFrame echoFrame :=
  ⟨by decide, by decide, by decide, by decide⟩

theorem reassembler_segments_echo :
    ∃ final, reassembler.run (tlvReset ⟨Vector.replicate 2048 0, 0, 0, 0⟩)
        (stream [([2, 1, 4], echoFrame), ([], echoFrame)] [2, 1]) =
        some (final, returns [([2, 1, 4], echoFrame), ([], echoFrame)] [2, 1]) ∧
      delivered (returns [([2, 1, 4], echoFrame), ([], echoFrame)] [2, 1]) =
        [echoFrame, echoFrame] :=
  reassembler_segments _ (by decide)
    (by
      intro piece member
      simp only [List.mem_cons, List.not_mem_nil, or_false] at member
      rcases member with rfl | rfl <;> exact echoFrame_valid)
    (by decide)

/-! ## Soundness -/

/-- The fields of the reassembler after the bytes of `history`, the reset after a frame done. -/
structure Settled (history : List UInt8) (r : TlvReasm) : Prop where
  matched : r.matched.toNat < tlvMagicLen
  len : r.len = 0 ∨ tlvMagicLen ≤ r.len.toNat ∧ r.len.toNat < tlvMaxFrame
  recent : tlvMagicLen ≤ r.len.toNat →
    tlvMagic <+: Buffer.held r.buf r.len.toNat ∧ Buffer.held r.buf r.len.toNat <:+ history
  want : r.want = 0 ↔ r.len.toNat < tlvHdrLen
  pending : tlvHdrLen ≤ r.len.toNat → tlvHdrLen ≤ r.want.toNat ∧ r.want.toNat ≤ tlvMaxFrame ∧
    r.len.toNat < r.want.toNat

/-- A represented phase whose pending bytes end the stream settles the fields. -/
theorem Represents.settled {r : TlvReasm} {phase : Phase UInt8} {history : List UInt8}
    (represents : Represents r phase) (recent : tlvFormat.pending phase <:+ history) :
    Settled history r := by
  cases phase with
  | hunting matched =>
      obtain ⟨len, want, count, proper⟩ := represents
      have header : (0 : Nat) < tlvHdrLen := by decide
      refine ⟨by rw [count]; exact proper, .inl len, ?_, ?_, ?_⟩
      · rw [len]
        intro impossible
        exact absurd impossible (by decide)
      · rw [len, want]
        exact ⟨fun _ => header, fun _ => rfl⟩
      · rw [len]
        intro impossible
        exact absurd impossible (by decide)
  | collecting bytes =>
      have collects : Collects r bytes := represents
      have len := collects.len
      refine ⟨by rw [collects.matched]; decide, .inr ?_, ?_, ?_, ?_⟩
      · rw [len]
        exact ⟨collects.magic_le, collects.length_lt⟩
      · intro _
        rw [len, collects.held]
        exact ⟨collects.sound.1, recent⟩
      · rw [← UInt32.toNat_inj, collects.want, len]
        change (if bytes.length < tlvHdrLen then 0 else declaredLen bytes) = 0 ↔ _
        constructor
        · intro zero
          by_contra complete
          have least := (collects.want_past_header (by omega)).2.1
          rw [if_neg complete] at zero
          have header : tlvHdrLen = 40 := rfl
          omega
        · intro short
          rw [if_pos short]
      · rw [len]
        intro complete
        obtain ⟨want, least, most, short⟩ := collects.want_past_header complete
        rw [want]
        exact ⟨least, most, short⟩

theorem tlvPush_len_le {r pushed : TlvReasm} {byte : UInt8} (want : r.want.toNat ≤ tlvMaxFrame)
    (found : tlvPush r byte = some (pushed, true)) : pushed.len.toNat ≤ tlvMaxFrame := by
  have complete : ∀ {s : TlvReasm}, s.want.toNat ≤ tlvMaxFrame → tlvComplete s = (pushed, true) →
      pushed.len.toNat ≤ tlvMaxFrame := by
    intro s bound same
    unfold tlvComplete at same
    split at same
    · cases same
    · cases same
      exact bound
  by_cases len : r.len = 0
  · simp only [tlvPush, if_pos len, Option.bind_eq_bind, Option.bind_eq_some_iff] at found
    obtain ⟨expected, _, found⟩ := found
    split at found
    · split at found
      · obtain ⟨buf, _, found⟩ := Option.bind_eq_some_iff.mp found
        cases found
      · cases found
    · cases found
  · cases stored : Buffer.store r.buf r.len.toNat byte with
    | none => simp [tlvPush, len, stored] at found
    | some buf =>
        rw [tlvPush_collecting len stored] at found
        split at found
        · split at found
          · cases found
          · obtain ⟨word, _, found⟩ := Option.bind_eq_some_iff.mp found
            split at found
            · cases found
            · next admitted =>
                have bound : word.toNat ≤ tlvMaxFrame := by omega
                exact complete bound (Option.some.inj found)
        · refine complete ?_ (Option.some.inj found)
          exact want

/--
Whatever bytes arrive, no push leaves the buffer, the fields are settled in
every state, a push that returns 1 leaves a valid frame in `buf[0..len)` that
is the end of the stream, and no two frames share a byte.
-/
theorem reassembler_sound (r : TlvReasm) (history : List UInt8) :
    ∃ state outputs, reassembler.run (tlvReset r) history = some (state, outputs) ∧
      Settled history state ∧
      (∀ byte pushed, tlvPush state byte = some (pushed, true) →
        ValidFrame (Buffer.held pushed.buf pushed.len.toNat) ∧
        (Buffer.held pushed.buf pushed.len.toNat).length = pushed.len.toNat ∧
        Buffer.held pushed.buf pushed.len.toNat <:+ history ++ [byte]) ∧
      (∀ index frame, outputs[index]? = some (some frame) →
        ValidFrame frame ∧ frame <:+ history.take (index + 1)) ∧
      ∀ (earlier later : Nat) (first second : List UInt8), earlier < later →
        outputs[earlier]? = some (some first) → outputs[later]? = some (some second) →
        earlier + second.length ≤ later := by
  obtain ⟨state, phase, outputs, concrete, ran, represents⟩ :=
    reassembler_run_defined (represents_reset r) history
  have account := accounts ran
  obtain ⟨before, whole, _⟩ := account.recent
  have settled : Settled history state := represents.settled ⟨before, whole.symm⟩
  refine ⟨state, outputs, concrete, settled, ?_, ?_, account.apart⟩
  · intro byte pushed found
    have bound : pushed.len.toNat ≤ tlvMaxFrame := by
      refine tlvPush_len_le ?_ found
      by_cases short : state.len.toNat < tlvHdrLen
      · rw [settled.want.mpr short]
        decide
      · exact (settled.pending (by omega)).2.1
    -- The push is the last one of a longer stream, which is accounted for as well.
    obtain ⟨later, phaseLater, all, concreteAll, ranAll, _⟩ :=
      reassembler_run_defined (represents_reset r) (history ++ [byte])
    have fed : feedByte state byte =
        some (tlvReset pushed, some (Buffer.held pushed.buf pushed.len.toNat)) := by
      rw [feedByte, found]
      rfl
    have extended := Machine.run_concat concrete fed
    have same := extended.symm.trans concreteAll
    simp only [Option.some.injEq, Prod.mk.injEq] at same
    have accountAll := accounts ranAll
    rw [← same.2] at accountAll
    obtain ⟨valid, suffix⟩ := accountAll.frames outputs.length
      (Buffer.held pushed.buf pushed.len.toNat) (by simp)
    have count : outputs.length = history.length := account.count
    rw [List.take_of_length_le (by simp [count])] at suffix
    exact ⟨validFrame_iff.mpr valid, by rw [Buffer.held_length]; omega, suffix⟩
  · intro index frame found
    obtain ⟨valid, suffix⟩ := account.frames index frame found
    exact ⟨validFrame_iff.mpr valid, suffix⟩

/-! ## Recovery -/

/--
After any stream, valid frames with the magic at frame starts only are
delivered from some frame on, which starts no later than the first one at
offset 2040 or more.  At most one frame comes before them, and it begins with
bytes read earlier; a hunting reassembler loses and adds nothing.
-/
theorem reassembler_recovers (r : TlvReasm) (earlier : List UInt8) {frames : List (List UInt8)}
    (valid : ∀ frame ∈ frames, ValidFrame frame) (starts : SyncAtStartsOnly tlvMagic frames) :
    ∃ state before final outputs next junk,
      reassembler.run (tlvReset r) earlier = some (state, before) ∧
      reassembler.run state frames.flatten = some (final, outputs) ∧
      delivered outputs = Option.toList junk ++ frames.drop next ∧ next ≤ frames.length ∧
      (∀ index < frames.length, 2040 ≤ startOf frames index → next ≤ index) ∧
      (∀ frame, junk = some frame → ∃ held used, held ≠ [] ∧ held <:+ earlier ∧
        used <+: frames.flatten ∧ frame = held ++ used) ∧
      (state.len = 0 → next = 0 ∧ junk = none) := by
  obtain ⟨state, phase, before, concrete, ran, represents⟩ :=
    reassembler_run_defined (represents_reset r) earlier
  obtain ⟨phaseFinal, outputs, next, junk, ranFrames, recovers⟩ :=
    resynchronises tlvFormat represents.sound
      (fun frame member => validFrame_iff.mp (valid frame member)) starts
  obtain ⟨final, concreteFrames, _⟩ := reassembler_run represents ranFrames
  refine ⟨state, before, final, outputs, next, junk, concrete, concreteFrames, recovers.split,
    recovers.bound, recovers.reach, ?_, ?_⟩
  · intro frame same
    obtain ⟨held, used, collecting, nonempty, inside, whole⟩ := recovers.older frame same
    obtain ⟨first, split, _⟩ := (accounts ran).recent
    rw [collecting] at split
    exact ⟨held, used, nonempty, ⟨first, split.symm⟩, inside, whole⟩
  · intro len
    cases phase with
    | hunting matched => exact recovers.lossless matched rfl
    | collecting bytes => exact absurd len (Collects.len_ne_zero represents)

def headerFrame : List UInt8 :=
  tlvMagic ++ [0, 0, 0, 0] ++ [40, 0, 0, 0] ++ List.replicate 24 0

theorem headerFrame_valid : ValidFrame headerFrame :=
  ⟨by decide, by decide, by decide, by decide⟩

theorem reassembler_recovers_two :
    ∃ state before final outputs next junk,
      reassembler.run (tlvReset ⟨Vector.replicate 2048 0, 0, 0, 0⟩) tlvMagic =
        some (state, before) ∧
      reassembler.run state [headerFrame, headerFrame].flatten = some (final, outputs) ∧
      delivered outputs = Option.toList junk ++ [headerFrame, headerFrame].drop next ∧
      next ≤ [headerFrame, headerFrame].length ∧
      (∀ index < [headerFrame, headerFrame].length,
        2040 ≤ startOf [headerFrame, headerFrame] index → next ≤ index) ∧
      (∀ frame, junk = some frame → ∃ held used, held ≠ [] ∧ held <:+ tlvMagic ∧
        used <+: [headerFrame, headerFrame].flatten ∧ frame = held ++ used) ∧
      (state.len = 0 → next = 0 ∧ junk = none) :=
  reassembler_recovers _ tlvMagic
    (by
      intro frame member
      simp only [List.mem_cons, List.not_mem_nil, or_false] at member
      rcases member with rfl | rfl <;> exact ⟨by decide, by decide, by decide, by decide⟩)
    (syncAtStartsOnly_of_inside (by decide) (by decide +kernel))

end PresenceNode.Tlv
