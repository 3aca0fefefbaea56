import PresenceNode.Tlv.Decode

/-!
# What `tlv_find` points to

The list of entries is read off a frame without machine words: it goes on as
long as an entry fits, and ends before the first one that does not.  The search
returns the first entry of its type in that list.
-/

namespace PresenceNode.Tlv

open Library LittleEndian

/--
The loop of `tlv_find`, for at most `turns` turns: the offset of the payload in
the frame, `none` for a null pointer, and `*len_out`.
-/
def tlvFindLoop (frame : List UInt8) (type total : UInt32) : Nat → UInt32 →
    Option (Option Nat × UInt32)
  | 0, _ => none
  | turns + 1, off =>
      if off + 8 ≤ total then do
        let t ← rdU32 frame off.toNat
        let ln ← rdU32 frame (off.toNat + 4)
        if ln > total ∨ off + 8 + ln > total then some (none, 0)
        else if t = type then some (some (off.toNat + 8), ln)
        else tlvFindLoop frame type total turns (off + (8 + ln))
      else some (none, 0)

/-- `tlv_find` with the pointer and the length that it returns. -/
def tlvFindAt (frame : List UInt8) (type : UInt32) : Option (Option Nat × UInt32) := do
  let total ← rdU32 frame 12
  tlvFindLoop frame type total (total.toNat + 1) 40

def pointedAt (frame : List UInt8) (result : Option Nat × UInt32) : Option (List UInt8) :=
  result.1.map fun offset => (frame.drop offset).take result.2.toNat

theorem tlvFind_eq_pointedAt (frame : List UInt8) (type : UInt32) :
    tlvFind frame type = (tlvFindAt frame type).map (pointedAt frame) := by
  have loops : ∀ total turns off, tlvWalk frame type total turns off =
      (tlvFindLoop frame type total turns off).map (pointedAt frame) := by
    intro total turns
    induction turns with
    | zero => exact fun _ => rfl
    | succ turns ih =>
        intro off
        unfold tlvWalk tlvFindLoop
        split
        · cases rdU32 frame off.toNat with
          | none => rfl
          | some t =>
              cases rdU32 frame (off.toNat + 4) with
              | none => rfl
              | some ln =>
                  simp only [Option.bind_eq_bind, Option.bind_some]
                  split
                  · rfl
                  · split
                    · rfl
                    · exact ih _
        · rfl
  rw [tlvFind, tlvFindAt]
  cases rdU32 frame 12 with
  | none => rfl
  | some total => exact loops total _ 40

/-! ## The list of entries -/

/-- One entry: the offset is that of its payload. -/
structure TlvEntry where
  type : UInt32
  offset : Nat
  len : UInt32

/-- The entries from an offset on, up to the first one that does not fit. -/
inductive Entries (frame : List UInt8) : Nat → List TlvEntry → Prop where
  | done {off : Nat} (past : frame.length < off + 8) : Entries frame off []
  | lying {off : Nat} {ln : UInt32} (room : off + 8 ≤ frame.length)
      (declared : rdU32 frame (off + 4) = some ln)
      (past : frame.length < off + 8 + ln.toNat) : Entries frame off []
  | entry {off : Nat} {t ln : UInt32} {rest : List TlvEntry} (room : off + 8 ≤ frame.length)
      (typed : rdU32 frame off = some t) (declared : rdU32 frame (off + 4) = some ln)
      (fits : off + 8 + ln.toNat ≤ frame.length) (others : Entries frame (off + 8 + ln.toNat) rest) :
      Entries frame off (⟨t, off + 8, ln⟩ :: rest)

namespace Entries

variable {frame : List UInt8} {off : Nat} {entries : List TlvEntry}

theorem exists_of (frame : List UInt8) (off : Nat) : ∃ entries, Entries frame off entries := by
  induction left : frame.length - off using Nat.strong_induction_on generalizing off with
  | h left ih =>
      by_cases room : off + 8 ≤ frame.length
      · obtain ⟨t, typed⟩ : ∃ t, rdU32 frame off = some t := read32_defined (by omega)
        obtain ⟨ln, declared⟩ : ∃ ln, rdU32 frame (off + 4) = some ln := read32_defined (by omega)
        by_cases fits : off + 8 + ln.toNat ≤ frame.length
        · obtain ⟨rest, others⟩ := ih _ (by omega) (off + 8 + ln.toNat) rfl
          exact ⟨_, .entry room typed declared fits others⟩
        · exact ⟨[], .lying room declared (Nat.lt_of_not_le fits)⟩
      · exact ⟨[], .done (Nat.lt_of_not_le room)⟩

theorem unique {other : List TlvEntry} (first : Entries frame off entries)
    (second : Entries frame off other) : entries = other := by
  induction first generalizing other with
  | done past =>
      cases second with
      | done => rfl
      | lying => rfl
      | entry room => exact absurd room (Nat.not_le.mpr past)
  | lying room declared past =>
      cases second with
      | done => rfl
      | lying => rfl
      | entry _ _ same fits =>
          rw [declared] at same
          cases same
          exact absurd fits (Nat.not_le.mpr past)
  | entry room typed declared fits others ih =>
      cases second with
      | done past => exact absurd room (Nat.not_le.mpr past)
      | lying _ same past =>
          rw [declared] at same
          cases same
          exact absurd fits (Nat.not_le.mpr past)
      | entry _ sameType same _ rest =>
          rw [declared] at same
          cases same
          rw [typed] at sameType
          cases sameType
          rw [ih rest]

theorem bounds (walk : Entries frame off entries) :
    ∀ entry ∈ entries, off + 8 ≤ entry.offset ∧
      entry.offset + entry.len.toNat ≤ frame.length := by
  induction walk with
  | done => nofun
  | lying => nofun
  | entry room _ _ fits _ ih =>
      intro entry member
      rcases List.mem_cons.mp member with rfl | later
      · exact ⟨Nat.le_refl _, fits⟩
      · obtain ⟨behind, inside⟩ := ih entry later
        exact ⟨by omega, inside⟩

end Entries

def firstOf (entries : List TlvEntry) (type : UInt32) : Option Nat × UInt32 :=
  match entries.find? fun entry => entry.type = type with
  | some entry => (some entry.offset, entry.len)
  | none => (none, 0)

/-! ## The search walks the list -/

theorem tlvFindLoop_eq {frame : List UInt8} {total : UInt32} (type : UInt32)
    (whole : total.toNat = frame.length) (most : frame.length ≤ tlvMaxFrame)
    {entries : List TlvEntry} {start : Nat} (walk : Entries frame start entries) {turns : Nat}
    {off : UInt32} (here : off.toNat = start) (inside : start ≤ frame.length)
    (left : frame.length - start < turns) :
    tlvFindLoop frame type total turns off = some (firstOf entries type) := by
  rw [← whole] at most
  induction walk generalizing turns off with
  | done past =>
      obtain ⟨turns, rfl⟩ := Nat.exists_eq_succ_of_ne_zero (Nat.ne_zero_of_lt left)
      have room := mt (room_iff most (by omega)).mp (show ¬ off.toNat + 8 ≤ total.toNat by omega)
      rw [tlvFindLoop, if_neg room]
      rfl
  | lying room declared past =>
      obtain ⟨turns, rfl⟩ := Nat.exists_eq_succ_of_ne_zero (Nat.ne_zero_of_lt left)
      subst here
      rw [← whole] at room past
      obtain ⟨t, typed⟩ : ∃ t, rdU32 frame off.toNat = some t := read32_defined (by omega)
      rw [tlvFindLoop, if_pos ((room_iff most (by omega)).mpr room)]
      simp only [typed, declared, Option.bind_eq_bind, Option.bind_some]
      rw [if_pos ((lying_iff most room).mpr past)]
      rfl
  | @entry start t ln rest room typed declared fits others ih =>
      obtain ⟨turns, rfl⟩ := Nat.exists_eq_succ_of_ne_zero (Nat.ne_zero_of_lt left)
      subst here
      rw [← whole] at room fits
      have honest := mt (lying_iff most room).mp (Nat.not_lt.mpr fits)
      rw [tlvFindLoop, if_pos ((room_iff most (by omega)).mpr room)]
      simp only [typed, declared, Option.bind_eq_bind, Option.bind_some]
      rw [if_neg honest, firstOf, List.find?_cons]
      by_cases same : t = type
      · simp [same]
      · have next : (off + (8 + ln)).toNat = off.toNat + 8 + ln.toNat := by
          rw [← UInt32.add_assoc]
          exact entry_end most room (by omega)
        rw [if_neg same, ih next (by omega) (by omega), firstOf]
        simp [same]

/-! ## Frames that are built from a list -/

def encodeTlv (entry : UInt32 × List UInt8) : List UInt8 :=
  bytes32 entry.1 ++ bytes32 (UInt32.ofNat entry.2.length) ++ entry.2

def encodeTlvs (list : List (UInt32 × List UInt8)) : List UInt8 := list.flatMap encodeTlv

def frameOf (front back : List UInt8) (list : List (UInt32 × List UInt8)) : List UInt8 :=
  front ++ (bytes32 (UInt32.ofNat (tlvHdrLen + (encodeTlvs list).length)) ++
    (back ++ encodeTlvs list))

theorem encodeTlv_length (entry : UInt32 × List UInt8) :
    (encodeTlv entry).length = 8 + entry.2.length := by
  rw [encodeTlv, List.length_append, List.length_append, bytes32_length, bytes32_length]

/-- The header of an entry is read back, and its payload stands behind it. -/
theorem encoded_entry (before : List UInt8) (entry : UInt32 × List UInt8) (after : List UInt8)
    (short : entry.2.length < 2 ^ 32) :
    let frame := (before ++ encodeTlv entry) ++ after
    let ln := UInt32.ofNat entry.2.length
    rdU32 frame before.length = some entry.1 ∧ rdU32 frame (before.length + 4) = some ln ∧
      ln.toNat = entry.2.length ∧ (frame.drop (before.length + 8)).take ln.toNat = entry.2 := by
  intro frame ln
  have value : ln.toNat = entry.2.length := by
    rw [UInt32.toNat_ofNat']
    exact Nat.mod_eq_of_lt short
  have typed : frame = before ++ (bytes32 entry.1 ++ (bytes32 ln ++ (entry.2 ++ after))) := by
    simp [frame, ln, encodeTlv]
  have declared : frame = (before ++ bytes32 entry.1) ++ (bytes32 ln ++ (entry.2 ++ after)) := by
    rw [typed, List.append_assoc]
  have behind : frame = (before ++ bytes32 entry.1 ++ bytes32 ln) ++ (entry.2 ++ after) := by
    rw [declared, List.append_assoc (before ++ bytes32 entry.1)]
  refine ⟨?_, ?_, value, ?_⟩
  · rw [typed]
    exact read32_bytes _ _ _
  · have size : (before ++ bytes32 entry.1).length = before.length + 4 := List.length_append
    rw [declared, ← size]
    exact read32_bytes _ _ _
  · have size : (before ++ bytes32 entry.1 ++ bytes32 ln).length = before.length + 8 := by
      rw [List.length_append, List.length_append]
      rfl
    rw [behind, List.drop_left' size, List.take_left' value.symm]

/-- The entries of the list are the ones that were written, with their payloads. -/
theorem entries_encoded (before : List UInt8) (list : List (UInt32 × List UInt8))
    (fits : (before ++ encodeTlvs list).length ≤ tlvMaxFrame) :
    ∃ entries, Entries (before ++ encodeTlvs list) before.length entries ∧
      ∀ type, pointedAt (before ++ encodeTlvs list) (firstOf entries type) =
        (list.find? fun entry => entry.1 = type).map Prod.snd := by
  have limit : tlvMaxFrame = 2048 := rfl
  induction list generalizing before with
  | nil =>
      refine ⟨[], .done (by simp [encodeTlvs]), fun type => rfl⟩
  | cons entry list ih =>
      have split : before ++ encodeTlvs (entry :: list) =
          (before ++ encodeTlv entry) ++ encodeTlvs list := by
        rw [encodeTlvs, List.flatMap_cons, ← encodeTlvs, List.append_assoc]
      have grown : (before ++ encodeTlv entry).length = before.length + 8 + entry.2.length := by
        rw [List.length_append, encodeTlv_length, Nat.add_assoc]
      rw [split] at fits ⊢
      obtain ⟨rest, others, finds⟩ := ih (before ++ encodeTlv entry) fits
      rw [List.length_append, grown] at fits
      obtain ⟨typed, declared, value, payload⟩ :=
        encoded_entry before entry (encodeTlvs list) (by omega)
      rw [grown, ← value] at others
      refine ⟨_, .entry ?_ typed declared ?_ others, fun type => ?_⟩
      · rw [List.length_append, grown]
        omega
      · rw [List.length_append, grown]
        omega
      · rw [firstOf, List.find?_cons, List.find?_cons]
        by_cases same : entry.1 = type
        · simp only [same, decide_true, pointedAt, Option.map_some, payload]
        · simp only [same, decide_false]
          exact finds type

theorem frameOf_declares {front back : List UInt8} {list : List (UInt32 × List UInt8)}
    (first : front.length = 12) (second : back.length = 24)
    (fits : tlvHdrLen + (encodeTlvs list).length ≤ tlvMaxFrame) :
    (frameOf front back list).length = tlvHdrLen + (encodeTlvs list).length ∧
      (rdU32 (frameOf front back list) 12).map UInt32.toNat =
        some (frameOf front back list).length := by
  have limit : tlvMaxFrame = 2048 := rfl
  have length : (frameOf front back list).length = tlvHdrLen + (encodeTlvs list).length := by
    have header : tlvHdrLen = 40 := rfl
    simp only [frameOf, List.length_append, first, second, bytes32_length]
    omega
  have read : rdU32 (frameOf front back list) front.length =
      some (UInt32.ofNat (tlvHdrLen + (encodeTlvs list).length)) := read32_bytes _ _ _
  refine ⟨length, ?_⟩
  rw [← first, read, length, Option.map_some, UInt32.toNat_ofNat']
  exact congrArg some (Nat.mod_eq_of_lt (by omega))

/-- On a frame of a size that the reassembler admits, the search returns the first entry. -/
theorem tlvFindAt_eq {frame : List UInt8}
    (declares : (rdU32 frame 12).map UInt32.toNat = some frame.length)
    (least : tlvHdrLen ≤ frame.length) (most : frame.length ≤ tlvMaxFrame)
    {entries : List TlvEntry} (walk : Entries frame tlvHdrLen entries) (type : UInt32) :
    tlvFindAt frame type = some (firstOf entries type) := by
  obtain ⟨total, read, whole⟩ := Option.map_eq_some_iff.mp declares
  rw [tlvFindAt, read]
  exact tlvFindLoop_eq type whole most walk rfl least (by omega)

/--
`tlv_find` ends on every frame whose header declares its length, reads nothing
past it, and returns the first entry of the type among those that fit, or a
null pointer and zero.  In a frame that is built from a list it finds the
payload of the first pair of that type.
-/
theorem tlvFind_first {frame : List UInt8}
    (declares : (rdU32 frame 12).map UInt32.toNat = some frame.length)
    (least : tlvHdrLen ≤ frame.length) (most : frame.length ≤ tlvMaxFrame) :
    (∃ entries, Entries frame tlvHdrLen entries ∧
      (∀ other, Entries frame tlvHdrLen other → other = entries) ∧
      (∀ entry ∈ entries, 48 ≤ entry.offset ∧
        entry.offset + entry.len.toNat ≤ frame.length) ∧
      ∀ type, tlvFindAt frame type = some (firstOf entries type) ∧
        tlvFind frame type = some (pointedAt frame (firstOf entries type))) ∧
    ∀ front back list, front.length = 12 → back.length = 24 →
      tlvHdrLen + (encodeTlvs list).length ≤ tlvMaxFrame →
      ∀ type, tlvFind (frameOf front back list) type =
        some ((list.find? fun entry => entry.1 = type).map Prod.snd) := by
  constructor
  · obtain ⟨entries, walk⟩ := Entries.exists_of frame tlvHdrLen
    refine ⟨entries, walk, fun other second => second.unique walk, walk.bounds, fun type => ?_⟩
    have found := tlvFindAt_eq declares least most walk type
    rw [tlvFind_eq_pointedAt, found]
    exact ⟨rfl, rfl⟩
  · intro front back list first second fits type
    obtain ⟨length, written⟩ := @frameOf_declares front back list first second fits
    have header : tlvHdrLen = 40 := rfl
    let before := front ++
      (bytes32 (UInt32.ofNat (tlvHdrLen + (encodeTlvs list).length)) ++ back)
    have split : frameOf front back list = before ++ encodeTlvs list := by
      simp [frameOf, before]
    have size : before.length = tlvHdrLen := by
      have sizes := congrArg List.length split
      rw [length, List.length_append] at sizes
      omega
    obtain ⟨entries, walk, finds⟩ := entries_encoded before list (by rw [← split]; omega)
    rw [← split, size] at walk
    have found := tlvFindAt_eq written (by omega) (by omega) walk type
    rw [tlvFind_eq_pointedAt, found, Option.map_some, split, finds]


def twoEntries : List UInt8 :=
  frameOf (List.replicate 12 0) (List.replicate 24 0) [(301, []), (308, [1, 2, 3])]

theorem tlvFind_first_twoEntries :
    (∃ entries, Entries twoEntries tlvHdrLen entries ∧
      (∀ other, Entries twoEntries tlvHdrLen other → other = entries) ∧
      (∀ entry ∈ entries, 48 ≤ entry.offset ∧
        entry.offset + entry.len.toNat ≤ twoEntries.length) ∧
      ∀ type, tlvFindAt twoEntries type = some (firstOf entries type) ∧
        tlvFind twoEntries type = some (pointedAt twoEntries (firstOf entries type))) ∧
      tlvFind twoEntries 308 = some (some [1, 2, 3]) := by
  have declares : (rdU32 twoEntries 12).map UInt32.toNat = some twoEntries.length := by decide
  obtain ⟨search, built⟩ := tlvFind_first declares (by decide) (by decide)
  exact ⟨search, built _ _ [(301, []), (308, [1, 2, 3])] rfl rfl (by decide) 308⟩

end PresenceNode.Tlv
