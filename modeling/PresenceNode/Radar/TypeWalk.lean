import Mathlib.Algebra.Order.BigOperators.Group.List
import Mathlib.Algebra.Order.Ring.Int
import PresenceNode.Tlv.Decode

/-!
# The type report of `on_frame`

The two walks of the report step over each entry with its own length and
nothing else, in 32 bits.  A length close to 2^32 takes the walk back to where
it was or before it, or past the end with a sum that wraps in the check as
well.

The entries that follow one another in the frame are read off its bytes in
natural numbers.  The walk stays in the frame and goes forward exactly when it
steps over no entry that takes it back, and then it visits these entries.
-/

namespace PresenceNode.Radar

open Library Tlv

/-- One turn of a walk: the offset read at, and the type and length found if that is in the frame. -/
structure Turn where
  off : UInt32
  entry : Option (UInt32 × UInt32)
  deriving DecidableEq

def readEntry (frame : List UInt8) (off : UInt32) : Option (UInt32 × UInt32) := do
  let t ← rdU32 frame off.toNat
  let l ← rdU32 frame (off.toNat + 4)
  some (t, l)

/-- A walk with `left` turns to go; nothing is said of it after a read outside the frame. -/
def typeWalk (frame : List UInt8) (totalLen : UInt32) : Nat → UInt32 → List Turn
  | 0, _ => []
  | left + 1, off =>
      if off + 8 ≤ totalLen then
        match readEntry frame off with
        | some (t, l) => ⟨off, some (t, l)⟩ :: typeWalk frame totalLen left (off + (8 + l))
        | none => [⟨off, none⟩]
      else []

def typeMask (walk : List Turn) : Option UInt32 :=
  walk.foldlM (fun (mask : UInt32) turn => turn.entry.map fun entry =>
    mask ||| ((1 : UInt32) <<< ((entry.1 - 300) &&& 31))) 0

/-- What the report leaves in `types_seen`, and the walks that it took. -/
structure TypeReport where
  typesSeen : UInt32
  walks : List (List Turn)

def frameWalk (frame : List UInt8) (h : TlvHeader) : List Turn :=
  typeWalk frame h.totalLen h.numTlvs.toNat 40

/-- The report of `on_frame`, undefined when a walk reads outside the frame. -/
def reportTypes (typesSeen : UInt32) (frame : List UInt8) : Option TypeReport := do
  let h ← tlvHeaderGet frame
  let mask ← typeMask (frameWalk frame h)
  if mask &&& ~~~typesSeen ≠ 0 then
    some { typesSeen := typesSeen ||| mask, walks := [frameWalk frame h, frameWalk frame h] }
  else
    some { typesSeen := typesSeen, walks := [frameWalk frame h] }

/-- A walk that stays in a frame of this length, goes forward, and ends in time. -/
structure Contained (length : Nat) (walk : List Turn) : Prop where
  inside : ∀ turn ∈ walk, tlvHdrLen ≤ turn.off.toNat ∧ turn.off.toNat + 8 ≤ length
  forward : walk.Pairwise fun first second => first.off < second.off
  short : walk.length ≤ (length - tlvHdrLen) / 8

/-- An entry in a frame, with the offset of its header. -/
structure TypeEntry where
  off : Nat
  type : UInt32
  len : UInt32

namespace TypeEntry

/-- The length takes the walk back, or past the end without the check noticing. -/
def Returns (entry : TypeEntry) : Prop :=
  2 ^ 32 ≤ entry.off + entry.len.toNat + 16 ∧ entry.len.toNat + 8 ≤ 2 ^ 32

/-- The length as a number: -7 to -1 where it moves the walk by less than eight bytes. -/
def signedLen (entry : TypeEntry) : Int :=
  if 2 ^ 32 < entry.len.toNat + 8 then (entry.len.toNat : Int) - 2 ^ 32 else entry.len.toNat

def next (entry : TypeEntry) : Nat :=
  if 2 ^ 32 < entry.len.toNat + 8 then entry.off + (entry.len.toNat + 8 - 2 ^ 32)
  else entry.off + 8 + entry.len.toNat

structure StandsIn (frame : List UInt8) (entry : TypeEntry) : Prop where
  room : entry.off + 8 ≤ frame.length
  typed : rdU32 frame entry.off = some entry.type
  declared : rdU32 frame (entry.off + 4) = some entry.len

def turn (entry : TypeEntry) : Turn :=
  ⟨UInt32.ofNat entry.off, some (entry.type, entry.len)⟩

theorem lt_next (entry : TypeEntry) : entry.off < entry.next := by
  rw [next]
  split <;> omega

theorem next_eq (entry : TypeEntry) : (entry.next : Int) = entry.off + 8 + entry.signedLen := by
  have bound := entry.len.toNat_lt
  rw [next, signedLen]
  split <;> omega

end TypeEntry

/-- The entries of a frame from an offset on, up to the end or to an entry that returns. -/
inductive TypeEntries (frame : List UInt8) : Nat → List TypeEntry → Prop
  | done {off : Nat} (past : frame.length < off + 8) : TypeEntries frame off []
  | astray {entry : TypeEntry} (stands : entry.StandsIn frame) (returns : entry.Returns) :
      TypeEntries frame entry.off [entry]
  | step {entry : TypeEntry} {rest : List TypeEntry} (stands : entry.StandsIn frame)
      (onward : ¬ entry.Returns) (others : TypeEntries frame entry.next rest) :
      TypeEntries frame entry.off (entry :: rest)

/-- With `left` turns to go none of the entries that are stepped over returns. -/
def Onward (left : Nat) (entries : List TypeEntry) : Prop :=
  ∀ entry ∈ entries.take (left - 1), ¬ entry.Returns

/-- The lengths of the entries stepped over, and the bytes behind the last header. -/
def spare (length : Nat) (visited : List TypeEntry) : Int :=
  (visited.dropLast.map TypeEntry.signedLen).sum +
    match visited.getLast? with
    | some last => (length : Int) - (last.off + 8)
    | none => 0

namespace TypeEntries

variable {frame : List UInt8} {off : Nat} {entries : List TypeEntry}

theorem stands_unique {first second : TypeEntry} (one : first.StandsIn frame)
    (two : second.StandsIn frame) (same : first.off = second.off) : first = second := by
  obtain ⟨_, typed, declared⟩ := one
  obtain ⟨_, typedToo, declaredToo⟩ := two
  rw [same] at typed declared
  cases first
  cases second
  cases same
  cases typed.symm.trans typedToo
  cases declared.symm.trans declaredToo
  rfl

theorem exists_of (frame : List UInt8) (off : Nat) : ∃ entries, TypeEntries frame off entries := by
  induction left : frame.length - off using Nat.strong_induction_on generalizing off with
  | h left ih =>
      by_cases room : off + 8 ≤ frame.length
      · obtain ⟨t, typed⟩ : ∃ t, rdU32 frame off = some t := LittleEndian.read32_defined (by omega)
        obtain ⟨l, declared⟩ : ∃ l, rdU32 frame (off + 4) = some l :=
          LittleEndian.read32_defined (by omega)
        let entry : TypeEntry := ⟨off, t, l⟩
        have stands : entry.StandsIn frame := ⟨room, typed, declared⟩
        have further : off < entry.next := entry.lt_next
        by_cases returns : entry.Returns
        · exact ⟨[entry], .astray stands returns⟩
        · obtain ⟨rest, others⟩ := ih _ (by omega) entry.next rfl
          exact ⟨entry :: rest, .step stands returns others⟩
      · exact ⟨[], .done (Nat.lt_of_not_le room)⟩

theorem unique {other : List TypeEntry} (first : TypeEntries frame off entries)
    (second : TypeEntries frame off other) : other = entries := by
  induction first generalizing other with
  | done past =>
      cases second with
      | done => rfl
      | astray stands => exact absurd stands.room (Nat.not_le.mpr past)
      | step stands => exact absurd stands.room (Nat.not_le.mpr past)
  | @astray entry stands returns =>
      generalize here : entry.off = off at second
      cases second with
      | done past =>
          have room := stands.room
          omega
      | astray standsToo => rw [stands_unique stands standsToo here]
      | step standsToo onward =>
          rw [stands_unique stands standsToo here] at returns
          exact absurd returns onward
  | @step entry rest stands onward others ih =>
      generalize here : entry.off = off at second
      cases second with
      | done past =>
          have room := stands.room
          omega
      | astray standsToo returns =>
          rw [stands_unique stands standsToo here] at onward
          exact absurd returns onward
      | step standsToo _ restToo =>
          cases stands_unique stands standsToo here
          rw [ih restToo]

theorem forward (listed : TypeEntries frame off entries) :
    (∀ entry ∈ entries, off ≤ entry.off ∧ entry.off + 8 ≤ frame.length) ∧
      entries.Pairwise fun first second => first.off < second.off := by
  induction listed with
  | done => exact ⟨nofun, List.Pairwise.nil⟩
  | astray stands =>
      refine ⟨fun entry member => ?_, List.pairwise_singleton _ _⟩
      rw [List.mem_singleton.mp member]
      exact ⟨Nat.le_refl _, stands.room⟩
  | @step entry rest stands _ _ ih =>
      obtain ⟨inside, increasing⟩ := ih
      have further := entry.lt_next
      refine ⟨fun other member => ?_, List.pairwise_cons.mpr ⟨fun other member => ?_, increasing⟩⟩
      · rcases List.mem_cons.mp member with rfl | later
        · exact ⟨Nat.le_refl _, stands.room⟩
        · obtain ⟨beyond, room⟩ := inside other later
          exact ⟨by omega, room⟩
      · obtain ⟨beyond, _⟩ := inside other member
        omega

theorem telescopes (listed : TypeEntries frame off entries) {left : Nat} {last : TypeEntry}
    (ends : (entries.take left).getLast? = some last) :
    ((entries.take left).dropLast.map TypeEntry.signedLen).sum +
      8 * ((entries.take left).length : Int) = last.off + 8 - off := by
  induction listed generalizing left with
  | done => simp at ends
  | @astray entry stands returns =>
      cases left with
      | zero => cases ends
      | succ left =>
          rw [List.take_succ_cons, List.take_nil] at ends ⊢
          cases ends
          simp
  | @step entry rest stands onward others ih =>
      cases left with
      | zero => cases ends
      | succ left =>
          rw [List.take_succ_cons] at ends ⊢
          cases later : rest.take left with
          | nil =>
              rw [later] at ends
              cases ends
              simp
          | cons second more =>
              rw [later, List.getLast?_cons_cons] at ends
              have sum := ih (by rw [later]; exact ends)
              have moved := entry.next_eq
              rw [later] at sum
              simp only [List.dropLast_cons_cons, List.map_cons, List.sum_cons,
                List.length_cons] at sum ⊢
              push_cast at sum ⊢
              omega

/-- What is spare is what the frame has left after eight bytes for each entry. -/
theorem spare_eq (listed : TypeEntries frame off entries) (left : Nat)
    (visits : entries.take left ≠ []) :
    spare frame.length (entries.take left) =
      (frame.length : Int) - off - 8 * (entries.take left).length := by
  have ends := List.getLast?_eq_some_getLast visits
  have sum := listed.telescopes ends
  rw [spare, ends]
  simp only
  omega

theorem spare_nonneg (listed : TypeEntries frame off entries) (left : Nat)
    (plain : ∀ entry ∈ entries.take left, entry.len.toNat + 8 ≤ 2 ^ 32) :
    0 ≤ spare frame.length (entries.take left) := by
  have lengths : 0 ≤ ((entries.take left).dropLast.map TypeEntry.signedLen).sum := by
    refine List.sum_nonneg fun length member => ?_
    obtain ⟨entry, visited, rfl⟩ := List.mem_map.mp member
    rw [TypeEntry.signedLen,
      if_neg (Nat.not_lt.mpr (plain entry (List.dropLast_subset _ visited)))]
    exact Int.natCast_nonneg _
  rw [spare]
  cases ends : (entries.take left).getLast? with
  | none => simpa using lengths
  | some last =>
      have room := (listed.forward.1 last (List.mem_of_mem_take (List.mem_of_getLast? ends))).2
      simp only
      omega

end TypeEntries

section Walk

variable {frame : List UInt8} {total off : UInt32} {left : Nat}

/-- The offsets at which the check of the loop does not wrap. -/
def Level (off : UInt32) : Prop := tlvHdrLen ≤ off.toNat ∧ off.toNat + 8 < 2 ^ 32

theorem level_check (level : Level off) : off + 8 ≤ total ↔ off.toNat + 8 ≤ total.toNat := by
  rw [UInt32.le_iff_toNat_le, UInt32.toNat_add]
  change (off.toNat + 8) % 2 ^ 32 ≤ _ ↔ _
  rw [Nat.mod_eq_of_lt level.2]

theorem readEntry_defined (inside : off.toNat + 8 ≤ frame.length) :
    ∃ t l, readEntry frame off = some (t, l) := by
  obtain ⟨t, foundType⟩ := LittleEndian.read32_defined
    (show off.toNat + 4 ≤ frame.length by omega)
  obtain ⟨l, foundLen⟩ := LittleEndian.read32_defined
    (show off.toNat + 4 + 4 ≤ frame.length by omega)
  exact ⟨t, l, by simp only [readEntry, rdU32, foundType, foundLen, Option.bind_eq_bind,
    Option.bind_some]⟩

/-- The sum that a turn computes, wrapped once at most when the walk is in a short frame. -/
theorem next_toNat (off l : UInt32) :
    (off + (8 + l)).toNat = (off.toNat + 8 + l.toNat) % 2 ^ 32 := by
  rw [← UInt32.add_assoc, UInt32.toNat_add, UInt32.toNat_add, Nat.mod_add_mod]
  rfl

/-- An entry that does not return leads to the entry behind it, at a level offset. -/
theorem next_level {entry : TypeEntry} (here : off.toNat = entry.off) (level : Level off)
    (small : off.toNat + 16 < 2 ^ 32) (onward : ¬ entry.Returns) :
    Level (off + (8 + entry.len)) ∧ (off + (8 + entry.len)).toNat = entry.next := by
  have bound := entry.len.toNat_lt
  obtain ⟨least, most⟩ := level
  have next := next_toNat off entry.len
  unfold TypeEntry.next
  by_cases far : 2 ^ 32 < entry.len.toNat + 8
  · have value : (off + (8 + entry.len)).toNat = off.toNat + 8 + entry.len.toNat - 2 ^ 32 := by
      rw [next, Nat.mod_eq_sub_mod (by omega), Nat.mod_eq_of_lt (by omega)]
    rw [if_pos far]
    exact ⟨⟨by omega, by omega⟩, by omega⟩
  · have straight : ¬ 2 ^ 32 ≤ entry.off + entry.len.toNat + 16 :=
      fun wraps => onward ⟨wraps, Nat.le_of_not_lt far⟩
    have value : (off + (8 + entry.len)).toNat = off.toNat + 8 + entry.len.toNat := by
      rw [next, Nat.mod_eq_of_lt (by omega)]
    rw [if_neg far]
    exact ⟨⟨by omega, by omega⟩, by omega⟩

/-- At an entry the walk takes a turn and goes on behind it. -/
theorem typeWalk_entry {entry : TypeEntry} (whole : total.toNat = frame.length)
    (stands : entry.StandsIn frame) (here : off.toNat = entry.off) (level : Level off)
    (left : Nat) :
    typeWalk frame total (left + 1) off =
      entry.turn :: typeWalk frame total left (off + (8 + entry.len)) := by
  have room := stands.room
  have found : readEntry frame off = some (entry.type, entry.len) := by
    simp only [readEntry, here, stands.typed, stands.declared, Option.bind_eq_bind,
      Option.bind_some]
  have same : UInt32.ofNat entry.off = off := by
    rw [← here, UInt32.ofNat_toNat]
  rw [typeWalk, if_pos ((level_check level).mpr (by omega)), found, TypeEntry.turn, same]

theorem typeWalk_past (whole : total.toNat = frame.length) (past : frame.length < off.toNat + 8)
    (level : Level off) (left : Nat) : typeWalk frame total left off = [] := by
  cases left with
  | zero => rfl
  | succ left => rw [typeWalk, if_neg (mt (level_check level).mp (by omega))]

theorem onward_cons {entry : TypeEntry} {rest : List TypeEntry} :
    Onward (left + 2) (entry :: rest) ↔ ¬ entry.Returns ∧ Onward (left + 1) rest := by
  rw [Onward, Nat.add_sub_cancel (m := 1), List.take_succ_cons, List.forall_mem_cons, Onward,
    Nat.add_sub_cancel]

/-- While no entry that is stepped over returns, the walk visits the entries of the list. -/
theorem typeWalk_onward (whole : total.toNat = frame.length) (most : frame.length ≤ tlvMaxFrame)
    {start : Nat} {entries : List TypeEntry} (listed : TypeEntries frame start entries)
    (here : off.toNat = start) (level : Level off) (steady : Onward left entries) :
    typeWalk frame total left off = (entries.take left).map TypeEntry.turn := by
  have limit : tlvMaxFrame = 2048 := rfl
  induction listed generalizing off left with
  | done past =>
      rw [List.take_nil, List.map_nil]
      exact typeWalk_past whole (by omega) level left
  | @astray entry stands returns =>
      match left with
      | 0 => rfl
      | 1 => exact typeWalk_entry whole stands here level 0
      | left + 2 => exact absurd returns (onward_cons.mp steady).1
  | @step entry rest stands onward others ih =>
      have room := stands.room
      match left with
      | 0 => rfl
      | 1 => exact typeWalk_entry whole stands here level 0
      | left + 2 =>
          obtain ⟨levelNext, next⟩ := next_level here level (by omega) onward
          rw [typeWalk_entry whole stands here level, ih next levelNext (onward_cons.mp steady).2,
            List.take_succ_cons, List.map_cons]

theorem typeWalk_head (left : Nat) (check : off + 8 ≤ total) :
    ∃ entry rest, typeWalk frame total (left + 1) off = ⟨off, entry⟩ :: rest := by
  rw [typeWalk, if_pos check]
  cases readEntry frame off with
  | none => exact ⟨none, [], rfl⟩
  | some entry => exact ⟨_, _, rfl⟩

/-- An entry that returns and is stepped over takes the walk out of the frame, or back. -/
theorem returns_astray {entry : TypeEntry} (whole : total.toNat = frame.length)
    (most : frame.length ≤ tlvMaxFrame) (room : entry.off + 8 ≤ frame.length)
    (here : off.toNat = entry.off) (returns : entry.Returns) (left : Nat) :
    ∃ turn ∈ typeWalk frame total (left + 1) (off + (8 + entry.len)),
      frame.length < turn.off.toNat + 8 ∨ turn.off.toNat ≤ off.toNat := by
  have limit : tlvMaxFrame = 2048 := rfl
  obtain ⟨wraps, near⟩ := returns
  have next := next_toNat off entry.len
  have bound := entry.len.toNat_lt
  have plus8 : (off + (8 + entry.len) + 8).toNat =
      ((off + (8 + entry.len)).toNat + 8) % 2 ^ 32 := by
    rw [UInt32.toNat_add]
    rfl
  have placed : off + (8 + entry.len) + 8 ≤ total ∧
      (frame.length < (off + (8 + entry.len)).toNat + 8 ∨
        (off + (8 + entry.len)).toNat ≤ off.toNat) := by
    rw [UInt32.le_iff_toNat_le, plus8]
    by_cases past : 2 ^ 32 ≤ off.toNat + 8 + entry.len.toNat
    · have value : (off + (8 + entry.len)).toNat = off.toNat + 8 + entry.len.toNat - 2 ^ 32 := by
        rw [next, Nat.mod_eq_sub_mod past, Nat.mod_eq_of_lt (by omega)]
      rw [Nat.mod_eq_of_lt (by omega)]
      omega
    · have value : (off + (8 + entry.len)).toNat = off.toNat + 8 + entry.len.toNat := by
        rw [next, Nat.mod_eq_of_lt (by omega)]
      have wrapped : ((off + (8 + entry.len)).toNat + 8) % 2 ^ 32 =
          (off + (8 + entry.len)).toNat + 8 - 2 ^ 32 := by
        rw [Nat.mod_eq_sub_mod (by omega), Nat.mod_eq_of_lt (by omega)]
      omega
  obtain ⟨found, rest, expands⟩ := @typeWalk_head frame total _ left placed.1
  rw [expands]
  exact ⟨_, List.mem_cons_self .., placed.2⟩

/-- A walk that stays in the frame and goes forward has stepped over no entry that returns. -/
theorem onward_of_forward (whole : total.toNat = frame.length) (most : frame.length ≤ tlvMaxFrame)
    {start : Nat} {entries : List TypeEntry} (listed : TypeEntries frame start entries)
    (here : off.toNat = start) (level : Level off)
    (inside : ∀ turn ∈ typeWalk frame total left off, turn.off.toNat + 8 ≤ frame.length)
    (forward : (typeWalk frame total left off).Pairwise fun first second => first.off < second.off) :
    Onward left entries := by
  have limit : tlvMaxFrame = 2048 := rfl
  have few : ∀ entries : List TypeEntry, Onward 0 entries ∧ Onward 1 entries :=
    fun _ => ⟨nofun, nofun⟩
  induction listed generalizing off left with
  | done past =>
      intro entry member
      rw [List.take_nil] at member
      cases member
  | @astray entry stands returns =>
      match left with
      | 0 => exact (few _).1
      | 1 => exact (few _).2
      | left + 2 =>
          rw [typeWalk_entry whole stands here level] at inside forward
          obtain ⟨beyond, _⟩ := List.pairwise_cons.mp forward
          obtain ⟨turn, member, astray⟩ := returns_astray whole most stands.room here returns left
          have held := inside turn (List.mem_cons_of_mem _ member)
          have further := UInt32.lt_iff_toNat_lt.mp (beyond turn member)
          rw [TypeEntry.turn, ← here, UInt32.ofNat_toNat] at further
          change off.toNat < turn.off.toNat at further
          omega
  | @step entry rest stands onward others ih =>
      have room := stands.room
      match left with
      | 0 => exact (few _).1
      | 1 => exact (few _).2
      | left + 2 =>
          rw [typeWalk_entry whole stands here level] at inside forward
          obtain ⟨levelNext, next⟩ := next_level here level (by omega) onward
          exact onward_cons.mpr ⟨onward, ih next levelNext
            (fun turn member => inside turn (List.mem_cons_of_mem _ member))
            (List.pairwise_cons.mp forward).2⟩

theorem typeWalk_read {turn : Turn} (member : turn ∈ typeWalk frame total left off)
    (inside : turn.off.toNat + 8 ≤ frame.length) : ∃ entry, turn.entry = some entry := by
  induction left generalizing off with
  | zero => cases member
  | succ left ih =>
      rw [typeWalk] at member
      split at member
      · split at member
        · rcases List.mem_cons.mp member with rfl | later
          · exact ⟨_, rfl⟩
          · exact ih later
        · next missing =>
            rw [List.mem_singleton.mp member] at inside
            obtain ⟨t, l, found⟩ := readEntry_defined inside
            rw [missing] at found
            cases found
      · cases member

end Walk

theorem typeMask_defined {walk : List Turn} (read : ∀ turn ∈ walk, ∃ entry, turn.entry = some entry) :
    ∃ mask, typeMask walk = some mask := by
  unfold typeMask
  generalize (0 : UInt32) = mask
  induction walk generalizing mask with
  | nil => exact ⟨mask, rfl⟩
  | cons turn rest ih =>
      obtain ⟨entry, found⟩ := read turn (List.mem_cons_self ..)
      rw [List.foldlM_cons, found, Option.map_some]
      exact ih (fun other member => read other (List.mem_cons_of_mem _ member)) _

/-- The walk of a valid frame is contained exactly when it steps over nothing that returns. -/
theorem contained_iff {frame : List UInt8} (valid : ValidFrame frame) {h : TlvHeader}
    (whole : h.totalLen.toNat = frame.length) {entries : List TypeEntry}
    (listed : TypeEntries frame tlvHdrLen entries) :
    Contained frame.length (frameWalk frame h) ↔
      Onward h.numTlvs.toNat entries ∧
        0 ≤ spare frame.length (entries.take h.numTlvs.toNat) := by
  have level : Level 40 := ⟨by decide, by decide⟩
  have least := valid.least
  have limit : tlvMaxFrame = 2048 := rfl
  have most := valid.most
  have header : tlvHdrLen = 40 := rfl
  have visited : Onward h.numTlvs.toNat entries →
      frameWalk frame h = (entries.take h.numTlvs.toNat).map TypeEntry.turn :=
    typeWalk_onward whole valid.most listed rfl level
  have counts : 0 ≤ spare frame.length (entries.take h.numTlvs.toNat) ↔
      (entries.take h.numTlvs.toNat).length ≤ (frame.length - tlvHdrLen) / 8 := by
    by_cases visits : entries.take h.numTlvs.toNat = []
    · rw [visits]
      exact iff_of_true (Int.le_refl 0) (Nat.zero_le _)
    · rw [listed.spare_eq _ visits]
      omega
  constructor
  · intro contained
    have steady : Onward h.numTlvs.toNat entries :=
      onward_of_forward whole valid.most listed rfl level
        (fun turn member => (contained.inside turn member).2) contained.forward
    have short := contained.short
    rw [visited steady, List.length_map] at short
    exact ⟨steady, counts.mpr short⟩
  · rintro ⟨steady, room⟩
    rw [visited steady]
    obtain ⟨inside, increasing⟩ := listed.forward
    have place : ∀ entry ∈ entries, (UInt32.ofNat entry.off).toNat = entry.off := by
      intro entry member
      have bounds := inside entry member
      rw [UInt32.toNat_ofNat']
      exact Nat.mod_eq_of_lt (by omega)
    refine ⟨fun turn member => ?_, ?_, ?_⟩
    · obtain ⟨entry, taken, rfl⟩ := List.mem_map.mp member
      have bounds := inside entry (List.mem_of_mem_take taken)
      rw [TypeEntry.turn, place entry (List.mem_of_mem_take taken)]
      exact bounds
    · rw [List.pairwise_map]
      refine (increasing.sublist (List.take_sublist ..)).imp_of_mem
        fun first second further => UInt32.lt_iff_toNat_lt.mpr ?_
      rw [TypeEntry.turn, TypeEntry.turn, place _ (List.mem_of_mem_take first),
        place _ (List.mem_of_mem_take second)]
      exact further
    · rw [List.length_map]
      exact counts.mp room

/-- A walk that reads inside the frame makes the report. -/
theorem reportTypes_walks {frame : List UInt8} {h : TlvHeader} (read : tlvHeaderGet frame = some h)
    (reads : ∀ turn ∈ frameWalk frame h, ∃ entry, turn.entry = some entry) (typesSeen : UInt32) :
    ∃ report, reportTypes typesSeen frame = some report ∧
      ∀ walk ∈ report.walks, walk = frameWalk frame h := by
  obtain ⟨mask, masked⟩ := typeMask_defined reads
  simp only [reportTypes, read, masked, Option.bind_eq_bind, Option.bind_some]
  split
  · exact ⟨_, rfl, by simp⟩
  · exact ⟨_, rfl, by simp⟩

/-- The report stays inside a valid frame as long as it steps over nothing that returns. -/
theorem reportTypes_defined {frame : List UInt8} (valid : ValidFrame frame) {h : TlvHeader}
    (read : tlvHeaderGet frame = some h) {entries : List TypeEntry}
    (listed : TypeEntries frame tlvHdrLen entries) (steady : Onward h.numTlvs.toNat entries)
    (typesSeen : UInt32) : ∃ report, reportTypes typesSeen frame = some report := by
  obtain ⟨same, read', whole⟩ := tlvHeaderGet_defined valid
  cases read.symm.trans read'
  have visited : frameWalk frame h = (entries.take h.numTlvs.toNat).map TypeEntry.turn :=
    typeWalk_onward whole valid.most listed rfl ⟨by decide, by decide⟩ steady
  obtain ⟨report, made, _⟩ := reportTypes_walks read (fun turn member => by
    rw [visited] at member
    obtain ⟨entry, _, rfl⟩ := List.mem_map.mp member
    exact ⟨_, rfl⟩) typesSeen
  exact ⟨report, made⟩

/--
The report of a frame is made, with walks that read inside the frame, go
forward and end in time, exactly when no entry that is stepped over returns,
and entries with a length of 2^32 - 7 or more, which move the walk by less
than eight bytes, are made up for by others.  The entries are those that the
bytes of the frame say.
-/
theorem reportTypes_contained_iff {frame : List UInt8} (valid : ValidFrame frame)
    (typesSeen : UInt32) :
    ∃ h entries, tlvHeaderGet frame = some h ∧ TypeEntries frame tlvHdrLen entries ∧
      (∀ other, TypeEntries frame tlvHdrLen other → other = entries) ∧
      ((∃ report, reportTypes typesSeen frame = some report ∧
          ∀ walk ∈ report.walks, Contained frame.length walk) ↔
        (∀ entry ∈ entries.take (h.numTlvs.toNat - 1), ¬ entry.Returns) ∧
          0 ≤ spare frame.length (entries.take h.numTlvs.toNat)) ∧
      ((∀ entry ∈ entries.take h.numTlvs.toNat, entry.len.toNat + 8 ≤ 2 ^ 32) →
        0 ≤ spare frame.length (entries.take h.numTlvs.toNat)) := by
  obtain ⟨h, read, whole⟩ := tlvHeaderGet_defined valid
  obtain ⟨entries, listed⟩ := TypeEntries.exists_of frame tlvHdrLen
  refine ⟨h, entries, read, listed, fun other second => listed.unique second, ?_,
    listed.spare_nonneg _⟩
  change _ ↔ Onward h.numTlvs.toNat entries ∧ _
  rw [← contained_iff valid whole listed]
  constructor
  · rintro ⟨report, made, contained⟩
    apply contained
    simp only [reportTypes, read, Option.bind_eq_bind, Option.bind_some,
      Option.bind_eq_some_iff] at made
    obtain ⟨mask, _, made⟩ := made
    split at made <;> cases made <;> exact List.mem_cons_self ..
  · intro contained
    obtain ⟨report, made, same⟩ := reportTypes_walks read (fun turn member =>
      typeWalk_read member (contained.inside turn member).2) typesSeen
    exact ⟨report, made, fun walk member => same walk member ▸ contained⟩

/-- A frame of 48 bytes that announces two entries, of which the first has this length. -/
def entryFrame (l : List UInt8) : List UInt8 :=
  tlvMagic ++ [0, 0, 0, 0] ++ [48, 0, 0, 0] ++ List.replicate 16 0 ++ [2, 0, 0, 0] ++
    [0, 0, 0, 0] ++ [52, 1, 0, 0] ++ l

/-- The one entry that fits into such a frame, of no bytes. -/
theorem entryFrame_entries :
    TypeEntries (entryFrame [0, 0, 0, 0]) tlvHdrLen [⟨40, 308, 0⟩] := by
  have stands : TypeEntry.StandsIn (entryFrame [0, 0, 0, 0]) ⟨40, 308, 0⟩ :=
    ⟨by decide, by decide, by decide⟩
  exact .step stands (by simp [TypeEntry.Returns]) (.done (by decide))

theorem reportTypes_contained_empty :
    ∃ report, reportTypes 0 (entryFrame [0, 0, 0, 0]) = some report ∧
      ∀ walk ∈ report.walks, Contained (entryFrame [0, 0, 0, 0]).length walk := by
  obtain ⟨h, entries, read, _, only, contained, plain⟩ :=
    @reportTypes_contained_iff (entryFrame [0, 0, 0, 0])
      ⟨by decide, by decide, by decide, by decide⟩ 0
  obtain rfl := only _ entryFrame_entries
  refine contained.mpr ⟨fun entry member => ?_, plain fun entry member => ?_⟩
  · rw [List.mem_singleton.mp (List.mem_of_mem_take member)]
    simp [TypeEntry.Returns]
  · rw [List.mem_singleton.mp (List.mem_of_mem_take member)]
    decide

/-- A length of 2^32 - 8 takes the walk back to the entry that it has just read. -/
theorem reportTypes_stuck :
    ¬ ∀ (frame : List UInt8) (typesSeen : UInt32), ValidFrame frame →
      ∃ report, reportTypes typesSeen frame = some report ∧
        ∀ walk ∈ report.walks, Contained frame.length walk := by
  intro claimed
  obtain ⟨report, made, contained⟩ := claimed (entryFrame [0xF8, 0xFF, 0xFF, 0xFF]) 0
    ⟨by decide, by decide, by decide, by decide⟩
  have twice : (reportTypes 0 (entryFrame [0xF8, 0xFF, 0xFF, 0xFF])).map TypeReport.walks =
      some (List.replicate 2 (List.replicate 2 ⟨40, some (308, 0xFFFFFFF8)⟩)) := by
    decide +kernel
  rw [made, Option.map_some, Option.some.injEq] at twice
  have member : List.replicate 2 ⟨40, some (308, 0xFFFFFFF8)⟩ ∈ report.walks := by
    rw [twice]
    exact List.mem_cons_self ..
  have forward := (contained _ member).forward
  exact absurd forward (by decide)

end PresenceNode.Radar
