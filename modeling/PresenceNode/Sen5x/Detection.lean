import PresenceNode.Frame.Detection
import PresenceNode.Sen5x.Fault

/-!
# Disturbances of the sensor bus

`crc8` is a shift register of 8 bits over the two bytes of a word, and a word
fits when the register is empty after the checksum itself.  A word that was
disturbed on its way is told from the one that was sent, so that a disturbed
read is a failed one and leaves nothing in the window.
-/

namespace PresenceNode.Sen5x

open Library ShiftRegister PresenceNode.Frame

def crc8Poly : BitVec 8 := 0x31

def Exchange.bytes (x : Exchange) (i : Nat) : List UInt8 :=
  [x.raw (i * 3), x.raw (i * 3 + 1), x.raw (i * 3 + 2)]

/--
The places at which the bits of two words differ are few, or odd in number, or
close to each other.
-/
def Slight (sent got : List UInt8) : Prop :=
  (differing (bitsOf sent) (bitsOf got)).length ≤ 3 ∨
    Odd (differing (bitsOf sent) (bitsOf got)).length ∨ Burst 8 sent got

/-! ## The checksum is a shift register -/

theorem crc8Bit_toBitVec (crc : UInt8) :
    (crc8Bit crc).toBitVec = feed crc8Poly crc.toBitVec false := by
  have top : crc &&& 0x80 ≠ 0 ↔ crc.toBitVec.msb = true := by
    have masked : (crc &&& 0x80).toBitVec =
        if crc.toBitVec.getLsbD 7 then BitVec.twoPow 8 7 else 0#8 :=
      BitVec.and_twoPow crc.toBitVec 7
    rw [ne_eq, ← UInt8.toBitVec_inj, masked, BitVec.msb_eq_getLsbD_last]
    change _ ↔ crc.toBitVec.getLsbD 7 = true
    cases crc.toBitVec.getLsbD 7 <;> decide
  rw [crc8Bit, feed, Bool.xor_false]
  by_cases high : crc &&& 0x80 ≠ 0
  · rw [if_pos high, if_pos (top.mp high)]
    rfl
  · rw [if_neg high, if_neg fun set => high (top.mpr set)]
    rfl

theorem crc8Byte_toBitVec (crc byte : UInt8) :
    (crc8Byte crc byte).toBitVec = feedAll crc8Poly crc.toBitVec (leading byte.toBitVec 8) := by
  have turns : ∀ n (register : UInt8), (crc8Bit^[n] register).toBitVec =
      (fun state => feed crc8Poly state false)^[n] register.toBitVec := by
    intro n register
    induction n generalizing register with
    | zero => rfl
    | succ n ih =>
        rw [Function.iterate_succ_apply, Function.iterate_succ_apply, ih, crc8Bit_toBitVec]
  have word : (crc ^^^ byte).toBitVec = crc.toBitVec ^^^ byte.toBitVec := rfl
  rw [crc8Byte, turns, word, iterate_feed, BitVec.shiftLeft_eq_zero (Nat.le_refl 8),
    BitVec.xor_zero]

/-- The register that took the checksum as well is empty. -/
theorem Exchange.fits_iff (x : Exchange) (i : Nat) :
    x.fits i ↔ feedAll crc8Poly 0xFF (bitsOf (x.bytes i)) = 0#8 := by
  have split : bitsOf (x.bytes i) = leading (x.raw (i * 3)).toBitVec 8 ++
      (leading (x.raw (i * 3 + 1)).toBitVec 8 ++ leading (x.raw (i * 3 + 2)).toBitVec 8) := by
    simp [bitsOf, Exchange.bytes]
  have start : (0xFF : UInt8).toBitVec = 0xFF := rfl
  rw [split, feedAll_append, feedAll_append, feedAll_leading_eq_zero (by decide), ← start,
    ← crc8Byte_toBitVec, ← crc8Byte_toBitVec, UInt8.toBitVec_inj]
  rfl

/-- Two ones at most 24 bits apart never leave the register empty. -/
theorem crc8_apart : ∀ gap < 23,
    feedAll crc8Poly 0#8 (true :: List.replicate gap false ++ [true]) ≠ 0#8 := by
  decide +kernel

/-- A slight disturbance of a word that fits makes it fit no longer. -/
theorem Slight.detected {sent got : Exchange} {i : Nat} (fits : sent.fits i)
    (distinct : sent.bytes i ≠ got.bytes i) (slight : Slight (sent.bytes i) (got.bytes i)) :
    ¬ got.fits i := by
  have lengths : (bitsOf (sent.bytes i)).length = (bitsOf (got.bytes i)).length := by
    rw [bitsOf_length, bitsOf_length]
    rfl
  have size : (bitsOf (sent.bytes i)).length = 24 := bitsOf_length _
  have bits : bitsOf (sent.bytes i) ≠ bitsOf (got.bytes i) :=
    fun same => distinct (bitsOf_injective same)
  have odd : Odd (differing (bitsOf (sent.bytes i)) (bitsOf (got.bytes i))).length →
      feedAll crc8Poly 0xFF (bitsOf (sent.bytes i)) ≠
        feedAll crc8Poly 0xFF (bitsOf (got.bytes i)) :=
    fun many => feedAll_odd (by decide) lengths many _
  rw [Exchange.fits_iff] at fits ⊢
  rw [← fits]
  refine Ne.symm ?_
  rcases slight with few | many | ⟨start, burst⟩
  · obtain none | one | two | three :
        (differing (bitsOf (sent.bytes i)) (bitsOf (got.bytes i))).length = 0 ∨
        (differing (bitsOf (sent.bytes i)) (bitsOf (got.bytes i))).length = 1 ∨
        (differing (bitsOf (sent.bytes i)) (bitsOf (got.bytes i))).length = 2 ∨
        (differing (bitsOf (sent.bytes i)) (bitsOf (got.bytes i))).length = 3 := by
      omega
    · have nowhere : ∀ k ∈ differing (bitsOf (sent.bytes i)) (bitsOf (got.bytes i)),
          0 ≤ k ∧ k < 0 + 8 := by
        simp [List.length_eq_zero_iff.mp none]
      exact feedAll_burst (by decide) lengths bits nowhere _
    · exact odd (one ▸ by decide)
    · refine feedAll_two (by decide) lengths two ?_ _
      rw [size]
      exact crc8_apart
    · exact odd (three ▸ by decide)
  · exact odd many
  · exact feedAll_burst (by decide) lengths bits burst _

/-! ## Runs over a disturbed bus -/

/-- The words fit as they were sent, and one of them was slightly disturbed on its way. -/
structure Garbled (words : Nat) (sent got : Exchange) : Prop where
  fits : ∀ i < words, sent.fits i
  slight : ∃ i < words, sent.bytes i ≠ got.bytes i ∧ Slight (sent.bytes i) (got.bytes i)

theorem Garbled.rejected {words : Nat} {sent got : Exchange} (garbled : Garbled words sent got) :
    ¬ ∃ w, readWords got words = .ok w := by
  obtain ⟨i, inside, distinct, slight⟩ := garbled.slight
  have broken : ¬ ∀ i < words, got.fits i :=
    fun whole => slight.detected (garbled.fits i inside) distinct (whole i inside)
  obtain ⟨err, refused⟩ : ∃ err, readWords got words = .error err := by
    unfold readWords
    rw [if_neg broken]
    split
    · exact ⟨_, rfl⟩
    · split <;> exact ⟨_, rfl⟩
  rintro ⟨w, read⟩
  rw [refused] at read
  cases read

/--
A run beside the same run over a disturbed bus.  A disturbed poll was never
made, and a disturbed read of the status register was refused.
-/
inductive Disturbed : List Sen5xEvent → List Sen5xEvent → Prop where
  | done : Disturbed [] []
  | kept {quiet noisy : List Sen5xEvent} (event : Sen5xEvent)
      (rest : Disturbed quiet noisy) : Disturbed (event :: quiet) (event :: noisy)
  | poll {quiet noisy : List Sen5xEvent} {sent got : Exchange}
      (garbled : Garbled 8 sent got) (rest : Disturbed quiet noisy) :
      Disturbed quiet (.poll got :: noisy)
  | take {quiet noisy : List Sen5xEvent} {sent got refused : Exchange}
      (garbled : Garbled 2 sent got) (failed : refused.written ≠ 0 ∨ refused.fetched ≠ 0)
      (rest : Disturbed quiet noisy) :
      Disturbed (.take refused :: quiet) (.take got :: noisy)

theorem sen5xPoll_unread {x : Exchange} (unread : ¬ ∃ w, readWords x 8 = .ok w)
    (s : Sen5xStatics) : sen5xPoll s x = s := by
  cases on : s.running with
  | false => rw [sen5xPoll, if_pos on]
  | true =>
      rcases sen5xPoll_cases on x with ⟨w, read, _⟩ | ⟨_, same⟩
      · exact absurd ⟨w, read⟩ unread
      · exact same

theorem checkStatus_unread {x : Exchange} (unread : ¬ StatusRead x) (acc : Sen5xWindow) :
    checkStatus acc x = acc := by
  unfold checkStatus
  split
  · cases read : readWords x 2 with
    | ok st => exact absurd ⟨st, read⟩ unread
    | error err => rfl
  · rfl

theorem not_statusRead_of_failed {x : Exchange} (failed : x.written ≠ 0 ∨ x.fetched ≠ 0) :
    ¬ StatusRead x := by
  rintro ⟨st, read⟩
  unfold readWords at read
  split at read
  · cases read
  · next written =>
      rw [if_pos (failed.resolve_left written)] at read
      cases read

/--
Disturbances of the bus leave nothing behind.  However the reads of a run are
disturbed, at up to three bits of a word, at any odd number of them or within
eight consecutive ones, the windows that are handed over and the statics at the
end are those of the run without these reads.
-/
theorem disturbances_leave_nothing {quiet noisy : List Sen5xEvent}
    (disturbed : Disturbed quiet noisy) (s : Sen5xStatics) :
    ∃ final windows outputs, sen5x.run s quiet = some (final, windows) ∧
      sen5x.run s noisy = some (final, outputs) ∧
      outputs.filterMap id = windows.filterMap id := by
  induction disturbed generalizing s with
  | done => exact ⟨s, [], [], rfl, rfl, rfl⟩
  | kept event rest ih =>
      obtain ⟨next, output, stepped⟩ : ∃ next output, sen5x.step s event = some (next, output) := by
        cases event <;> exact ⟨_, _, rfl⟩
      obtain ⟨final, windows, outputs, still, moved, same⟩ := ih next
      refine ⟨final, output :: windows, output :: outputs, Machine.run_cons stepped still,
        Machine.run_cons stepped moved, ?_⟩
      rw [List.filterMap_cons, List.filterMap_cons, same]
  | @poll quiet noisy sent got garbled rest ih =>
      obtain ⟨final, windows, outputs, still, moved, same⟩ := ih s
      have stepped : sen5x.step s (.poll got) = some (s, none) := by
        rw [← congrArg some (congrArg (·, none) (sen5xPoll_unread garbled.rejected s))]
        rfl
      exact ⟨final, windows, none :: outputs, still, Machine.run_cons stepped moved, same⟩
  | @take quiet noisy sent got refused garbled failed rest ih =>
      obtain ⟨final, windows, outputs, still, moved, same⟩ := ih { s with acc := accReset }
      have taken : ∀ x, ¬ StatusRead x →
          sen5x.step s (.take x) = some ({ s with acc := accReset }, some s.acc) := by
        intro x unread
        rw [← checkStatus_unread unread s.acc]
        rfl
      refine ⟨final, some s.acc :: windows, some s.acc :: outputs,
        Machine.run_cons (taken refused (not_statusRead_of_failed failed)) still,
        Machine.run_cons (taken got garbled.rejected) moved, ?_⟩
      rw [List.filterMap_cons, List.filterMap_cons, same]

def flipped : Exchange where
  written := 0
  fetched := 0
  raw i := if i = 3 then 0x40 else zeroWords.raw i

theorem flipped_garbled {words : Nat} (inside : 1 < words) : Garbled words zeroWords flipped where
  fits i _ := by
    have checksum : crc8 0 0 = 0x81 := by decide +kernel
    simpa [Exchange.fits, zeroWords] using checksum
  slight := ⟨1, inside, by decide +kernel, .inl (by decide +kernel)⟩

theorem disturbances_leave_nothing_twice :
    ∃ final windows outputs,
      sen5x.run ⟨true, accReset⟩ [.poll zeroWords, .take unanswered] = some (final, windows) ∧
      sen5x.run ⟨true, accReset⟩ [.poll flipped, .poll zeroWords, .poll flipped, .take flipped] =
        some (final, outputs) ∧
      outputs.filterMap id = windows.filterMap id :=
  disturbances_leave_nothing
    (.poll (flipped_garbled (by decide)) (.kept _ (.poll (flipped_garbled (by decide))
      (.take (flipped_garbled (by decide)) (.inl (by decide)) .done)))) _

end PresenceNode.Sen5x
