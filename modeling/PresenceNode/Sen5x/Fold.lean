import PresenceNode.Sen5x.Fault

/-!
# What an air quality window folds

The good samples since the last take decide the window: a particle count is the
largest known word of its column, and every other value comes from the last
known word.  A word is known when it is not `0xFFFF`.
-/

namespace PresenceNode.Sen5x

open Library

/-- The words of the good polls since the last window was taken. -/
def samplesOf (history : List Sen5xEvent) : List (Vector UInt16 8) :=
  (pollsOf history).filterMap fun x => (readWords x 8).toOption

def column (i : Fin 8) (samples : List (Vector UInt16 8)) : List UInt16 :=
  samples.map fun w => w[i]

def known (words : List UInt16) : List UInt16 := words.filter fun word => word ≠ 0xFFFF

/-- The count is the largest known word, or `SEN5X_UNKNOWN_U` without one. -/
def HoldsPeak (words : List UInt16) (held : UInt16) : Prop :=
  (known words = [] → held = sen5xUnknownU) ∧
    (known words ≠ [] → held ∈ known words ∧ ∀ word ∈ known words, word ≤ held)

def heldLast (value : UInt16 → Int16) (words : List UInt16) : Int16 :=
  ((known words).getLast?.map value).getD sen5xUnknownS

def halved (word : UInt16) : Int16 := word.toInt16 / 2

/-! ## One more word -/

theorem known_concat (words : List UInt16) (word : UInt16) :
    known (words ++ [word]) = if word ≠ 0xFFFF then known words ++ [word] else known words := by
  rw [known, List.filter_append, ← known]
  by_cases reading : word ≠ 0xFFFF
  · simp [reading]
  · simp [reading]

/-- The first known word replaces the sentinel, and a later one replaces a smaller one. -/
theorem HoldsPeak.concat {words : List UInt16} {held : UInt16} (holds : HoldsPeak words held)
    (word : UInt16) : HoldsPeak (words ++ [word]) (peak held word) := by
  obtain ⟨without, largest⟩ := holds
  by_cases reading : word ≠ 0xFFFF
  · rw [HoldsPeak, known_concat, if_pos reading]
    refine ⟨fun impossible => absurd impossible (by simp), fun _ => ?_⟩
    by_cases before : known words = []
    · rw [peak, if_pos ⟨reading, .inl (without before)⟩, before]
      simp
    · obtain ⟨member, above⟩ := largest before
      have other : held ≠ sen5xUnknownU := by
        have kept := (List.mem_filter.mp member).2
        exact of_decide_eq_true kept
      by_cases more : word > held
      · rw [peak, if_pos ⟨reading, .inr more⟩]
        refine ⟨by simp, fun earlier inside => ?_⟩
        rcases List.mem_append.mp inside with old | new
        · exact UInt16.le_trans (above earlier old) (UInt16.le_of_lt more)
        · rw [List.mem_singleton.mp new]
          exact UInt16.le_refl word
      · rw [peak, if_neg fun both => both.2.elim other more]
        refine ⟨List.mem_append_left _ member, fun earlier inside => ?_⟩
        rcases List.mem_append.mp inside with old | new
        · exact above earlier old
        · rw [List.mem_singleton.mp new]
          exact UInt16.not_lt.mp more
  · rw [HoldsPeak, known_concat, if_neg reading, peak, if_neg fun both => reading both.1]
    exact ⟨without, largest⟩

theorem latest_heldLast (value : UInt16 → Int16) (words : List UInt16) (word : UInt16) :
    latest (heldLast value words) word (value word) = heldLast value (words ++ [word]) := by
  rw [latest, heldLast, heldLast, known_concat]
  by_cases reading : word ≠ 0xFFFF
  · simp [reading]
  · simp [reading]

theorem halved_toInt (word : UInt16) : (halved word).toInt = word.toInt16.toInt.tdiv 2 := by
  have other : (2 : Int16) ≠ -1 := by decide
  exact Int16.toInt_div_of_ne_right word.toInt16 2 other

theorem halved_ne_unknown (word : UInt16) : halved word ≠ sen5xUnknownS := by
  intro same
  have value : word.toInt16.toInt.tdiv 2 = 32767 := by
    rw [← halved_toInt, same]
    rfl
  have most : word.toInt16.toInt < 2 ^ 15 := Int16.toInt_lt word.toInt16
  have least : -2 ^ 15 ≤ word.toInt16.toInt := Int16.le_toInt word.toInt16
  have size : word.toInt16.toInt.natAbs / 2 = 32767 :=
    (Int.natAbs_tdiv word.toInt16.toInt 2).symm.trans (congrArg Int.natAbs value)
  omega

/-! ## Polls -/

/-- A measurement read succeeds exactly if the bus answers and all eight checksums fit. -/
theorem readWords_ok_iff {x : Exchange} {words : Nat} :
    (∃ w, readWords x words = .ok w) ↔
      x.written = 0 ∧ x.fetched = 0 ∧ ∀ i < words, x.fits i := by
  unfold readWords
  constructor
  · rintro ⟨w, read⟩
    split at read
    · cases read
    · next written =>
        split at read
        · cases read
        · next fetched =>
            split at read
            · next fits => exact ⟨not_not.mp written, not_not.mp fetched, fits⟩
            · cases read
  · rintro ⟨written, fetched, fits⟩
    exact ⟨_, by rw [if_neg (not_not.mpr written), if_neg (not_not.mpr fetched), if_pos fits]⟩

/-- The words of a good read are the pairs of bytes of the exchange, the high byte first. -/
theorem readWords_eq_ok_iff {x : Exchange} {words : Nat} {w : Vector UInt16 words} :
    readWords x words = .ok w ↔
      x.written = 0 ∧ x.fetched = 0 ∧ (∀ i < words, x.fits i) ∧ ∀ i : Fin words, w[i] = x.word i := by
  constructor
  · intro read
    obtain ⟨written, fetched, fits⟩ := readWords_ok_iff.mp ⟨w, read⟩
    refine ⟨written, fetched, fits, fun i => ?_⟩
    rw [readWords, if_neg (not_not.mpr written), if_neg (not_not.mpr fetched), if_pos fits] at read
    cases read
    simp
  · rintro ⟨written, fetched, fits, same⟩
    rw [readWords, if_neg (not_not.mpr written), if_neg (not_not.mpr fetched), if_pos fits]
    refine congrArg Except.ok (Vector.ext fun i inside => ?_)
    rw [Vector.getElem_ofFn]
    exact (same ⟨i, inside⟩).symm

theorem Exchange.word_toNat (x : Exchange) (i : Nat) :
    (x.word i).toNat = 256 * (x.raw (i * 3)).toNat + (x.raw (i * 3 + 1)).toNat := by
  have low : (x.raw (i * 3 + 1)).toNat < 2 ^ 8 := UInt8.toNat_lt _
  have high : (x.raw (i * 3)).toNat < 2 ^ 8 := UInt8.toNat_lt _
  have shifted : ((x.raw (i * 3)).toUInt16 <<< 8).toNat = (x.raw (i * 3)).toNat <<< 8 := by
    rw [UInt16.toNat_shiftLeft, UInt8.toNat_toUInt16]
    change (x.raw (i * 3)).toNat <<< 8 % 2 ^ 16 = _
    rw [Nat.shiftLeft_eq]
    omega
  rw [Exchange.word, UInt16.toNat_or, shifted, UInt8.toNat_toUInt16,
    ← Nat.shiftLeft_add_eq_or_of_lt low, Nat.shiftLeft_eq]
  omega

theorem sen5xPoll_failed {x : Exchange}
    (failed : x.written ≠ 0 ∨ x.fetched ≠ 0 ∨ ∃ i < 8, ¬ x.fits i) (s : Sen5xStatics) :
    sen5xPoll s x = s := by
  have bad : ¬ ∃ w, readWords x 8 = .ok w := by
    rw [readWords_ok_iff]
    rintro ⟨written, fetched, fits⟩
    rcases failed with refused | unread | ⟨i, inside, broken⟩
    · exact refused written
    · exact unread fetched
    · exact broken (fits i inside)
  unfold sen5xPoll
  split
  · rfl
  · cases found : readWords x 8 with
    | ok w => exact absurd ⟨w, found⟩ bad
    | error err => rfl

theorem peak_idem (held word : UInt16) : peak (peak held word) word = peak held word := by
  by_cases taken : word ≠ 0xFFFF ∧ (held = sen5xUnknownU ∨ word > held)
  · rw [peak, peak, if_pos taken]
    exact ite_self word
  · rw [peak, peak, if_neg taken, if_neg taken]

theorem latest_idem (held : Int16) (word : UInt16) (value : Int16) :
    latest (latest held word value) word value = latest held word value := by
  by_cases reading : word ≠ 0xFFFF
  · rw [latest, if_pos reading]
    exact (if_pos reading).symm
  · rw [latest, if_neg reading]

theorem foldSample_idem (acc : Sen5xWindow) (w : Vector UInt16 8) :
    foldSample (foldSample acc w) w = foldSample acc w := by
  simp only [foldSample, peak_idem, latest_idem]

theorem sen5xPoll_repeated {x y : Exchange} {w : Vector UInt16 8} (first : readWords x 8 = .ok w)
    (second : readWords y 8 = .ok w) (s : Sen5xStatics) :
    sen5xPoll (sen5xPoll s x) y = sen5xPoll s x := by
  cases running : s.running with
  | false => simp [sen5xPoll, running]
  | true => simp [sen5xPoll, running, first, second, foldSample_idem]

/-! ## Runs -/

structure Folds (samples : List (Vector UInt16 8)) (window : Sen5xWindow) : Prop where
  pm25 : HoldsPeak (column 1 samples) window.pm25
  pm10 : HoldsPeak (column 3 samples) window.pm10
  rh : window.rh = heldLast UInt16.toInt16 (column 4 samples)
  temp : window.temp = heldLast halved (column 5 samples)
  voc : window.voc = heldLast UInt16.toInt16 (column 6 samples)

namespace Folds

theorem start : Folds [] accReset :=
  ⟨⟨fun _ => rfl, fun impossible => absurd rfl impossible⟩,
    ⟨fun _ => rfl, fun impossible => absurd rfl impossible⟩, rfl, rfl, rfl⟩

theorem sample {samples : List (Vector UInt16 8)} {acc : Sen5xWindow} (folds : Folds samples acc)
    (w : Vector UInt16 8) : Folds (samples ++ [w]) (foldSample acc w) := by
  have columns : ∀ i : Fin 8, column i (samples ++ [w]) = column i samples ++ [w[i]] :=
    fun i => List.map_append
  constructor
  · rw [columns]
    exact folds.pm25.concat w[1]
  · rw [columns]
    exact folds.pm10.concat w[3]
  · rw [columns, ← latest_heldLast, ← folds.rh]
    rfl
  · rw [columns, ← latest_heldLast, ← folds.temp]
    rfl
  · rw [columns, ← latest_heldLast, ← folds.voc]
    rfl

theorem checkStatus {samples : List (Vector UInt16 8)} {acc : Sen5xWindow}
    (folds : Folds samples acc) (x : Exchange) : Folds samples (checkStatus acc x) := by
  have kept : ∃ alive, Sen5x.checkStatus acc x = { acc with alive := alive } := by
    unfold Sen5x.checkStatus
    split
    · split
      · split
        · exact ⟨false, rfl⟩
        · exact ⟨acc.alive, rfl⟩
      · exact ⟨acc.alive, rfl⟩
    · exact ⟨acc.alive, rfl⟩
  obtain ⟨alive, same⟩ := kept
  rw [same]
  exact ⟨folds.pm25, folds.pm10, folds.rh, folds.temp, folds.voc⟩

end Folds

/-- The statics hold the samples since the last window was taken. -/
structure Folded (history : List Sen5xEvent) (s : Sen5xStatics) : Prop where
  running : s.running = true
  acc : Folds (samplesOf history) s.acc

theorem samplesOf_poll (history : List Sen5xEvent) (x : Exchange) :
    samplesOf (history ++ [.poll x]) = samplesOf history ++ (readWords x 8).toOption.toList := by
  rw [samplesOf, pollsOf_poll, List.filterMap_append, ← samplesOf]
  cases good : (readWords x 8).toOption with
  | none => simp [good]
  | some w => simp [good]

theorem Folded.step {history : List Sen5xEvent} {s next : Sen5xStatics} {event : Sen5xEvent}
    {output : Option Sen5xWindow} (folded : Folded history s)
    (stepped : sen5x.step s event = some (next, output)) :
    Folded (history ++ [event]) next := by
  cases event with
  | poll x =>
      obtain rfl : sen5xPoll s x = next := congrArg Prod.fst (Option.some.inj stepped)
      rcases sen5xPoll_cases folded.running x with ⟨w, good, result⟩ | ⟨bad, result⟩
      · rw [result]
        refine ⟨folded.running, ?_⟩
        rw [samplesOf_poll, good]
        exact folded.acc.sample w
      · rw [result]
        refine ⟨folded.running, ?_⟩
        cases found : readWords x 8 with
        | ok w => exact absurd ⟨w, found⟩ bad
        | error err =>
            rw [samplesOf_poll, found]
            exact (List.append_nil (samplesOf history)).symm ▸ folded.acc
  | take x =>
      obtain rfl : (sen5xWindowTake s x).1 = next := congrArg Prod.fst (Option.some.inj stepped)
      have empty : samplesOf (history ++ [.take x]) = [] := by simp [samplesOf]
      refine ⟨folded.running, ?_⟩
      rw [empty]
      exact Folds.start

theorem sen5x_folded {final : Sen5xStatics} {events : List Sen5xEvent}
    {outputs : List (Option Sen5xWindow)}
    (ran : sen5x.run { running := true, acc := accReset } events = some (final, outputs)) :
    Folded events final := by
  have preserved : ∀ history (outputs : List (Option Sen5xWindow)) s event next output,
      Folded history s → sen5x.step s event = some (next, output) →
      Folded (history ++ [event]) next :=
    fun _ _ _ _ _ _ folded stepped => folded.step stepped
  have start : Folded [] { running := true, acc := accReset } := ⟨rfl, Folds.start⟩
  exact Machine.run_invariant_unguarded preserved start ran

/--
After a start that succeeds, every window that is taken folds the good samples
since the window before it, and no others.  A sample is good when the bus
answers both transfers and all eight checksums fit, and its words are then the
pairs of bytes that were read.  Temperatures are halved toward zero, away from
the sentinel; a failed poll changes nothing, and neither does a sample that is
read again.
-/
theorem window_folds {boot started : Sen5xStatics} {ready : Bool} {answer : Int}
    (start : sen5xStart boot ready answer = (started, 0)) (history : List Sen5xEvent)
    (x : Exchange) :
    (∃ final outputs window,
      sen5x.run started (history ++ [.take x]) = some (final, outputs ++ [some window]) ∧
        Folds (samplesOf history) window) ∧
      (∀ (y : Exchange) (w : Vector UInt16 8), readWords y 8 = .ok w ↔
        y.written = 0 ∧ y.fetched = 0 ∧
          (∀ i < 8, crc8 (y.raw (i * 3)) (y.raw (i * 3 + 1)) = y.raw (i * 3 + 2)) ∧
          ∀ i : Fin 8, w[i].toNat =
            256 * (y.raw (i * 3)).toNat + (y.raw (i * 3 + 1)).toNat) ∧
      (∀ word, (halved word).toInt = word.toInt16.toInt.tdiv 2 ∧
        halved word ≠ sen5xUnknownS) ∧
      (∀ s y, (y.written ≠ 0 ∨ y.fetched ≠ 0 ∨ ∃ i < 8, ¬ y.fits i) → sen5xPoll s y = s) ∧
      ∀ s y z w, readWords y 8 = .ok w → readWords z 8 = .ok w →
        sen5xPoll (sen5xPoll s y) z = sen5xPoll s y := by
  obtain rfl := sen5xStart_ok start
  have total : ∀ event ∈ history, ∀ s : Sen5xStatics,
      ∃ next output, sen5x.step s event = some (next, output) := by
    intro event _ s
    cases event with
    | poll x => exact ⟨_, _, rfl⟩
    | take x => exact ⟨_, _, rfl⟩
  obtain ⟨s, outputs, ran⟩ := Machine.run_total total { running := true, acc := accReset }
  refine ⟨⟨_, outputs, _, Machine.run_concat ran rfl, ?_⟩, fun y w => ?_,
    fun word => ⟨halved_toInt word, halved_ne_unknown word⟩,
    fun s y failed => sen5xPoll_failed failed s,
    fun s y z w first second => sen5xPoll_repeated first second s⟩
  · exact (sen5x_folded ran).acc.checkStatus x
  · simp only [readWords_eq_ok_iff, Exchange.fits, ← Exchange.word_toNat, ← UInt16.toNat_inj]

def answering (words : Vector UInt16 8) : Exchange where
  written := 0
  fetched := 0
  raw i :=
    let word := words[i / 3]?.getD 0
    let high := (word >>> 8).toUInt8
    let low := word.toUInt8
    if i % 3 = 0 then high else if i % 3 = 1 then low else crc8 high low

def morning : Vector UInt16 8 := #v[0, 48, 0, 0xFFFF, 0x1770, 0xFFF5, 90, 0]

def later : Vector UInt16 8 := #v[0, 16, 0, 0xFFFF, 0xFFFF, 0xFFFF, 0xFFF6, 0]

theorem window_folds_morning :
    ∃ final outputs window,
      sen5x.run { running := true, acc := accReset }
          ([.poll (answering morning), .poll unanswered, .poll (answering later)] ++
            [.take zeroWords]) = some (final, outputs ++ [some window]) ∧
        window.pm25 = 48 ∧ window.pm10 = 0xFFFF ∧ window.rh = 6000 ∧ window.temp = -5 ∧
        window.voc = -10 := by
  obtain ⟨⟨final, outputs, window, ran, folds⟩, _⟩ :=
    window_folds (show sen5xStart Sen5xStatics.zero true 0 = (_, 0) from rfl)
      [.poll (answering morning), .poll unanswered, .poll (answering later)] zeroWords
  have samples : samplesOf
      [.poll (answering morning), .poll unanswered, .poll (answering later)] = [morning, later] := by
    decide +kernel
  rw [samples] at folds
  refine ⟨final, outputs, window, ran, ?_, folds.pm10.1 (by decide), ?_, ?_, ?_⟩
  · obtain ⟨member, above⟩ := folds.pm25.2 (by decide)
    have most : 48 ≤ window.pm25 := above 48 (by decide)
    have values : window.pm25 = 48 ∨ window.pm25 = 16 := by
      simpa [known, column, morning, later] using member
    rcases values with peak | less
    · exact peak
    · rw [less] at most
      exact absurd most (by decide)
  · rw [folds.rh]
    decide
  · rw [folds.temp]
    decide
  · rw [folds.voc]
    decide

end PresenceNode.Sen5x
