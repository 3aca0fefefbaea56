import Mathlib.Data.List.Infix
import Mathlib.Data.List.TakeWhile

/-!
# Hunting for a word without repeated letters

`Tracks word seen matched` says that `matched` letters is the longest proper
prefix of the word at the end of what has been seen.  A word without repeated
letters has no border, so after a mismatch the only prefix that can survive is
its first letter.  `advance` is that restart rule, and `Tracks.advance` says
that it is a correct failure function.
-/

namespace PresenceNode.Library.Pattern

variable {α : Type}

def OccursAt (word text : List α) (index : Nat) : Prop := word <+: text.drop index

def FirstAt (word text : List α) (index : Nat) : Prop :=
  OccursAt word text index ∧ ∀ earlier < index, ¬ OccursAt word text earlier

instance [DecidableEq α] (word text : List α) (index : Nat) : Decidable (OccursAt word text index) :=
  inferInstanceAs (Decidable (word <+: text.drop index))

instance [DecidableEq α] (word text : List α) (index : Nat) : Decidable (FirstAt word text index) :=
  inferInstanceAs (Decidable (_ ∧ _))

theorem infix_of_occursAt {word text : List α} {index : Nat} (occurs : OccursAt word text index) :
    word <:+: text :=
  occurs.isInfix.trans (List.drop_suffix _ _).isInfix

theorem infix_iff_occursAt {word text : List α} :
    word <:+: text ↔ ∃ index, OccursAt word text index := by
  constructor
  · rintro ⟨before, after, rfl⟩
    exact ⟨before.length, by simp [OccursAt]⟩
  · rintro ⟨index, occurs⟩
    exact infix_of_occursAt occurs

theorem occursAt_drop {word text : List α} {start index : Nat} :
    OccursAt word (text.drop start) index ↔ OccursAt word text (start + index) := by
  unfold OccursAt
  rw [List.drop_drop]

theorem OccursAt.append {word text : List α} {index : Nat} (occurs : OccursAt word text index)
    (more : List α) : OccursAt word (text ++ more) index := by
  unfold OccursAt
  rw [List.drop_append]
  exact List.IsPrefix.trans occurs (List.prefix_append _ _)

theorem OccursAt.of_append {word text more : List α} {index : Nat}
    (occurs : OccursAt word (text ++ more) index) (inside : index + word.length ≤ text.length) :
    OccursAt word text index := by
  unfold OccursAt at occurs ⊢
  rw [List.drop_append_of_le_length (by omega)] at occurs
  refine List.prefix_of_prefix_length_le occurs (List.prefix_append _ _) ?_
  rw [List.length_drop]
  omega

theorem OccursAt.inside {word text : List α} {index : Nat} (occurs : OccursAt word text index)
    (nonempty : word ≠ []) : index + word.length ≤ text.length := by
  have bound := occurs.length_le
  have positive := List.length_pos_iff.mpr nonempty
  rw [List.length_drop] at bound
  omega

/-- Nothing behind a letter that ends the text is looked at. -/
theorem takeWhile_ended {text : List α} {kept : α → Bool} {last : α} (ends : kept last = false)
    (rest : List α) : (text ++ last :: rest).takeWhile kept = text.takeWhile kept := by
  induction text with
  | nil => rw [List.nil_append, List.takeWhile_cons, ends, List.takeWhile_nil]; rfl
  | cons letter text ih => rw [List.cons_append, List.takeWhile_cons, List.takeWhile_cons, ih]

/-- A word stands in front of the first letter that ends the text when none ends it before. -/
theorem infix_takeWhile_iff {word text : List α} {kept : α → Bool}
    (plain : ∀ letter ∈ word, kept letter = true) :
    word <:+: text.takeWhile kept ↔ ∃ index, OccursAt word text index ∧
      ∀ earlier < index, ∀ letter, text[earlier]? = some letter → kept letter = true := by
  constructor
  · rintro ⟨before, after, whole⟩
    obtain ⟨rest, split⟩ := List.takeWhile_prefix (l := text) kept
    have text_eq : text = before ++ (word ++ (after ++ rest)) := by
      rw [← split, ← whole]
      simp only [List.append_assoc]
    refine ⟨before.length, ?_, fun earlier inside letter there => ?_⟩
    · rw [text_eq, OccursAt, List.drop_left]
      exact List.prefix_append _ _
    · rw [text_eq, List.getElem?_append_left inside] at there
      refine List.mem_takeWhile_imp (l := text) ?_
      rw [← whole, List.append_assoc]
      exact List.mem_append_left _ (List.mem_of_getElem? there)
  · rintro ⟨index, ⟨more, tail⟩, clear⟩
    have front : ∀ letter ∈ text.take index ++ word, kept letter = true := by
      intro letter member
      rcases List.mem_append.mp member with before | inWord
      · obtain ⟨earlier, there⟩ := List.mem_iff_getElem?.mp before
        rw [List.getElem?_take, Option.ite_none_right_eq_some] at there
        exact clear earlier there.1 letter there.2
      · exact plain letter inWord
    have split : text = text.take index ++ word ++ more := by
      rw [List.append_assoc, tail, List.take_append_drop]
    rw [split, List.takeWhile_append_of_pos front, List.append_assoc]
    exact List.infix_append' _ _ _

/-- What follows a text leaves its first occurrence the first. -/
theorem FirstAt.append {word text : List α} {index : Nat} (first : FirstAt word text index)
    (nonempty : word ≠ []) (more : List α) : FirstAt word (text ++ more) index := by
  refine ⟨first.1.append more, fun earlier before occurs => ?_⟩
  have bound := first.1.inside nonempty
  exact first.2 earlier before (occurs.of_append (by omega))

theorem FirstAt.unique {word text : List α} {first second : Nat} (one : FirstAt word text first)
    (other : FirstAt word text second) : first = second := by
  refine Nat.le_antisymm ?_ ?_
  · exact Nat.le_of_not_lt fun before => one.2 second before other.1
  · exact Nat.le_of_not_lt fun before => other.2 first before one.1

theorem FirstAt.of_append {word text more : List α} {index : Nat}
    (first : FirstAt word (text ++ more) index) (inside : index + word.length ≤ text.length) :
    FirstAt word text index :=
  ⟨first.1.of_append inside, fun earlier before occurs => first.2 earlier before (occurs.append more)⟩

/-- An occurrence that the text does not hold begins with a prefix of the word at its end. -/
theorem OccursAt.straddles {word text more : List α} {index : Nat}
    (occurs : OccursAt word (text ++ more) index) (outside : text.length < index + word.length)
    (before : index ≤ text.length) : word.take (text.length - index) <:+ text := by
  unfold OccursAt at occurs
  rw [List.drop_append_of_le_length before] at occurs
  have first : text.drop index <+: word := by
    refine List.prefix_of_prefix_length_le (List.prefix_append _ _) occurs ?_
    rw [List.length_drop]
    omega
  rw [← List.length_drop, ← List.prefix_iff_eq_take.mp first]
  exact List.drop_suffix _ _

/-- A suffix of a longer text that ends in the word is an occurrence there. -/
theorem occursAt_of_suffix {word text start : List α} (suffix : word <:+ start)
    (before : start <+: text) : OccursAt word text (start.length - word.length) := by
  obtain ⟨first, rfl⟩ := suffix
  obtain ⟨rest, rfl⟩ := before
  simp [OccursAt]

theorem suffix_concat_iff {first second : List α} {left right : α} :
    first ++ [left] <:+ second ++ [right] ↔ left = right ∧ first <:+ second := by
  rw [← List.reverse_prefix, List.reverse_append, List.reverse_append, List.reverse_singleton,
    List.reverse_singleton, List.singleton_append, List.singleton_append, List.cons_prefix_cons,
    List.reverse_prefix]

/-- A prefix of the word survives one more letter when it ends in that letter. -/
theorem take_succ_suffix_concat {word seen : List α} {count : Nat} {letter : α}
    (inside : count < word.length) :
    word.take (count + 1) <:+ seen ++ [letter] ↔
      word[count]? = some letter ∧ word.take count <:+ seen := by
  rw [List.take_succ_eq_append_getElem inside, suffix_concat_iff,
    List.getElem?_eq_getElem inside, Option.some.injEq]

/-- Without repeated letters two nonempty prefixes cannot end at the same place. -/
theorem take_suffix_unique {word seen : List α} (distinct : word.Nodup) {first second : Nat}
    (firstInside : first < word.length) (secondInside : second < word.length)
    (firstEnds : word.take (first + 1) <:+ seen) (secondEnds : word.take (second + 1) <:+ seen) :
    first = second := by
  rcases List.eq_nil_or_concat seen with rfl | ⟨before, letter, rfl⟩
  · have empty := List.suffix_nil.mp firstEnds
    rw [List.take_eq_nil_iff] at empty
    rcases empty with impossible | rfl
    · cases impossible
    · cases firstInside
  · rw [List.concat_eq_append] at firstEnds secondEnds
    have firstLetter := ((take_succ_suffix_concat firstInside).mp firstEnds).1
    have secondLetter := ((take_succ_suffix_concat secondInside).mp secondEnds).1
    exact (List.getElem?_inj firstInside distinct).mp (firstLetter.trans secondLetter.symm)

/-- A word without repeated letters has no border. -/
theorem borderless {word border : List α} (distinct : word.Nodup)
    (before : border <+: word) (after : border <:+ word) (nonempty : border ≠ []) :
    border = word := by
  obtain ⟨rest, whole⟩ := before
  cases rest with
  | nil => simpa using whole
  | cons letter rest =>
      have lengths := congrArg List.length whole
      rw [List.length_append, List.length_cons] at lengths
      have positive := List.length_pos_iff.mpr nonempty
      have taken : word.take border.length = border := by rw [← whole, List.take_left]
      have short : word.take ((border.length - 1) + 1) <:+ word := by
        rw [Nat.sub_add_cancel positive, taken]
        exact after
      have long : word.take ((word.length - 1) + 1) <:+ word := by
        rw [Nat.sub_add_cancel (Nat.le_trans positive (by omega)), List.take_length]
      have same := take_suffix_unique distinct (by omega) (by omega) short long
      omega

/-- A prefix at the end of a text without the word grows into the first occurrence. -/
theorem firstAt_completed {word text : List α} {count : Nat} (distinct : word.Nodup)
    (absent : ¬ word <:+: text) (positive : 0 < count) (inside : count < word.length)
    (ends : word.take count <:+ text) (more : List α) :
    FirstAt word (text ++ (word.drop count ++ more)) (text.length - count) := by
  have long := ends.length_le
  rw [List.length_take_of_le (Nat.le_of_lt inside)] at long
  constructor
  · obtain ⟨gap, rfl⟩ := ends
    have length : (word.take count).length = count := List.length_take_of_le (Nat.le_of_lt inside)
    rw [List.length_append, length, Nat.add_sub_cancel, OccursAt, List.append_assoc,
      ← List.append_assoc (word.take count), List.take_append_drop, List.drop_left]
    exact List.prefix_append _ _
  · intro earlier before occurs
    by_cases held : earlier + word.length ≤ text.length
    · exact absent (infix_of_occursAt (occurs.of_append held))
    · -- Two prefixes of the word would end where the text ends.
      have other := occurs.straddles (by omega) (by omega)
      have first : word.take (text.length - earlier - 1 + 1) <:+ text := by
        rw [Nat.sub_add_cancel (by omega)]
        exact other
      have second : word.take (count - 1 + 1) <:+ text := by
        rw [Nat.sub_add_cancel positive]
        exact ends
      have same := take_suffix_unique distinct (by omega) (by omega) first second
      omega

/-- `matched` letters is the longest proper prefix of the word at the end of `seen`. -/
structure Tracks (word seen : List α) (matched : Nat) : Prop where
  proper : matched < word.length
  ends : word.take matched <:+ seen
  longest : ∀ count < word.length, word.take count <:+ seen → count ≤ matched

/-- A partial match tracks the prefix that it stands for. -/
theorem tracks_take {word : List α} {matched : Nat} (proper : matched < word.length) :
    Tracks word (word.take matched) matched where
  proper := proper
  ends := List.suffix_rfl
  longest := by
    intro count inside ends
    have bound := ends.length_le
    rw [List.length_take_of_le (by omega), List.length_take_of_le (by omega)] at bound
    exact bound

theorem tracks_nil {word : List α} (nonempty : word ≠ []) : Tracks word [] 0 := by
  simpa using tracks_take (List.length_pos_iff.mpr nonempty)

/-- The next letter completes the word exactly when it is the one letter missing. -/
theorem Tracks.completes_iff {word seen : List α} {matched : Nat} {letter : α}
    (tracks : Tracks word seen matched) :
    word <:+ seen ++ [letter] ↔ word[matched]? = some letter ∧ matched + 1 = word.length := by
  have proper := tracks.proper
  have split : word.take (word.length - 1 + 1) <:+ seen ++ [letter] ↔ _ :=
    take_succ_suffix_concat (by omega)
  rw [Nat.sub_add_cancel (Nat.one_le_of_lt proper), List.take_length] at split
  rw [split]
  constructor
  · rintro ⟨last, ends⟩
    have bound := tracks.longest _ (by omega) ends
    have same : word.length - 1 = matched := by omega
    exact ⟨same ▸ last, by omega⟩
  · rintro ⟨last, full⟩
    rw [← full, Nat.add_sub_cancel]
    exact ⟨last, tracks.ends⟩

/-! ## Texts in which the word is still to come -/

/-- No prefix of the text, read after what was seen, ends in the word. -/
def Quiet (word seen text : List α) : Prop :=
  ∀ start, start <+: text → ¬ word <:+ seen ++ start

theorem Quiet.of_cons {word seen text : List α} {letter : α}
    (quiet : Quiet word seen (letter :: text)) : Quiet word (seen ++ [letter]) text := by
  intro start before
  rw [List.append_assoc, List.singleton_append]
  exact quiet (letter :: start) (List.cons_prefix_cons.mpr ⟨rfl, before⟩)

theorem quiet_of_absent {word text : List α} (absent : ¬ word <:+: text) :
    Quiet word [] text := by
  intro start before ends
  exact absent (ends.isInfix.trans before.isInfix)

/-- The text before a first occurrence, with all but the last letter of the word. -/
theorem quiet_of_firstAt {word gap : List α} (first : FirstAt word (gap ++ word) gap.length)
    (nonempty : word ≠ []) : Quiet word [] (gap ++ word.dropLast) := by
  intro start before ends
  rw [List.nil_append] at ends
  have positive := List.length_pos_iff.mpr nonempty
  have short := before.length_le
  have long := ends.length_le
  rw [List.length_append, List.length_dropLast] at short
  have whole : start <+: gap ++ word :=
    before.trans ((List.prefix_append_right_inj gap).mpr (List.dropLast_prefix word))
  exact first.2 _ (by omega) (occursAt_of_suffix ends whole)

/-- After anything that does not end in the word, its own first letters are quiet. -/
theorem quiet_dropLast {word seen : List α} (distinct : word.Nodup)
    (unfinished : ¬ word <:+ seen) : Quiet word seen word.dropLast := by
  intro start before ends
  cases start with
  | nil => exact unfinished (by simpa using ends)
  | cons letter rest =>
      have prefix_ : letter :: rest <+: word := before.trans (List.dropLast_prefix word)
      have suffix : letter :: rest <:+ word :=
        List.suffix_of_suffix_length_le (List.suffix_append seen _) ends prefix_.length_le
      have whole := borderless distinct prefix_ suffix (List.cons_ne_nil _ _)
      have short := before.length_le
      rw [whole, List.length_dropLast] at short
      have positive : 0 < word.length := by rw [← whole]; exact Nat.zero_lt_succ _
      omega

/-! ## Searching -/

variable [DecidableEq α]

def find (word : List α) : List α → Option Nat
  | [] => if word <+: [] then some 0 else none
  | letter :: rest =>
      if word <+: letter :: rest then some 0 else (find word rest).map (· + 1)

theorem find_eq_none {word text : List α} : find word text = none ↔ ¬ word <:+: text := by
  induction text with
  | nil =>
      rw [find, ite_eq_right_iff, List.infix_nil, List.prefix_nil]
      simp
  | cons letter rest ih =>
      rw [find, List.infix_cons_iff, not_or, ← ih]
      split
      · next here => simp [here]
      · next absent => simp [absent]

theorem firstAt_of_find {word text : List α} {index : Nat} (found : find word text = some index) :
    FirstAt word text index := by
  induction text generalizing index with
  | nil =>
      rw [find, Option.ite_none_right_eq_some] at found
      obtain ⟨here, zero⟩ := found
      cases zero
      exact ⟨here, fun earlier impossible => absurd impossible (Nat.not_lt_zero earlier)⟩
  | cons letter rest ih =>
      unfold find at found
      split at found
      · next here =>
          cases found
          exact ⟨here, fun earlier impossible => absurd impossible (Nat.not_lt_zero earlier)⟩
      · next absent =>
          obtain ⟨later, foundLater, rfl⟩ := Option.map_eq_some_iff.mp found
          obtain ⟨occurs, first⟩ := ih foundLater
          refine ⟨occurs, fun earlier before => ?_⟩
          cases earlier with
          | zero => exact absent
          | succ earlier => exact first earlier (Nat.lt_of_succ_lt_succ before)

theorem firstAt_of_occursAt {word text : List α} {index : Nat} (occurs : OccursAt word text index) :
    ∃ first ≤ index, FirstAt word text first := by
  cases search : find word text with
  | none => exact absurd (infix_of_occursAt occurs) (find_eq_none.mp search)
  | some first =>
      have found := firstAt_of_find search
      exact ⟨first, Nat.le_of_not_lt fun before => found.2 index before occurs, found⟩

/-! ## The restart rule -/

/-- The restart rule: extend the match, or begin a new one, or begin none. -/
def advance (word : List α) (matched : Nat) (letter : α) : Nat :=
  if word[matched]? = some letter then matched + 1
  else if word[0]? = some letter then 1
  else 0

/-- The restart rule is a failure function for a word without repeated letters. -/
theorem Tracks.advance {word seen : List α} {matched : Nat} {letter : α} (distinct : word.Nodup)
    (tracks : Tracks word seen matched) (incomplete : ¬ word <:+ seen ++ [letter]) :
    Tracks word (seen ++ [letter]) (advance word matched letter) := by
  have proper := tracks.proper
  unfold Pattern.advance
  split
  · next extends_ =>
      have room : matched + 1 < word.length := by
        have notLast : matched + 1 ≠ word.length :=
          fun full => incomplete (tracks.completes_iff.mpr ⟨extends_, full⟩)
        omega
      refine ⟨room, (take_succ_suffix_concat proper).mpr ⟨extends_, tracks.ends⟩, ?_⟩
      intro count inside ends
      cases count with
      | zero => omega
      | succ count =>
          have before := ((take_succ_suffix_concat (by omega)).mp ends).2
          have bound := tracks.longest count (by omega) before
          omega
  · next broken =>
      -- A prefix of two letters or more would end where the old match ended, and
      -- that place belongs to one prefix only: the match that has just broken.
      have short : ∀ count < word.length, word.take count <:+ seen ++ [letter] → count ≤ 1 := by
        intro count inside ends
        cases count with
        | zero => omega
        | succ count =>
            cases count with
            | zero => omega
            | succ count =>
                obtain ⟨last, before⟩ := (take_succ_suffix_concat (by omega)).mp ends
                have bound := tracks.longest (count + 1) (by omega) before
                cases matched with
                | zero => omega
                | succ matched =>
                    have same := take_suffix_unique distinct (by omega) (by omega) before tracks.ends
                    exact absurd (same ▸ last) broken
      split
      · next begins =>
          refine ⟨?_, ?_, short⟩
          · cases matched with
            | zero => exact absurd begins broken
            | succ matched => omega
          · exact (take_succ_suffix_concat (by omega)).mpr ⟨begins, by simp⟩
      · next different =>
          refine ⟨by omega, by simp, ?_⟩
          intro count inside ends
          have bound := short count inside ends
          cases count with
          | zero => exact Nat.le_refl 0
          | succ count =>
              have begins := ((take_succ_suffix_concat (by omega)).mp ends).1
              have first : count = 0 := by omega
              rw [first] at begins
              exact absurd begins different

end PresenceNode.Library.Pattern
