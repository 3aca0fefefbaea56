import PresenceNode.Library.Machine

/-!
# Items that say where they end

The size of an item can be told from its beginning, so items need nothing
between them.  A receiver keeps what has arrived and takes items off its front;
what it takes depends on the bytes alone, and not on the pieces in which they
arrived.
-/

namespace PresenceNode.Library.SelfDelimiting

variable {α : Type}

/-- Once a size is told, it stays what it is, and no item is empty. -/
structure Lawful (size : List α → Option Nat) : Prop where
  stable : ∀ {front : List α} {n : Nat}, size front = some n →
    ∀ more, size (front ++ more) = some n
  positive : ∀ {front : List α} {n : Nat}, size front = some n → 0 < n

def Whole (size : List α → Option Nat) (item : List α) : Prop := size item = some item.length

def Waits (size : List α → Option Nat) (held : List α) : Prop :=
  ∀ n, size held = some n → held.length < n

def takeItems (size : List α → Option Nat) : Nat → List α → List (List α) × List α
  | 0, held => ([], held)
  | turns + 1, held =>
      match size held with
      | none => ([], held)
      | some n =>
          if held.length < n then ([], held)
          else
            let (items, rest) := takeItems size turns (held.drop n)
            (held.take n :: items, rest)

def receiver (size : List α → Option Nat) : Machine (List α) (List α) (List (List α)) where
  step held piece :=
    let arrived := held ++ piece
    let (items, rest) := takeItems size arrived.length arrived
    some (rest, items)

/-- The bytes are these items, and the rest waits. -/
inductive Splits (size : List α → Option Nat) : List α → List (List α) → List α → Prop where
  | waits {held : List α} (waits : Waits size held) : Splits size held [] held
  | item {item after rest : List α} {items : List (List α)}
      (told : size (item ++ after) = some item.length) (others : Splits size after items rest) :
      Splits size (item ++ after) (item :: items) rest

section Receiver

variable {size : List α → Option Nat}

theorem Splits.text {bytes rest : List α} {items : List (List α)}
    (splits : Splits size bytes items rest) : bytes = items.flatten ++ rest := by
  induction splits with
  | waits => rfl
  | item _ _ ih => rw [ih, List.flatten_cons, List.append_assoc]

theorem Splits.unique {bytes rest other : List α} {items others : List (List α)}
    (splits : Splits size bytes items rest) (also : Splits size bytes others other) :
    items = others ∧ rest = other := by
  induction splits generalizing others other with
  | waits waits =>
      cases also with
      | waits => exact ⟨rfl, rfl⟩
      | item told =>
          have short := waits _ told
          rw [List.length_append] at short
          omega
  | @item first after rest items told _ ih =>
      generalize same : first ++ after = bytes at also
      cases also with
      | waits waits =>
          rw [← same] at waits
          have short := waits _ told
          rw [List.length_append] at short
          omega
      | item toldOther more =>
          rw [← same, told] at toldOther
          obtain ⟨rfl, rfl⟩ := List.append_inj same (Option.some.inj toldOther)
          obtain ⟨rfl, rfl⟩ := ih more
          exact ⟨rfl, rfl⟩

theorem Splits.append (lawful : Lawful size) {bytes rest more last : List α}
    {items later : List (List α)} (splits : Splits size bytes items rest)
    (then_ : Splits size (rest ++ more) later last) :
    Splits size (bytes ++ more) (items ++ later) last := by
  induction splits with
  | waits => exact then_
  | item told _ ih =>
      rw [List.append_assoc, List.cons_append]
      refine .item ?_ (ih then_)
      rw [← List.append_assoc]
      exact lawful.stable told more

theorem takeItems_splits (lawful : Lawful size) {turns : Nat} {held : List α}
    (enough : held.length ≤ turns) :
    Splits size held (takeItems size turns held).1 (takeItems size turns held).2 := by
  induction turns generalizing held with
  | zero =>
      refine .waits fun n told => ?_
      have positive := lawful.positive told
      omega
  | succ turns ih =>
      rw [takeItems]
      cases told : size held with
      | none => exact .waits fun n impossible => by rw [told] at impossible; cases impossible
      | some n =>
          by_cases short : held.length < n
          · simp only [if_pos short]
            refine .waits fun other same => ?_
            rw [told] at same
            cases same
            exact short
          · simp only [if_neg short]
            have positive := lawful.positive told
            have inside : (held.take n).length = n := List.length_take_of_le (by omega)
            have others := ih (show (held.drop n).length ≤ turns by
              rw [List.length_drop]
              omega)
            have text : held.take n ++ held.drop n = held := List.take_append_drop n held
            have first : size (held.take n ++ held.drop n) = some (held.take n).length := by
              rw [text, told, inside]
            have both := Splits.item first others
            rwa [text] at both

/-- The run lemma: the pieces do not matter. -/
theorem receiver_splits (lawful : Lawful size) {pieces : List (List α)} {rest : List α}
    {made : List (List (List α))} (ran : (receiver size).run [] pieces = some (rest, made)) :
    Splits size pieces.flatten made.flatten rest := by
  have preserved : ∀ (pieces : List (List α)) (made : List (List (List α))) held piece next output,
      Splits size pieces.flatten made.flatten held →
      (receiver size).step held piece = some (next, output) →
      Splits size (pieces ++ [piece]).flatten (made ++ [output]).flatten next := by
    rintro pieces made held piece next output splits ⟨⟩
    have more := takeItems_splits lawful (Nat.le_refl (held ++ piece).length)
    simpa using splits.append lawful more
  have nothing : Splits size ([] : List (List α)).flatten ([] : List (List (List α))).flatten [] :=
    .waits fun n told => lawful.positive told
  exact Machine.run_invariant_unguarded preserved nothing ran

theorem receiver_run (size : List α → Option Nat) (held : List α) (pieces : List (List α)) :
    ∃ rest made, (receiver size).run held pieces = some (rest, made) := by
  induction pieces generalizing held with
  | nil => exact ⟨_, _, rfl⟩
  | cons piece later ih =>
      obtain ⟨rest, made, ran⟩ := ih (takeItems size (held ++ piece).length (held ++ piece)).2
      exact ⟨rest, _, Machine.run_cons rfl ran⟩

/-! ## Streams of whole items -/

theorem Whole.waits (lawful : Lawful size) {item front : List α} (whole : Whole size item)
    (begins : front <+: item) (short : front.length < item.length) : Waits size front := by
  obtain ⟨more, rfl⟩ := begins
  intro n told
  have same := (lawful.stable told more).symm.trans whole
  cases same
  exact short

/-- A stream of whole items that has been cut anywhere: the items before the cut, and a rest. -/
theorem splits_stream (lawful : Lawful size) {items : List (List α)}
    (whole : ∀ item ∈ items, Whole size item) {bytes : List α} (begins : bytes <+: items.flatten) :
    ∃ before after rest, items = before ++ after ∧ Splits size bytes before rest ∧
      bytes = before.flatten ++ rest ∧
      ∀ item, after.head? = some item → rest <+: item ∧ rest.length < item.length := by
  induction items generalizing bytes with
  | nil =>
      cases List.prefix_nil.mp begins
      refine ⟨[], [], [], rfl, .waits fun n told => lawful.positive told, rfl, nofun⟩
  | cons item items ih =>
      rw [List.flatten_cons] at begins
      have here := whole item (List.mem_cons_self ..)
      by_cases short : bytes.length < item.length
      · have front : bytes <+: item :=
          List.prefix_of_prefix_length_le begins (List.prefix_append _ _) (Nat.le_of_lt short)
        refine ⟨[], item :: items, bytes, rfl, .waits (here.waits lawful front short), rfl, ?_⟩
        rintro other ⟨⟩
        exact ⟨front, short⟩
      · obtain ⟨later, rfl⟩ : item <+: bytes :=
          List.prefix_of_prefix_length_le (List.prefix_append _ _) begins (Nat.le_of_not_lt short)
        obtain ⟨before, after, rest, rfl, splits, text, ends⟩ :=
          ih (fun other member => whole other (List.mem_cons_of_mem _ member))
            ((List.prefix_append_right_inj item).mp begins)
        refine ⟨item :: before, after, rest, rfl, .item (lawful.stable here later) splits, ?_, ends⟩
        rw [text, List.flatten_cons, List.append_assoc]

/-- An item of a stream is taken off exactly when its last element has arrived. -/
theorem taken_iff {before after : List (List α)} {rest : List α} (inside : ∀ item,
    after.head? = some item → rest.length < item.length) {n : Nat}
    (most : n ≤ (before ++ after).length) :
    n ≤ before.length ↔
      ((before ++ after).take n).flatten.length ≤ before.flatten.length + rest.length := by
  constructor
  · intro early
    obtain ⟨more, whole⟩ := List.take_prefix n before
    have length := congrArg (fun items => items.flatten.length) whole
    simp only [List.flatten_append, List.length_append] at length
    rw [List.take_append_of_le_length early]
    omega
  · intro arrived
    by_contra late
    cases after with
    | nil =>
        rw [List.append_nil] at most
        exact late most
    | cons item after =>
        have longer := inside item rfl
        obtain ⟨more, count⟩ : ∃ more, n - before.length = more + 1 :=
          ⟨n - before.length - 1, by omega⟩
        rw [List.take_append, List.take_of_length_le (by omega), count, List.take_succ_cons,
          List.flatten_append, List.flatten_cons, List.length_append, List.length_append] at arrived
        omega

end Receiver

end PresenceNode.Library.SelfDelimiting
