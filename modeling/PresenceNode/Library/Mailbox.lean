import PresenceNode.Library.Machine

/-!
# One cell and one signal in place of a queue

Writers store a value in the cell and then give the signal, as two steps, and
any number of them may be between the two.  The reader takes the signal, looks
at the cell, and serves what it has read or leaves it.  The signal does not
count: a value that is stored before the reader looks replaces the one before.

What is lost is only what was replaced.  A reader that waits without a signal,
while no writer still owes one, has looked after the last store.
-/

namespace PresenceNode.Library

inductive MailReader (α : Type) where
  | waiting
  | taken
  | serving (value : α)

structure Mailbox (α : Type) where
  cell : α
  signalled : Bool
  /-- The writers that have stored and have yet to give. -/
  owed : Nat
  reader : MailReader α

inductive MailEvent (α : Type) where
  | store (value : α)
  | give
  | take
  | serve
  /-- The reader looks and does not serve. -/
  | leave
  | finish
  | idle

inductive MailOutput (α : Type) where
  | stored (value : α)
  | served (value : α)
  | quiet

namespace Mailbox

variable {α : Type}

def machine (α : Type) : Machine (Mailbox α) (MailEvent α) (MailOutput α) where
  step m event :=
    match event, m.reader, m.signalled with
    | .store value, _, _ => some ({ m with cell := value, owed := m.owed + 1 }, .stored value)
    | .give, _, _ =>
        if m.owed = 0 then none
        else some ({ m with signalled := true, owed := m.owed - 1 }, .quiet)
    | .take, .waiting, true => some ({ m with signalled := false, reader := .taken }, .quiet)
    | .serve, .taken, _ => some ({ m with reader := .serving m.cell }, .served m.cell)
    | .leave, .taken, _ => some ({ m with reader := .waiting }, .quiet)
    | .finish, .serving _, _ => some ({ m with reader := .waiting }, .quiet)
    | .idle, _, _ => some (m, .quiet)
    | _, _, _ => none

def storedOf (outputs : List (MailOutput α)) : List α :=
  outputs.filterMap fun output =>
    match output with
    | .stored value => some value
    | _ => none

def servedOf (outputs : List (MailOutput α)) : List α :=
  outputs.filterMap fun output =>
    match output with
    | .served value => some value
    | _ => none

inductive Step (m : Mailbox α) : MailEvent α → Mailbox α → MailOutput α → Prop where
  | store (value : α) :
      Step m (.store value) { m with cell := value, owed := m.owed + 1 } (.stored value)
  | give (debt : 0 < m.owed) :
      Step m .give { m with signalled := true, owed := m.owed - 1 } .quiet
  | take (waits : m.reader = .waiting) (given : m.signalled = true) :
      Step m .take { m with signalled := false, reader := .taken } .quiet
  | serve (took : m.reader = .taken) :
      Step m .serve { m with reader := .serving m.cell } (.served m.cell)
  | leave (took : m.reader = .taken) : Step m .leave { m with reader := .waiting } .quiet
  | finish {value : α} (serves : m.reader = .serving value) :
      Step m .finish { m with reader := .waiting } .quiet
  | idle : Step m .idle m .quiet

theorem step_of {m next : Mailbox α} {event : MailEvent α} {output : MailOutput α}
    (stepped : (machine α).step m event = some (next, output)) : Step m event next output := by
  simp only [machine] at stepped
  split at stepped
  · cases stepped
    exact .store _
  · split at stepped
    · cases stepped
    · next debt =>
        cases stepped
        exact .give (Nat.pos_of_ne_zero debt)
  · next waits given =>
      cases stepped
      exact .take waits given
  · next took =>
      cases stepped
      exact .serve took
  · next took =>
      cases stepped
      exact .leave took
  · next serves =>
      cases stepped
      exact .finish serves
  · cases stepped
    exact .idle
  · cases stepped

theorem of_step {m next : Mailbox α} {event : MailEvent α} {output : MailOutput α}
    (step : Step m event next output) : (machine α).step m event = some (next, output) := by
  cases step with
  | store value => rfl
  | give debt => exact if_neg (Nat.ne_of_gt debt)
  | take waits given => simp only [machine, waits, given]
  | serve took => simp only [machine, took]
  | leave took => simp only [machine, took]
  | finish serves => simp only [machine, serves]
  | idle => rfl

/-! ## What is served was stored -/

/-- The signals that are given, owed, or taken and not yet used. -/
def signals (m : Mailbox α) : Nat :=
  m.owed + m.signalled.toNat + (match m.reader with | .taken => 1 | _ => 0)

/-- Nothing is served without a store of its own, or with another value than the last one. -/
structure Backed (outputs : List (MailOutput α)) (m : Mailbox α) : Prop where
  latest : ∀ value ∈ (storedOf outputs).getLast?, m.cell = value
  fewer : (servedOf outputs).length + m.signals ≤ (storedOf outputs).length
  stored : ∀ before value after, outputs = before ++ .served value :: after →
    (storedOf before).getLast? = some value

namespace Backed

variable {outputs : List (MailOutput α)} {m next : Mailbox α}

/-- A step that is quiet, keeps the cell and makes no signal keeps what backs the served values. -/
theorem quiet (backed : Backed outputs m) (cell : next.cell = m.cell)
    (signals : next.signals ≤ m.signals) : Backed (outputs ++ [.quiet]) next := by
  have sameStored : storedOf (outputs ++ [.quiet]) = storedOf outputs := by simp [storedOf]
  have sameServed : servedOf (outputs ++ [.quiet]) = servedOf outputs := by simp [servedOf]
  constructor
  · rw [sameStored, cell]
    exact backed.latest
  · rw [sameStored, sameServed]
    exact Nat.le_trans (Nat.add_le_add_left signals _) backed.fewer
  · intro before value after split
    rcases concat_eq_append_cons split with ⟨_, impossible, _⟩ | ⟨rest, _, earlier⟩
    · cases impossible
    · exact backed.stored before value rest earlier

theorem store (backed : Backed outputs m) (value : α) :
    Backed (outputs ++ [.stored value]) { m with cell := value, owed := m.owed + 1 } := by
  have grown : storedOf (outputs ++ [.stored value]) = storedOf outputs ++ [value] := by
    simp [storedOf]
  have sameServed : servedOf (outputs ++ [.stored value]) = servedOf outputs := by simp [servedOf]
  constructor
  · rw [grown, List.getLast?_concat]
    rintro other ⟨⟩
    rfl
  · rw [grown, sameServed, List.length_append]
    have fewer := backed.fewer
    simp only [signals] at fewer ⊢
    simp only [List.length_singleton]
    omega
  · intro before other after split
    rcases concat_eq_append_cons split with ⟨_, impossible, _⟩ | ⟨rest, _, earlier⟩
    · cases impossible
    · exact backed.stored before other rest earlier

/-- Whoever has taken a signal finds the value of the last store. -/
theorem cell_of_taken (backed : Backed outputs m) (took : m.reader = .taken) :
    (storedOf outputs).getLast? = some m.cell := by
  have fewer := backed.fewer
  simp only [signals, took] at fewer
  cases last : (storedOf outputs).getLast? with
  | none =>
      rw [List.getLast?_eq_none_iff.mp last, List.length_nil] at fewer
      omega
  | some value => rw [backed.latest value last]

theorem serve (backed : Backed outputs m) (took : m.reader = .taken) :
    Backed (outputs ++ [.served m.cell]) { m with reader := .serving m.cell } := by
  have sameStored : storedOf (outputs ++ [.served m.cell]) = storedOf outputs := by
    simp [storedOf]
  have grown : servedOf (outputs ++ [.served m.cell]) = servedOf outputs ++ [m.cell] := by
    simp [servedOf]
  constructor
  · rw [sameStored]
    exact backed.latest
  · rw [sameStored, grown, List.length_append]
    have fewer := backed.fewer
    simp only [signals, took] at fewer ⊢
    simp only [List.length_singleton]
    omega
  · intro before value after split
    rcases concat_eq_append_cons split with ⟨rfl, same, _⟩ | ⟨rest, _, earlier⟩
    · cases same
      exact backed.cell_of_taken took
    · exact backed.stored before value rest earlier

theorem step {event : MailEvent α} {output : MailOutput α} (backed : Backed outputs m)
    (stepped : (machine α).step m event = some (next, output)) :
    Backed (outputs ++ [output]) next := by
  cases step_of stepped with
  | store value => exact backed.store value
  | give debt =>
      refine backed.quiet rfl ?_
      have most := m.signalled.toNat_le
      simp only [signals, Bool.toNat_true]
      omega
  | take waits given =>
      refine backed.quiet rfl ?_
      simp [signals, waits, given]
  | serve took => exact backed.serve took
  | leave took =>
      refine backed.quiet rfl ?_
      simp [signals, took]
  | finish serves =>
      refine backed.quiet rfl ?_
      simp [signals, serves]
  | idle => exact backed.quiet rfl (Nat.le_refl _)

end Backed

/-- Of an empty mailbox, in every run. -/
theorem run_backed {start final : Mailbox α} {events : List (MailEvent α)}
    {outputs : List (MailOutput α)} (empty : start.signals = 0)
    (ran : (machine α).run start events = some (final, outputs)) : Backed outputs final := by
  have initial : Backed [] start :=
    ⟨nofun, by rw [empty]; exact Nat.le_refl 0, fun _ _ _ split => absurd split (by simp)⟩
  have preserved : ∀ (history : List (MailEvent α)) outputs m event next output,
      Backed outputs m → (machine α).step m event = some (next, output) →
      Backed (outputs ++ [output]) next :=
    fun _ _ _ _ _ _ backed stepped => backed.step stepped
  exact Machine.run_invariant_unguarded preserved initial ran

/-! ## What is stored last is served -/

/-- The value of the last store was served, after it and last of all. -/
def Answered (outputs : List (MailOutput α)) : Prop :=
  storedOf outputs ≠ [] → ∃ before value after, outputs = before ++ .served value :: after ∧
    (storedOf before).getLast? = some value ∧ storedOf after = [] ∧ servedOf after = []

/-- A reader that waits for a signal that nobody owes has answered. -/
structure Current (outputs : List (MailOutput α)) (m : Mailbox α) : Prop where
  latest : ∀ value ∈ (storedOf outputs).getLast?, m.cell = value
  answered : m.owed = 0 → m.signalled = false → m.reader ≠ .taken → Answered outputs

namespace Current

variable {outputs : List (MailOutput α)} {m next : Mailbox α}

theorem start (m : Mailbox α) : Current [] m :=
  ⟨nofun, fun _ _ _ something => absurd rfl something⟩

theorem quiet (current : Current outputs m) (cell : next.cell = m.cell)
    (before : next.owed = 0 → next.signalled = false → next.reader ≠ .taken →
      m.owed = 0 ∧ m.signalled = false ∧ m.reader ≠ .taken) :
    Current (outputs ++ [.quiet]) next := by
  have same : storedOf (outputs ++ [.quiet]) = storedOf outputs := by simp [storedOf]
  constructor
  · rw [same, cell]
    exact current.latest
  · intro paid silent idle something
    rw [same] at something
    obtain ⟨paidBefore, silentBefore, idleBefore⟩ := before paid silent idle
    obtain ⟨first, value, rest, rfl, last, noStore, noServe⟩ :=
      current.answered paidBefore silentBefore idleBefore something
    refine ⟨first, value, rest ++ [.quiet], by simp, last, ?_, ?_⟩
    · rw [storedOf, List.filterMap_append, ← storedOf, noStore]
      rfl
    · rw [servedOf, List.filterMap_append, ← servedOf, noServe]
      rfl

theorem step {event : MailEvent α} {output : MailOutput α} (current : Current outputs m)
    (serves : event ≠ .leave) (stepped : (machine α).step m event = some (next, output)) :
    Current (outputs ++ [output]) next := by
  cases step_of stepped with
  | store value =>
      constructor
      · have grown : storedOf (outputs ++ [.stored value]) = storedOf outputs ++ [value] := by
          simp [storedOf]
        rw [grown, List.getLast?_concat]
        rintro other ⟨⟩
        rfl
      · exact fun paid => absurd paid (Nat.succ_ne_zero _)
  | give debt =>
      refine current.quiet rfl fun _ silent _ => ?_
      cases silent
  | take waits given =>
      refine current.quiet rfl fun _ _ idle => ?_
      exact absurd rfl idle
  | serve took =>
      have same : storedOf (outputs ++ [.served m.cell]) = storedOf outputs := by simp [storedOf]
      constructor
      · rw [same]
        exact current.latest
      · intro _ _ _ something
        rw [same] at something
        have last := List.getLast?_eq_some_getLast something
        exact ⟨outputs, m.cell, [], rfl, by rw [last, current.latest _ last], rfl, rfl⟩
  | leave took => exact absurd rfl serves
  | finish busy =>
      refine current.quiet rfl fun paid silent _ => ⟨paid, silent, ?_⟩
      rw [busy]
      nofun
  | idle => exact current.quiet rfl fun paid silent idle => ⟨paid, silent, idle⟩

end Current

/-- Of any mailbox, in every run in which the reader always serves. -/
theorem run_current {start final : Mailbox α} {events : List (MailEvent α)}
    {outputs : List (MailOutput α)} (serves : ∀ event ∈ events, event ≠ .leave)
    (ran : (machine α).run start events = some (final, outputs)) : Current outputs final := by
  have preserved : ∀ (history : List (MailEvent α)) outputs m event next output,
      Current outputs m → event ≠ .leave → (machine α).step m event = some (next, output) →
      Current (outputs ++ [output]) next :=
    fun _ _ _ _ _ _ current serves stepped => current.step serves stepped
  exact Machine.run_invariant preserved (Current.start start)
    (Machine.guarded_of_inputs serves _) ran

end Mailbox

end PresenceNode.Library
