import PresenceNode.Library.Machine

/-!
# What an observer learns from a run

An observer sees some of the inputs and some of the outputs of a machine.  It
cannot tell two states apart when a step that is hidden from it leaves them
alike and shows it nothing, and two steps that look the same to it leave them
alike and show it the same.  Two runs of which it sees the same inputs then
show it the same outputs, whatever the hidden inputs are and wherever they fall.
-/

namespace PresenceNode.Library

structure Observer (ε ω α β : Type) where
  input : ε → Option α
  output : ω → Option β

variable {σ ε ω α β : Type}

/-- The states that the observer cannot tell apart. -/
structure Unwinding (machine : Machine σ ε ω) (observer : Observer ε ω α β)
    (alike : σ → σ → Prop) : Prop where
  symm : ∀ one other, alike one other → alike other one
  hidden : ∀ one other input next output, alike one other → observer.input input = none →
    machine.step one input = some (next, output) →
    alike next other ∧ observer.output output = none
  seen : ∀ one other input same nextOne nextOther outputOne outputOther, alike one other →
    observer.input input = observer.input same →
    (observer.input input).isSome = true →
    machine.step one input = some (nextOne, outputOne) →
    machine.step other same = some (nextOther, outputOther) →
    alike nextOne nextOther ∧ observer.output outputOne = observer.output outputOther

namespace Unwinding

variable {machine : Machine σ ε ω} {observer : Observer ε ω α β} {alike : σ → σ → Prop}

theorem run_hidden (unwinding : Unwinding machine observer alike) {one other final : σ}
    {inputs : List ε} {outputs : List ω} (start : alike one other)
    (none_ : ∀ input ∈ inputs, observer.input input = none)
    (ran : machine.run one inputs = some (final, outputs)) :
    alike final other ∧ outputs.filterMap observer.output = [] := by
  induction inputs generalizing one outputs with
  | nil =>
      cases ran
      exact ⟨start, rfl⟩
  | cons input rest ih =>
      obtain ⟨next, output, tail, stepped, ranRest, rfl⟩ := Machine.run_cons_eq_some.mp ran
      obtain ⟨after, quiet⟩ :=
        unwinding.hidden _ _ _ _ _ start (none_ input (List.mem_cons_self ..)) stepped
      rw [List.filterMap_cons_none quiet]
      exact ih after (fun input member => none_ input (List.mem_cons_of_mem _ member)) ranRest

/-- Two runs of which the observer sees the same inputs show it the same outputs. -/
theorem run (unwinding : Unwinding machine observer alike) {one other finalOne finalOther : σ}
    {inputsOne inputsOther : List ε} {outputsOne outputsOther : List ω} (start : alike one other)
    (ranOne : machine.run one inputsOne = some (finalOne, outputsOne))
    (ranOther : machine.run other inputsOther = some (finalOther, outputsOther))
    (same : inputsOne.filterMap observer.input = inputsOther.filterMap observer.input) :
    alike finalOne finalOther ∧
      outputsOne.filterMap observer.output = outputsOther.filterMap observer.output := by
  induction inputsOne generalizing one other inputsOther outputsOne outputsOther with
  | nil =>
      cases ranOne
      have hidden := List.filterMap_eq_nil_iff.mp same.symm
      obtain ⟨after, quiet⟩ := unwinding.run_hidden (unwinding.symm _ _ start) hidden ranOther
      exact ⟨unwinding.symm _ _ after, quiet.symm⟩
  | cons input rest ih =>
      obtain ⟨next, output, tail, stepped, ranRest, rfl⟩ := Machine.run_cons_eq_some.mp ranOne
      cases met : observer.input input with
      | none =>
          obtain ⟨after, quiet⟩ := unwinding.hidden _ _ _ _ _ start met stepped
          rw [List.filterMap_cons_none met] at same
          rw [List.filterMap_cons_none quiet]
          exact ih after ranRest ranOther same
      | some seen =>
          rw [List.filterMap_cons_some met] at same
          -- The other run reaches its own step on what is seen here through hidden steps.
          obtain ⟨before, match_, after, rfl, hidden, looks, behind⟩ :=
            List.filterMap_eq_cons_iff.mp same.symm
          obtain ⟨middle, outputsBefore, outputsAfter, ranBefore, ranMatch, rfl⟩ :=
            Machine.run_append_eq_some.mp ranOther
          obtain ⟨nextOther, outputOther, tailOther, steppedOther, ranAfter, rfl⟩ :=
            Machine.run_cons_eq_some.mp ranMatch
          obtain ⟨still, quiet⟩ :=
            unwinding.run_hidden (unwinding.symm _ _ start) hidden ranBefore
          obtain ⟨matched, equal⟩ := unwinding.seen _ _ _ _ _ _ _ _ (unwinding.symm _ _ still)
            (met.trans looks.symm) (by rw [met]; rfl) stepped steppedOther
          obtain ⟨last, tails⟩ := ih matched ranRest ranAfter behind.symm
          refine ⟨last, ?_⟩
          rw [List.filterMap_append, quiet, List.nil_append, List.filterMap_cons,
            List.filterMap_cons, equal, tails]

/-- Where alike states take what looks the same, a run goes on when its inputs are replaced. -/
theorem run_defined (unwinding : Unwinding machine observer alike)
    (takes : ∀ one other input same next output, alike one other →
      observer.input input = observer.input same →
      machine.step one input = some (next, output) →
      ∃ nextOther outputOther, machine.step other same = some (nextOther, outputOther))
    {one other final : σ} {inputs others : List ε} {outputs : List ω} (start : alike one other)
    (all : ∀ input ∈ inputs, (observer.input input).isSome = true)
    (same : inputs.map observer.input = others.map observer.input)
    (ran : machine.run one inputs = some (final, outputs)) :
    ∃ finalOther outputsOther, machine.run other others = some (finalOther, outputsOther) := by
  induction inputs generalizing one other others outputs with
  | nil =>
      obtain rfl : others = [] := List.map_eq_nil_iff.mp same.symm
      exact ⟨other, [], rfl⟩
  | cons input rest ih =>
      obtain ⟨next, output, tail, stepped, ranRest, _⟩ := Machine.run_cons_eq_some.mp ran
      obtain ⟨first, more, rfl, looks, behind⟩ := List.map_eq_cons_iff.mp same.symm
      obtain ⟨nextOther, outputOther, steppedOther⟩ :=
        takes _ _ _ _ _ _ start looks.symm stepped
      obtain ⟨matched, _⟩ := unwinding.seen _ _ _ _ _ _ _ _ start looks.symm
        (all input (List.mem_cons_self ..)) stepped steppedOther
      obtain ⟨finalOther, tailOther, ranOther⟩ := ih matched
        (fun input member => all input (List.mem_cons_of_mem _ member)) behind.symm ranRest
      exact ⟨finalOther, outputOther :: tailOther, Machine.run_cons steppedOther ranOther⟩

end Unwinding

end PresenceNode.Library
