import Mathlib.Data.List.Induction
import Mathlib.Data.List.Infix

/-!
# Machines that read one input at a time

A machine takes a state and an input to the next state and one output.  A step
may be undefined: `none` stands for a fault of the program being modelled, or
for an input that the current state does not take.  A run is defined when each
of its steps is, and it has exactly one output for every input.

Invariants are indexed by the history: the inputs read so far and the outputs
made so far.  An assumption about the environment is a guard on the state and
the input of every step, so that a result holds of each run whose steps all
meet the guard.
-/

namespace PresenceNode.Library

/-- What is split off a longer list is its last element, or one of the elements before. -/
theorem concat_eq_append_cons {α : Type} {front before after : List α} {last x : α}
    (split : front ++ [last] = before ++ x :: after) :
    (before = front ∧ last = x ∧ after = []) ∨
      ∃ rest, after = rest ++ [last] ∧ front = before ++ x :: rest := by
  rcases List.eq_nil_or_concat after with rfl | ⟨rest, other, rfl⟩
  · obtain ⟨same, single⟩ := List.append_inj' split rfl
    cases single
    exact .inl ⟨same.symm, rfl, rfl⟩
  · rw [List.concat_eq_append, ← List.cons_append, ← List.append_assoc] at split
    obtain ⟨same, single⟩ := List.append_inj' split rfl
    cases single
    exact .inr ⟨rest, by simp, same⟩

structure Machine (σ ε ω : Type) where
  step : σ → ε → Option (σ × ω)

namespace Machine

variable {σ τ ε ω : Type}

def run (machine : Machine σ ε ω) (state : σ) : List ε → Option (σ × List ω)
  | [] => some (state, [])
  | input :: rest =>
      (machine.step state input).bind fun next =>
        (machine.run next.1 rest).map fun final => (final.1, next.2 :: final.2)

@[simp] theorem run_nil (machine : Machine σ ε ω) (state : σ) :
    machine.run state [] = some (state, []) := rfl

theorem run_cons_eq_some {machine : Machine σ ε ω} {state final : σ} {input : ε}
    {rest : List ε} {outputs : List ω} :
    machine.run state (input :: rest) = some (final, outputs) ↔
      ∃ next output tail, machine.step state input = some (next, output) ∧
        machine.run next rest = some (final, tail) ∧ outputs = output :: tail := by
  constructor
  · intro found
    simp only [run, Option.bind_eq_some_iff, Option.map_eq_some_iff, Prod.mk.injEq] at found
    obtain ⟨⟨next, output⟩, stepped, ⟨last, tail⟩, ran, rfl, rfl⟩ := found
    exact ⟨next, output, tail, stepped, ran, rfl⟩
  · rintro ⟨next, output, tail, stepped, ran, rfl⟩
    simp [run, stepped, ran]

theorem run_cons {machine : Machine σ ε ω} {state next final : σ} {input : ε}
    {rest : List ε} {output : ω} {outputs : List ω}
    (stepped : machine.step state input = some (next, output))
    (ran : machine.run next rest = some (final, outputs)) :
    machine.run state (input :: rest) = some (final, output :: outputs) :=
  run_cons_eq_some.mpr ⟨next, output, outputs, stepped, ran, rfl⟩

theorem run_append_eq_some {machine : Machine σ ε ω} {state final : σ}
    {first second : List ε} {outputs : List ω} :
    machine.run state (first ++ second) = some (final, outputs) ↔
      ∃ middle before after, machine.run state first = some (middle, before) ∧
        machine.run middle second = some (final, after) ∧ outputs = before ++ after := by
  induction first generalizing state outputs with
  | nil => simp
  | cons input rest ih =>
      rw [List.cons_append, run_cons_eq_some]
      constructor
      · rintro ⟨next, output, tail, stepped, ran, rfl⟩
        obtain ⟨middle, before, after, ranFirst, ranSecond, rfl⟩ := ih.mp ran
        exact ⟨middle, output :: before, after, run_cons stepped ranFirst, ranSecond, rfl⟩
      · rintro ⟨middle, before, after, ranFirst, ranSecond, rfl⟩
        obtain ⟨next, output, tail, stepped, ran, rfl⟩ := run_cons_eq_some.mp ranFirst
        exact ⟨next, output, tail ++ after, stepped,
          ih.mpr ⟨middle, tail, after, ran, ranSecond, rfl⟩, rfl⟩

theorem run_append {machine : Machine σ ε ω} {state middle final : σ}
    {first second : List ε} {before after : List ω}
    (ranFirst : machine.run state first = some (middle, before))
    (ranSecond : machine.run middle second = some (final, after)) :
    machine.run state (first ++ second) = some (final, before ++ after) :=
  run_append_eq_some.mpr ⟨middle, before, after, ranFirst, ranSecond, rfl⟩

theorem run_concat {machine : Machine σ ε ω} {state middle final : σ}
    {inputs : List ε} {input : ε} {outputs : List ω} {output : ω}
    (ran : machine.run state inputs = some (middle, outputs))
    (stepped : machine.step middle input = some (final, output)) :
    machine.run state (inputs ++ [input]) = some (final, outputs ++ [output]) :=
  run_append ran (run_cons stepped rfl)

theorem run_length {machine : Machine σ ε ω} {state final : σ} {inputs : List ε}
    {outputs : List ω} (ran : machine.run state inputs = some (final, outputs)) :
    outputs.length = inputs.length := by
  induction inputs generalizing state outputs with
  | nil =>
      simp only [run_nil, Option.some.injEq, Prod.mk.injEq] at ran
      simp [← ran.2]
  | cons input rest ih =>
      obtain ⟨next, output, tail, _, ranRest, rfl⟩ := run_cons_eq_some.mp ran
      simp [ih ranRest]

/-- Every output of a run was made by one of its steps, after the outputs before it. -/
theorem run_output {machine : Machine σ ε ω} {state final : σ} {inputs : List ε}
    {before after : List ω} {output : ω}
    (ran : machine.run state inputs = some (final, before ++ output :: after)) :
    ∃ earlier input later middle next, inputs = earlier ++ input :: later ∧
      machine.run state earlier = some (middle, before) ∧
      machine.step middle input = some (next, output) := by
  induction before generalizing state inputs with
  | nil =>
      cases inputs with
      | nil => simp at ran
      | cons input rest =>
          obtain ⟨next, first, tail, stepped, _, same⟩ := run_cons_eq_some.mp ran
          cases same
          exact ⟨[], input, rest, state, next, rfl, rfl, stepped⟩
  | cons first before ih =>
      cases inputs with
      | nil => simp at ran
      | cons input rest =>
          obtain ⟨next, made, tail, stepped, ranRest, same⟩ := run_cons_eq_some.mp ran
          cases same
          obtain ⟨earlier, other, later, middle, last, rfl, ranEarlier, steppedLast⟩ := ih ranRest
          exact ⟨input :: earlier, other, later, middle, last, rfl, run_cons stepped ranEarlier,
            steppedLast⟩

theorem run_getElem? {machine : Machine σ ε ω} {state final : σ} {inputs : List ε}
    {outputs : List ω} (ran : machine.run state inputs = some (final, outputs)) {index : Nat}
    {output : ω} (found : outputs[index]? = some output) :
    ∃ input middle next, inputs[index]? = some input ∧
      machine.run state (inputs.take index) = some (middle, outputs.take index) ∧
      machine.step middle input = some (next, output) := by
  obtain ⟨inside, here⟩ := List.getElem?_eq_some_iff.mp found
  have split : outputs = outputs.take index ++ output :: outputs.drop (index + 1) := by
    rw [← here, List.getElem_cons_drop, List.take_append_drop]
  rw [split] at ran
  obtain ⟨before, input, after, middle, next, rfl, ranBefore, stepped⟩ := run_output ran
  have length : before.length = index := by
    rw [← run_length ranBefore, List.length_take]
    exact Nat.min_eq_left (Nat.le_of_lt inside)
  refine ⟨input, middle, next, ?_, ?_, stepped⟩
  · rw [← length, List.getElem?_append_right (Nat.le_refl _), Nat.sub_self, List.getElem?_cons_zero]
  · rw [← length, List.take_left, length]
    exact ranBefore

/-! ## Guards and invariants -/

/-- Every step of the run is taken from a state and an input that meet the guard. -/
def Guarded (machine : Machine σ ε ω) (guard : σ → ε → Prop) (state : σ) : List ε → Prop
  | [] => True
  | input :: rest =>
      guard state input ∧
        ∀ next output, machine.step state input = some (next, output) →
          machine.Guarded guard next rest

theorem guarded_cons {machine : Machine σ ε ω} {guard : σ → ε → Prop} {state next : σ}
    {input : ε} {output : ω} {rest : List ε} (met : guard state input)
    (stepped : machine.step state input = some (next, output))
    (guarded : machine.Guarded guard next rest) :
    machine.Guarded guard state (input :: rest) := by
  refine ⟨met, fun other result same => ?_⟩
  rw [stepped] at same
  cases same
  exact guarded

theorem guarded_of_all {machine : Machine σ ε ω} {guard : σ → ε → Prop} {inputs : List ε}
    (all : ∀ input ∈ inputs, ∀ state, guard state input) (state : σ) :
    machine.Guarded guard state inputs := by
  induction inputs generalizing state with
  | nil => trivial
  | cons input rest ih =>
      exact ⟨all input (List.mem_cons_self ..) state, fun next _ _ =>
        ih (fun other member => all other (List.mem_cons_of_mem _ member)) next⟩

theorem guarded_of_inputs {machine : Machine σ ε ω} {met : ε → Prop} {inputs : List ε}
    (all : ∀ input ∈ inputs, met input) (state : σ) :
    machine.Guarded (fun _ input => met input) state inputs :=
  guarded_of_all (fun input member _ => all input member) state

theorem unguarded (machine : Machine σ ε ω) (state : σ) (inputs : List ε) :
    machine.Guarded (fun _ _ => True) state inputs :=
  guarded_of_inputs (fun _ _ => trivial) state

theorem Guarded.append_left {machine : Machine σ ε ω} {guard : σ → ε → Prop} {state : σ}
    {first second : List ε} (guarded : machine.Guarded guard state (first ++ second)) :
    machine.Guarded guard state first := by
  induction first generalizing state with
  | nil => trivial
  | cons input rest ih =>
      exact ⟨guarded.1, fun next output stepped => ih (guarded.2 next output stepped)⟩

theorem Guarded.append {machine : Machine σ ε ω} {guard : σ → ε → Prop} {state : σ}
    {first second : List ε} (guarded : machine.Guarded guard state first)
    (rest : ∀ middle outputs, machine.run state first = some (middle, outputs) →
      machine.Guarded guard middle second) : machine.Guarded guard state (first ++ second) := by
  induction first generalizing state with
  | nil => exact rest state [] rfl
  | cons input tail ih =>
      exact ⟨guarded.1, fun next output stepped => ih (guarded.2 next output stepped)
        fun middle outputs ran => rest middle (output :: outputs) (run_cons stepped ran)⟩

theorem Guarded.after {machine : Machine σ ε ω} {guard : σ → ε → Prop} {state middle : σ}
    {first second : List ε} {outputs : List ω}
    (guarded : machine.Guarded guard state (first ++ second))
    (ran : machine.run state first = some (middle, outputs)) :
    machine.Guarded guard middle second := by
  induction first generalizing state outputs with
  | nil =>
      cases ran
      exact guarded
  | cons input rest ih =>
      obtain ⟨next, output, tail, stepped, ranRest, rfl⟩ := run_cons_eq_some.mp ran
      exact ih (guarded.2 next output stepped) ranRest

/-- A run that meets two guards meets whatever follows from the two together. -/
theorem Guarded.imp {machine : Machine σ ε ω} {first second both : σ → ε → Prop}
    (follows : ∀ state input, first state input → second state input → both state input)
    {state : σ} {inputs : List ε} (guarded : machine.Guarded first state inputs)
    (also : machine.Guarded second state inputs) : machine.Guarded both state inputs := by
  induction inputs generalizing state with
  | nil => trivial
  | cons input rest ih =>
      exact ⟨follows state input guarded.1 also.1, fun next output stepped =>
        ih (guarded.2 next output stepped) (also.2 next output stepped)⟩

/--
The run rule.  An invariant of the history that one guarded step preserves
holds at the end of every guarded run.
-/
theorem run_invariant_from {machine : Machine σ ε ω} {guard : σ → ε → Prop}
    {invariant : List ε → List ω → σ → Prop}
    (preserved : ∀ history outputs state input next output,
      invariant history outputs state → guard state input →
      machine.step state input = some (next, output) →
      invariant (history ++ [input]) (outputs ++ [output]) next)
    {state final : σ} {history inputs : List ε} {earlier outputs : List ω}
    (holds : invariant history earlier state)
    (guarded : machine.Guarded guard state inputs)
    (ran : machine.run state inputs = some (final, outputs)) :
    invariant (history ++ inputs) (earlier ++ outputs) final := by
  induction inputs generalizing state history earlier outputs with
  | nil =>
      simp only [run_nil, Option.some.injEq, Prod.mk.injEq] at ran
      obtain ⟨rfl, rfl⟩ := ran
      simpa using holds
  | cons input rest ih =>
      obtain ⟨next, output, tail, stepped, ranRest, rfl⟩ := run_cons_eq_some.mp ran
      have after := preserved _ _ _ _ _ _ holds guarded.1 stepped
      simpa using ih after (guarded.2 next output stepped) ranRest

/-- The run rule from the initial state, where the history is empty. -/
theorem run_invariant {machine : Machine σ ε ω} {guard : σ → ε → Prop}
    {invariant : List ε → List ω → σ → Prop}
    (preserved : ∀ history outputs state input next output,
      invariant history outputs state → guard state input →
      machine.step state input = some (next, output) →
      invariant (history ++ [input]) (outputs ++ [output]) next)
    {state final : σ} {inputs : List ε} {outputs : List ω}
    (holds : invariant [] [] state)
    (guarded : machine.Guarded guard state inputs)
    (ran : machine.run state inputs = some (final, outputs)) :
    invariant inputs outputs final := by
  simpa using run_invariant_from preserved holds guarded ran

/-- The run rule for an invariant that every step preserves. -/
theorem run_invariant_unguarded {machine : Machine σ ε ω}
    {invariant : List ε → List ω → σ → Prop}
    (preserved : ∀ history outputs state input next output,
      invariant history outputs state → machine.step state input = some (next, output) →
      invariant (history ++ [input]) (outputs ++ [output]) next)
    {state final : σ} {inputs : List ε} {outputs : List ω} (holds : invariant [] [] state)
    (ran : machine.run state inputs = some (final, outputs)) :
    invariant inputs outputs final := by
  have always : ∀ history outputs state input next output,
      invariant history outputs state → True →
      machine.step state input = some (next, output) →
      invariant (history ++ [input]) (outputs ++ [output]) next :=
    fun history outputs state input next output before _ stepped =>
      preserved history outputs state input next output before stepped
  exact run_invariant always holds (machine.unguarded state inputs) ran

/-- The run rule for a guard that looks at the inputs read so far. -/
theorem run_invariant_history {machine : Machine σ ε ω} {guard : List ε → σ → ε → Prop}
    {invariant : List ε → List ω → σ → Prop}
    (preserved : ∀ history outputs state input next output,
      invariant history outputs state → guard history state input →
      machine.step state input = some (next, output) →
      invariant (history ++ [input]) (outputs ++ [output]) next)
    {start final : σ} {inputs : List ε} {outputs : List ω} (holds : invariant [] [] start)
    (met : ∀ before input after middle made, inputs = before ++ input :: after →
      machine.run start before = some (middle, made) → guard before middle input)
    (ran : machine.run start inputs = some (final, outputs)) :
    invariant inputs outputs final := by
  induction inputs using List.reverseRecOn generalizing final outputs with
  | nil =>
      simp only [run_nil, Option.some.injEq, Prod.mk.injEq] at ran
      obtain ⟨rfl, rfl⟩ := ran
      exact holds
  | append_singleton rest input ih =>
      obtain ⟨middle, before, after, ranRest, ranLast, rfl⟩ := run_append_eq_some.mp ran
      obtain ⟨next, output, tail, stepped, ranNothing, rfl⟩ := run_cons_eq_some.mp ranLast
      cases ranNothing
      have earlier := ih (fun first other later state made same ranFirst =>
        met first other (later ++ [input]) state made (by rw [same]; simp) ranFirst) ranRest
      exact preserved _ _ _ _ _ _ earlier (met rest input [] middle before rfl ranRest) stepped

/--
Where a guard decides at every step whether the output is good, the outputs of
a run are all good exactly if the run is guarded.
-/
theorem run_good_iff_guarded {machine : Machine σ ε ω} {allowed : ε → Prop}
    {guard : σ → ε → Prop} {good : ω → Prop} {invariant : σ → Prop}
    (preserved : ∀ state input next output, invariant state → allowed input →
      machine.step state input = some (next, output) →
      invariant next ∧ (good output ↔ guard state input))
    {state final : σ} {inputs : List ε} {outputs : List ω} (holds : invariant state)
    (all : ∀ input ∈ inputs, allowed input)
    (ran : machine.run state inputs = some (final, outputs)) :
    (∀ output ∈ outputs, good output) ↔ machine.Guarded guard state inputs := by
  induction inputs generalizing state outputs with
  | nil =>
      simp only [run_nil, Option.some.injEq, Prod.mk.injEq] at ran
      simp [← ran.2, Guarded]
  | cons input rest ih =>
      obtain ⟨next, output, tail, stepped, ranRest, rfl⟩ := run_cons_eq_some.mp ran
      obtain ⟨after, decides⟩ :=
        preserved _ _ _ _ holds (all input (List.mem_cons_self ..)) stepped
      have others := ih after (fun other member => all other (List.mem_cons_of_mem _ member)) ranRest
      rw [List.forall_mem_cons, decides, others]
      constructor
      · rintro ⟨met, guarded⟩
        exact guarded_cons met stepped guarded
      · rintro ⟨met, guarded⟩
        exact ⟨met, guarded next output stepped⟩

/-- A step that is always defined on the inputs makes every run of them defined. -/
theorem run_total {machine : Machine σ ε ω} {inputs : List ε}
    (total : ∀ input ∈ inputs, ∀ state, ∃ next output, machine.step state input = some (next, output))
    (state : σ) : ∃ final outputs, machine.run state inputs = some (final, outputs) := by
  induction inputs generalizing state with
  | nil => exact ⟨state, [], rfl⟩
  | cons input rest ih =>
      obtain ⟨next, output, stepped⟩ := total input (List.mem_cons_self ..) state
      obtain ⟨final, outputs, ran⟩ :=
        ih (fun other member => total other (List.mem_cons_of_mem _ member)) next
      exact ⟨final, output :: outputs, run_cons stepped ran⟩

/-! ## What a run contributes -/

/-- What the steps of a run contribute, each by the state before it and its input. -/
def gather {α : Type} (machine : Machine σ ε ω) (made : σ → ε → Option α) (state : σ) :
    List ε → List α
  | [] => []
  | input :: rest =>
      (made state input).toList ++
        ((machine.step state input).map fun next => machine.gather made next.1 rest).getD []

theorem gather_cons {α : Type} {machine : Machine σ ε ω} {made : σ → ε → Option α}
    {state next : σ} {input : ε} {output : ω}
    (stepped : machine.step state input = some (next, output)) (rest : List ε) :
    machine.gather made state (input :: rest) =
      (made state input).toList ++ machine.gather made next rest := by
  rw [gather, stepped, Option.map_some, Option.getD_some]

/-- What follows a part of a run contributes from where that part ends. -/
theorem gather_append {α : Type} {machine : Machine σ ε ω} (made : σ → ε → Option α)
    {state middle : σ} {first : List ε} {outputs : List ω}
    (ran : machine.run state first = some (middle, outputs)) (second : List ε) :
    machine.gather made state (first ++ second) =
      machine.gather made state first ++ machine.gather made middle second := by
  induction first generalizing state outputs with
  | nil =>
      cases ran
      rfl
  | cons input rest ih =>
      obtain ⟨next, output, tail, stepped, ranRest, rfl⟩ := run_cons_eq_some.mp ran
      rw [List.cons_append, gather_cons stepped, gather_cons stepped, ih ranRest,
        List.append_assoc]

/-- The last step of a run contributes by the state that the steps before it reach. -/
theorem gather_concat {α : Type} {machine : Machine σ ε ω} (made : σ → ε → Option α)
    {state middle : σ} {inputs : List ε} {outputs : List ω}
    (ran : machine.run state inputs = some (middle, outputs)) (input : ε) :
    machine.gather made state (inputs ++ [input]) =
      machine.gather made state inputs ++ (made middle input).toList := by
  rw [gather_append made ran, gather]
  cases machine.step middle input with
  | none => rw [Option.map_none, Option.getD_none, List.append_nil]
  | some next => exact congrArg _ (List.append_nil _)

/-- What a run contributes, if that does not depend on the states. -/
theorem gather_filterMap {α : Type} {machine : Machine σ ε ω} (pick : ε → Option α)
    {state final : σ} {inputs : List ε} {outputs : List ω}
    (ran : machine.run state inputs = some (final, outputs)) :
    machine.gather (fun _ input => pick input) state inputs = inputs.filterMap pick := by
  induction inputs generalizing state outputs with
  | nil => rfl
  | cons input rest ih =>
      obtain ⟨next, output, tail, stepped, ranRest, _⟩ := run_cons_eq_some.mp ran
      rw [gather_cons stepped, ih ranRest, List.filterMap_cons]
      cases pick input <;> rfl

/-- Whatever a run contributes was contributed by one of its steps. -/
theorem mem_gather {α : Type} {machine : Machine σ ε ω} {made : σ → ε → Option α} {state : σ}
    {inputs : List ε} {item : α} (member : item ∈ machine.gather made state inputs) :
    ∃ before input after middle outputs, inputs = before ++ input :: after ∧
      machine.run state before = some (middle, outputs) ∧ made middle input = some item := by
  induction inputs generalizing state with
  | nil => cases member
  | cons input rest ih =>
      rcases List.mem_append.mp member with here | later
      · exact ⟨[], input, rest, state, [], rfl, rfl, Option.mem_toList.mp here⟩
      · cases stepped : machine.step state input with
        | none =>
            rw [stepped] at later
            cases later
        | some next =>
            rw [stepped] at later
            obtain ⟨before, other, after, middle, outputs, rfl, ran, same⟩ := ih later
            exact ⟨input :: before, other, after, middle, next.2 :: outputs, rfl,
              run_cons stepped ran, same⟩

/-! ## Simulation -/

/-- Every step of the abstract machine is matched by the concrete one, with the same output. -/
def Simulates (concrete : Machine σ ε ω) (abstract : Machine τ ε ω) (related : σ → τ → Prop) :
    Prop :=
  ∀ state shadow input shadowNext output, related state shadow →
    abstract.step shadow input = some (shadowNext, output) →
    ∃ next, concrete.step state input = some (next, output) ∧ related next shadowNext

/-- Simulation of steps is simulation of runs. -/
theorem Simulates.run {concrete : Machine σ ε ω} {abstract : Machine τ ε ω}
    {related : σ → τ → Prop} (simulates : concrete.Simulates abstract related)
    {state : σ} {shadow shadowFinal : τ} {inputs : List ε} {outputs : List ω}
    (start : related state shadow)
    (ran : abstract.run shadow inputs = some (shadowFinal, outputs)) :
    ∃ final, concrete.run state inputs = some (final, outputs) ∧ related final shadowFinal := by
  induction inputs generalizing state shadow outputs with
  | nil =>
      simp only [run_nil, Option.some.injEq, Prod.mk.injEq] at ran
      obtain ⟨rfl, rfl⟩ := ran
      exact ⟨state, rfl, start⟩
  | cons input rest ih =>
      obtain ⟨shadowNext, output, tail, stepped, ranRest, rfl⟩ := run_cons_eq_some.mp ran
      obtain ⟨next, concreteStep, relatedNext⟩ :=
        simulates _ _ _ _ _ start stepped
      obtain ⟨final, concreteRun, relatedFinal⟩ := ih relatedNext ranRest
      exact ⟨final, run_cons concreteStep concreteRun, relatedFinal⟩

/--
Every guarded step of the concrete machine is a step of the abstract one, on an
input of its own that is allowed, and shows what the abstract step makes.
-/
def Refines {ε' ω' : Type} (concrete : Machine σ ε ω) (abstract : Machine τ ε' ω')
    (related : σ → τ → Prop) (guard : σ → ε → Prop) (allowed : ε' → Prop) (shown : ω → ω') :
    Prop :=
  ∀ state shadow input next output, related state shadow → guard state input →
    concrete.step state input = some (next, output) →
    ∃ other shadowNext, abstract.step shadow other = some (shadowNext, shown output) ∧
      allowed other ∧ related next shadowNext

/-- Refinement of steps is refinement of runs. -/
theorem Refines.run {ε' ω' : Type} {concrete : Machine σ ε ω} {abstract : Machine τ ε' ω'}
    {related : σ → τ → Prop} {guard : σ → ε → Prop} {allowed : ε' → Prop} {shown : ω → ω'}
    (refines : concrete.Refines abstract related guard allowed shown) {state final : σ}
    {shadow : τ} {inputs : List ε} {outputs : List ω} (start : related state shadow)
    (guarded : concrete.Guarded guard state inputs)
    (ran : concrete.run state inputs = some (final, outputs)) :
    ∃ others shadowFinal, abstract.run shadow others = some (shadowFinal, outputs.map shown) ∧
      (∀ other ∈ others, allowed other) ∧ related final shadowFinal := by
  induction inputs generalizing state shadow outputs with
  | nil =>
      cases ran
      exact ⟨[], shadow, rfl, nofun, start⟩
  | cons input rest ih =>
      obtain ⟨next, output, tail, stepped, ranRest, rfl⟩ := run_cons_eq_some.mp ran
      obtain ⟨other, shadowNext, matched, fine, relatedNext⟩ :=
        refines _ _ _ _ _ start guarded.1 stepped
      obtain ⟨others, shadowFinal, ranOthers, allFine, last⟩ :=
        ih relatedNext (guarded.2 next output stepped) ranRest
      exact ⟨other :: others, shadowFinal, run_cons matched ranOthers,
        List.forall_mem_cons.mpr ⟨fine, allFine⟩, last⟩

/-! ## Components -/

/--
Every step of the whole machine leaves the part of the state that is viewed
alone and shows nothing, or it is a step of a component on that part.
-/
def Contains {τ' ε' ω' : Type} (whole : Machine σ ε ω) (component : Machine τ' ε' ω')
    (view : σ → τ') (given : σ → ε → Option ε') (shown : ω → Option ω') : Prop :=
  ∀ state input next output, whole.step state input = some (next, output) →
    match given state input with
    | none => view next = view state ∧ shown output = none
    | some other => ∃ made, component.step (view state) other = some (view next, made) ∧
        shown output = some made

/--
A run of the whole machine holds a run of the component on the inputs that it
is given.  That run meets the guards that are passed on, and contributes what
the whole run does by its steps.
-/
theorem Contains.run_gather {τ' ε' ω' α : Type} {whole : Machine σ ε ω}
    {component : Machine τ' ε' ω'} {view : σ → τ'} {given : σ → ε → Option ε'}
    {shown : ω → Option ω'} (contains : whole.Contains component view given shown)
    {guard : σ → ε → Prop} {passed : τ' → ε' → Prop}
    (passes : ∀ state input other, guard state input → given state input = some other →
      passed (view state) other)
    (made : τ' → ε' → Option α) {state final : σ} {inputs : List ε} {outputs : List ω}
    (guarded : whole.Guarded guard state inputs)
    (ran : whole.run state inputs = some (final, outputs)) :
    component.run (view state) (whole.gather given state inputs) =
        some (view final, outputs.filterMap shown) ∧
      component.Guarded passed (view state) (whole.gather given state inputs) ∧
      component.gather made (view state) (whole.gather given state inputs) =
        whole.gather (fun state input => (given state input).bind (made (view state)))
          state inputs := by
  induction inputs generalizing state outputs with
  | nil =>
      cases ran
      exact ⟨rfl, trivial, rfl⟩
  | cons input rest ih =>
      obtain ⟨next, output, tail, stepped, ranRest, rfl⟩ := run_cons_eq_some.mp ran
      obtain ⟨ranOthers, guardedOthers, gathered⟩ := ih (guarded.2 next output stepped) ranRest
      have matched := contains state input next output stepped
      rw [gather_cons stepped, gather_cons stepped, ← gathered]
      cases met : given state input with
      | none =>
          rw [met] at matched
          rw [List.filterMap_cons_none matched.2, ← matched.1]
          exact ⟨ranOthers, guardedOthers, rfl⟩
      | some other =>
          rw [met] at matched
          obtain ⟨shown', steppedOther, same⟩ := matched
          rw [List.filterMap_cons_some same]
          exact ⟨run_cons steppedOther ranOthers,
            guarded_cons (passes state input other guarded.1 met) steppedOther guardedOthers,
            gather_cons steppedOther _⟩

/-- A run of the whole machine holds a run of the component, which meets the guards it passes on. -/
theorem Contains.run {τ' ε' ω' : Type} {whole : Machine σ ε ω} {component : Machine τ' ε' ω'}
    {view : σ → τ'} {given : σ → ε → Option ε'} {shown : ω → Option ω'}
    (contains : whole.Contains component view given shown) {guard : σ → ε → Prop}
    {passed : τ' → ε' → Prop}
    (passes : ∀ state input other, guard state input → given state input = some other →
      passed (view state) other)
    {state final : σ} {inputs : List ε} {outputs : List ω}
    (guarded : whole.Guarded guard state inputs)
    (ran : whole.run state inputs = some (final, outputs)) :
    ∃ others, component.run (view state) others = some (view final, outputs.filterMap shown) ∧
      component.Guarded passed (view state) others := by
  obtain ⟨ranOthers, met, _⟩ :=
    contains.run_gather passes (fun _ _ => (none : Option Unit)) guarded ran
  exact ⟨_, ranOthers, met⟩

/-- The same without guards. -/
theorem Contains.run_free {τ' ε' ω' α : Type} {whole : Machine σ ε ω}
    {component : Machine τ' ε' ω'} {view : σ → τ'} {given : σ → ε → Option ε'}
    {shown : ω → Option ω'} (contains : whole.Contains component view given shown)
    (made : τ' → ε' → Option α) {state final : σ} {inputs : List ε} {outputs : List ω}
    (ran : whole.run state inputs = some (final, outputs)) :
    component.run (view state) (whole.gather given state inputs) =
        some (view final, outputs.filterMap shown) ∧
      component.gather made (view state) (whole.gather given state inputs) =
        whole.gather (fun state input => (given state input).bind (made (view state)))
          state inputs := by
  let free : τ' → ε' → Prop := fun _ _ => True
  have passes : ∀ state input other, True → given state input = some other →
      free (view state) other := fun _ _ _ _ _ => trivial
  obtain ⟨ranOthers, _, gathered⟩ :=
    contains.run_gather passes made (whole.unguarded state inputs) ran
  exact ⟨ranOthers, gathered⟩

end Machine

end PresenceNode.Library
