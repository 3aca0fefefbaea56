import Mathlib.Data.List.Forall2
import Mathlib.Logic.Function.Basic

/-!
# Programs over entries that survive a power cut

A program reads and changes the entries of a store, one operation at a time.
The environment has a verdict for each operation but the reads: it succeeds,
or it fails and changes nothing, or the power is cut there.  An operation is
atomic, except that a clear which is cut may have erased some of the entries.

A write leaves what was written before under the key where it is, and a read
finds the newest.  So a clear that is cut can also bring back an older value:
what it leaves of the values under a key is up to the environment.

`wp` is the weakest precondition of a program with two postconditions: one for
the end of the program and one for a cut.  It is computed from the program,
and `run_satisfies` says that it covers every sequence of verdicts.
-/

namespace PresenceNode.Library.Flash

/-- The values that were written under each key since the last clear, the newest first. -/
structure Entries (κ ν : Type) where
  history : κ → List ν

inductive Verdict (κ : Type) where
  | ok
  | fail (code : Nat)
  /-- A cut, and which of the values under a key, by age, a clear has not erased by then. -/
  | cut (kept : κ → Nat → Bool)

inductive Op (κ : Type) where
  | write (key : κ)
  | clear
  | call

inductive Prog (κ ν α : Type) where
  | ret (value : α)
  | read (key : κ) (next : Option ν → Prog κ ν α)
  | write (key : κ) (value : ν) (next : Int → Prog κ ν α)
  | clear (next : Int → Prog κ ν α)
  | call (next : Int → Prog κ ν α)

inductive Outcome (κ ν α : Type) where
  | done (value : α) (entries : Entries κ ν) (verdicts : List (Verdict κ))
  | cut (entries : Entries κ ν)

variable {κ ν α β : Type}

namespace Entries

def read (entries : Entries κ ν) (key : κ) : Option ν := (entries.history key).head?

instance : CoeFun (Entries κ ν) fun _ => κ → Option ν := ⟨read⟩

def empty : Entries κ ν := ⟨fun _ => []⟩

def put [DecidableEq κ] (entries : Entries κ ν) (key : κ) (value : ν) : Entries κ ν :=
  ⟨Function.update entries.history key (value :: entries.history key)⟩

section Put

variable [DecidableEq κ] (entries : Entries κ ν) {key other : κ} (value : ν)

@[simp] theorem history_put_self :
    (entries.put key value).history key = value :: entries.history key :=
  Function.update_self key _ _

theorem history_put_of_ne (apart : other ≠ key) :
    (entries.put key value).history other = entries.history other :=
  Function.update_of_ne apart _ _

@[simp] theorem put_self : entries.put key value key = some value := by
  rw [read, history_put_self, List.head?_cons]

theorem put_of_ne (apart : other ≠ key) : entries.put key value other = entries other := by
  rw [read, history_put_of_ne entries value apart, read]

end Put

end Entries

namespace Prog

def bind : Prog κ ν α → (α → Prog κ ν β) → Prog κ ν β
  | ret value, rest => rest value
  | read key next, rest => read key fun found => (next found).bind rest
  | write key value next, rest => write key value fun result => (next result).bind rest
  | clear next, rest => clear fun result => (next result).bind rest
  | call next, rest => call fun result => (next result).bind rest

instance : Monad (Prog κ ν) where
  pure := ret
  bind := bind

end Prog

def read (key : κ) : Prog κ ν (Option ν) := .read key .ret

def write (key : κ) (value : ν) : Prog κ ν Int := .write key value .ret

/-- Erase every entry; a negative result is an error. -/
def clear : Prog κ ν Int := .clear .ret

/-- Something that changes no entry but may fail; a negative result is an error. -/
def call : Prog κ ν Int := .call .ret

def keep (kept : Nat → Bool) : List ν → List ν
  | [] => []
  | value :: older =>
      let rest := keep (fun age => kept (age + 1)) older
      if kept 0 then value :: rest else rest

theorem keep_sublist (kept : Nat → Bool) (values : List ν) : (keep kept values).Sublist values := by
  induction values generalizing kept with
  | nil => exact List.Sublist.refl []
  | cons value older ih =>
      rw [keep]
      split
      · exact (ih _).cons_cons value
      · exact (ih _).cons value

/-- What is left of the entries by a clear that was cut. -/
def survivors (kept : κ → Nat → Bool) (entries : Entries κ ν) : Entries κ ν :=
  ⟨fun key => keep (kept key) (entries.history key)⟩

/-- The result of an operation that was not cut: zero, or a negative error where one may occur. -/
def Verdict.result (mayFail : Bool) : Verdict κ → Int
  | .fail code => if mayFail then Int.negSucc code else 0
  | _ => 0

theorem result_cases (allowed : Bool) (verdict : Verdict κ) :
    verdict.result allowed = 0 ∨
      allowed = true ∧ ∃ code, verdict.result allowed = Int.negSucc code := by
  cases verdict with
  | ok => exact .inl rfl
  | fail code =>
      cases allowed with
      | false => exact .inl rfl
      | true => exact .inr ⟨rfl, code, rfl⟩
  | cut kept => exact .inl rfl

theorem result_unfailing {verdicts : List (Verdict κ)} (unfailing : ∀ code, .fail code ∉ verdicts)
    (allowed : Bool) : (verdicts.headD .ok).result allowed = 0 := by
  cases verdicts with
  | nil => rfl
  | cons verdict rest =>
      cases verdict with
      | ok => rfl
      | fail code => exact absurd (List.mem_cons_self ..) (unfailing code)
      | cut kept => rfl

theorem unfailing_tail {verdicts : List (Verdict κ)} (unfailing : ∀ code, .fail code ∉ verdicts) :
    ∀ code, .fail code ∉ verdicts.tail :=
  fun code member => unfailing code (List.mem_of_mem_tail member)

def Outcome.Satisfies (after : α → Entries κ ν → Prop) (cut : Entries κ ν → Prop) :
    Outcome κ ν α → Prop
  | .done value entries _ => after value entries
  | .cut entries => cut entries

theorem Outcome.Satisfies.imp {after weaker : α → Entries κ ν → Prop} {cut : Entries κ ν → Prop}
    {outcome : Outcome κ ν α} (satisfies : outcome.Satisfies after cut)
    (follows : ∀ value entries, after value entries → weaker value entries) :
    outcome.Satisfies weaker cut := by
  cases outcome with
  | done value entries verdicts => exact follows value entries satisfies
  | cut entries => exact satisfies

section Semantics

variable [DecidableEq κ] (mayFail : Op κ → Bool)

/-- A program under a list of verdicts, success once the list has ended. -/
def run : Prog κ ν α → Entries κ ν → List (Verdict κ) → Outcome κ ν α
  | .ret value, entries, verdicts => .done value entries verdicts
  | .read key next, entries, verdicts => run (next (entries key)) entries verdicts
  | .write key value next, entries, verdicts =>
      match verdicts.headD .ok with
      | .cut _ => .cut entries
      | verdict =>
          let result := verdict.result (mayFail (.write key))
          run (next result)
            (if result < 0 then entries else entries.put key value)
            verdicts.tail
  | .clear next, entries, verdicts =>
      match verdicts.headD .ok with
      | .cut kept => .cut (survivors kept entries)
      | verdict =>
          let result := verdict.result (mayFail .clear)
          run (next result) (if result < 0 then entries else .empty) verdicts.tail
  | .call next, entries, verdicts =>
      match verdicts.headD .ok with
      | .cut _ => .cut entries
      | verdict => run (next (verdict.result (mayFail .call))) entries verdicts.tail

def wp (after : α → Entries κ ν → Prop) (cut : Entries κ ν → Prop) :
    Prog κ ν α → Entries κ ν → Prop
  | .ret value, entries => after value entries
  | .read key next, entries => wp after cut (next (entries key)) entries
  | .write key value next, entries =>
      cut entries ∧ wp after cut (next 0) (entries.put key value) ∧
        (mayFail (.write key) = true → ∀ code, wp after cut (next (Int.negSucc code)) entries)
  | .clear next, entries =>
      (∀ kept, cut (survivors kept entries)) ∧ wp after cut (next 0) .empty ∧
        (mayFail .clear = true → ∀ code, wp after cut (next (Int.negSucc code)) entries)
  | .call next, entries =>
      cut entries ∧ wp after cut (next 0) entries ∧
        (mayFail .call = true → ∀ code, wp after cut (next (Int.negSucc code)) entries)

variable {mayFail}

/-- Soundness: under every sequence of verdicts the outcome satisfies the postconditions. -/
theorem run_satisfies {after : α → Entries κ ν → Prop} {cut : Entries κ ν → Prop}
    {program : Prog κ ν α} {entries : Entries κ ν} (holds : wp mayFail after cut program entries)
    (verdicts : List (Verdict κ)) :
    (run mayFail program entries verdicts).Satisfies after cut := by
  induction program generalizing entries verdicts with
  | ret value => exact holds
  | read key next ih => exact ih _ holds verdicts
  | write key value next ih =>
      obtain ⟨atCut, success, failure⟩ := holds
      unfold run
      split
      · exact atCut
      · next verdict _ =>
          rcases result_cases (mayFail (.write key)) (verdicts.headD .ok) with
            zero | ⟨allowed, code, negative⟩
          · simp only [zero, Int.lt_irrefl, if_false]
            exact ih _ success _
          · simp only [negative, Int.negSucc_lt_zero, if_true]
            exact ih _ (failure allowed code) _
  | clear next ih =>
      obtain ⟨atCut, success, failure⟩ := holds
      unfold run
      split
      · exact atCut _
      · next verdict _ =>
          rcases result_cases (mayFail .clear) (verdicts.headD .ok) with
            zero | ⟨allowed, code, negative⟩
          · simp only [zero, Int.lt_irrefl, if_false]
            exact ih _ success _
          · simp only [negative, Int.negSucc_lt_zero, if_true]
            exact ih _ (failure allowed code) _
  | call next ih =>
      obtain ⟨atCut, success, failure⟩ := holds
      unfold run
      split
      · exact atCut
      · next verdict _ =>
          rcases result_cases (mayFail .call) (verdicts.headD .ok) with
            zero | ⟨allowed, code, negative⟩
          · simp only [zero]
            exact ih _ success _
          · simp only [negative]
            exact ih _ (failure allowed code) _

theorem run_of_unfailing (mayFail : Op κ → Bool) {program : Prog κ ν α} {entries : Entries κ ν}
    {verdicts : List (Verdict κ)} (unfailing : ∀ code, .fail code ∉ verdicts) :
    run mayFail program entries verdicts = run (fun _ => false) program entries verdicts := by
  induction program generalizing entries verdicts with
  | ret value => rfl
  | read key next ih => exact ih _ unfailing
  | write key value next ih =>
      unfold run
      split
      · rfl
      · simp only [result_unfailing unfailing]
        exact ih _ (unfailing_tail unfailing)
  | clear next ih =>
      unfold run
      split
      · rfl
      · simp only [result_unfailing unfailing]
        exact ih _ (unfailing_tail unfailing)
  | call next ih =>
      unfold run
      split
      · rfl
      · simp only [result_unfailing unfailing]
        exact ih _ (unfailing_tail unfailing)

theorem run_nil (mayFail : Op κ → Bool) (program : Prog κ ν α) (entries : Entries κ ν) :
    ∃ value reached, run mayFail program entries [] = .done value reached [] := by
  induction program generalizing entries with
  | ret value => exact ⟨value, entries, rfl⟩
  | read key next ih => exact ih _ entries
  | write key value next ih => exact ih 0 _
  | clear next ih => exact ih 0 _
  | call next ih => exact ih 0 entries

theorem run_pure (mayFail : Op κ → Bool) (value : α) (entries : Entries κ ν)
    (verdicts : List (Verdict κ)) :
    run mayFail (pure value) entries verdicts = .done value entries verdicts := rfl

theorem run_write_bind (mayFail : Op κ → Bool) (key : κ) (value : ν) (rest : Int → Prog κ ν α)
    (entries : Entries κ ν) (verdicts : List (Verdict κ)) :
    run mayFail (write key value >>= rest) entries verdicts =
      match verdicts.headD .ok with
      | .cut _ => .cut entries
      | verdict =>
          run mayFail (rest (verdict.result (mayFail (.write key))))
            (if verdict.result (mayFail (.write key)) < 0 then entries
              else entries.put key value) verdicts.tail := by
  change run mayFail (.write key value rest) entries verdicts = _
  rw [run]

/-! ## Rules -/

@[simp] theorem wp_pure {after : α → Entries κ ν → Prop} {cut : Entries κ ν → Prop} {value : α}
    {entries : Entries κ ν} :
    wp mayFail after cut (pure value) entries ↔ after value entries := Iff.rfl

/-- Programs in sequence: the second one's precondition is the first one's postcondition. -/
@[simp] theorem wp_bind {after : β → Entries κ ν → Prop} {cut : Entries κ ν → Prop}
    {first : Prog κ ν α} {rest : α → Prog κ ν β} {entries : Entries κ ν} :
    wp mayFail after cut (first >>= rest) entries ↔
      wp mayFail (fun value => wp mayFail after cut (rest value)) cut first entries := by
  change wp mayFail after cut (first.bind rest) entries ↔ _
  induction first generalizing entries with
  | ret value => exact Iff.rfl
  | read key next ih => exact ih _
  | write key value next ih => simp only [Prog.bind, wp, ih]
  | clear next ih => simp only [Prog.bind, wp, ih]
  | call next ih => simp only [Prog.bind, wp, ih]

@[simp] theorem wp_read {after : Option ν → Entries κ ν → Prop} {cut : Entries κ ν → Prop}
    {key : κ} {entries : Entries κ ν} :
    wp mayFail after cut (read key) entries ↔ after (entries key) entries := Iff.rfl

theorem wp_write {after : Int → Entries κ ν → Prop} {cut : Entries κ ν → Prop} {key : κ}
    {value : ν} {entries : Entries κ ν} :
    wp mayFail after cut (write key value) entries ↔
      cut entries ∧ after 0 (entries.put key value) ∧
        (mayFail (.write key) = true → ∀ code, after (Int.negSucc code) entries) := Iff.rfl

theorem wp_clear {after : Int → Entries κ ν → Prop} {cut : Entries κ ν → Prop}
    {entries : Entries κ ν} :
    wp mayFail after cut clear entries ↔
      (∀ kept, cut (survivors kept entries)) ∧ after 0 .empty ∧
        (mayFail .clear = true → ∀ code, after (Int.negSucc code) entries) := Iff.rfl

theorem wp_call {after : Int → Entries κ ν → Prop} {cut : Entries κ ν → Prop}
    {entries : Entries κ ν} :
    wp mayFail after cut call entries ↔
      cut entries ∧ after 0 entries ∧
        (mayFail .call = true → ∀ code, after (Int.negSucc code) entries) := Iff.rfl

end Semantics

/-! ## Entries that a program does not look at -/

/-- Every read and every write of the program names a key of the set. -/
def Prog.Within (keys : κ → Prop) : Prog κ ν α → Prop
  | .ret _ => True
  | .read key next => keys key ∧ ∀ found, (next found).Within keys
  | .write key _ next => keys key ∧ ∀ result, (next result).Within keys
  | .clear next => ∀ result, (next result).Within keys
  | .call next => ∀ result, (next result).Within keys

theorem Prog.Within.bind {keys : κ → Prop} {first : Prog κ ν α} {rest : α → Prog κ ν β}
    (within : first.Within keys) (after : ∀ value, (rest value).Within keys) :
    (first >>= rest).Within keys := by
  change (first.bind rest).Within keys
  induction first with
  | ret value => exact after value
  | read key next ih => exact ⟨within.1, fun found => ih found (within.2 found)⟩
  | write key value next ih => exact ⟨within.1, fun result => ih result (within.2 result)⟩
  | clear next ih => exact fun result => ih result (within result)
  | call next ih => exact fun result => ih result (within result)

def Alike (similar : κ → ν → ν → Prop) (first second : Entries κ ν) : Prop :=
  ∀ key, List.Forall₂ (similar key) (first.history key) (second.history key)

def Outcome.Alike (similar : κ → ν → ν → Prop) : Outcome κ ν α → Outcome κ ν α → Prop
  | .done value first left, .done other second right =>
      value = other ∧ Flash.Alike similar first second ∧ left = right
  | .cut first, .cut second => Flash.Alike similar first second
  | _, _ => False

section Similarity

variable {similar : κ → ν → ν → Prop} {first second : Entries κ ν}

theorem Alike.refl (refl : ∀ key value, similar key value value) (entries : Entries κ ν) :
    Alike similar entries entries :=
  fun key => List.forall₂_same.mpr fun value _ => refl key value

theorem Alike.read (alike : Alike similar first second) (key : κ) :
    (first key = none ∧ second key = none) ∨
      ∃ one other, first key = some one ∧ second key = some other ∧ similar key one other := by
  rw [Entries.read, Entries.read]
  have values := alike key
  generalize first.history key = ones at values ⊢
  generalize second.history key = others at values ⊢
  cases values with
  | nil => exact .inl ⟨rfl, rfl⟩
  | cons same _ => exact .inr ⟨_, _, rfl, rfl, same⟩

theorem keep_forall₂ {related : ν → ν → Prop} {one other : List ν}
    (alike : List.Forall₂ related one other) (kept : Nat → Bool) :
    List.Forall₂ related (keep kept one) (keep kept other) := by
  induction alike generalizing kept with
  | nil => exact .nil
  | cons same _ ih =>
      rw [keep, keep]
      split
      · exact .cons same (ih _)
      · exact ih _

theorem Alike.survivors (alike : Alike similar first second) (kept : κ → Nat → Bool) :
    Alike similar (survivors kept first) (survivors kept second) :=
  fun key => keep_forall₂ (alike key) (kept key)

variable [DecidableEq κ]

theorem Alike.put (alike : Alike similar first second) {key : κ} {one other : ν}
    (same : similar key one other) : Alike similar (first.put key one) (second.put key other) := by
  intro inspected
  by_cases here : inspected = key
  · rw [here, Entries.history_put_self, Entries.history_put_self]
    exact .cons same (alike key)
  · rw [Entries.history_put_of_ne _ _ here, Entries.history_put_of_ne _ _ here]
    exact alike inspected

/-- A program cannot tell entries apart that differ beside its keys. -/
theorem run_alike {keys : κ → Prop} (mayFail : Op κ → Bool) {program : Prog κ ν α}
    (within : program.Within keys) (refl : ∀ key value, similar key value value)
    (exact_ : ∀ key, keys key → ∀ one other, similar key one other → one = other)
    (alike : Alike similar first second) (verdicts : List (Verdict κ)) :
    (run mayFail program first verdicts).Alike similar (run mayFail program second verdicts) := by
  induction program generalizing first second verdicts with
  | ret value => exact ⟨rfl, alike, rfl⟩
  | read key next ih =>
      have same : first key = second key := by
        rcases alike.read key with ⟨nothing, nothingElse⟩ | ⟨one, other, here, there, similar⟩
        · rw [nothing, nothingElse]
        · rw [here, there, exact_ key within.1 one other similar]
      rw [run, run, same]
      exact ih _ (within.2 _) alike verdicts
  | write key value next ih =>
      unfold run
      split
      · exact alike
      · refine ih _ (within.2 _) ?_ _
        split
        · exact alike
        · exact alike.put (refl key value)
  | clear next ih =>
      unfold run
      split
      · exact alike.survivors _
      · refine ih _ (within _) ?_ _
        split
        · exact alike
        · exact Alike.refl refl .empty
  | call next ih =>
      unfold run
      split
      · exact alike
      · exact ih _ (within _) alike _

end Similarity

end PresenceNode.Library.Flash
