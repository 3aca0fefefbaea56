import PresenceNode.Library.Cadence
import PresenceNode.Library.Machine
import PresenceNode.Store.Layout

/-!
# The cadence of the main loop

One turn of the loop of `main` is one step: the environment says how long
`sen5x_poll` and `window_flush` take and how late the thread wakes after
`k_msleep`.  Times are `k_uptime_get`, in milliseconds.
-/

namespace PresenceNode.Main

open Library Store

/-- The uptime, and the locals `next_tick` and `sec` of `main`. -/
structure Loop where
  now : Int
  nextTick : Int
  sec : UInt32

structure LoopTurn where
  poll : Nat
  flush : Nat
  oversleep : Nat

/-- When a turn called `window_flush`, and the argument of its `k_msleep`. -/
structure TurnOutput where
  flushed : Option Int
  slept : Option Int

def Loop.start (now : Int) : Loop := ⟨now, now + 1000, 0⟩

def mainTurn (s : Loop) (t : LoopTurn) : Loop × TurnOutput :=
  let now := s.now + t.poll
  let sec := s.sec + 1
  let due := decide (sec ≥ UInt32.ofNat storePeriodS)
  let flushed := if due then some now else none
  let now := if due then now + t.flush else now
  let delay := s.nextTick - now
  let slept := if delay > 0 then some (Int32.ofInt delay).toInt else none
  let now := match slept with
    | some ms => now + ms + t.oversleep
    | none => now
  (⟨now, s.nextTick + 1000, if due then 0 else sec⟩, ⟨flushed, slept⟩)

def cadence : Machine Loop LoopTurn TurnOutput where
  step s t := some (mainTurn s t)

/-! ## Turns as the library has them -/

def Due (k : Nat) : Prop := (k + 1) % storePeriodS = 0

instance (k : Nat) : Decidable (Due k) := inferInstanceAs (Decidable (_ = _))

def load (k : Nat) (t : LoopTurn) : Turn where
  work := t.poll + (if Due k then t.flush else 0 : Nat)
  late := t.oversleep

def loads (turns : List LoopTurn) : List Turn := turns.mapIdx load

/-- How far behind its tick the turn after these begins. -/
def lagOf (turns : List LoopTurn) : Int := Turn.lag 1000 0 (loads turns)

theorem loads_append (turns more : List LoopTurn) :
    loads (turns ++ more) = loads turns ++ more.mapIdx fun i => load (i + turns.length) :=
  List.mapIdx_append

theorem lagOf_concat (turns : List LoopTurn) (t : LoopTurn) :
    lagOf (turns ++ [t]) = Turn.lagAfter 1000 (lagOf turns) (load turns.length t) := by
  rw [lagOf, loads, List.mapIdx_concat, Turn.lag_concat]
  rfl

theorem loads_late {turns : List LoopTurn} {load_ : Turn} (member : load_ ∈ loads turns) :
    ∃ t ∈ turns, load_.late = t.oversleep := by
  obtain ⟨k, inside, rfl⟩ := List.mem_mapIdx.mp member
  exact ⟨turns[k], List.getElem_mem inside, rfl⟩

theorem lagOf_nonneg (turns : List LoopTurn) : 0 ≤ lagOf turns := by
  refine Turn.lag_nonneg (Int.le_refl 0) fun load_ member => ?_
  obtain ⟨t, _, late⟩ := loads_late member
  rw [late]
  exact Int.natCast_nonneg _

/-! ## One turn -/

structure OnCadence (t0 : Int) (turns : List LoopTurn) (s : Loop) : Prop where
  now : s.now = t0 + 1000 * turns.length + lagOf turns
  nextTick : s.nextTick = t0 + 1000 * turns.length + 1000
  sec : s.sec.toNat = turns.length % storePeriodS

/-- What a turn shows: when it flushes, if it is due, and a sleep within its second. -/
structure Shows (t0 : Int) (turns : List LoopTurn) (t : LoopTurn) (output : TurnOutput) :
    Prop where
  flushed : output.flushed =
    if Due turns.length then some (t0 + 1000 * turns.length + lagOf turns + t.poll) else none
  slept : ∀ ms, output.slept = some ms → 0 < ms ∧ ms ≤ 1000

theorem OnCadence.due {t0 : Int} {turns : List LoopTurn} {s : Loop}
    (kept : OnCadence t0 turns s) :
    (s.sec + 1 ≥ UInt32.ofNat storePeriodS ↔ Due turns.length) ∧
      (s.sec + 1).toNat = turns.length % storePeriodS + 1 := by
  have period : storePeriodS = 30 := rfl
  have sec := kept.sec
  have next : (s.sec + 1).toNat = turns.length % storePeriodS + 1 := by
    rw [UInt32.toNat_add, sec]
    exact Nat.mod_eq_of_lt (by change turns.length % 30 + 1 < 2 ^ 32; omega)
  refine ⟨?_, next⟩
  rw [ge_iff_le, UInt32.le_iff_toNat_le, next, Due, period]
  change 30 ≤ _ ↔ _
  omega

/-- The argument of `k_msleep` is what was left of the second, in spite of its type. -/
theorem delay_exact {delay : Int} (positive : 0 < delay) (most : delay ≤ 1000) :
    (Int32.ofInt delay).toInt = delay :=
  Int32.toInt_ofInt_of_le (by omega) (by omega)

theorem OnCadence.step {t0 : Int} {turns : List LoopTurn} {s : Loop}
    (kept : OnCadence t0 turns s) (t : LoopTurn) :
    OnCadence t0 (turns ++ [t]) (mainTurn s t).1 ∧ Shows t0 turns t (mainTurn s t).2 := by
  obtain ⟨due, next⟩ := kept.due
  have period : storePeriodS = 30 := rfl
  have early := lagOf_nonneg turns
  have work : (load turns.length t).work = t.poll + (if Due turns.length then t.flush else 0 : Nat) :=
    rfl
  have ended : (if decide (s.sec + 1 ≥ UInt32.ofNat storePeriodS) = true then
      s.now + t.poll + t.flush else s.now + t.poll) =
        t0 + 1000 * turns.length + (lagOf turns + (load turns.length t).work) := by
    rw [kept.now, work]
    by_cases flushes : Due turns.length
    · rw [if_pos (decide_eq_true (due.mpr flushes)), if_pos flushes]
      ring
    · rw [if_neg (by simpa using fun full => flushes (due.mp full)), if_neg flushes]
      push_cast
      ring
  have left : s.nextTick - (t0 + 1000 * turns.length +
      (lagOf turns + (load turns.length t).work)) =
        1000 - (lagOf turns + (load turns.length t).work) := by
    rw [kept.nextTick]
    ring
  have worked : 0 ≤ (load turns.length t).work := by
    rw [work]
    positivity
  refine ⟨⟨?_, ?_, ?_⟩, ⟨?_, ?_⟩⟩
  · simp only [mainTurn, ended, left, lagOf_concat, Turn.lagAfter]
    by_cases waits : lagOf turns + (load turns.length t).work < 1000
    · rw [if_pos waits, if_pos (by omega), delay_exact (by omega) (by omega)]
      simp only [load, List.length_append, List.length_singleton]
      push_cast
      ring
    · rw [if_neg waits, if_neg (by omega)]
      simp only [List.length_append, List.length_singleton]
      push_cast
      ring
  · simp only [mainTurn, kept.nextTick, List.length_append, List.length_singleton]
    push_cast
    ring
  · simp only [mainTurn, List.length_append, List.length_singleton]
    by_cases flushes : Due turns.length
    · rw [if_pos (decide_eq_true (due.mpr flushes))]
      exact flushes.symm
    · rw [if_neg (by simpa using fun full => flushes (due.mp full)), next]
      rw [Due, period] at flushes
      rw [period]
      omega
  · simp only [mainTurn, kept.now]
    by_cases flushes : Due turns.length
    · rw [if_pos (decide_eq_true (due.mpr flushes)), if_pos flushes]
    · rw [if_neg (by simpa using fun full => flushes (due.mp full)), if_neg flushes]
  · intro ms slept
    simp only [mainTurn, ended, left] at slept
    split at slept
    · next positive =>
        rw [delay_exact positive (by omega)] at slept
        cases slept
        omega
    · cases slept

/-! ## Runs -/

theorem on_cadence {t0 : Int} {turns : List LoopTurn} {final : Loop} {outputs : List TurnOutput}
    (ran : cadence.run (Loop.start t0) turns = some (final, outputs)) :
    OnCadence t0 turns final := by
  have preserved : ∀ (history : List LoopTurn) (outputs : List TurnOutput) s t next output,
      OnCadence t0 history s → cadence.step s t = some (next, output) →
      OnCadence t0 (history ++ [t]) next := by
    rintro history _ s t _ _ kept ⟨⟩
    exact (kept.step t).1
  have start : OnCadence t0 [] (Loop.start t0) :=
    ⟨by simp [Loop.start, lagOf, loads, Turn.lag], by simp [Loop.start], rfl⟩
  exact Machine.run_invariant_unguarded preserved start ran

theorem loads_take (turns : List LoopTurn) (k : Nat) : loads (turns.take k) <+: loads turns := by
  conv_rhs => rw [← List.take_append_drop k turns, loads_append]
  exact List.prefix_append _ _

/-- Every turn of a run shows what the turns before it say. -/
theorem cadence_shows {t0 : Int} {turns : List LoopTurn} {final : Loop} {outputs : List TurnOutput}
    (ran : cadence.run (Loop.start t0) turns = some (final, outputs)) {k : Nat} {t : LoopTurn}
    {output : TurnOutput} (here : turns[k]? = some t) (shown : outputs[k]? = some output) :
    Shows t0 (turns.take k) t output := by
  obtain ⟨inside, rfl⟩ := List.getElem?_eq_some_iff.mp here
  have split : turns = turns.take k ++ turns[k] :: turns.drop (k + 1) := by
    rw [List.getElem_cons_drop, List.take_append_drop]
  rw [split] at ran
  obtain ⟨middle, before, after, ranBefore, ranAfter, rfl⟩ := Machine.run_append_eq_some.mp ran
  obtain ⟨next, made, tail, stepped, _, rfl⟩ := Machine.run_cons_eq_some.mp ranAfter
  have length : before.length = k := by
    rw [Machine.run_length ranBefore, List.length_take]
    omega
  rw [← length, List.getElem?_append_right (Nat.le_refl _), Nat.sub_self] at shown
  cases shown
  cases stepped
  exact ((on_cadence ranBefore).step turns[k]).2

theorem cadence_now {t0 : Int} {turns : List LoopTurn} {final : Loop} {outputs : List TurnOutput}
    (ran : cadence.run (Loop.start t0) turns = some (final, outputs)) {k : Nat}
    (within : k ≤ turns.length) :
    ∃ s made, cadence.run (Loop.start t0) (turns.take k) = some (s, made) ∧
      s.now = t0 + 1000 * k + lagOf (turns.take k) := by
  rw [← List.take_append_drop k turns] at ran
  obtain ⟨middle, before, _, ranBefore, _⟩ := Machine.run_append_eq_some.mp ran
  have now := (on_cadence ranBefore).now
  rw [List.length_take_of_le within] at now
  exact ⟨middle, before, ranBefore, now⟩

theorem lagOf_le {turns : List LoopTurn} {late burst : Nat}
    (lates : ∀ t ∈ turns, t.oversleep ≤ late)
    (bursts : ∀ before block after, loads turns = before ++ block ++ after →
      Turn.total block ≤ 1000 * block.length + burst) (k : Nat) :
    lagOf (turns.take k) ≤ late + burst := by
  obtain ⟨after, same⟩ := loads_take turns k
  refine Turn.lag_le (fun load_ member => ?_) (Int.natCast_nonneg late)
    fun before block split => bursts before block after (by rw [← same, split])
  obtain ⟨t, inside, equal⟩ := loads_late member
  rw [equal]
  exact_mod_cast lates t (List.mem_of_mem_take inside)

theorem lagOf_recovers {turns : List LoopTurn} {k n late most : Nat}
    (bounds : ∀ t ∈ (turns.drop k).take n, t.oversleep ≤ late ∧ t.poll + t.flush ≤ most)
    (slack : most ≤ 1000) (inside : k + n ≤ turns.length)
    (behind : lagOf (turns.take k) ≤ late + (1000 - most) * n) :
    lagOf (turns.take (k + n)) ≤ late := by
  have count : ((turns.drop k).take n).length = n := by
    rw [List.length_take, List.length_drop]
    omega
  have lates : ∀ load_ ∈ ((turns.drop k).take n).mapIdx fun i => load (i + (turns.take k).length),
      load_.late ≤ (late : Int) := by
    intro load_ member
    obtain ⟨i, within, rfl⟩ := List.mem_mapIdx.mp member
    exact Int.ofNat_le.mpr (bounds _ (List.getElem_mem within)).1
  have works : ∀ load_ ∈ ((turns.drop k).take n).mapIdx fun i => load (i + (turns.take k).length),
      load_.work ≤ (most : Int) := by
    intro load_ member
    obtain ⟨i, within, rfl⟩ := List.mem_mapIdx.mp member
    have bound := (bounds _ (List.getElem_mem within)).2
    refine Int.ofNat_le.mpr ?_
    split <;> omega
  rw [lagOf, List.take_add, loads_append, Turn.lag_append]
  refine Turn.lag_recovers lates works (by exact_mod_cast slack) ?_
  rw [List.length_mapIdx, count]
  exact behind

/--
The loop of `main` keeps its cadence.  A record is flushed in every thirtieth
turn, at the tick of that turn and what the turns since the last sleep worked
beyond their seconds, which is the lag; no turn is early, and no sleep is longer
than a second.
Work that exceeds the seconds of any turns in a row by no more than a burst
never puts the loop further behind than that, however long it runs, and a lag
of any size is gone as soon as the turns after it have left that much of their
seconds.
-/
theorem loop_keeps_cadence {t0 : Int} {turns : List LoopTurn} {final : Loop}
    {outputs : List TurnOutput}
    (ran : cadence.run (Loop.start t0) turns = some (final, outputs)) :
    (∀ k t output, turns[k]? = some t → outputs[k]? = some output →
      Shows t0 (turns.take k) t output) ∧
      (∀ k ≤ turns.length, ∃ s made,
        cadence.run (Loop.start t0) (turns.take k) = some (s, made) ∧
        s.now = t0 + 1000 * k + lagOf (turns.take k)) ∧
      (∀ k, 0 ≤ lagOf (turns.take k)) ∧
      (∀ late burst : Nat, (∀ t ∈ turns, t.oversleep ≤ late) →
        (∀ before block after, loads turns = before ++ block ++ after →
          Turn.total block ≤ 1000 * block.length + burst) →
        ∀ k, lagOf (turns.take k) ≤ late + burst) ∧
      ∀ (k n late most : Nat),
        (∀ t ∈ (turns.drop k).take n, t.oversleep ≤ late ∧ t.poll + t.flush ≤ most) →
        most ≤ 1000 → k + n ≤ turns.length →
        lagOf (turns.take k) ≤ late + (1000 - most) * n → lagOf (turns.take (k + n)) ≤ late := by
  refine ⟨fun k t output => cadence_shows ran, fun k => cadence_now ran, fun k => lagOf_nonneg _,
    fun late burst => lagOf_le, ?_⟩
  intro k n late most bounds slack inside behind
  exact lagOf_recovers bounds slack inside behind

def slowFlush : List LoopTurn :=
  List.replicate 29 ⟨20, 5, 1⟩ ++ [⟨20, 3500, 1⟩] ++ List.replicate 3 ⟨20, 5, 1⟩

theorem loop_keeps_cadence_slowFlush :
    ∃ final outputs, cadence.run (Loop.start 700) slowFlush = some (final, outputs) ∧
      (∀ output, outputs[29]? = some output → output.flushed = some 29721) ∧
      (∃ s made, cadence.run (Loop.start 700) (slowFlush.take 30) = some (s, made) ∧
        s.now = 33221) ∧
      (∀ k, 0 ≤ lagOf (slowFlush.take k)) ∧
      lagOf (slowFlush.take 30) = 2521 ∧ lagOf (slowFlush.take 33) ≤ 1 := by
  have total : ∀ t ∈ slowFlush, ∀ s, ∃ next output, cadence.step s t = some (next, output) :=
    fun t _ s => ⟨_, _, rfl⟩
  obtain ⟨final, outputs, ran⟩ := Machine.run_total total (Loop.start 700)
  obtain ⟨shows_, times, early, _, recovers⟩ := loop_keeps_cadence ran
  have behind : lagOf (slowFlush.take 30) = 2521 := by decide +kernel
  refine ⟨final, outputs, ran, fun output shown => ?_, ?_, early, behind, ?_⟩
  · exact (shows_ 29 ⟨20, 3500, 1⟩ output rfl shown).flushed.trans (by decide +kernel)
  · obtain ⟨s, made, ranThirty, now⟩ := times 30 (by decide)
    rw [behind] at now
    exact ⟨s, made, ranThirty, now⟩
  · exact recovers 30 3 1 25 (by decide) (by decide) (by decide) (by decide +kernel)

end PresenceNode.Main
