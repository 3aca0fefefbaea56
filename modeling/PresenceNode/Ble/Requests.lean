import PresenceNode.Frame.Encode
import PresenceNode.Library.Mailbox

/-!
# The dump requests of `ble.c`

`ctrl_write` stores the request and then gives the semaphore, as two steps of
its own; the dump thread takes the semaphore, looks for a client and reads the
request, and runs the dump.  A give that wakes the thread is a give and a take.
The prints are left out, and what a run sends is that of `dump_run`.
-/

namespace PresenceNode.Ble

open Library PresenceNode.Frame

def dumpReqLimit : Nat := 1

def btGattCccNotify : UInt16 := 1

inductive AttErr where
  | invalidOffset
  | valueNotAllowed

inductive DumpThread where
  /-- At `k_sem_take`. -/
  | atTake
  /-- Behind it, with the semaphore taken. -/
  | taken
  /-- In `dump_run`. -/
  | running (firstSeq : UInt32)

structure Requests where
  /-- `dump_first_seq` -/
  dumpFirstSeq : UInt32
  /-- The count of `dump_req`. -/
  dumpReq : Nat
  /-- The calls of `ctrl_write` that have stored and have yet to give. -/
  giving : Nat
  /-- `current_conn` is not null. -/
  currentConn : Bool
  notifyEnabled : Bool
  thread : DumpThread

def Requests.boot : Requests := ⟨0, 0, 0, false, false, .atTake⟩

inductive RequestEvent where
  /-- `ctrl_write` up to the store. -/
  | ctrlWrite (buf : List UInt8) (offset : UInt16)
  /-- `k_sem_give` of a call that has stored. -/
  | give
  | take
  /-- The test of the client and, behind it, the read of the request. -/
  | look
  /-- `dump_run` returns. -/
  | finish
  | connected (err : UInt8)
  | disconnected
  | cccChanged (value : UInt16)

inductive RequestOutput where
  | accepted (firstSeq : UInt32)
  | rejected (err : AttErr)
  | dump (firstSeq : UInt32)
  | quiet

/-- `ctrl_write` up to the store: the request of a write that it accepts. -/
def ctrlWrite (buf : List UInt8) (offset : UInt16) : Except AttErr UInt32 :=
  if offset ≠ 0 then .error .invalidOffset
  else match sntlParseCmd buf with
    | some firstSeq => .ok firstSeq
    | none => .error .valueNotAllowed

def semGive (count limit : Nat) : Nat := if count ≠ limit then count + 1 else count

/-- A step that the state does not take is undefined. -/
def requests : Machine Requests RequestEvent RequestOutput where
  step s event :=
    match event with
    | .ctrlWrite buf offset =>
        match ctrlWrite buf offset with
        | .ok firstSeq =>
            some ({ s with dumpFirstSeq := firstSeq, giving := s.giving + 1 }, .accepted firstSeq)
        | .error err => some (s, .rejected err)
    | .give =>
        if s.giving = 0 then none
        else some ({ s with dumpReq := semGive s.dumpReq dumpReqLimit, giving := s.giving - 1 },
          .quiet)
    | .take =>
        match s.thread with
        | .atTake =>
            if s.dumpReq = 0 then none
            else some ({ s with dumpReq := s.dumpReq - 1, thread := .taken }, .quiet)
        | _ => none
    | .look =>
        match s.thread with
        | .taken =>
            if s.currentConn && s.notifyEnabled then
              some ({ s with thread := .running s.dumpFirstSeq }, .dump s.dumpFirstSeq)
            else some ({ s with thread := .atTake }, .quiet)
        | _ => none
    | .finish =>
        match s.thread with
        | .running _ => some ({ s with thread := .atTake }, .quiet)
        | _ => none
    | .connected err => some ({ s with currentConn := s.currentConn || err = 0 }, .quiet)
    | .disconnected => some ({ s with notifyEnabled := false, currentConn := false }, .quiet)
    | .cccChanged value =>
        some ({ s with notifyEnabled := value = btGattCccNotify }, .quiet)

def Requests.Listening (s : Requests) : Prop := s.currentConn = true ∧ s.notifyEnabled = true

/-- The dump thread is blocked on the empty semaphore, and no control write is in progress. -/
def Requests.Blocked (s : Requests) : Prop :=
  s.thread = .atTake ∧ s.dumpReq = 0 ∧ s.giving = 0

def acceptedOf (outputs : List RequestOutput) : List UInt32 :=
  outputs.filterMap fun output =>
    match output with
    | .accepted firstSeq => some firstSeq
    | _ => none

def dumpsOf (outputs : List RequestOutput) : List UInt32 :=
  outputs.filterMap fun output =>
    match output with
    | .dump firstSeq => some firstSeq
    | _ => none

inductive RequestStep (s : Requests) : RequestEvent → Requests → RequestOutput → Prop where
  | accept {buf : List UInt8} {offset : UInt16} {firstSeq : UInt32}
      (parsed : ctrlWrite buf offset = .ok firstSeq) :
      RequestStep s (.ctrlWrite buf offset)
        { s with dumpFirstSeq := firstSeq, giving := s.giving + 1 } (.accepted firstSeq)
  | reject {buf : List UInt8} {offset : UInt16} {err : AttErr}
      (refused : ctrlWrite buf offset = .error err) :
      RequestStep s (.ctrlWrite buf offset) s (.rejected err)
  | give (debt : 0 < s.giving) :
      RequestStep s .give
        { s with dumpReq := semGive s.dumpReq dumpReqLimit, giving := s.giving - 1 } .quiet
  | take (waits : s.thread = .atTake) (given : 0 < s.dumpReq) :
      RequestStep s .take { s with dumpReq := s.dumpReq - 1, thread := .taken } .quiet
  | dump (took : s.thread = .taken) (listening : s.Listening) :
      RequestStep s .look { s with thread := .running s.dumpFirstSeq } (.dump s.dumpFirstSeq)
  | leave (took : s.thread = .taken) (deaf : ¬ s.Listening) :
      RequestStep s .look { s with thread := .atTake } .quiet
  | finish {firstSeq : UInt32} (runs : s.thread = .running firstSeq) :
      RequestStep s .finish { s with thread := .atTake } .quiet
  | connected (err : UInt8) :
      RequestStep s (.connected err) { s with currentConn := s.currentConn || err = 0 } .quiet
  | disconnected :
      RequestStep s .disconnected { s with notifyEnabled := false, currentConn := false } .quiet
  | cccChanged (value : UInt16) :
      RequestStep s (.cccChanged value) { s with notifyEnabled := value = btGattCccNotify } .quiet

theorem requests_step {s next : Requests} {event : RequestEvent} {output : RequestOutput}
    (stepped : requests.step s event = some (next, output)) : RequestStep s event next output := by
  cases event with
  | ctrlWrite buf offset =>
      simp only [requests] at stepped
      cases parsed : ctrlWrite buf offset with
      | ok firstSeq =>
          rw [parsed] at stepped
          cases stepped
          exact .accept parsed
      | error err =>
          rw [parsed] at stepped
          cases stepped
          exact .reject parsed
  | give =>
      simp only [requests] at stepped
      split at stepped
      · cases stepped
      · next debt =>
          cases stepped
          exact .give (Nat.pos_of_ne_zero debt)
  | take =>
      simp only [requests] at stepped
      split at stepped
      · next waits =>
          split at stepped
          · cases stepped
          · next given =>
              cases stepped
              exact .take waits (Nat.pos_of_ne_zero given)
      · cases stepped
  | look =>
      simp only [requests] at stepped
      split at stepped
      · next took =>
          split at stepped
          · next listening =>
              cases stepped
              exact .dump took (Bool.and_eq_true_iff.mp listening)
          · next deaf =>
              cases stepped
              exact .leave took fun listening => deaf (Bool.and_eq_true_iff.mpr listening)
      · cases stepped
  | finish =>
      simp only [requests] at stepped
      split at stepped
      · next runs =>
          cases stepped
          exact .finish runs
      · cases stepped
  | connected err =>
      cases stepped
      exact .connected err
  | disconnected =>
      cases stepped
      exact .disconnected
  | cccChanged value =>
      cases stepped
      exact .cccChanged value

/-- A write at another offset, of another length or with another command changes nothing. -/
theorem ctrlWrite_malformed {buf : List UInt8} {offset : UInt16}
    (malformed : offset ≠ 0 ∨ buf.length ≠ sntlCmdLen ∨ buf[0]? ≠ some sntlCmdDump)
    (s : Requests) : ∃ err, requests.step s (.ctrlWrite buf offset) = some (s, .rejected err) := by
  obtain ⟨err, refused⟩ : ∃ err, ctrlWrite buf offset = .error err := by
    unfold ctrlWrite
    by_cases other : offset ≠ 0
    · exact ⟨_, if_pos other⟩
    · have unparsed : sntlParseCmd buf = none := if_pos (malformed.resolve_left other)
      rw [if_neg other, unparsed]
      exact ⟨_, rfl⟩
  exact ⟨err, by simp only [requests, refused]⟩

/-- An accepted write has the command and the request in four bytes, the least of them first. -/
theorem ctrlWrite_accepted_iff {s next : Requests} {buf : List UInt8} {offset : UInt16}
    {firstSeq : UInt32} :
    requests.step s (.ctrlWrite buf offset) = some (next, .accepted firstSeq) ↔
      offset = 0 ∧
      (∃ b1 b2 b3 b4, buf = [sntlCmdDump, b1, b2, b3, b4] ∧ firstSeq.toNat =
        b1.toNat + b2.toNat * 2 ^ 8 + b3.toNat * 2 ^ 16 + b4.toNat * 2 ^ 24) ∧
      next = { s with dumpFirstSeq := firstSeq, giving := s.giving + 1 } := by
  rw [← sntlParseCmd_eq_some]
  by_cases other : offset ≠ 0
  · have refused : ctrlWrite buf offset = .error .invalidOffset := if_pos other
    simp [requests, refused, other]
  · have parsed : ctrlWrite buf offset = match sntlParseCmd buf with
        | some firstSeq => .ok firstSeq
        | none => .error .valueNotAllowed := if_neg other
    rw [not_not.mp other] at parsed ⊢
    cases found : sntlParseCmd buf with
    | none =>
        rw [found] at parsed
        simp [requests, parsed]
    | some value =>
        rw [found] at parsed
        simp only [requests, parsed, Option.some.injEq, Prod.mk.injEq,
          RequestOutput.accepted.injEq, true_and]
        constructor
        · rintro ⟨rfl, rfl⟩
          exact ⟨rfl, rfl⟩
        · rintro ⟨rfl, rfl⟩
          exact ⟨rfl, rfl⟩

/-! ## A mailbox -/

def DumpThread.reader : DumpThread → MailReader UInt32
  | .atTake => .waiting
  | .taken => .taken
  | .running firstSeq => .serving firstSeq

def RequestOutput.shown : RequestOutput → MailOutput UInt32
  | .accepted firstSeq => .stored firstSeq
  | .dump firstSeq => .served firstSeq
  | _ => .quiet

def Requests.mailbox (s : Requests) : Mailbox UInt32 :=
  ⟨s.dumpFirstSeq, decide (s.dumpReq = 1), s.giving, s.thread.reader⟩

/-- The mailbox of the state, with a count within its limit. -/
def Posts (s : Requests) (m : Mailbox UInt32) : Prop := s.dumpReq ≤ dumpReqLimit ∧ m = s.mailbox

theorem acceptedOf_eq (outputs : List RequestOutput) :
    acceptedOf outputs = Mailbox.storedOf (outputs.map RequestOutput.shown) := by
  rw [Mailbox.storedOf, List.filterMap_map, acceptedOf]
  congr 1
  funext output
  cases output <;> rfl

theorem dumpsOf_eq (outputs : List RequestOutput) :
    dumpsOf outputs = Mailbox.servedOf (outputs.map RequestOutput.shown) := by
  rw [Mailbox.servedOf, List.filterMap_map, dumpsOf]
  congr 1
  funext output
  cases output <;> rfl

theorem shown_served {output : RequestOutput} {firstSeq : UInt32}
    (served : output.shown = .served firstSeq) : output = .dump firstSeq := by
  cases output with
  | dump other =>
      cases served
      rfl
  | _ => cases served

theorem semGive_limit {count : Nat} (within : count ≤ dumpReqLimit) :
    semGive count dumpReqLimit = 1 := by
  have limit : dumpReqLimit = 1 := rfl
  unfold semGive
  split <;> omega

theorem mailbox_give {s : Requests} (within : s.dumpReq ≤ dumpReqLimit) :
    Requests.mailbox { s with
      dumpReq := semGive s.dumpReq dumpReqLimit, giving := s.giving - 1 } =
        { s.mailbox with signalled := true, owed := s.mailbox.owed - 1 } := by
  simp only [Requests.mailbox, semGive_limit within]
  rfl

theorem mailbox_take {s : Requests} (one : s.dumpReq = 1) :
    Requests.mailbox { s with dumpReq := s.dumpReq - 1, thread := .taken } =
      { s.mailbox with signalled := false, reader := .taken } := by
  simp only [Requests.mailbox, one]
  rfl

/-- Every step is one of the mailbox; the reader leaves only if nobody listens. -/
theorem mailbox_step {s next : Requests} {event : RequestEvent} {output : RequestOutput}
    (within : s.dumpReq ≤ dumpReqLimit)
    (stepped : requests.step s event = some (next, output)) :
    ∃ other, Mailbox.Step s.mailbox other next.mailbox output.shown ∧
      (s.Listening → other ≠ .leave) ∧ next.dumpReq ≤ dumpReqLimit := by
  cases requests_step stepped with
  | accept => exact ⟨_, .store _, fun _ => nofun, within⟩
  | reject => exact ⟨_, .idle, fun _ => nofun, within⟩
  | give debt =>
      refine ⟨.give, ?_, fun _ => nofun, Nat.le_of_eq (semGive_limit within)⟩
      rw [mailbox_give within]
      exact .give debt
  | take waits given =>
      have one : s.dumpReq = 1 := Nat.le_antisymm within given
      refine ⟨.take, ?_, fun _ => nofun, Nat.le_trans (Nat.sub_le _ _) within⟩
      rw [mailbox_take one]
      exact .take (congrArg DumpThread.reader waits) (decide_eq_true one)
  | dump took => exact ⟨_, .serve (congrArg DumpThread.reader took), fun _ => nofun, within⟩
  | leave took deaf =>
      exact ⟨_, .leave (congrArg DumpThread.reader took), fun listening => absurd listening deaf,
        within⟩
  | finish runs => exact ⟨_, .finish (congrArg DumpThread.reader runs), fun _ => nofun, within⟩
  | connected => exact ⟨_, .idle, fun _ => nofun, within⟩
  | disconnected => exact ⟨_, .idle, fun _ => nofun, within⟩
  | cccChanged => exact ⟨_, .idle, fun _ => nofun, within⟩

/-- Every run is one of the mailbox, in which the reader always serves if somebody listens. -/
theorem requests_run {guard : Requests → RequestEvent → Prop} {s final : Requests}
    {events : List RequestEvent} {outputs : List RequestOutput} (within : s.dumpReq ≤ dumpReqLimit)
    (guarded : requests.Guarded guard s events)
    (ran : requests.run s events = some (final, outputs)) :
    final.dumpReq ≤ dumpReqLimit ∧ ∃ others, (Mailbox.machine UInt32).run s.mailbox others =
        some (final.mailbox, outputs.map RequestOutput.shown) ∧
      ((∀ state event, guard state event → state.Listening) → ∀ other ∈ others, other ≠ .leave) := by
  have refines : requests.Refines (Mailbox.machine UInt32) Posts guard
      (fun other => (∀ state event, guard state event → state.Listening) → other ≠ .leave)
      RequestOutput.shown := by
    rintro state _ input next output ⟨count, rfl⟩ met stepped
    obtain ⟨other, matched, serves, after⟩ := mailbox_step count stepped
    exact ⟨other, next.mailbox, Mailbox.of_step matched,
      fun listening => serves (listening state input met), after, rfl⟩
  have start : Posts s s.mailbox := ⟨within, rfl⟩
  obtain ⟨others, _, matched, serves, count, rfl⟩ := refines.run start guarded ran
  exact ⟨count, others, matched, fun listening other member => serves other member listening⟩

/--
Whatever came before, while a client stays connected and subscribed every dump
is one of an accepted request, the last one before its read, and there are no
more dumps than accepted requests; when the thread is blocked and no write is in
progress, the last request was read after it was stored, by the last dump.  A
malformed write changes nothing, and a request is the last four bytes of a
write that is not.
-/
theorem requests_coalesce {earlier period : List RequestEvent} {middle final : Requests}
    {before during : List RequestOutput}
    (ranEarlier : requests.run Requests.boot earlier = some (middle, before))
    (stays : requests.Guarded (fun s _ => s.Listening) middle period)
    (ran : requests.run middle period = some (final, during)) :
    (∀ first firstSeq rest, before ++ during = first ++ .dump firstSeq :: rest →
      (acceptedOf first).getLast? = some firstSeq) ∧
    (dumpsOf (before ++ during)).length ≤ (acceptedOf (before ++ during)).length ∧
    (final.Blocked → acceptedOf during ≠ [] →
      ∃ first firstSeq rest, during = first ++ .dump firstSeq :: rest ∧
        (acceptedOf first).getLast? = some firstSeq ∧
        acceptedOf rest = [] ∧ dumpsOf rest = []) ∧
    (∀ s buf offset, (offset ≠ 0 ∨ buf.length ≠ sntlCmdLen ∨ buf[0]? ≠ some sntlCmdDump) →
      ∃ err, requests.step s (.ctrlWrite buf offset) = some (s, .rejected err)) ∧
    ∀ s next buf offset firstSeq,
      requests.step s (.ctrlWrite buf offset) = some (next, .accepted firstSeq) ↔
        offset = 0 ∧
        (∃ b1 b2 b3 b4, buf = [sntlCmdDump, b1, b2, b3, b4] ∧ firstSeq.toNat =
          b1.toNat + b2.toNat * 2 ^ 8 + b3.toNat * 2 ^ 16 + b4.toNat * 2 ^ 24) ∧
        next = { s with dumpFirstSeq := firstSeq, giving := s.giving + 1 } := by
  have whole := Machine.run_append ranEarlier ran
  obtain ⟨_, all, ranAll, _⟩ := requests_run (Nat.zero_le _) (requests.unguarded _ _) whole
  have backed := Mailbox.run_backed rfl ranAll
  obtain ⟨count, _⟩ := requests_run (Nat.zero_le _) (requests.unguarded _ _) ranEarlier
  obtain ⟨_, others, ranDuring, serves⟩ := requests_run count stays ran
  have current := Mailbox.run_current (serves fun _ _ listening => listening) ranDuring
  refine ⟨fun first firstSeq rest split => ?_, ?_, fun blocked something => ?_,
    fun s _ _ malformed => ctrlWrite_malformed malformed s,
    fun _ _ _ _ _ => ctrlWrite_accepted_iff⟩
  · rw [acceptedOf_eq]
    apply backed.stored (first.map RequestOutput.shown) firstSeq (rest.map RequestOutput.shown)
    rw [split, List.map_append]
    rfl
  · rw [dumpsOf_eq, acceptedOf_eq]
    exact Nat.le_trans (Nat.le_add_right _ _) backed.fewer
  · obtain ⟨waits, empty, idle⟩ := blocked
    rw [acceptedOf_eq] at something
    have silent : final.mailbox.signalled = false := by simp [Requests.mailbox, empty]
    have waiting : final.mailbox.reader ≠ .taken := by simp [Requests.mailbox, waits,
      DumpThread.reader]
    obtain ⟨first, firstSeq, rest, split, last, noStore, noServe⟩ :=
      current.answered idle silent waiting something
    obtain ⟨front, back, rfl, rfl, shown⟩ := List.map_eq_append_iff.mp split
    obtain ⟨output, tail, rfl, served, rfl⟩ := List.map_eq_cons_iff.mp shown
    rw [shown_served served]
    rw [← acceptedOf_eq] at last noStore
    rw [← dumpsOf_eq] at noServe
    exact ⟨front, firstSeq, tail, rfl, last, noStore, noServe⟩

/-- The event neither disconnects the client nor ends its subscription. -/
def KeepsClient : RequestEvent → Prop
  | .disconnected => False
  | .cccChanged value => value = btGattCccNotify
  | _ => True

theorem listening_step {s next : Requests} {event : RequestEvent} {output : RequestOutput}
    (listening : s.Listening) (keeps : KeepsClient event)
    (stepped : requests.step s event = some (next, output)) : next.Listening := by
  obtain ⟨conn, notify⟩ := listening
  cases requests_step stepped with
  | connected err => exact ⟨by simp [conn], notify⟩
  | disconnected => exact keeps.elim
  | cccChanged value => exact ⟨conn, decide_eq_true keeps⟩
  | _ => exact ⟨conn, notify⟩

theorem guarded_listening {s : Requests} {events : List RequestEvent} (listening : s.Listening)
    (keeps : ∀ event ∈ events, KeepsClient event) :
    requests.Guarded (fun s _ => s.Listening) s events := by
  induction events generalizing s with
  | nil => trivial
  | cons event rest ih =>
      obtain ⟨first, others⟩ := List.forall_mem_cons.mp keeps
      exact ⟨listening, fun next output stepped => ih (listening_step listening first stepped) others⟩

def twoRequests : List RequestEvent :=
  [.ctrlWrite [0x01, 7, 0, 0, 0] 0, .ctrlWrite [0x02, 0, 0, 0, 0] 0, .give, .take,
    .ctrlWrite [0x01, 9, 0, 0, 0] 0, .look, .give, .finish, .take, .look, .finish]

theorem requests_coalesce_twoRequests :
    ∃ during final, requests.run ⟨0, 0, 0, true, true, .atTake⟩ twoRequests =
        some (final, during) ∧ final.Blocked ∧
      (dumpsOf ([.quiet, .quiet] ++ during)).length ≤
        (acceptedOf ([.quiet, .quiet] ++ during)).length ∧
      ∃ first firstSeq rest, during = first ++ .dump firstSeq :: rest ∧
        (acceptedOf first).getLast? = some firstSeq ∧
        acceptedOf rest = [] ∧ dumpsOf rest = [] := by
  have ranEarlier : requests.run Requests.boot [.connected 0, .cccChanged 1] =
      some (⟨0, 0, 0, true, true, .atTake⟩, [.quiet, .quiet]) := rfl
  have ran : requests.run ⟨0, 0, 0, true, true, .atTake⟩ twoRequests =
      some (⟨9, 0, 0, true, true, .atTake⟩,
        [.accepted 7, .rejected .valueNotAllowed, .quiet, .quiet, .accepted 9, .dump 9, .quiet,
          .quiet, .quiet, .dump 9, .quiet]) := rfl
  have keeps : ∀ event ∈ twoRequests, KeepsClient event := by simp [twoRequests, KeepsClient]
  have stays := guarded_listening (s := ⟨0, 0, 0, true, true, .atTake⟩) ⟨rfl, rfl⟩ keeps
  obtain ⟨_, fewer, answers, _, _⟩ := requests_coalesce ranEarlier stays ran
  have blocked : Requests.Blocked ⟨9, 0, 0, true, true, .atTake⟩ := ⟨rfl, rfl, rfl⟩
  exact ⟨_, _, ran, blocked, fewer, answers blocked nofun⟩

end PresenceNode.Ble
