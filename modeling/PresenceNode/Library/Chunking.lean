import Mathlib.Data.List.Infix

/-!
# Items gathered into chunks

A chunker holds what it has not sent yet.  An item that would carry it past
the chunk size is added only after what it holds has been sent, so an item is
never split over two chunks.  The channel may refuse a chunk, and nothing is
sent after a refusal.
-/

namespace PresenceNode.Library.Chunking

variable {α : Type}

inductive Chunker (α : Type) where
  | opened (sent : List (List α)) (held : List α)
  | closed (sent : List (List α))

/-- Every chunk that was offered to the channel, the refused one included. -/
def Chunker.sent : Chunker α → List (List α)
  | .opened sent _ => sent
  | .closed sent => sent

def send (accepts : Nat → Bool) : Chunker α → Chunker α
  | .opened sent held =>
      if accepts sent.length then .opened (sent ++ [held]) [] else .closed (sent ++ [held])
  | .closed sent => .closed sent

def makeRoom (accepts : Nat → Bool) (size more : Nat) : Chunker α → Chunker α
  | .opened sent held =>
      if size < held.length + more then send accepts (.opened sent held) else .opened sent held
  | .closed sent => .closed sent

def push (item : List α) : Chunker α → Chunker α
  | .opened sent held => .opened sent (held ++ item)
  | .closed sent => .closed sent

def append (accepts : Nat → Bool) (size : Nat) (chunker : Chunker α) (item : List α) : Chunker α :=
  push item (makeRoom accepts size item.length chunker)

def appendAll (accepts : Nat → Bool) (size : Nat) (chunker : Chunker α) (items : List (List α)) :
    Chunker α :=
  items.foldl (append accepts size) chunker

theorem send_accepted {accepts : Nat → Bool} {sent : List (List α)} (held : List α)
    (yes : accepts sent.length = true) :
    send accepts (.opened sent held) = .opened (sent ++ [held]) [] := if_pos yes

theorem send_refused {accepts : Nat → Bool} {sent : List (List α)} (held : List α)
    (no : ¬ accepts sent.length = true) :
    send accepts (.opened sent held) = .closed (sent ++ [held]) := if_neg no

theorem append_over {accepts : Nat → Bool} {size : Nat} {sent : List (List α)}
    {held item : List α} (exceeds : size < held.length + item.length) :
    append accepts size (.opened sent held) item = push item (send accepts (.opened sent held)) := by
  simp only [append, makeRoom, if_pos exceeds]

theorem appendAll_cons (accepts : Nat → Bool) (size : Nat) (chunker : Chunker α)
    (first : List α) (items : List (List α)) :
    appendAll accepts size chunker (first :: items) =
      appendAll accepts size (append accepts size chunker first) items := rfl

@[simp] theorem appendAll_closed (accepts : Nat → Bool) (size : Nat) (sent : List (List α))
    (items : List (List α)) :
    appendAll accepts size (.closed sent) items = .closed sent := by
  induction items with
  | nil => rfl
  | cons item rest ih => exact ih

theorem appendAll_concat (accepts : Nat → Bool) (size : Nat) (chunker : Chunker α)
    (items : List (List α)) (last : List α) :
    appendAll accepts size chunker (items ++ [last]) =
      append accepts size (appendAll accepts size chunker items) last := by
  simp [appendAll]

/-! ## What has been sent -/

/-- The chunks are the text so far, cut up; after a refusal they are the beginning of it. -/
def Follows (accepts : Nat → Bool) (text : List α) : Chunker α → Prop
  | .opened sent held => sent.flatten ++ held = text ∧ ∀ index < sent.length, accepts index = true
  | .closed sent => sent.flatten <+: text ∧ ∃ before refused, sent = before ++ [refused] ∧
      (∀ index < before.length, accepts index = true) ∧ accepts before.length = false

theorem Follows.start (accepts : Nat → Bool) (first : List α) :
    Follows accepts first (.opened [] first) :=
  ⟨rfl, nofun⟩

theorem Follows.send {accepts : Nat → Bool} {text : List α} {chunker : Chunker α}
    (follows : Follows accepts text chunker) : Follows accepts text (send accepts chunker) := by
  cases chunker with
  | opened sent held =>
      obtain ⟨whole, accepted⟩ := follows
      have flat : (sent ++ [held]).flatten = text := by simp [whole]
      simp only [Chunking.send]
      split
      · next yes =>
          refine ⟨by rw [flat, List.append_nil], ?_⟩
          intro index inside
          rw [List.length_append, List.length_singleton] at inside
          rcases Nat.lt_succ_iff_lt_or_eq.mp inside with before | rfl
          · exact accepted index before
          · exact yes
      · next no =>
          exact ⟨flat ▸ List.prefix_rfl, sent, held, rfl, accepted, Bool.eq_false_iff.mpr no⟩
  | closed sent => exact follows

theorem Follows.makeRoom {accepts : Nat → Bool} {text : List α} {chunker : Chunker α}
    (follows : Follows accepts text chunker) (size more : Nat) :
    Follows accepts text (makeRoom accepts size more chunker) := by
  cases chunker with
  | opened sent held =>
      simp only [Chunking.makeRoom]
      split
      · exact follows.send
      · exact follows
  | closed sent => exact follows

theorem Follows.push {accepts : Nat → Bool} {text : List α} {chunker : Chunker α}
    (follows : Follows accepts text chunker) (item : List α) :
    Follows accepts (text ++ item) (push item chunker) := by
  cases chunker with
  | opened sent held =>
      obtain ⟨whole, accepted⟩ := follows
      exact ⟨by rw [← List.append_assoc, whole], accepted⟩
  | closed sent =>
      obtain ⟨before, refusal⟩ := follows
      exact ⟨before.trans (List.prefix_append _ _), refusal⟩

theorem Follows.append {accepts : Nat → Bool} {text : List α} {chunker : Chunker α}
    (follows : Follows accepts text chunker) (size : Nat) (item : List α) :
    Follows accepts (text ++ item) (append accepts size chunker item) :=
  (follows.makeRoom size item.length).push item

/-- The run lemma: whatever the items, the chunks follow their concatenation. -/
theorem Follows.appendAll {accepts : Nat → Bool} {text : List α} {chunker : Chunker α}
    (follows : Follows accepts text chunker) (size : Nat) (items : List (List α)) :
    Follows accepts (text ++ items.flatten) (appendAll accepts size chunker items) := by
  induction items generalizing text chunker with
  | nil => simpa [Chunking.appendAll] using follows
  | cons item rest ih =>
      rw [List.flatten_cons, ← List.append_assoc]
      exact ih (follows.append size item)

/-- After the last send the chunks are the whole text, or begin it and end in a refusal. -/
theorem Follows.finished {accepts : Nat → Bool} {text : List α} {chunker : Chunker α}
    (follows : Follows accepts text chunker) :
    (Chunking.send accepts chunker).sent.flatten <+: text ∧
      (∀ index, index + 1 < (Chunking.send accepts chunker).sent.length →
        accepts index = true) ∧
      ((∀ index < (Chunking.send accepts chunker).sent.length, accepts index = true) →
        (Chunking.send accepts chunker).sent.flatten = text) := by
  have after := follows.send
  cases chunker with
  | opened sent held =>
      have flat : (sent ++ [held]).flatten = text := by simp [follows.1]
      have sentAll : (Chunking.send accepts (.opened sent held)).sent = sent ++ [held] := by
        simp only [Chunking.send]
        split <;> rfl
      rw [sentAll]
      refine ⟨flat ▸ List.prefix_rfl, ?_, fun _ => flat⟩
      intro index inside
      rw [List.length_append, List.length_singleton] at inside
      exact follows.2 index (by omega)
  | closed sent =>
      obtain ⟨before, refused, whole, accepted, refusal⟩ := follows.2
      change sent.flatten <+: text ∧ (∀ index, index + 1 < sent.length → accepts index = true) ∧
        ((∀ index < sent.length, accepts index = true) → sent.flatten = text)
      refine ⟨follows.1, ?_, ?_⟩
      · intro index inside
        rw [whole, List.length_append, List.length_singleton] at inside
        exact accepted index (by omega)
      · intro all
        have impossible := all before.length (by simp [whole])
        rw [refusal] at impossible
        cases impossible

/-! ## How long the chunks are -/

def Within (bound : Nat) : Chunker α → Prop
  | .opened sent held => (∀ chunk ∈ sent, 1 ≤ chunk.length ∧ chunk.length ≤ bound) ∧
      1 ≤ held.length ∧ held.length ≤ bound
  | .closed sent => ∀ chunk ∈ sent, 1 ≤ chunk.length ∧ chunk.length ≤ bound

theorem Within.concat {bound : Nat} {sent : List (List α)} {held : List α}
    (within : Within bound (.opened sent held)) :
    ∀ chunk ∈ sent ++ [held], 1 ≤ chunk.length ∧ chunk.length ≤ bound := by
  intro chunk member
  rcases List.mem_append.mp member with before | last
  · exact within.1 chunk before
  · rw [List.mem_singleton.mp last]
    exact within.2

theorem Within.sent_bound {bound : Nat} {chunker : Chunker α} (within : Within bound chunker)
    (accepts : Nat → Bool) :
    ∀ chunk ∈ (send accepts chunker).sent, 1 ≤ chunk.length ∧ chunk.length ≤ bound := by
  cases chunker with
  | opened sent held =>
      simp only [send]
      split <;> exact within.concat
  | closed sent => exact within

theorem Within.append {bound size : Nat} {chunker : Chunker α} (within : Within bound chunker)
    (accepts : Nat → Bool) (chunkBound : size ≤ bound) {item : List α}
    (nonempty : 1 ≤ item.length) (itemBound : item.length ≤ bound) :
    Within bound (append accepts size chunker item) := by
  cases chunker with
  | opened sent held =>
      simp only [Chunking.append, makeRoom]
      split
      · simp only [send]
        split
        · exact ⟨within.concat, nonempty, itemBound⟩
        · exact within.concat
      · refine ⟨within.1, ?_⟩
        have before := within.2.1
        rw [List.length_append]
        omega
  | closed sent => exact within

/-- The run lemma: items within the bound make chunks within the bound. -/
theorem Within.appendAll {bound size : Nat} {chunker : Chunker α} (within : Within bound chunker)
    (accepts : Nat → Bool) (chunkBound : size ≤ bound) {items : List (List α)}
    (sizes : ∀ item ∈ items, 1 ≤ item.length ∧ item.length ≤ bound) :
    Within bound (appendAll accepts size chunker items) := by
  induction items generalizing chunker with
  | nil => exact within
  | cons item rest ih =>
      obtain ⟨nonempty, itemBound⟩ := sizes item (List.mem_cons_self ..)
      exact ih (within.append accepts chunkBound nonempty itemBound)
        (fun other member => sizes other (List.mem_cons_of_mem _ member))

/-- Making room keeps the text, and leaves room for the item in the chunk or beyond it. -/
theorem makeRoom_opened {accepts : Nat → Bool} {size more : Nat} {sent sentNext : List (List α)}
    {held heldNext : List α}
    (room : makeRoom accepts size more (.opened sent held) = .opened sentNext heldNext) :
    sentNext.flatten ++ heldNext = sent.flatten ++ held ∧
      heldNext.length + more ≤ max size more := by
  simp only [makeRoom] at room
  split at room
  · simp only [send] at room
    split at room
    · cases room
      refine ⟨by simp, ?_⟩
      rw [List.length_nil]
      omega
    · cases room
  · cases room
    exact ⟨rfl, by omega⟩

/-! ## Chunks are never taken back -/

theorem sent_send (accepts : Nat → Bool) (chunker : Chunker α) :
    chunker.sent <+: (send accepts chunker).sent := by
  cases chunker with
  | opened sent held =>
      simp only [send]
      split <;> exact List.prefix_append _ _
  | closed sent => exact List.prefix_rfl

theorem sent_append (accepts : Nat → Bool) (size : Nat) (chunker : Chunker α) (item : List α) :
    chunker.sent <+: (append accepts size chunker item).sent := by
  cases chunker with
  | opened sent held =>
      simp only [append, makeRoom]
      split
      · simp only [send]
        split <;> exact List.prefix_append _ _
      · exact List.prefix_rfl
  | closed sent => exact List.prefix_rfl

theorem sent_appendAll (accepts : Nat → Bool) (size : Nat) (chunker : Chunker α)
    (items : List (List α)) :
    chunker.sent <+: (appendAll accepts size chunker items).sent := by
  induction items generalizing chunker with
  | nil => exact List.prefix_rfl
  | cons item rest ih => exact (sent_append accepts size chunker item).trans (ih _)

theorem held_sent {size : Nat} {held : List α} (accepts : Nat → Bool) (sent : List (List α))
    (full : size ≤ held.length) {items : List (List α)} (nonempty : ∀ item ∈ items, 1 ≤ item.length) :
    held ∈ (send accepts (appendAll accepts size (.opened sent held) items)).sent := by
  have sentNow : held ∈ (send accepts (.opened sent held)).sent := by
    simp only [send]
    split <;> exact List.mem_append_right _ (List.mem_singleton_self held)
  cases items with
  | nil => exact sentNow
  | cons item rest =>
      have positive := nonempty item (List.mem_cons_self ..)
      have exceeds : size < held.length + item.length := by omega
      have first : held ∈ (append accepts size (.opened sent held) item).sent := by
        rw [append_over exceeds]
        cases flushed : send accepts (.opened sent held) with
        | opened later empty => rw [flushed] at sentNow; exact sentNow
        | closed later => rw [flushed] at sentNow; exact sentNow
      exact ((sent_appendAll accepts size _ rest).trans (sent_send accepts _)).subset first

/--
An item that no chunk may carry leaves the chunks within the bound exactly when
the channel refuses what stands before it: the item fills its chunk, and goes
out as it is.
-/
theorem oversized_bound_iff {bound size : Nat} {held item : List α} {items : List (List α)}
    (accepts : Nat → Bool) (chunkBound : size ≤ bound)
    (heldBound : 1 ≤ held.length ∧ held.length ≤ bound) (oversized : bound < item.length)
    (nonempty : ∀ other ∈ items, 1 ≤ other.length) :
    (∀ chunk ∈ (send accepts (appendAll accepts size (.opened [] held) (item :: items))).sent,
      1 ≤ chunk.length ∧ chunk.length ≤ bound) ↔ ¬ accepts 0 = true := by
  have exceeds : size < held.length + item.length := by omega
  rw [appendAll_cons, append_over exceeds]
  by_cases accepted : accepts 0 = true
  · rw [send_accepted held accepted]
    refine iff_of_false ?_ (not_not_intro accepted)
    intro fit
    have full : size ≤ item.length := by omega
    have bounds := fit item (held_sent accepts [held] full nonempty)
    omega
  · rw [send_refused held accepted]
    refine iff_of_true ?_ accepted
    intro chunk member
    rw [push, appendAll_closed] at member
    rw [List.mem_singleton.mp member]
    exact heldBound

/-! ## Chunks are groups of items -/

/-- What has been sent are groups of items in a row; what is held is the group that is open. -/
def Cuts (items : List (List α)) : Chunker α → Prop
  | .opened sent held => ∃ (groups : List (List (List α))) (last : List (List α)),
      groups.flatten ++ last = items ∧ groups.map List.flatten = sent ∧ last.flatten = held
  | .closed sent => ∃ (groups : List (List (List α))) (rest : List (List α)),
      groups.flatten ++ rest = items ∧ groups.map List.flatten = sent

theorem Cuts.start (first : List α) : Cuts [first] (.opened [] first) :=
  ⟨[], [first], rfl, rfl, by simp⟩

theorem Cuts.send {items : List (List α)} {chunker : Chunker α} (cuts : Cuts items chunker)
    (accepts : Nat → Bool) : Cuts items (send accepts chunker) := by
  cases chunker with
  | closed sent => exact cuts
  | opened sent held =>
      obtain ⟨groups, last, text, same, open_⟩ := cuts
      simp only [Chunking.send]
      split
      · exact ⟨groups ++ [last], [], by simpa using text, by simp [same, open_], rfl⟩
      · exact ⟨groups ++ [last], [], by simpa using text, by simp [same, open_]⟩

theorem Cuts.push {items : List (List α)} {chunker : Chunker α} (cuts : Cuts items chunker)
    (item : List α) : Cuts (items ++ [item]) (push item chunker) := by
  cases chunker with
  | closed sent =>
      obtain ⟨groups, rest, text, same⟩ := cuts
      exact ⟨groups, rest ++ [item], by rw [← text, List.append_assoc], same⟩
  | opened sent held =>
      obtain ⟨groups, last, text, same, open_⟩ := cuts
      exact ⟨groups, last ++ [item], by rw [← text, List.append_assoc], same, by simp [open_]⟩

theorem Cuts.append {items : List (List α)} {chunker : Chunker α} (cuts : Cuts items chunker)
    (accepts : Nat → Bool) (size : Nat) (item : List α) :
    Cuts (items ++ [item]) (append accepts size chunker item) := by
  refine Cuts.push ?_ item
  cases chunker with
  | closed sent => exact cuts
  | opened sent held =>
      simp only [makeRoom]
      split
      · exact cuts.send accepts
      · exact cuts

/-- The run lemma: no item is split over two chunks. -/
theorem Cuts.appendAll {before : List (List α)} {chunker : Chunker α} (cuts : Cuts before chunker)
    (accepts : Nat → Bool) (size : Nat) (items : List (List α)) :
    Cuts (before ++ items) (appendAll accepts size chunker items) := by
  induction items generalizing before chunker with
  | nil => simpa [Chunking.appendAll] using cuts
  | cons item rest ih =>
      have after := ih (cuts.append accepts size item)
      rw [List.append_assoc] at after
      exact after

theorem Cuts.finished {items : List (List α)} {chunker : Chunker α} (cuts : Cuts items chunker)
    {accepts : Nat → Bool} (all : ∀ index, accepts index = true)
    (follows : Follows accepts items.flatten chunker) :
    ∃ groups : List (List (List α)), groups.flatten = items ∧
      groups.map List.flatten = (Chunking.send accepts chunker).sent := by
  cases chunker with
  | closed sent =>
      obtain ⟨_, before, _, _, _, refusal⟩ := follows
      rw [all before.length] at refusal
      cases refusal
  | opened sent held =>
      obtain ⟨groups, last, text, same, open_⟩ := cuts
      rw [send_accepted held (all sent.length)]
      exact ⟨groups ++ [last], by simpa using text, by simp [same, open_, Chunker.sent]⟩

/-! ## No cut makes fewer chunks -/

theorem appendAll_append (accepts : Nat → Bool) (size : Nat) (chunker : Chunker α)
    (first second : List (List α)) :
    appendAll accepts size chunker (first ++ second) =
      appendAll accepts size (appendAll accepts size chunker first) second := List.foldl_append

/--
The chunker is not behind a cut that has begun `begun` chunks and put `filled`
elements into the last of them.
-/
def Ahead (begun filled : Nat) : Chunker α → Prop
  | .opened sent held => sent.length + 1 < begun ∨ sent.length + 1 = begun ∧ held.length ≤ filled
  | .closed sent => sent.length ≤ begun

theorem Ahead.sent_le {begun filled : Nat} {chunker : Chunker α}
    (ahead : Ahead begun filled chunker) (accepts : Nat → Bool) :
    (send accepts chunker).sent.length ≤ begun := by
  cases chunker with
  | closed sent => exact ahead
  | opened sent held =>
      have count : sent.length + 1 ≤ begun := by
        rcases ahead with fewer | same
        · exact Nat.le_of_lt fewer
        · exact Nat.le_of_eq same.1
      simp only [send]
      split <;> simpa [Chunker.sent] using count

theorem Ahead.begin {begun filled : Nat} {chunker : Chunker α}
    (ahead : Ahead begun filled chunker) : Ahead (begun + 1) 0 chunker := by
  cases chunker with
  | closed sent => exact Nat.le_succ_of_le ahead
  | opened sent held =>
      refine .inl ?_
      rcases ahead with fewer | same <;> omega

theorem Ahead.append {begun filled size : Nat} {chunker : Chunker α}
    (ahead : Ahead begun filled chunker) (accepts : Nat → Bool) {item : List α}
    (fits : filled + item.length ≤ size) :
    Ahead begun (filled + item.length) (append accepts size chunker item) := by
  cases chunker with
  | closed sent => exact ahead
  | opened sent held =>
      simp only [Chunking.append, makeRoom]
      split
      · next full =>
          -- What is held is sent, so the chunker was a chunk ahead.
          have fewer : sent.length + 1 < begun := by
            rcases ahead with fewer | same
            · exact fewer
            · omega
          simp only [Chunking.send]
          split
          · simp only [push, Ahead, List.length_append, List.length_singleton, List.nil_append]
            omega
          · simp only [push, Ahead, List.length_append, List.length_singleton]
            omega
      · simp only [push, Ahead, List.length_append]
        rcases ahead with fewer | same <;> omega

theorem Ahead.appendAll {begun filled size : Nat} {chunker : Chunker α}
    (ahead : Ahead begun filled chunker) (accepts : Nat → Bool) {items : List (List α)}
    (fits : filled + items.flatten.length ≤ size) :
    Ahead begun (filled + items.flatten.length) (appendAll accepts size chunker items) := by
  induction items generalizing chunker filled with
  | nil => exact ahead
  | cons item rest ih =>
      rw [List.flatten_cons, List.length_append, ← Nat.add_assoc] at fits ⊢
      exact ih (ahead.append accepts (by omega)) fits

/-- The run lemma: chunk by chunk of the cut, the chunker stays ahead. -/
theorem Ahead.cut {begun filled size : Nat} {chunker : Chunker α}
    (ahead : Ahead begun filled chunker) (accepts : Nat → Bool) {groups : List (List (List α))}
    (fits : ∀ group ∈ groups, group.flatten.length ≤ size) :
    ∃ last, Ahead (begun + groups.length) last
      (Chunking.appendAll accepts size chunker groups.flatten) := by
  induction groups generalizing chunker begun filled with
  | nil => exact ⟨filled, ahead⟩
  | cons group rest ih =>
      have here : 0 + group.flatten.length ≤ size := by
        rw [Nat.zero_add]
        exact fits group (List.mem_cons_self ..)
      obtain ⟨last, after⟩ := ih (ahead.begin.appendAll accepts here)
        fun other member => fits other (List.mem_cons_of_mem _ member)
      refine ⟨last, ?_⟩
      rw [List.flatten_cons, appendAll_append, List.length_cons, Nat.add_comm rest.length,
        ← Nat.add_assoc]
      exact after

/--
Whatever the channel refuses, no way to cut the items into chunks of that size
makes do with fewer chunks than the chunker offers.
-/
theorem sent_le_groups {size : Nat} {first : List α} {items : List (List α)}
    (accepts : Nat → Bool) {groups : List (List (List α))} (same : groups.flatten = first :: items)
    (fits : ∀ group ∈ groups, group.flatten.length ≤ size) :
    (send accepts (appendAll accepts size (.opened [] first) items)).sent.length ≤
      groups.length := by
  have here : first.length ≤ size := by
    obtain ⟨group, member, inside⟩ := List.mem_flatten.mp (same ▸ List.mem_cons_self ..)
    exact Nat.le_trans (List.sublist_flatten_of_mem inside).length_le (fits group member)
  -- The first item is as if it had been appended to nothing.
  have started : appendAll accepts size (.opened [] first) items =
      appendAll accepts size (.opened [] []) groups.flatten := by
    rw [same, appendAll_cons]
    simp only [append, makeRoom, List.length_nil, Nat.zero_add, if_neg (Nat.not_lt_of_le here),
      push, List.nil_append]
  cases groups with
  | nil => cases same
  | cons group rest =>
      have opened : Ahead 1 0 (.opened ([] : List (List α)) []) := .inr ⟨rfl, Nat.le_refl 0⟩
      have filled : 0 + group.flatten.length ≤ size := by
        rw [Nat.zero_add]
        exact fits group (List.mem_cons_self ..)
      obtain ⟨last, after⟩ := (opened.appendAll accepts filled).cut accepts
        (fun other member => fits other (List.mem_cons_of_mem _ member))
      rw [started, List.flatten_cons, appendAll_append, List.length_cons, Nat.add_comm]
      exact after.sent_le accepts

end PresenceNode.Library.Chunking
