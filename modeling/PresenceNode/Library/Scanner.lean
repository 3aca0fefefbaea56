import PresenceNode.Library.Deframer

/-!
# Scanning a text for frames

A scanner sees its text as a whole.  It looks for a sync word, judges the
header that begins there, passes over the sync word of a header that it
rejects, and over the whole of a frame; it stops where a header or a frame is
not all there.  `judged` lists the headers in the order in which they are
judged, each with all that follows it, and `scan` the frames among them.

A scan can be cut in two: what is settled on the first part stays settled, and
the scan resumes on what is left with the second part appended to it.
-/

namespace PresenceNode.Library.Deframer.Format

open Pattern

variable {α : Type} (format : Format α)

def Bogus (declared : Nat) : Prop := declared < format.header ∨ format.limit < declared

instance (declared : Nat) : Decidable (format.Bogus declared) :=
  inferInstanceAs (Decidable (_ ∨ _))

variable [DecidableEq α]

def judged (text : List α) : List (List α) :=
  if format.sync <+: text then
    if text.length < format.header then []
    else
      text ::
        if format.Bogus (format.declared text) then judged (text.drop format.sync.length)
        else if text.length < format.declared text then []
        else judged (text.drop (format.declared text))
  else
    match text with
    | [] => []
    | _ :: rest => judged rest
termination_by text.length
decreasing_by
  · next complete _ =>
      have positive := format.sync_pos
      have short := format.sync_lt_header
      rw [List.length_drop]
      omega
  · next complete admitted _ =>
      have short := format.sync_lt_header
      simp only [Bogus, not_or] at admitted
      rw [List.length_drop]
      omega
  · exact Nat.lt_succ_self _

/-- The frame that a text begins with, if its header is admitted and the frame is all there. -/
def frameAt (text : List α) : Option (List α) :=
  if format.Bogus (format.declared text) ∨ text.length < format.declared text then none
  else some (text.take (format.declared text))

def scan (text : List α) : List (List α) := (format.judged text).filterMap format.frameAt

variable {format}

/-! ## The cases of a scan -/

theorem judged_short {text : List α} (begins : format.sync <+: text)
    (short : text.length < format.header) : format.judged text = [] := by
  rw [judged.eq_def, if_pos begins, if_pos short]

theorem judged_bogus {text : List α} (begins : format.sync <+: text)
    (complete : format.header ≤ text.length) (bogus : format.Bogus (format.declared text)) :
    format.judged text = text :: format.judged (text.drop format.sync.length) := by
  rw [judged.eq_def, if_pos begins, if_neg (by omega), if_pos bogus]

theorem judged_waiting {text : List α} (begins : format.sync <+: text)
    (complete : format.header ≤ text.length) (admitted : ¬ format.Bogus (format.declared text))
    (waiting : text.length < format.declared text) : format.judged text = [text] := by
  rw [judged.eq_def, if_pos begins, if_neg (by omega), if_neg admitted, if_pos waiting]

theorem judged_frame {text : List α} (begins : format.sync <+: text)
    (complete : format.header ≤ text.length) (admitted : ¬ format.Bogus (format.declared text))
    (whole : format.declared text ≤ text.length) :
    format.judged text = text :: format.judged (text.drop (format.declared text)) := by
  rw [judged.eq_def, if_pos begins, if_neg (by omega), if_neg admitted, if_neg (by omega)]

theorem judged_skip {item : α} {rest : List α} (absent : ¬ format.sync <+: item :: rest) :
    format.judged (item :: rest) = format.judged rest := by
  rw [judged, if_neg absent]

theorem judged_gap {gap rest : List α}
    (quiet : ∀ index < gap.length, ¬ OccursAt format.sync (gap ++ rest) index) :
    format.judged (gap ++ rest) = format.judged rest := by
  induction gap with
  | nil => rfl
  | cons item gap ih =>
      have absent : ¬ format.sync <+: item :: (gap ++ rest) := quiet 0 (Nat.zero_lt_succ _)
      rw [List.cons_append, judged_skip absent]
      exact ih fun index inside => quiet (index + 1) (Nat.succ_lt_succ inside)

theorem judged_absent {text : List α} (absent : ¬ format.sync <:+: text) :
    format.judged text = [] := by
  have passed : format.judged (text ++ []) = format.judged [] := by
    apply judged_gap
    intro index _ occurs
    rw [List.append_nil] at occurs
    exact absent (infix_of_occursAt occurs)
  rw [List.append_nil] at passed
  rw [passed, judged, if_neg]
  intro begins
  exact format.sync_ne_nil (List.prefix_nil.mp begins)

/-- The scan of a text goes to its first sync word. -/
theorem judged_first {text : List α} {index : Nat} (first : FirstAt format.sync text index) :
    format.judged text = format.judged (text.drop index) := by
  have inside : index ≤ text.length := by
    have bound := first.1.length_le
    have positive := format.sync_pos
    rw [List.length_drop] at bound
    omega
  have passed : format.judged (text.take index ++ text.drop index) =
      format.judged (text.drop index) := by
    apply judged_gap
    intro earlier before
    rw [List.take_append_drop]
    rw [List.length_take_of_le inside] at before
    exact first.2 earlier before
  rw [List.take_append_drop] at passed
  exact passed

theorem scan_short {text : List α} (begins : format.sync <+: text)
    (short : text.length < format.header) : format.scan text = [] := by
  rw [scan, judged_short begins short, List.filterMap_nil]

theorem scan_absent {text : List α} (absent : ¬ format.sync <:+: text) :
    format.scan text = [] := by
  rw [scan, judged_absent absent, List.filterMap_nil]

theorem scan_waiting {text : List α} (begins : format.sync <+: text)
    (complete : format.header ≤ text.length) (admitted : ¬ format.Bogus (format.declared text))
    (waiting : text.length < format.declared text) : format.scan text = [] := by
  have nothing : format.frameAt text = none := if_pos (.inr waiting)
  rw [scan, judged_waiting begins complete admitted waiting, List.filterMap_cons_none nothing,
    List.filterMap_nil]

theorem scan_first {text : List α} {index : Nat} (first : FirstAt format.sync text index) :
    format.scan text = format.scan (text.drop index) := by
  rw [scan, judged_first first, scan]

theorem scan_frame {text : List α} (begins : format.sync <+: text)
    (complete : format.header ≤ text.length) (admitted : ¬ format.Bogus (format.declared text))
    (whole : format.declared text ≤ text.length) :
    format.scan text =
      text.take (format.declared text) :: format.scan (text.drop (format.declared text)) := by
  have frame : format.frameAt text = some (text.take (format.declared text)) := by
    refine if_neg ?_
    rw [not_or]
    exact ⟨admitted, Nat.not_lt.mpr whole⟩
  rw [scan, judged_frame begins complete admitted whole, List.filterMap_cons_some frame]
  rfl

/-- A frame that a deframer could still be collecting is not found yet. -/
theorem scan_unfinished {text : List α} (sound : format.Sound (.collecting text)) :
    format.scan text = [] := by
  by_cases complete : format.header ≤ text.length
  · obtain ⟨least, most, short⟩ := sound.2 complete
    apply scan_waiting sound.1 complete _ short
    rw [Bogus, not_or]
    exact ⟨Nat.not_lt.mpr least, Nat.not_lt.mpr most⟩
  · exact scan_short sound.1 (Nat.lt_of_not_le complete)

theorem mem_judged {text : List α} (begins : format.sync <+: text)
    (complete : format.header ≤ text.length) : text ∈ format.judged text := by
  rw [judged.eq_def, if_pos begins, if_neg (by omega)]
  exact List.mem_cons_self ..

omit [DecidableEq α] in
theorem valid_take {text : List α} (begins : format.sync <+: text)
    (admitted : ¬ format.Bogus (format.declared text))
    (whole : format.declared text ≤ text.length) :
    format.Valid (text.take (format.declared text)) := by
  have short := format.sync_lt_header
  simp only [Bogus, not_or, Nat.not_lt] at admitted
  have length : (text.take (format.declared text)).length = format.declared text :=
    List.length_take_of_le whole
  refine ⟨?_, by omega, by omega, ?_⟩
  · exact List.prefix_of_prefix_length_le begins (List.take_prefix _ _) (by omega)
  · rw [length]
    exact declared_settled (List.take_prefix _ _) (by omega)

/-! ## Cutting a scan in two -/

/-- A header that is complete, and either rejected or followed by all of its frame. -/
def Settled (format : Format α) (text : List α) : Prop :=
  format.header ≤ text.length ∧
    (format.Bogus (format.declared text) ∨ format.declared text ≤ text.length)

omit [DecidableEq α] in
theorem frameAt_append {text : List α} (settled : format.Settled text) (more : List α) :
    format.frameAt (text ++ more) = format.frameAt text := by
  obtain ⟨complete, decided⟩ := settled
  unfold frameAt
  rw [format.declared_append text more complete]
  by_cases bogus : format.Bogus (format.declared text)
  · rw [if_pos (.inl bogus), if_pos (.inl bogus)]
  · have whole := decided.resolve_left bogus
    have length : (text ++ more).length = text.length + more.length := List.length_append
    rw [if_neg (by rw [not_or]; exact ⟨bogus, by omega⟩),
      if_neg (by rw [not_or]; exact ⟨bogus, by omega⟩), List.take_append_of_le_length whole]

omit [DecidableEq α] in
theorem settled_append {text : List α} (settled : format.Settled text) (more : List α) :
    format.Settled (text ++ more) := by
  obtain ⟨complete, decided⟩ := settled
  have length : (text ++ more).length = text.length + more.length := List.length_append
  rw [Settled, format.declared_append text more complete]
  exact ⟨by omega, decided.imp_right fun whole => by omega⟩

/-- A scan of the text settles these headers, and can resume on what is left. -/
structure Cut (format : Format α) (text : List α) (settled : List (List α)) (left : List α) :
    Prop where
  settles : ∀ rest ∈ settled, format.Settled rest
  ending : left <:+ text
  resumes : ∀ more, format.judged (text ++ more) =
    settled.map (· ++ more) ++ format.judged (left ++ more)

namespace Cut

variable {text left : List α} {settled : List (List α)}

theorem start (format : Format α) (text : List α) : Cut format text [] text where
  settles := by
    intro rest member
    cases member
  ending := List.suffix_rfl
  resumes _ := rfl

theorem judged_eq (cut : Cut format text settled left) :
    format.judged text = settled ++ format.judged left := by
  have whole := cut.resumes []
  simp only [List.append_nil, List.map_id'] at whole
  exact whole

/-- What is settled is scanned once, and the rest with what follows. -/
theorem scan_append (cut : Cut format text settled left) (more : List α) :
    format.scan (text ++ more) =
      settled.filterMap format.frameAt ++ format.scan (left ++ more) := by
  have same : ∀ rest ∈ settled,
      (format.frameAt ∘ fun items => items ++ more) rest = format.frameAt rest :=
    fun rest member => frameAt_append (cut.settles rest member) more
  rw [scan, cut.resumes, List.filterMap_append, List.filterMap_map, List.filterMap_congr same]
  rfl

theorem scan_eq (cut : Cut format text settled left) :
    format.scan text = settled.filterMap format.frameAt ++ format.scan left := by
  have whole := cut.scan_append []
  rw [List.append_nil, List.append_nil] at whole
  exact whole

/-- A part of what is left that no later item can give a meaning to is let go. -/
theorem pass (cut : Cut format text settled left) {count : Nat}
    (same : ∀ more, format.judged (left ++ more) = format.judged (left.drop count ++ more)) :
    Cut format text settled (left.drop count) where
  settles := cut.settles
  ending := (List.drop_suffix _ _).trans cut.ending
  resumes more := by rw [cut.resumes, same]

/-- The scan goes to the first sync word of what is left. -/
theorem seek (cut : Cut format text settled left) {index : Nat}
    (first : FirstAt format.sync left index) : Cut format text settled (left.drop index) := by
  have bound := first.1.inside format.sync_ne_nil
  apply cut.pass
  intro more
  rw [judged_first (first.append format.sync_ne_nil more),
    List.drop_append_of_le_length (by omega)]

/-- Without a sync word in what is left, only a prefix of one at its end has to be kept. -/
theorem trim (cut : Cut format text settled left) (count : Nat)
    (absent : ¬ format.sync <:+: left)
    (covers : ∀ size < format.sync.length, format.sync.take size <:+ left →
      size ≤ (left.drop count).length) : Cut format text settled (left.drop count) := by
  apply cut.pass
  intro more
  have whole : left ++ more = left.take count ++ (left.drop count ++ more) := by
    rw [← List.append_assoc, List.take_append_drop]
  rw [whole]
  apply judged_gap
  intro index inside occurs
  rw [← whole] at occurs
  rw [List.length_take] at inside
  by_cases held : index + format.sync.length ≤ left.length
  · exact absent (infix_of_occursAt (occurs.of_append held))
  · have bound := covers _ (by omega) (occurs.straddles (by omega) (by omega))
    rw [List.length_drop] at bound
    omega

theorem reject (cut : Cut format text settled left) (begins : format.sync <+: left)
    (complete : format.header ≤ left.length) (bogus : format.Bogus (format.declared left)) :
    Cut format text (settled ++ [left]) (left.drop format.sync.length) where
  settles := by
    intro rest member
    rcases List.mem_append.mp member with earlier | last
    · exact cut.settles rest earlier
    · rw [List.mem_singleton.mp last]
      exact ⟨complete, .inl bogus⟩
  ending := (List.drop_suffix _ _).trans cut.ending
  resumes more := by
    have length : (left ++ more).length = left.length + more.length := List.length_append
    have same := format.declared_append left more complete
    rw [cut.resumes, judged_bogus (begins.trans (List.prefix_append _ _)) (by omega)
      (by rw [same]; exact bogus), List.drop_append_of_le_length begins.length_le]
    simp

theorem take (cut : Cut format text settled left) (begins : format.sync <+: left)
    (complete : format.header ≤ left.length) (admitted : ¬ format.Bogus (format.declared left))
    (whole : format.declared left ≤ left.length) :
    Cut format text (settled ++ [left]) (left.drop (format.declared left)) where
  settles := by
    intro rest member
    rcases List.mem_append.mp member with earlier | last
    · exact cut.settles rest earlier
    · rw [List.mem_singleton.mp last]
      exact ⟨complete, .inr whole⟩
  ending := (List.drop_suffix _ _).trans cut.ending
  resumes more := by
    have length : (left ++ more).length = left.length + more.length := List.length_append
    have same := format.declared_append left more complete
    rw [cut.resumes, judged_frame (begins.trans (List.prefix_append _ _)) (by omega)
      (by rw [same]; exact admitted) (by omega), same, List.drop_append_of_le_length whole]
    simp

theorem append {more kept : List α} {later : List (List α)} (first : Cut format text settled left)
    (second : Cut format (left ++ more) later kept) :
    Cut format (text ++ more) (settled.map (· ++ more) ++ later) kept where
  settles := by
    intro rest member
    rcases List.mem_append.mp member with earlier | last
    · obtain ⟨before, inside, rfl⟩ := List.mem_map.mp earlier
      exact settled_append (first.settles before inside) more
    · exact second.settles rest last
  ending := by
    obtain ⟨before, whole⟩ := first.ending
    exact second.ending.trans ⟨before, by rw [← whole, List.append_assoc]⟩
  resumes last := by
    rw [List.append_assoc, first.resumes, ← List.append_assoc left, second.resumes]
    simp

end Cut

/-! ## The deframer scans -/

theorem collect_silent {held rest : List α} (sound : format.Sound (.collecting (held ++ rest))) :
    format.deframer.run (.collecting held) rest =
      some (.collecting (held ++ rest), List.replicate rest.length none) := by
  induction rest generalizing held with
  | nil => rw [List.append_nil]; rfl
  | cons item rest ih =>
      rw [List.append_cons] at sound ⊢
      have received : format.receive (held ++ [item]) = (.collecting (held ++ [item]), none) := by
        unfold receive
        split
        · rfl
        · next complete =>
            have length : (held ++ [item] ++ rest).length = (held ++ [item]).length + rest.length :=
              List.length_append
            have same := format.declared_append (held ++ [item]) rest (by omega)
            have bounds := sound.2 (by omega)
            rw [same] at bounds
            rw [if_neg (by omega), if_pos (by omega)]
      have stepped : format.deframer.step (.collecting held) item =
          some (.collecting (held ++ [item]), none) := congrArg some received
      exact Machine.run_cons stepped (ih sound)

/-- A header that is rejected is lost with all its items. -/
theorem collect_rejected {held rest : List α} (begins : format.sync <+: held)
    (short : held.length < format.header) (complete : (held ++ rest).length = format.header)
    (bogus : format.Bogus (format.declared (held ++ rest))) :
    format.deframer.run (.collecting held) rest =
      some (.hunting 0, List.replicate rest.length none) := by
  rcases List.eq_nil_or_concat rest with rfl | ⟨before, last, rfl⟩
  · rw [List.append_nil] at complete
    omega
  · rw [List.concat_eq_append] at complete bogus ⊢
    rw [← List.append_assoc] at complete bogus
    rw [List.length_append, List.length_singleton] at complete
    have sound : format.Sound (.collecting (held ++ before)) :=
      ⟨begins.trans (List.prefix_append _ _), fun impossible => absurd impossible (by omega)⟩
    have received : format.receive (held ++ before ++ [last]) = (.hunting 0, none) := by
      unfold receive
      rw [List.length_append, List.length_singleton, if_neg (by omega)]
      exact if_pos bogus
    have stepped : format.deframer.step (.collecting (held ++ before)) last =
        some (.hunting 0, none) := congrArg some received
    rw [List.length_append, List.length_singleton, List.replicate_succ']
    exact Machine.run_concat (collect_silent sound) stepped

theorem gap_unfinished {gap left : List α}
    (quiet : Quiet format.sync [] (gap ++ format.sync.dropLast))
    (sound : format.Sound (.collecting left)) :
    ∃ final outputs, format.deframer.run (.hunting 0) (gap ++ left) = some (final, outputs) ∧
      delivered outputs = [] := by
  obtain ⟨more, split⟩ := sound.1
  rw [← split] at sound
  have ran := Machine.run_append (lock_on (tracks_nil format.sync_ne_nil) quiet)
    (collect_silent sound)
  rw [List.append_assoc, split] at ran
  refine ⟨_, _, ran, ?_⟩
  rw [delivered_append, delivered_replicate_none, delivered_replicate_none]
  rfl

/-- A deframer that rejects no header delivers what a scan of the whole text finds. -/
theorem deframer_scans {text : List α}
    (admitted : ∀ rest ∈ format.judged text, ¬ format.Bogus (format.declared rest)) :
    ∃ final outputs, format.deframer.run (.hunting 0) text = some (final, outputs) ∧
      delivered outputs = format.scan text := by
  induction length : text.length using Nat.strong_induction_on generalizing text with
  | _ size ih =>
      have start := tracks_nil format.sync_ne_nil
      cases search : find format.sync text with
      | none =>
          have absent := find_eq_none.mp search
          obtain ⟨later, ran, _⟩ := hunt start (quiet_of_absent absent)
          exact ⟨.hunting later, _, ran, by rw [delivered_replicate_none, scan_absent absent]⟩
      | some index =>
          have first := firstAt_of_find search
          have begins := first.1
          have bound := first.1.inside format.sync_ne_nil
          have positive := format.sync_pos
          have minimum := format.sync_lt_header
          -- The text is a gap and then what the scan judges first.
          let gap := text.take index
          let left := text.drop index
          have whole : gap ++ left = text := List.take_append_drop index text
          have count : gap.length = index := List.length_take_of_le (by omega)
          have leftCount : left.length = text.length - index := List.length_drop
          rw [scan_first first]
          rw [judged_first first] at admitted
          change ∀ rest ∈ format.judged left, _ at admitted
          change format.sync <+: left at begins
          have quiet : Quiet format.sync [] (gap ++ format.sync.dropLast) := by
            apply quiet_of_firstAt _ format.sync_ne_nil
            rw [count]
            obtain ⟨more, split⟩ := begins
            rw [← whole, ← split, ← List.append_assoc] at first
            exact first.of_append (by rw [List.length_append]; omega)
          by_cases finished : format.header ≤ left.length ∧ format.declared left ≤ left.length
          · obtain ⟨complete, held⟩ := finished
            have sound := admitted left (mem_judged begins complete)
            let frame := left.take (format.declared left)
            have valid : format.Valid frame := valid_take begins sound held
            have split : (gap ++ frame) ++ left.drop (format.declared left) = text := by
              rw [List.append_assoc, List.take_append_drop, whole]
            rw [judged_frame begins complete sound held] at admitted
            have shorter : (left.drop (format.declared left)).length < size := by
              have least := valid.complete
              rw [← valid.declares, declared_settled (List.take_prefix _ _) valid.complete] at least
              rw [List.length_drop]
              omega
            obtain ⟨final, outputs, ran, frames⟩ := ih _ shorter
              (fun rest member => admitted rest (List.mem_cons_of_mem _ member)) rfl
            have total := Machine.run_append (gap_frame start quiet valid) ran
            rw [split] at total
            refine ⟨final, _, total, ?_⟩
            rw [delivered_append, delivered_append, delivered_replicate_none, frames,
              scan_frame begins complete sound held]
            rfl
          · have sound : format.Sound (.collecting left) :=
              ⟨begins, fun complete => by
                have accepted := admitted left (mem_judged begins complete)
                simp only [Bogus, not_or] at accepted
                omega⟩
            obtain ⟨final, outputs, ran, silent⟩ := gap_unfinished quiet sound
            rw [whole] at ran
            exact ⟨final, outputs, ran, silent.trans (scan_unfinished sound).symm⟩

/-! ## Formats that differ in their limit -/

omit [DecidableEq α] in
def within (format : Format α) (limit : Nat) (room : format.header ≤ limit) : Format α :=
  { format with limit := limit, header_le_limit := room }

/-- Two limits that reject the same of the headers judged make for the same scan. -/
theorem judged_within {limit : Nat} {room : format.header ≤ limit} {text : List α}
    (agree : ∀ rest ∈ (format.within limit room).judged text,
      (format.Bogus (format.declared rest) ↔
        (format.within limit room).Bogus (format.declared rest))) :
    (format.within limit room).judged text = format.judged text := by
  induction length : text.length using Nat.strong_induction_on generalizing text with
  | _ size ih =>
      let wide := format.within limit room
      have positive := format.sync_pos
      have minimum := format.sync_lt_header
      by_cases begins : format.sync <+: text
      · by_cases complete : format.header ≤ text.length
        · have member : text ∈ wide.judged text := mem_judged begins complete
          have same := agree text member
          by_cases bogus : format.Bogus (format.declared text)
          · have expands : wide.judged text = text :: wide.judged (text.drop format.sync.length) :=
              judged_bogus begins complete (same.mp bogus)
            have shorter : (text.drop format.sync.length).length < size := by
              rw [List.length_drop]
              omega
            rw [expands] at agree ⊢
            rw [judged_bogus begins complete bogus,
              ih _ shorter (fun rest member => agree rest (List.mem_cons_of_mem _ member)) rfl]
          · have admitted := mt same.mpr bogus
            by_cases waiting : text.length < format.declared text
            · rw [judged_waiting begins complete bogus waiting]
              exact judged_waiting begins complete admitted waiting
            · have whole := Nat.le_of_not_lt waiting
              have expands : wide.judged text =
                  text :: wide.judged (text.drop (format.declared text)) :=
                judged_frame begins complete admitted whole
              have shorter : (text.drop (format.declared text)).length < size := by
                simp only [Bogus, not_or] at bogus
                rw [List.length_drop]
                omega
              rw [expands] at agree ⊢
              rw [judged_frame begins complete bogus whole,
                ih _ shorter (fun rest member => agree rest (List.mem_cons_of_mem _ member)) rfl]
        · rw [judged_short begins (Nat.lt_of_not_le complete)]
          exact judged_short begins (Nat.lt_of_not_le complete)
      · cases text with
        | nil =>
            rw [judged_absent (fun found => begins (List.infix_nil.mp found ▸ List.prefix_rfl))]
            exact judged_absent (fun found => begins (List.infix_nil.mp found ▸ List.prefix_rfl))
        | cons item rest =>
            have skips : wide.judged (item :: rest) = wide.judged rest := judged_skip begins
            rw [skips] at agree ⊢
            rw [judged_skip begins]
            exact ih rest.length (by rw [← length]; exact Nat.lt_succ_self _) agree rfl

theorem scan_within {limit : Nat} {room : format.header ≤ limit} {text : List α}
    (agree : ∀ rest ∈ (format.within limit room).judged text,
      (format.Bogus (format.declared rest) ↔
        (format.within limit room).Bogus (format.declared rest))) :
    (format.within limit room).scan text = format.scan text := by
  have same : ∀ rest ∈ (format.within limit room).judged text,
      (format.within limit room).frameAt rest = format.frameAt rest := by
    intro rest member
    exact if_congr (or_congr_left (agree rest member).symm) rfl rfl
  rw [scan, List.filterMap_congr same, judged_within agree, scan]

end PresenceNode.Library.Deframer.Format
