import Mathlib.Algebra.GroupWithZero.Nat
import PresenceNode.Ble.DumpFrame
import PresenceNode.Library.SelfDelimiting

/-!
# The dumps of a connection, as the app reads them

There is no framing per payload: the app concatenates, and the record count of
the header tells it where a frame ends.  Dumps may follow each other on a
connection, and the link may deliver what it was given in any pieces.
-/

namespace PresenceNode.Ble

open Library PresenceNode.Frame Chunking LittleEndian SelfDelimiting

/-- What the record count of the header says about the end of the frame. -/
def frameEnd (bytes : List UInt8) : Option Nat := (read16 bytes 6).map sntlFrameSize

/-- The records of a frame of this version whose checksum holds. -/
def receiveFrame (frame : List UInt8) : Option (List SntlRecord) :=
  (readFrame frame).bind fun contents =>
    if contents.magic = sntlMagic ∧ contents.version = sntlVersion ∧
        contents.crc = sntlCrc16 0xFFFF (frame.take (frame.length - sntlCrcSize)) then
      some contents.records
    else none

/-- The payloads that the link has accepted, up to the first that it refuses. -/
def acceptedFrom (env : DumpEnv) : Nat → List (List UInt8) → List (List UInt8)
  | _, [] => []
  | index, call :: rest =>
      if accepts env index then call :: acceptedFrom env (index + 1) rest else []

structure Download where
  env : DumpEnv
  firstSeq : UInt32
  buf : Vector UInt8 dumpBufSize

namespace Download

def sent (download : Download) : Option (List (List UInt8)) :=
  (dumpRun download.env download.firstSeq download.buf).map (acceptedFrom download.env 0)

def range (download : Download) : UInt16 × UInt32 :=
  sntlDumpRange download.firstSeq download.env.oldest download.env.next

def records (download : Download) : List SntlRecord :=
  dumpedRecords download.env download.range.2 download.range.1.toNat

def size (download : Download) : Nat := sntlFrameSize download.range.1

def Accepted (download : Download) : Prop :=
  ∀ index, notifyChunk (download.env.attempts index) = some true

end Download

theorem frameEnd_lawful : Lawful frameEnd where
  stable := by
    intro front n told more
    obtain ⟨count, found, same⟩ := Option.map_eq_some_iff.mp told
    rw [frameEnd, read16_append found more]
    exact congrArg some same
  positive := by
    intro front n told
    obtain ⟨count, _, rfl⟩ := Option.map_eq_some_iff.mp told
    exact Nat.succ_pos _

theorem acceptedFrom_front (env : DumpEnv) (index : Nat) (calls : List (List UInt8)) :
    acceptedFrom env index calls <+: calls := by
  induction calls generalizing index with
  | nil => exact List.prefix_rfl
  | cons call rest ih =>
      rw [acceptedFrom]
      split
      · exact List.cons_prefix_cons.mpr ⟨rfl, ih (index + 1)⟩
      · exact List.nil_prefix

theorem acceptedFrom_all {env : DumpEnv} (all : ∀ index, accepts env index = true) (index : Nat)
    (calls : List (List UInt8)) : acceptedFrom env index calls = calls := by
  induction calls generalizing index with
  | nil => rfl
  | cons call rest ih => rw [acceptedFrom, if_pos (all index), ih]

/-- A dump sends a frame of its records under the id of the node, or the beginning of one. -/
theorem Download.sends_contents (download : Download) :
    ∃ payloads frame contents, download.sent = some payloads ∧ payloads.flatten <+: frame ∧
      (download.Accepted → payloads.flatten = frame) ∧ Whole frameEnd frame ∧
      frame.length = download.size ∧ readFrame frame = some contents ∧
      contents.deviceId = paddedId download.env ∧
      receiveFrame frame = some contents.records ∧ contents.records = download.records := by
  obtain ⟨header, encoded, length, sent⟩ := dumpRun_send download.env
    (show sntlDumpRange _ _ _ = (download.range.1, download.range.2) from rfl) download.buf
  have total : download.records.length = download.range.1.toNat := by
    simp [records, dumpedRecords_eq]
  obtain ⟨size, contents⟩ := readFrame_whole encoded (deviceIdField_defined download.env)
    (paddedId_length download.env) total
  have follows := (Follows.start (accepts download.env) header).appendAll
    (dumpChunk download.env.mtu).toNat (dumpItems header download.records)
  rw [dumpItems_text] at follows
  obtain ⟨begins, _, whole⟩ := follows.finished
  refine ⟨_, wholeFrame header download.records, _, congrArg _ sent, ?_, ?_, ?_, size, contents,
    rfl, ?_, rfl⟩
  · exact (acceptedFrom_front _ _ _).flatten.trans begins
  · intro accepted
    have all : ∀ index, accepts download.env index = true :=
      fun index => accepts_iff.mpr (accepted index)
    rw [acceptedFrom_all all]
    exact whole fun index _ => all index
  · obtain ⟨field, _, text⟩ := header_fields encoded
    have count : read16 header 6 = some download.range.1 := by
      rw [text]
      exact congrArg some (join16_bytes _)
    rw [Whole, size, frameEnd, wholeFrame, List.append_assoc, read16_append count]
    rfl
  · rw [receiveFrame, contents, size]
    exact if_pos ⟨rfl, rfl, rfl⟩

/-- A dump sends a frame that the app reads as its records, or the beginning of one. -/
theorem Download.sends (download : Download) :
    ∃ payloads frame, download.sent = some payloads ∧ payloads.flatten <+: frame ∧
      (download.Accepted → payloads.flatten = frame) ∧ Whole frameEnd frame ∧
      frame.length = download.size ∧ receiveFrame frame = some download.records := by
  obtain ⟨payloads, frame, contents, sent, begins, all, whole, size, _, _, received, same⟩ :=
    download.sends_contents
  exact ⟨payloads, frame, sent, begins, all, whole, size, same ▸ received⟩

/-- Dumps that are accepted send their frames, one after the other. -/
theorem sent_frames {downloads : List Download}
    (accepted : ∀ download ∈ downloads, download.Accepted) :
    ∃ payloads, ∃ frames : List (List UInt8), downloads.mapM Download.sent = some payloads ∧
      payloads.flatten.flatten = frames.flatten ∧ (∀ frame ∈ frames, Whole frameEnd frame) ∧
      frames.map List.length = downloads.map Download.size ∧
      frames.map receiveFrame = downloads.map fun download => some download.records := by
  induction downloads with
  | nil => exact ⟨[], [], rfl, rfl, by simp, rfl, rfl⟩
  | cons download rest ih =>
      obtain ⟨payloads, frames, sent, text, whole, sizes, read⟩ :=
        ih fun other member => accepted other (List.mem_cons_of_mem _ member)
      obtain ⟨first, frame, sentFirst, _, all, wholeFirst, size, readFirst⟩ := download.sends
      refine ⟨first :: payloads, frame :: frames, ?_, ?_, ?_, ?_, ?_⟩
      · rw [List.mapM_cons, sentFirst, sent]
        rfl
      · rw [List.flatten_cons, List.flatten_append, text, List.flatten_cons,
          all (accepted download (List.mem_cons_self ..))]
      · intro other member
        rcases List.mem_cons.mp member with rfl | later
        · exact wholeFirst
        · exact whole other later
      · rw [List.map_cons, List.map_cons, size, sizes]
      · rw [List.map_cons, List.map_cons, readFirst, read]

/--
Whatever the pieces in which the bytes of a connection arrive, and wherever
they end, the app reads the dumps one by one: a frame is taken off exactly when
its last byte has arrived, and its records are those of its dump.  The last
dump may have been broken off by the link.
-/
theorem session_frames (downloads : List Download) (last : Download)
    (accepted : ∀ download ∈ downloads, download.Accepted) :
    ∃ payloads, (downloads ++ [last]).mapM Download.sent = some payloads ∧
      ∀ pieces : List (List UInt8), pieces.flatten <+: payloads.flatten.flatten →
        ∃ rest made, (receiver frameEnd).run [] pieces = some (rest, made) ∧
          made.flatten.length ≤ (downloads ++ [last]).length ∧
          (∀ n ≤ (downloads ++ [last]).length, n ≤ made.flatten.length ↔
            (((downloads ++ [last]).take n).map Download.size).sum ≤ pieces.flatten.length) ∧
          made.flatten.map receiveFrame =
            ((downloads ++ [last]).take made.flatten.length).map fun download =>
              some download.records := by
  obtain ⟨payloads, frames, sent, text, whole, sizes, read⟩ := sent_frames accepted
  obtain ⟨cut, frame, sentLast, begins, _, wholeLast, sizeLast, readLast⟩ := last.sends
  have all : ∀ item ∈ frames ++ [frame], Whole frameEnd item := by
    intro item member
    rcases List.mem_append.mp member with earlier | final
    · exact whole item earlier
    · rw [List.mem_singleton.mp final]
      exact wholeLast
  have sizesAll : (frames ++ [frame]).map List.length = (downloads ++ [last]).map Download.size := by
    rw [List.map_append, List.map_append, sizes, List.map_singleton, List.map_singleton, sizeLast]
  have readAll : (frames ++ [frame]).map receiveFrame =
      (downloads ++ [last]).map fun download => some download.records := by
    rw [List.map_append, List.map_append, read, List.map_singleton, List.map_singleton, readLast]
  have sentAll : (downloads ++ [last]).mapM Download.sent = some (payloads ++ [cut]) := by
    simp [List.mapM_append, sent, sentLast]
  refine ⟨payloads ++ [cut], sentAll, ?_⟩
  intro pieces arrived
  have stream : (payloads ++ [cut]).flatten.flatten <+: (frames ++ [frame]).flatten := by
    rw [List.flatten_append, List.flatten_append, text, List.flatten_append, List.flatten_singleton,
      List.flatten_singleton]
    exact (List.prefix_append_right_inj _).mpr begins
  obtain ⟨before, after, rest, split, splits, bytes, ends⟩ :=
    splits_stream frameEnd_lawful all (arrived.trans stream)
  obtain ⟨final, made, ran⟩ := receiver_run frameEnd [] pieces
  obtain ⟨same, _⟩ := (receiver_splits frameEnd_lawful ran).unique splits
  have count : (frames ++ [frame]).length = (downloads ++ [last]).length := by
    have lengths := congrArg List.length sizesAll
    rwa [List.length_map, List.length_map] at lengths
  refine ⟨final, made, ran, ?_, ?_, ?_⟩
  · rw [same, ← count, split, List.length_append]
    exact Nat.le_add_right _ _
  · intro n most
    rw [← count, split] at most
    rw [same, bytes, taken_iff (fun item first => (ends item first).2) most, ← split,
      List.length_append, List.length_flatten, List.map_take, List.map_take, sizesAll]
  · have taken : (frames ++ [frame]).take before.length = before := by rw [split, List.take_left]
    rw [same, List.map_take, ← readAll, ← List.map_take, taken]

/-- One record over the smallest link, sent twice; the second dump is refused its second payload. -/
def wholeDownload : Download := ⟨smallestLink, 0, Vector.replicate dumpBufSize 0⟩

def brokenDownload : Download :=
  { wholeDownload with
    env := { smallestLink with
      attempts := fun index => [⟨if index = 1 then .refused else .accepted, true⟩] } }

theorem wholeDownload_accepted : ∀ download ∈ [wholeDownload], download.Accepted := by
  intro download member index
  rw [List.mem_singleton.mp member]
  rfl

/-- The second frame never ends, although its header has arrived. -/
theorem session_frames_broken :
    ∃ payloads, ([wholeDownload] ++ [brokenDownload]).mapM Download.sent = some payloads ∧
      ∃ rest made, (receiver frameEnd).run [] payloads.flatten = some (rest, made) ∧
        made.flatten.length = 1 ∧
        made.flatten.map receiveFrame = [some [recycledRecord 0]] := by
  obtain ⟨payloads, sent, reads⟩ := session_frames [wholeDownload] brokenDownload
    wholeDownload_accepted
  have lengths : (([wholeDownload] ++ [brokenDownload]).mapM Download.sent).map
      (fun payloads => payloads.flatten.flatten.length) = some 58 := by decide +kernel
  rw [sent, Option.map_some, Option.some.injEq] at lengths
  obtain ⟨rest, made, ran, most, ended, read⟩ := reads payloads.flatten List.prefix_rfl
  rw [lengths] at ended
  have one : made.flatten.length = 1 :=
    Nat.le_antisymm (Nat.le_of_not_lt fun two => absurd ((ended 2 (Nat.le_refl 2)).mp two) (by decide))
      ((ended 1 (by decide)).mpr (by decide))
  refine ⟨payloads, sent, rest, made, ran, one, ?_⟩
  rw [read, one]
  decide +kernel

/-! ## The number of payloads -/

/-- A way to cut items into payloads that fit a chunk, no item over two of them. -/
structure FitsChunk (items : List (List UInt8)) (chunk : Nat) (groups : List (List (List UInt8))) :
    Prop where
  all : groups.flatten = items
  fits : ∀ group ∈ groups, group.flatten.length ≤ chunk

/--
A dump makes do with as few payloads as any way to cut its header, its records
and its checksum, none of them over two payloads: its own payloads are such a
cut when the link accepts them and a record fits, and no such cut has fewer
than the dump has calls, accepted or not.
-/
theorem dumpRun_fewest (env : DumpEnv) (firstSeq : UInt32) (buf : Vector UInt8 dumpBufSize) :
    ∃ count start header calls,
      sntlDumpRange firstSeq env.oldest env.next = (count, start) ∧
      sntlEncodeHeader count env.deviceId.toList = some header ∧
      dumpRun env firstSeq buf = some calls ∧
      (27 ≤ env.mtu.toNat → (∀ index, notifyChunk (env.attempts index) = some true) →
        ∃ groups, calls = groups.map List.flatten ∧
          FitsChunk (header :: dumpItems header (dumpedRecords env start count.toNat))
            (dumpChunk env.mtu).toNat groups) ∧
      ∀ groups, FitsChunk (header :: dumpItems header (dumpedRecords env start count.toNat))
        (dumpChunk env.mtu).toNat groups → calls.length ≤ groups.length := by
  obtain ⟨count, start, range⟩ :
      ∃ count start, sntlDumpRange firstSeq env.oldest env.next = (count, start) := ⟨_, _, rfl⟩
  obtain ⟨header, encoded, length, sent⟩ := dumpRun_send env range buf
  refine ⟨count, start, header, _, range, encoded, sent, fun large accepted => ?_,
    fun groups cut => sent_le_groups (accepts env) cut.all cut.fits⟩
  have all : ∀ index, accepts env index = true := fun index => accepts_iff.mpr (accepted index)
  have wide : 24 ≤ (dumpChunk env.mtu).toNat := by
    rw [dumpChunk_toNat, if_pos (by omega)]
    omega
  have sixteen : sntlHeaderSize = 16 := rfl
  have twentyFour : sntlRecordSize = 24 := rfl
  let items := dumpItems header (dumpedRecords env start count.toNat)
  have cuts := (Cuts.start header).appendAll (accepts env) (dumpChunk env.mtu).toNat items
  have follows := (Follows.start (accepts env) header).appendAll (dumpChunk env.mtu).toNat items
  have text : header ++ items.flatten = ([header] ++ items).flatten := by simp
  rw [text] at follows
  obtain ⟨groups, whole, same⟩ := cuts.finished all follows
  have opened : Within (dumpChunk env.mtu).toNat (.opened [] header) := ⟨nofun, by omega, by omega⟩
  have inside : ∀ item ∈ items, 1 ≤ item.length ∧ item.length ≤ (dumpChunk env.mtu).toNat := by
    intro item member
    have sizes := dumpItems_sizes _ _ item member
    omega
  have bounds := (opened.appendAll (accepts env) (Nat.le_refl _) inside).sent_bound (accepts env)
  refine ⟨groups, same.symm, whole, fun group member => ?_⟩
  rw [← same] at bounds
  exact (bounds _ (List.mem_map_of_mem member)).2

def wideLink : DumpEnv := { smallestLink with mtu := 247, next := 12 }

theorem dumpRun_fewest_wide :
    27 ≤ wideLink.mtu.toNat ∧ (∀ index, notifyChunk (wideLink.attempts index) = some true) ∧
      ∃ header calls groups, dumpRun wideLink 0 (Vector.replicate dumpBufSize 0) = some calls ∧
        calls.map List.length = [232, 74] ∧ calls = groups.map List.flatten ∧
        FitsChunk (header :: dumpItems header (dumpedRecords wideLink 0 12)) 244 groups ∧
        ∀ others, FitsChunk (header :: dumpItems header (dumpedRecords wideLink 0 12)) 244 others →
          2 ≤ others.length := by
  obtain ⟨count, start, header, calls, range, _, ran, attained, least⟩ :=
    dumpRun_fewest wideLink 0 (Vector.replicate dumpBufSize 0)
  have whole : sntlDumpRange 0 wideLink.oldest wideLink.next = (12, 0) := by decide +kernel
  cases range.symm.trans whole
  have chunk : (dumpChunk wideLink.mtu).toNat = 244 := by decide +kernel
  have lengths : (dumpRun wideLink 0 (Vector.replicate dumpBufSize 0)).map
      (fun calls => calls.map List.length) = some [232, 74] := by decide +kernel
  rw [ran, Option.map_some, Option.some.injEq] at lengths
  obtain ⟨groups, same, cut⟩ := attained (by decide) fun _ => rfl
  rw [chunk] at cut least
  have two : calls.length = 2 := by
    rw [← List.length_map List.length, lengths]
    rfl
  exact ⟨by decide, fun _ => rfl, header, calls, groups, ran, lengths, same, cut,
    fun others fits => two ▸ least others fits⟩

end PresenceNode.Ble
