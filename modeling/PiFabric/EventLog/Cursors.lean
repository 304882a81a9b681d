import PiFabric.EventLog.Tail
import PiFabric.Foundation.JsonRoundTrip

/-! The cursors of the live log: `tail` and `latestCursor` pack an offset under its generation, to
the base 2^32. Only the size at which the log is compacted is held below that base.
-/

namespace PiFabric.EventLog

open LineLog JsString

/-- What `#decodeCursor` finds; its generation is -1 for a number that is no cursor. -/
structure DecodedCursor where
  generation : Int
  offset : Nat
deriving DecidableEq

/-- `#decodeCursor` of a whole number. -/
def decodeCursor (cursor : Int) : DecodedCursor :=
  if cursor < 0 ∨ (Double.exactLimit : Int) ≤ cursor then ⟨-1, 0⟩
  else ⟨cursor / cursorOffsetBase, (cursor % cursorOffsetBase).toNat⟩

def Faithful (generation offset : Nat) : Prop :=
  ∀ cursor, encodeCursor generation offset = some cursor →
    decodeCursor cursor = ⟨generation, offset⟩

theorem decodeCursor_of_lt {cursor : Nat} (safe : cursor < Double.exactLimit)
    : decodeCursor cursor = ⟨(cursor / cursorOffsetBase : Nat), cursor % cursorOffsetBase⟩ := by
  rw [decodeCursor, if_neg (by omega)]
  simp only [DecodedCursor.mk.injEq]
  omega

theorem decodedOffset_eq (generation : Nat) (file : Bytes) (cursor : Nat)
    : decodedOffset generation file cursor
      = if (decodeCursor cursor).generation = generation then
          min (decodeCursor cursor).offset file.length
        else 0 := by
  by_cases safe : cursor < Double.exactLimit
  · simp only [decodedOffset, decodeCursor_of_lt safe, safe, decide_true, Bool.true_and,
      beq_iff_eq, Int.ofNat_inj]
  · have none_ : decodeCursor cursor = ⟨-1, 0⟩ := if_pos (by omega)
    have other : (-1 : Int) ≠ generation := by omega
    rw [decodedOffset, if_neg (by simp [safe]), none_, if_neg other]

variable {generation offset : Nat}

theorem faithful_iff
    : Faithful generation offset
      ↔ offset < cursorOffsetBase
        ∨ Double.exactLimit ≤ generation * cursorOffsetBase + offset := by
  have positive : 0 < cursorOffsetBase := by decide
  by_cases safe : generation * cursorOffsetBase + offset < Double.exactLimit
  · have decoded := decodeCursor_of_lt safe
    have quotient : (generation * cursorOffsetBase + offset) / cursorOffsetBase
        = generation + offset / cursorOffsetBase := by
      rw [Nat.mul_comm, Nat.mul_add_div positive]
    have residue : (generation * cursorOffsetBase + offset) % cursorOffsetBase
        = offset % cursorOffsetBase := by
      rw [Nat.mul_comm, Nat.mul_add_mod]
    rw [quotient, residue] at decoded
    constructor
    · intro faithful
      have back := faithful _ (encodeCursor_eq safe)
      rw [decoded, DecodedCursor.mk.injEq] at back
      exact Or.inl (back.2 ▸ Nat.mod_lt offset positive)
    · rintro (below | refused)
      · intro cursor encoded
        rw [encodeCursor_eq safe] at encoded
        obtain rfl := Option.some.inj encoded
        rw [decoded, Nat.div_eq_of_lt below, Nat.mod_eq_of_lt below, Nat.add_zero]
      · exact absurd safe (not_lt.mpr refused)
  · refine iff_of_true (fun cursor encoded => ?_) (Or.inr (not_lt.mp safe))
    rw [encodeCursor, if_neg safe] at encoded
    cases encoded

/-- The offsets that a call of `tail` encodes: the ends of the lines of its events, and the end of
what it consumed.
-/
def tailOffsets (maxEventBytes generation : Nat) (file : Bytes) (limit cursor : Nat) : List Nat :=
  let position := tailPosition generation file cursor
  let chunkBytes := min (file.length - position) (max (maxEventBytes + 1) eventReadPageBytes)
  let read := tailLines limit position [] (split ((file.drop position).take chunkBytes)).1
  read.1.map Prod.snd ++ [read.2]

/-- The cursors of a call of `tail` encode these offsets; it throws where one has no cursor. -/
theorem tail_encodes (maxEventBytes generation : Nat) (file : Bytes) (limit cursor : Nat)
    : (tail maxEventBytes generation file limit cursor).map
        (fun result => result.events.map Prod.snd ++ [result.nextOffset])
      = (tailOffsets maxEventBytes generation file limit cursor).mapM
          (encodeCursor generation) := by
  have each (events : List (MeshEvent × Nat))
      : (events.mapM fun event =>
          (encodeCursor generation event.2).map fun cursor => (event.1, cursor)).map
          (List.map Prod.snd)
        = (events.map Prod.snd).mapM (encodeCursor generation) := by
    induction events with
    | nil => rfl
    | cons event rest ih =>
        rw [List.map_cons, List.mapM_cons, List.mapM_cons, ← ih]
        cases encodeCursor generation event.2 with
        | none => rfl
        | some cursor =>
            cases rest.mapM fun event =>
              (encodeCursor generation event.2).map fun cursor => (event.1, cursor) with
            | none => rfl
            | some events => rfl
  simp only [tail, tailOffsets]
  generalize tailLines limit _ [] _ = read
  rw [List.mapM_append, ← each]
  cases read.1.mapM fun event =>
    (encodeCursor generation event.2).map fun cursor => (event.1, cursor) with
  | none => rfl
  | some events =>
      cases other : encodeCursor generation read.2 with
      | none => simp [other]
      | some cursor => simp [other]

/-- `completeOffset` of `latestCursor`: the end of the last complete line in the last bytes. -/
def completeOffset (maxEventBytes : Nat) (file : Bytes) : Nat :=
  if file.isEmpty then 0
  else if file.getLast? == some newline then file.length
  else
    let readBytes := min file.length (maxEventBytes + 1)
    let complete := (split (file.drop (file.length - readBytes))).1
    if complete.isEmpty then 0 else file.length - readBytes + (join complete).length

/-- A boundary in the log: the sequence and the id of its last event. -/
structure Boundary where
  sequence : Nat
  id : JsString

def boundaryIn (line : Bytes) : Option Boundary :=
  (eventIn (Utf8.decode line)).bind fun event =>
    match event.value.field? "id" with
    | some (.string id) =>
        if event.sequence.den = 1 ∧ 0 < event.sequence.num
            ∧ event.sequence.num < Double.exactLimit then
          some ⟨event.sequence.num.toNat, id⟩
        else none
    | _ => none

/-- `last` of `latestCursor`, from the last line before an offset. A line whose start was not read
is none.
-/
def lastBoundary (maxEventBytes : Nat) (file : Bytes) (offset : Nat) : Option Boundary :=
  let readBytes := min offset (maxEventBytes + 2)
  let lines := (split ((file.drop (offset - readBytes)).take readBytes)).1
  if 1 < lines.length ∨ readBytes = offset then lines.getLast?.bind boundaryIn else none

structure LatestCursor where
  cursor : Nat
  last : Option Boundary

def latestCursor (maxEventBytes generation : Nat) (file : Bytes) : Option LatestCursor :=
  let offset := completeOffset maxEventBytes file
  let last := if offset = 0 then some ⟨0, []⟩ else lastBoundary maxEventBytes file offset
  (encodeCursor generation offset).map fun cursor => { cursor, last }

theorem latestCursor_encodes (maxEventBytes generation : Nat) (file : Bytes)
    : (latestCursor maxEventBytes generation file).map LatestCursor.cursor
      = encodeCursor generation (completeOffset maxEventBytes file) := by
  rw [latestCursor, Option.map_map]
  exact Option.map_id'

/-- The offsets that a reader may encode, whatever its cursor and its limit. -/
inductive Passed (maxEventBytes : Nat) (file : Bytes) (generation : Nat) : Nat → Prop where
  | tail {offset : Nat} (limit cursor : Nat)
      (read : offset ∈ tailOffsets maxEventBytes generation file limit cursor)
    : Passed maxEventBytes file generation offset
  | latestCursor : Passed maxEventBytes file generation (completeOffset maxEventBytes file)

/-- Every offset that a reader of the log encodes under any generation is refused or comes back. -/
def Decodes (maxEventBytes : Nat) (file : Bytes) : Prop :=
  ∀ generation offset, Passed maxEventBytes file generation offset → Faithful generation offset

/-- `latestCursor` ends where a repair would cut. -/
theorem completeOffset_eq (maxEventBytes : Nat) (file : Bytes)
    : completeOffset maxEventBytes file = (repairEventLog maxEventBytes file).length := by
  rw [completeOffset, repairEventLog]
  cases empty : file.isEmpty with
  | true => rw [List.isEmpty_iff.mp empty]; rfl
  | false =>
      cases ended : file.getLast? == some newline with
      | true => rfl
      | false =>
          simp only [Bool.false_eq_true, if_false, Bool.or_false]
          split
          · rfl
          · have inside := length_split
              (file.drop (file.length - min file.length (maxEventBytes + 1)))
            rw [List.length_drop] at inside
            rw [List.length_take]
            omega

variable {maxEventBytes : Nat}

theorem Content.completeOffset_file (content : Content maxEventBytes)
    : completeOffset maxEventBytes content.file = (join content.lines).length := by
  rw [completeOffset_eq, content.repair]

theorem Content.le_of_mem_tailOffsets (content : Content maxEventBytes) {limit cursor : Nat}
    (member : offset ∈ tailOffsets maxEventBytes generation content.file limit cursor)
    : offset ≤ (join content.lines).length := by
  obtain ⟨before, after, parts, position⟩ := content.position generation cursor
  obtain ⟨held, behind, parts', _, buffer⟩ := content.buffer parts
  obtain ⟨here, others, parts'', _, read⟩ := @tailLines_eq limit (join before).length [] held
  have total : (join before).length + (join here).length ≤ (join content.lines).length := by
    simp only [parts, parts', parts'', join_append, List.length_append]
    omega
  rw [tailOffsets, position, buffer, read, List.nil_append] at member
  rcases List.mem_append.mp member with ending | last
  · obtain ⟨event, inside, rfl⟩ := List.mem_map.mp ending
    have bound := (ending_of_mem_committedFrom inside).2
    omega
  · rw [List.mem_singleton.mp last]
    exact total

theorem Content.le_of_passed (content : Content maxEventBytes)
    (passed : Passed maxEventBytes content.file generation offset)
    : offset ≤ (join content.lines).length := by
  cases passed with
  | tail limit cursor read => exact content.le_of_mem_tailOffsets read
  | latestCursor => exact content.completeOffset_file.le

/-- Readers of a log decode what they encoded exactly where its complete lines end below the base.
-/
theorem Content.decodes_iff (content : Content maxEventBytes)
    (small : content.file.length < Double.exactLimit)
    : Decodes maxEventBytes content.file
      ↔ completeOffset maxEventBytes content.file < cursorOffsetBase := by
  rw [content.completeOffset_file]
  have inside : (join content.lines).length ≤ content.file.length := by
    rw [Content.file, List.length_append]
    omega
  constructor
  · intro decodes
    have faithful := decodes 0 _ .latestCursor
    rw [content.completeOffset_file, faithful_iff] at faithful
    omega
  · intro below generation offset passed
    have bound := content.le_of_passed passed
    exact faithful_iff.mpr (Or.inl (by omega))

/-- The live log and the generation on disk. A compaction renames the log before it writes the next
generation; `renamed` holds between the two.
-/
structure Live where
  log : Bytes
  generation : Nat
  renamed : Bool

/-- The runs of the publishers of a log. A step is a write that a reader may see, as readers take no
lock. A compaction that throws takes no step, and the event it was to end with stays appended.
Appends of bytes to a repaired log are those that `allowed` admits.
-/
inductive Run (limits : Limits) (allowed : Bytes → Bytes → Prop) : Live → Prop where
  | empty : Run limits allowed ⟨[], 0, false⟩
  /-- A line is appended, or the part of it that was written before a failure. -/
  | append {live : Live} {line : Line} {written : Bytes} (before : Run limits allowed live)
      (locked : live.renamed = false) (fits : line.val.length ≤ limits.maxEventBytes)
      (part : written <+: line.val ++ [newline])
      (room : allowed (repairEventLog limits.maxEventBytes live.log) written)
    : Run limits allowed
        { live with log := repairEventLog limits.maxEventBytes live.log ++ written }
  /-- A repair before an append. -/
  | repair {live : Live} (before : Run limits allowed live) (locked : live.renamed = false)
    : Run limits allowed { live with log := repairEventLog limits.maxEventBytes live.log }
  /-- A compaction of a log to which settling other intents added `settled`. -/
  | compact {live : Live} {log settled : Bytes} (before : Run limits allowed live)
      (locked : live.renamed = false) (held : live.log = log ++ settled)
      (ended : endsLine log log.length = true) (long : limits.maxEventLogBytes < log.length)
    : Run limits allowed { live with log := compactEventLog limits settled log, renamed := true }
  /-- The next generation is written. -/
  | advance {live : Live} (before : Run limits allowed live) (between : live.renamed = true)
    : Run limits allowed { live with generation := live.generation + 1, renamed := false }
  /-- It is not, as the publisher failed or died. -/
  | abandon {live : Live} (before : Run limits allowed live) (between : live.renamed = true)
    : Run limits allowed { live with renamed := false }

/-- An append that leaves the log shorter than the base. -/
def Room (log written : Bytes) : Prop :=
  log.length + written.length < cursorOffsetBase

variable {limits : Limits} {allowed : Bytes → Bytes → Prop} {live : Live}

theorem Content.of_subset (content : Content maxEventBytes) {lines : List Bytes}
    (subset : lines ⊆ content.lines)
    : ∃ other : Content maxEventBytes, join lines = other.file :=
  ⟨⟨lines, [], fun line member => content.clean line (subset member),
    fun line member => content.fits line (subset member), List.not_mem_nil, Nat.zero_le _⟩,
    (List.append_nil _).symm⟩

theorem Content.appended (content : Content maxEventBytes) {line : Line} {written : Bytes}
    (fits : line.val.length ≤ maxEventBytes) (part : written <+: line.val ++ [newline])
    : ∃ other : Content maxEventBytes, join content.lines ++ written = other.file := by
  rcases List.prefix_concat_iff.mp part with rfl | torn
  · refine ⟨⟨content.lines ++ [line.val], [], ?_, ?_, List.not_mem_nil, Nat.zero_le _⟩, ?_⟩
    · intro other member
      rcases List.mem_append.mp member with old | new
      · exact content.clean other old
      · rw [List.mem_singleton.mp new]
        exact line.2
    · intro other member
      rcases List.mem_append.mp member with old | new
      · exact content.fits other old
      · rw [List.mem_singleton.mp new]
        exact fits
    · simp [Content.file, join_append]
  · exact ⟨⟨content.lines, written, content.clean, content.fits,
      fun member => line.2 (torn.subset member), torn.length_le.trans fits⟩, rfl⟩

/-- A compaction leaves some of the lines that were there. -/
theorem Content.compacted (content : Content limits.maxEventBytes) {log settled : Bytes}
    (held : content.file = log ++ settled) (ended : endsLine log log.length = true)
    (long : limits.maxEventLogBytes < log.length)
    : ∃ lines, lines ⊆ content.lines ∧ compactEventLog limits settled log = join lines
      ∧ (join lines).length ≤ log.length := by
  have below := limits.retained_lt
  have positive := limits.retained_pos
  have last : content.file[log.length - 1]? = some newline := by
    rw [held, List.getElem?_append_left (by omega)]
    rw [endsLine, Bool.or_eq_true, beq_iff_eq, beq_iff_eq] at ended
    exact ended.resolve_left (by omega)
  obtain ⟨before, after, parts, size⟩ := line_end_of_newline content.clean content.unended last
  have whole : log = join before := by
    have front : join before <+: content.file := by
      rw [Content.file, parts, join_append, List.append_assoc]
      exact List.prefix_append _ _
    exact (List.prefix_of_prefix_length_le (held ▸ List.prefix_append log settled) front
      (by omega)).eq_of_length (by omega)
  have clean : ∀ line ∈ before, newline ∉ line := fun line member =>
    content.clean line (parts ▸ List.mem_append_left _ member)
  obtain ⟨dropped, _, cut, _, _⟩ := afterNewline_drop_join clean
    (show log.length - limits.retainedEventLogBytes < (join before).length by omega)
  refine ⟨before.drop (dropped + 1), fun line member => ?_, ?_, ?_⟩
  · rw [parts]
    exact List.mem_append_left _ (List.mem_of_mem_drop member)
  · rw [compactEventLog_eq long, ← cut, ← whole]
  · rw [whole]
    conv => rhs; rw [← List.take_append_drop (dropped + 1) before, join_append]
    rw [List.length_append]
    omega

/-- A log of a run holds complete lines and at most a torn one after them, by induction along the
run.
-/
theorem Run.content (run : Run limits allowed live)
    : ∃ content : Content limits.maxEventBytes, live.log = content.file := by
  induction run with
  | empty =>
      exact ⟨⟨[], [], nofun, nofun, List.not_mem_nil, Nat.zero_le _⟩, rfl⟩
  | append before locked fits part room ih =>
      obtain ⟨content, same⟩ := ih
      dsimp only
      rw [same, content.repair]
      exact content.appended fits part
  | repair before locked ih =>
      obtain ⟨content, same⟩ := ih
      dsimp only
      rw [same, content.repair]
      exact content.of_subset (List.Subset.refl _)
  | compact before locked held ended long ih =>
      obtain ⟨content, same⟩ := ih
      obtain ⟨lines, subset, left, _⟩ := content.compacted (same ▸ held) ended long
      dsimp only
      rw [left]
      exact content.of_subset subset
  | advance before between ih => exact ih
  | abandon before between ih => exact ih

/-- Where every append has room, the log stays shorter than the base, by induction along the run. -/
theorem Run.length_lt (run : Run limits Room live)
    : live.log.length < cursorOffsetBase := by
  induction run with
  | empty => decide
  | append before locked fits part room ih =>
      rw [List.length_append]
      exact room
  | @repair live before locked ih =>
      obtain ⟨content, same⟩ := before.content
      dsimp only
      rw [same, content.repair]
      rw [same, Content.file, List.length_append] at ih
      omega
  | compact before locked held ended long ih =>
      obtain ⟨content, same⟩ := before.content
      obtain ⟨lines, _, left, fewer⟩ := content.compacted (same ▸ held) ended long
      dsimp only
      rw [left]
      rw [held, List.length_append] at ih
      omega
  | advance before between ih => exact ih
  | abandon before between ih => exact ih

/-- Where every append has room, readers decode what they encoded in every state. Without that they
do in exactly the states whose complete lines end below the base.
-/
theorem cursors_decode (limits : Limits)
    : (∀ live, Run limits Room live → Decodes limits.maxEventBytes live.log)
      ∧ ∀ live, Run limits (fun _ _ => True) live → live.log.length < Double.exactLimit →
        (Decodes limits.maxEventBytes live.log
          ↔ completeOffset limits.maxEventBytes live.log < cursorOffsetBase) := by
  constructor
  · intro live run
    have short := run.length_lt
    obtain ⟨content, same⟩ := run.content
    have base : cursorOffsetBase ≤ Double.exactLimit := by decide
    rw [same] at short ⊢
    refine (content.decodes_iff (by omega)).mpr ?_
    rw [content.completeOffset_file]
    rw [Content.file, List.length_append] at short
    omega
  · intro live run small
    obtain ⟨content, same⟩ := run.content
    rw [same] at small ⊢
    exact content.decodes_iff small

def defaultLimits : Limits :=
  .of (256 * 1024) ⟨none, none⟩

def eventFields : JsString :=
  lit (",\"topic\":\"t\",\"kind\":\"message\","
    ++ "\"from\":\x7b\"id\":\"a\",\"name\":\"a\",\"kind\":\"agent\"\x7d,\"createdAt\":1\x7d")

def numberedEvent (sequence : Nat) : JsString :=
  lit "\x7b\"id\":\"e" ++ Json.digits sequence ++ lit "\",\"sequence\":" ++ Json.digits sequence
    ++ eventFields

theorem newline_not_mem_numberedEvent (sequence : Nat)
    : newline ∉ Utf8.encode (numberedEvent sequence) := by
  intro member
  obtain ⟨unit, inside, same⟩ := Utf8.ascii_of_mem_encode member (by decide)
  obtain rfl : unit = 0x0A := UInt16.toNat_inj.mp same
  have digits : (0x0A : UInt16) ∉ Json.digits sequence := fun digit =>
    absurd (List.all_eq_true.mp (Json.all_isDigit_digits sequence) _ digit) (by decide)
  have fixed : (0x0A : UInt16) ∉ lit "\x7b\"id\":\"e"
      ∧ (0x0A : UInt16) ∉ lit "\",\"sequence\":" ∧ (0x0A : UInt16) ∉ eventFields := by decide +kernel
  simp only [numberedEvent, List.mem_append, digits, fixed, or_false] at inside

def numberedLine (sequence : Nat) : Line :=
  ⟨Utf8.encode (numberedEvent sequence), newline_not_mem_numberedEvent sequence⟩

theorem length_numberedLine {sequence : Nat} (small : sequence < 10 ^ 10)
    : (numberedLine sequence).val.length ≤ 1000 := by
  have digits : (Json.digits sequence).length ≤ 10 := by
    rw [Json.digits, List.length_map]
    exact (Nat.length_toDigits_le_iff (by decide) (by decide)).mpr small
  have bound := Utf8.encode_length_le (numberedEvent sequence)
  have fields : eventFields.length ≤ 100 := by decide +kernel
  have head : (lit "\x7b\"id\":\"e").length = 8 := by decide
  have middle : (lit "\",\"sequence\":").length = 13 := by decide
  simp only [numberedEvent, List.length_append, head, middle] at bound
  simp only [numberedLine, numberedEvent]
  omega

/-- A log after events that were all appended and never compacted. -/
def grown (count : Nat) : Live where
  log := text ((List.range count).map fun earlier => numberedLine (earlier + 1))
  generation := 0
  renamed := false

theorem grown_succ (count : Nat)
    : (grown (count + 1)).log
      = (grown count).log ++ ((numberedLine (count + 1)).val ++ [newline]) := by
  simp only [grown, List.range_succ, List.map_append, List.map_cons, List.map_nil, text_append]
  simp [text]

theorem repair_grown (count : Nat)
    : repairEventLog maxEventBytes (grown count).log = (grown count).log := by
  rw [repairEventLog, if_pos]
  cases count with
  | zero => rfl
  | succ count =>
      rw [grown_succ]
      simp

variable {count : Nat}

/-- Such a log is reached while every compaction throws, by induction along its events. -/
theorem run_grown (few : count < 10 ^ 10) (room : ∀ earlier < count,
      allowed (grown earlier).log ((numberedLine (earlier + 1)).val ++ [newline]))
    : Run defaultLimits allowed (grown count) := by
  induction count with
  | zero => exact .empty
  | succ count ih =>
      have limit : defaultLimits.maxEventBytes = 256 * 1024 := rfl
      have size := length_numberedLine few
      have here := room count (Nat.lt_succ_self count)
      rw [← repair_grown count] at here
      have next := @Run.append defaultLimits allowed _ (numberedLine (count + 1)) _
        (ih (by omega) fun earlier below => room earlier (by omega)) rfl (by omega)
        List.prefix_rfl here
      rw [repair_grown, ← grown_succ] at next
      exact next

theorem length_grown (few : count < 10 ^ 10)
    : count ≤ (grown count).log.length ∧ (grown count).log.length ≤ 1001 * count := by
  induction count with
  | zero => exact ⟨Nat.zero_le _, Nat.zero_le _⟩
  | succ count ih =>
      have size := length_numberedLine few
      have bounds := ih (by omega)
      rw [grown_succ, List.length_append, List.length_append, List.length_singleton]
      omega

/-- Past the base, `latestCursor` gives a cursor that decodes to another generation. -/
theorem not_decodes_grown (many : cursorOffsetBase ≤ count) (few : count < 10 ^ 10)
    : ¬Decodes maxEventBytes (grown count).log := by
  intro decodes
  have bounds := length_grown few
  have limit : Double.exactLimit = 2 ^ 53 := rfl
  have faithful := decodes 0 _ .latestCursor
  rw [faithful_iff, completeOffset_eq, repair_grown] at faithful
  omega

/-- A first event leaves the log short. -/
theorem cursors_decode_after_one_event
    : Decodes defaultLimits.maxEventBytes (grown 1).log
      ∧ completeOffset defaultLimits.maxEventBytes (grown 1).log < cursorOffsetBase := by
  have size := length_grown (by decide : 1 < 10 ^ 10)
  have base : cursorOffsetBase = 2 ^ 32 := rfl
  have limit : Double.exactLimit = 2 ^ 53 := rfl
  have room : ∀ earlier < 1,
      Room (grown earlier).log ((numberedLine (earlier + 1)).val ++ [newline]) := by
    intro earlier first
    obtain rfl : earlier = 0 := by omega
    rw [Room, ← List.length_append, ← grown_succ, Nat.zero_add]
    omega
  have decodes := (cursors_decode defaultLimits).1 _ (run_grown (by decide) room)
  exact ⟨decodes, ((cursors_decode defaultLimits).2 _ (run_grown (by decide) fun _ _ => trivial)
    (by omega)).mp decodes⟩

/-- Once 2^32 events were appended and none was compacted away, readers do not decode what they
encoded.
-/
theorem long_log_is_not_decoded
    : Run defaultLimits (fun _ _ => True) (grown cursorOffsetBase)
      ∧ ¬Decodes defaultLimits.maxEventBytes (grown cursorOffsetBase).log :=
  ⟨run_grown (by decide) fun _ _ => trivial, not_decodes_grown le_rfl (by decide)⟩

end PiFabric.EventLog
