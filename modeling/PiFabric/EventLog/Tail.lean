import PiFabric.EventLog.Hints
import PiFabric.EventLog.Publish
import PiFabric.Foundation.NumberValue

/-! The readers of the live log: `tail` reads complete lines from a cursor, the repair cuts what
follows the last newline, and the scan of a read also takes a last line without a newline.
-/

namespace PiFabric.EventLog

open LineLog JsString

def eventReadPageBytes : Nat := 4 * 1024 * 1024

/-- `#encodeCursor`; it throws past the safe integers. -/
def encodeCursor (generation offset : Nat) : Option Nat :=
  let cursor := generation * cursorOffsetBase + offset
  if cursor < Double.exactLimit then some cursor else none

def tailEvent (line : Bytes) : Option MeshEvent :=
  eventIn (trim (Utf8.decode line))

def decodedOffset (generation : Nat) (file : Bytes) (cursor : Nat) : Nat :=
  if cursor < Double.exactLimit && cursor / cursorOffsetBase == generation then
    min (cursor % cursorOffsetBase) file.length
  else 0

def tailPosition (generation : Nat) (file : Bytes) (cursor : Nat) : Nat :=
  let position := decodedOffset generation file cursor
  if endsLine file position then position else 0

/-- The loop of `tail` over the lines of its buffer: the events with the ends of their lines, and
the bytes consumed.
-/
def tailLines (limit : Nat) : Nat → List (MeshEvent × Nat) → List Bytes
    → List (MeshEvent × Nat) × Nat
  | consumed, events, [] => (events, consumed)
  | consumed, events, line :: rest =>
      let consumed := consumed + line.length + 1
      let events := events ++ ((tailEvent line).map fun event => (event, consumed)).toList
      if limit ≤ events.length then (events, consumed) else tailLines limit consumed events rest

/-- The events of a call of `tail`, each with the cursor just past it, and the next cursor. -/
structure TailResult where
  events : List (MeshEvent × Nat)
  nextOffset : Nat

def tail (maxEventBytes generation : Nat) (file : Bytes) (limit cursor : Nat) : Option TailResult :=
  let position := tailPosition generation file cursor
  let chunkBytes := min (file.length - position) (max (maxEventBytes + 1) eventReadPageBytes)
  let buffer := (file.drop position).take chunkBytes
  let read := tailLines limit position [] (split buffer).1
  (read.1.mapM fun event => (encodeCursor generation event.2).map fun cursor => (event.1, cursor)).bind
    fun events => (encodeCursor generation read.2).map fun nextOffset => { events, nextOffset }

def tailAll (maxEventBytes generation : Nat) (file : Bytes) (limit : Nat)
    : Nat → Nat → Option TailResult
  | 0, _ => none
  | fuel + 1, cursor =>
      (tail maxEventBytes generation file limit cursor).bind fun result =>
        if result.nextOffset = cursor then some result
        else
          (tailAll maxEventBytes generation file limit fuel result.nextOffset).map fun rest =>
            { rest with events := result.events ++ rest.events }

def repairEventLog (maxEventBytes : Nat) (file : Bytes) : Bytes :=
  if file.isEmpty || file.getLast? == some newline then file
  else
    let readBytes := min file.length (maxEventBytes + 1)
    let complete := (split (file.drop (file.length - readBytes))).1
    if complete.isEmpty then []
    else file.take (file.length - readBytes + (join complete).length)

/-- Complete lines, and what an append in progress or a torn one left after them. -/
structure Content (maxEventBytes : Nat) where
  lines : List Bytes
  suffix : Bytes
  clean : ∀ line ∈ lines, newline ∉ line
  fits : ∀ line ∈ lines, line.length ≤ maxEventBytes
  unended : newline ∉ suffix
  fit : suffix.length ≤ maxEventBytes

variable {maxEventBytes : Nat}

def Content.file (content : Content maxEventBytes) : Bytes :=
  join content.lines ++ content.suffix

def committedFrom : Nat → List Bytes → List (MeshEvent × Nat)
  | _, [] => []
  | offset, line :: rest =>
      let ending := offset + line.length + 1
      ((tailEvent line).map fun event => (event, ending)).toList ++ committedFrom ending rest

def Content.committed (content : Content maxEventBytes) : List (MeshEvent × Nat) :=
  committedFrom 0 content.lines

theorem committedFrom_append (offset : Nat) (first second : List Bytes)
    : committedFrom offset (first ++ second)
      = committedFrom offset first ++ committedFrom (offset + (join first).length) second := by
  induction first generalizing offset with
  | nil => simp [committedFrom]
  | cons line rest ih =>
      rw [List.cons_append, committedFrom, committedFrom, ih, length_join_cons, List.append_assoc]
      simp only [Nat.add_assoc]

theorem ending_of_mem_committedFrom {offset : Nat} {lines : List Bytes} {event : MeshEvent × Nat}
    (member : event ∈ committedFrom offset lines)
    : offset < event.2 ∧ event.2 ≤ offset + (join lines).length := by
  induction lines generalizing offset with
  | nil => cases member
  | cons line rest ih =>
      rw [length_join_cons]
      rcases List.mem_append.mp member with here | later
      · obtain ⟨_, _, rfl⟩ := Option.map_eq_some_iff.mp (Option.mem_toList.mp here)
        dsimp only
        omega
      · have bounds := ih later
        omega

theorem getLast?_join {lines : List Bytes} (some_ : lines ≠ [])
    : (join lines).getLast? = some newline := by
  obtain ⟨front, line, rfl⟩ := List.eq_nil_or_concat lines |>.resolve_left some_
  rw [List.concat_eq_append, join_append, join_cons, join_nil, List.append_cons]
  simp

theorem split_of_getLast? {bytes : Bytes} (ended : bytes.getLast? = some newline)
    : (split bytes).2 = [] := by
  by_contra other
  have last : (split bytes).2.getLast? = some newline := by
    rw [← join_split bytes, List.getLast?_append] at ended
    obtain ⟨byte, final⟩ := Option.ne_none_iff_exists'.mp
      (mt List.getLast?_eq_none_iff.mp other)
    rw [final, Option.some_or] at ended
    rw [final, ended]
  exact (newline_not_mem_split bytes).2 (List.mem_of_getLast? last)

theorem Content.repair (content : Content maxEventBytes)
    : repairEventLog maxEventBytes content.file = join content.lines := by
  obtain ⟨lines, suffix, clean, fits, unended, fit⟩ := content
  simp only [Content.file]
  by_cases torn : suffix = []
  · subst torn
    rw [List.append_nil, repairEventLog, if_pos]
    by_cases none_ : lines = []
    · rw [none_]
      rfl
    · rw [getLast?_join none_]
      simp
  · have last : ((join lines ++ suffix).getLast? == some newline) = false := by
      obtain ⟨byte, final⟩ := Option.ne_none_iff_exists'.mp (mt List.getLast?_eq_none_iff.mp torn)
      rw [List.getLast?_append, final, Option.some_or, beq_eq_false_iff_ne]
      rintro same
      exact unended (Option.some.inj same ▸ List.mem_of_getLast? final)
    have full : (join lines ++ suffix).isEmpty = false := by simp [torn]
    rw [repairEventLog, full, last, Bool.or_false, if_neg Bool.false_ne_true]
    dsimp only
    generalize start : (join lines ++ suffix).length
      - min (join lines ++ suffix).length (maxEventBytes + 1) = position
    rw [List.length_append] at start
    by_cases none_ : lines = []
    · subst none_
      have nothing : newline ∉ suffix.drop position := fun member =>
        unended (List.mem_of_mem_drop member)
      rw [join_nil, List.nil_append, split_of_not_mem nothing]
      rfl
    · have bytes : 0 < (join lines).length := by
        obtain ⟨line, rest, rfl⟩ := List.exists_cons_of_ne_nil none_
        rw [length_join_cons]
        omega
      have before : position < (join lines).length := by omega
      have ended : ((join lines).drop position).getLast? = some newline := by
        rw [List.getLast?_drop, if_neg (by omega), getLast?_join none_]
      have complete : (split ((join lines ++ suffix).drop position)).1
          = (split ((join lines).drop position)).1 := by
        rw [List.drop_append_of_le_length before.le, split_append, split_of_not_mem unended]
      have length : (join (split ((join lines).drop position)).1).length
          = (join lines).length - position := by
        have whole := length_split ((join lines).drop position)
        rw [split_of_getLast? ended, List.length_nil, Nat.add_zero, List.length_drop] at whole
        exact whole
      rw [complete, if_neg, length, Nat.add_sub_cancel' before.le, List.take_left' rfl]
      rw [List.isEmpty_iff]
      intro empty
      rw [empty, join_nil, List.length_nil] at length
      omega

def Content.Room (content : Content maxEventBytes) (generation : Nat) : Prop :=
  (join content.lines).length < cursorOffsetBase
    ∧ generation * cursorOffsetBase + (join content.lines).length < Double.exactLimit

def withCursor (generation : Nat) (event : MeshEvent × Nat) : MeshEvent × Nat :=
  (event.1, generation * cursorOffsetBase + event.2)

variable {generation limit : Nat}

/-- The loop of `tail` takes some lines, at least one if there is any, by induction over them. -/
theorem tailLines_eq (consumed : Nat) (events : List (MeshEvent × Nat)) (lines : List Bytes)
    : ∃ here rest, lines = here ++ rest ∧ (lines ≠ [] → here ≠ [])
      ∧ tailLines limit consumed events lines
        = (events ++ committedFrom consumed here, consumed + (join here).length) := by
  induction lines generalizing consumed events with
  | nil => exact ⟨[], [], rfl, id, by simp [tailLines, committedFrom]⟩
  | cons line rest ih =>
      rw [tailLines]
      split
      · refine ⟨[line], rest, rfl, fun _ => List.cons_ne_nil _ _, ?_⟩
        rw [committedFrom, committedFrom, List.append_nil, length_join_cons, join_nil, List.length_nil]
        rfl
      · obtain ⟨here, after, rfl, _, same⟩ := ih (consumed + line.length + 1)
          (events ++ ((tailEvent line).map fun event => (event, consumed + line.length + 1)).toList)
        refine ⟨line :: here, after, rfl, fun _ => List.cons_ne_nil _ _, ?_⟩
        rw [same, committedFrom, List.append_assoc, length_join_cons]
        simp only [Nat.add_assoc]

theorem encodeCursor_eq {offset : Nat}
    (safe : generation * cursorOffsetBase + offset < Double.exactLimit)
    : encodeCursor generation offset = some (generation * cursorOffsetBase + offset) :=
  if_pos safe

theorem mapM_encodeCursor {events : List (MeshEvent × Nat)}
    (safe : ∀ event ∈ events, generation * cursorOffsetBase + event.2 < Double.exactLimit)
    : (events.mapM fun event =>
        (encodeCursor generation event.2).map fun cursor => (event.1, cursor))
      = some (events.map (withCursor generation)) := by
  induction events with
  | nil => rfl
  | cons event rest ih =>
      rw [List.mapM_cons, encodeCursor_eq (safe event List.mem_cons_self),
        ih fun other member => safe other (List.mem_cons_of_mem _ member)]
      rfl

/-- The buffer of `tail` holds the next line whole. -/
theorem Content.buffer (content : Content maxEventBytes) {before after : List Bytes}
    (parts : content.lines = before ++ after)
    : ∃ here rest, after = here ++ rest ∧ (after ≠ [] → here ≠ [])
      ∧ (split ((content.file.drop (join before).length).take
          (min (content.file.length - (join before).length)
            (max (maxEventBytes + 1) eventReadPageBytes)))).1 = here := by
  have bytes : content.file.drop (join before).length = join after ++ content.suffix := by
    rw [Content.file, parts, join_append, List.append_assoc, List.drop_left' rfl]
  have others : ∀ line ∈ after, newline ∉ line := fun line member =>
    content.clean line (parts ▸ List.mem_append_right _ member)
  have whole : (split (join after ++ content.suffix)).1 = after := by
    rw [split_join others, split_of_not_mem content.unended, List.append_nil]
  have size : content.file.length - (join before).length
      = (join after ++ content.suffix).length := by
    rw [← bytes, List.length_drop]
  rw [bytes, size]
  generalize chunk : min (join after ++ content.suffix).length
    (max (maxEventBytes + 1) eventReadPageBytes) = count
  have front := split_append_front ((join after ++ content.suffix).take count)
    ((join after ++ content.suffix).drop count)
  rw [List.take_append_drop, whole] at front
  obtain ⟨rest, parts'⟩ := front
  refine ⟨_, rest, parts'.symm, fun some_ => ?_, rfl⟩
  obtain ⟨line, more, rfl⟩ := List.exists_cons_of_ne_nil some_
  have fits := content.fits line (parts ▸ List.mem_append_right _ List.mem_cons_self)
  have enough : (line ++ [newline]).length ≤ count := by
    rw [← chunk]
    simp only [List.length_append, length_join_cons, List.length_singleton]
    omega
  have first : join (line :: more) ++ content.suffix
      = (line ++ [newline]) ++ (join more ++ content.suffix) := by simp
  rw [first, List.take_append, List.take_of_length_le enough, List.append_assoc,
    List.singleton_append, split_line (others line List.mem_cons_self)]
  exact List.cons_ne_nil _ _

/-- A call of `tail` from the end of a line gives the events of some lines after it, of at least one
if there is any.
-/
theorem Content.tail_eq (content : Content maxEventBytes) (room : content.Room generation)
    {before after : List Bytes} (parts : content.lines = before ++ after) {cursor : Nat}
    (position : tailPosition generation content.file cursor = (join before).length)
    : ∃ here rest, after = here ++ rest ∧ (after ≠ [] → here ≠ [])
      ∧ tail maxEventBytes generation content.file limit cursor
        = some ⟨(committedFrom (join before).length here).map (withCursor generation),
            generation * cursorOffsetBase + (join (before ++ here)).length⟩ := by
  obtain ⟨held, behind, parts', some_, buffer⟩ := content.buffer parts
  obtain ⟨here, others, parts'', took, read⟩ := @tailLines_eq limit (join before).length [] held
  subst parts'' parts'
  refine ⟨here, others ++ behind, List.append_assoc .., fun any => took (some_ any), ?_⟩
  have total : (join (before ++ here)).length ≤ (join content.lines).length := by
    simp only [parts, join_append, List.length_append]
    omega
  have within := room.2
  have ends : (join before).length + (join here).length = (join (before ++ here)).length := by
    rw [join_append, List.length_append]
  have safe : ∀ event ∈ committedFrom (join before).length here,
      generation * cursorOffsetBase + event.2 < Double.exactLimit := by
    intro event member
    have bound := (ending_of_mem_committedFrom member).2
    omega
  rw [tail, position, buffer, read, List.nil_append, mapM_encodeCursor safe, ends, encodeCursor_eq (by omega)]
  rfl

/-- A newline of the file ends one of its complete lines, by induction over them. -/
theorem line_end_of_newline {lines : List Bytes} {suffix : Bytes}
    (clean : ∀ line ∈ lines, newline ∉ line) (unended : newline ∉ suffix) {index : Nat}
    (found : (join lines ++ suffix)[index]? = some newline)
    : ∃ before after, lines = before ++ after ∧ index + 1 = (join before).length := by
  induction lines generalizing index with
  | nil => exact absurd (List.mem_of_getElem? found) unended
  | cons line rest ih =>
      rw [join_cons, List.append_assoc, List.cons_append] at found
      rcases Nat.lt_trichotomy index line.length with inside | rfl | past
      · rw [List.getElem?_append_left inside] at found
        exact absurd (List.mem_of_getElem? found) (clean line List.mem_cons_self)
      · exact ⟨[line], rest, rfl, by rw [length_join_cons, join_nil]; rfl⟩
      · obtain ⟨more, rfl⟩ := Nat.exists_eq_add_of_lt past
        rw [List.getElem?_append_right (by omega), Nat.add_assoc, Nat.add_sub_cancel_left,
          List.getElem?_cons_succ] at found
        obtain ⟨before, after, same, ends⟩ := ih
          (fun other member => clean other (List.mem_cons_of_mem _ member)) found
        refine ⟨line :: before, after, by rw [same]; rfl, ?_⟩
        rw [length_join_cons]
        omega

theorem Content.position (content : Content maxEventBytes) (generation cursor : Nat)
    : ∃ before after, content.lines = before ++ after
      ∧ tailPosition generation content.file cursor = (join before).length := by
  simp only [tailPosition]
  generalize decodedOffset generation content.file cursor = position
  cases ends : endsLine content.file position with
  | false => exact ⟨[], content.lines, rfl, rfl⟩
  | true =>
      by_cases zero : position = 0
      · exact ⟨[], content.lines, rfl, zero⟩
      · simp only [endsLine, Bool.or_eq_true, beq_iff_eq, zero, false_or] at ends
        obtain ⟨before, after, parts, same⟩ :=
          line_end_of_newline content.clean content.unended ends
        exact ⟨before, after, parts, by rw [if_pos rfl]; omega⟩

theorem Content.position_of_cursor (content : Content maxEventBytes)
    (room : content.Room generation) {before after : List Bytes}
    (parts : content.lines = before ++ after)
    : tailPosition generation content.file (generation * cursorOffsetBase + (join before).length)
      = (join before).length := by
  obtain ⟨small, safe⟩ := room
  have inside : (join before).length ≤ (join content.lines).length := by
    rw [parts, join_append, List.length_append]
    omega
  have size : (join before).length ≤ content.file.length := by
    rw [Content.file, List.length_append]
    omega
  have positive : 0 < cursorOffsetBase := by decide
  have offset : (join before).length < cursorOffsetBase := by omega
  have known : (decide (generation * cursorOffsetBase + (join before).length < Double.exactLimit)
      && (generation * cursorOffsetBase + (join before).length) / cursorOffsetBase == generation)
      = true := by
    rw [Bool.and_eq_true, decide_eq_true_eq, beq_iff_eq, Nat.mul_comm, Nat.mul_add_div positive,
      Nat.div_eq_of_lt offset]
    exact ⟨by rw [Nat.mul_comm]; omega, rfl⟩
  have residue : (generation * cursorOffsetBase + (join before).length) % cursorOffsetBase
      = (join before).length := by
    rw [Nat.mul_comm, Nat.mul_add_mod, Nat.mod_eq_of_lt offset]
  rw [tailPosition, decodedOffset, if_pos known, residue, Nat.min_eq_left size]
  refine if_pos ?_
  by_cases none_ : before = []
  · rw [none_]
    rfl
  · have last := getLast?_join none_
    have some_ : 0 < (join before).length := List.length_pos_iff.mpr fun empty => by
      rw [empty] at last
      cases last
    rw [endsLine, Content.file, parts, join_append, List.append_assoc,
      List.getElem?_append_left (by omega), ← List.getLast?_eq_getElem?, last]
    simp

/-- Calls of `tail` from the end of a line give the events of all complete lines after it, by
induction over these lines, and end where they end.
-/
theorem Content.tailAll_eq (content : Content maxEventBytes) (room : content.Room generation)
    {before after : List Bytes} (parts : content.lines = before ++ after) {cursor : Nat}
    (position : tailPosition generation content.file cursor = (join before).length)
    : ∃ fuel last, tailAll maxEventBytes generation content.file limit fuel cursor
        = some ⟨(committedFrom (join before).length after).map (withCursor generation), last⟩
      ∧ tailPosition generation content.file last = (join content.lines).length := by
  induction count : after.length using Nat.strong_induction_on generalizing before after cursor with
  | h bound ih =>
      obtain ⟨here, rest, rfl, some_, call⟩ :=
        @Content.tail_eq _ _ limit content room _ _ parts _ position
      have next := content.position_of_cursor room ((List.append_assoc before here rest) ▸ parts)
      by_cases stays : generation * cursorOffsetBase + (join (before ++ here)).length = cursor
      · -- nothing was taken, so that there is no line left
        have none_ : here = [] := by
          rw [stays, position, join_append, List.length_append] at next
          cases here with
          | nil => rfl
          | cons line more =>
              rw [length_join_cons] at next
              omega
        have done : here ++ rest = [] := by
          by_contra any
          exact some_ any none_
        refine ⟨1, cursor, ?_, ?_⟩
        · rw [tailAll, call, Option.bind_some, if_pos stays, stays, done, none_]
        · rw [position, parts, done, List.append_nil]
      · by_cases none_ : here = []
        · -- a last call at the end of the lines
          have done : here ++ rest = [] := by
            by_contra any
            exact some_ any none_
          subst none_
          rw [List.nil_append] at done
          subst done
          rw [List.append_nil] at next stays call parts
          obtain ⟨held, behind, parts', _, again⟩ :=
            @Content.tail_eq _ _ limit content room _ _ parts _ next
          obtain ⟨rfl, rfl⟩ := List.append_eq_nil_iff.mp parts'.symm
          refine ⟨2, generation * cursorOffsetBase + (join before).length, ?_, ?_⟩
          · rw [tailAll, call, Option.bind_some, if_neg stays, tailAll, again, Option.bind_some,
              List.append_nil, if_pos rfl]
            rfl
          · rw [next, parts, List.append_nil]
        · have fewer : rest.length < bound := by
            rw [← count, List.length_append]
            have := List.length_pos_iff.mpr none_
            omega
          obtain ⟨fuel, last, later, ends⟩ := ih rest.length fewer
            ((List.append_assoc before here rest) ▸ parts) next rfl
          refine ⟨fuel + 1, last, ?_, ends⟩
          rw [tailAll, call, Option.bind_some, if_neg stays, later, Option.map_some,
            committedFrom_append, List.map_append, join_append, List.length_append]

end PiFabric.EventLog
