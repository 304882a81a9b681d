import PiFabric.EventLog.Tail

/-! Which events the readers of the live log agree on. A read takes a last line without a newline as
soon as its bytes parse, while `tail` and the repair do not, and a retried publish writes the event
again.
-/

namespace PiFabric.EventLog

open LineLog JsString

variable {maxEventBytes generation : Nat}

def readAll (limit : Nat) : Query where
  after := 0
  filter := ⟨none, none⟩
  limit

def positive (event : MeshEvent) : Bool :=
  0 < event.sequence

def Content.read (content : Content maxEventBytes) (inode generation limit : Nat) : List Found :=
  (readEventsAfter maxEventBytes (readAll limit) ⟨content.file, inode, generation, false, none⟩).1

theorem wants_readAll (limit : Nat) (found : Found)
    : (readAll limit).wants found = positive found.event := by
  simp only [Query.wants, readAll, positive, eventMatches, Option.all_none, Bool.and_true]
  congr

/-- What the scan of a read finds in complete lines, without the events that it leaves out. -/
def scannedFrom (maxEventBytes offset : Nat) (lines : List Bytes) : List Found :=
  (foundLines maxEventBytes offset lines).filter fun found => positive found.event

def Content.scannedSuffix (content : Content maxEventBytes) : List Found :=
  (foundIn maxEventBytes none content.suffix).toList.filter fun found => positive found.event

variable {limit : Nat}

theorem Content.read_eq (content : Content maxEventBytes) (inode generation : Nat)
    (some_ : 1 ≤ limit)
    : content.read inode generation limit
      = (scannedFrom maxEventBytes 0 content.lines ++ content.scannedSuffix).take limit := by
  have lines : split content.file = (content.lines, content.suffix) := by
    rw [Content.file, split_join content.clean, split_of_not_mem content.unended, List.append_nil]
  have filters : (readAll limit).wants = fun found => positive found.event :=
    funext (wants_readAll limit)
  have scan : content.read inode generation limit
      = (scanFrom maxEventBytes (readAll limit) 0 none content.file).events := rfl
  rw [scan, scanFrom_events some_, List.drop_zero, foundFrom, lines, filters, List.filter_append]
  rfl

theorem scannedEvent_nil : scannedEvent [] = none := rfl

variable {line : Bytes}

/-- What the scan finds in a line that is not too long. -/
theorem foundIn_of_fits (fits : line.length ≤ maxEventBytes) (ending : Option Nat)
    : foundIn maxEventBytes ending line = (scannedEvent line).map fun event => ⟨event, ending⟩ := by
  rw [foundIn, decide_eq_false (Nat.not_lt.mpr fits), Bool.or_false]
  cases line with
  | nil => rw [scannedEvent_nil]; rfl
  | cons byte rest => rfl

theorem filter_foundIn (fits : line.length ≤ maxEventBytes) (ending : Option Nat)
    : (foundIn maxEventBytes ending line).toList.filter (fun found => positive found.event)
      = (((scannedEvent line).filter positive).map fun event => (⟨event, ending⟩ : Found)).toList := by
  rw [foundIn_of_fits fits]
  cases scannedEvent line with
  | none => rfl
  | some event => cases plain : positive event <;> simp [plain, Option.filter]

/-- An event with the end of its line, as a read has it. -/
def asFound (event : MeshEvent × Nat) : Found :=
  ⟨event.1, some event.2⟩

/-- The readers agree: a read gives the first events of the complete lines, calls of `tail` give
those from the start of the first call on and end where they end, and no read gives an event that a
repair would cut.
-/
structure Agree (generation : Nat) (content : Content maxEventBytes) : Prop where
  reads : ∀ inode limit, 1 ≤ limit →
    content.read inode generation limit = (content.committed.take limit).map asFound
  tails : ∀ limit cursor, 1 ≤ limit → ∃ fuel last,
    tailAll maxEventBytes generation content.file limit fuel cursor
        = some ⟨(content.committed.filter fun event =>
            tailPosition generation content.file cursor < event.2).map (withCursor generation), last⟩
      ∧ tailPosition generation content.file last = (join content.lines).length
  kept : ∀ inode limit, 1 ≤ limit → ∀ found ∈ content.read inode generation limit,
    ∃ ending, found.ending = some ending
      ∧ ending ≤ (repairEventLog maxEventBytes content.file).length

/-- A file as the publisher leaves it at rest: both parsers read the same in each complete line, and
only events with positive sequences; what follows the last newline is no such event; and offsets fit
in cursors.
-/
structure Plain (generation : Nat) (content : Content maxEventBytes) : Prop where
  same : ∀ line ∈ content.lines, (scannedEvent line).filter positive = tailEvent line
  torn : (scannedEvent content.suffix).filter positive = none
  room : content.Room generation

variable {offset : Nat}

theorem scannedFrom_cons {rest : List Bytes} (fits : line.length ≤ maxEventBytes)
    : scannedFrom maxEventBytes offset (line :: rest)
      = (((scannedEvent line).filter positive).map fun event =>
          asFound (event, offset + line.length + 1)).toList
        ++ scannedFrom maxEventBytes (offset + line.length + 1) rest := by
  rw [scannedFrom, foundLines, List.filter_append, filter_foundIn fits]
  rfl

variable {lines : List Bytes}

/-- Where the parsers agree, the scan finds what `tail` does, by induction over the lines. -/
theorem scannedFrom_eq (fits : ∀ line ∈ lines, line.length ≤ maxEventBytes)
    (same : ∀ line ∈ lines, (scannedEvent line).filter positive = tailEvent line)
    : scannedFrom maxEventBytes offset lines = (committedFrom offset lines).map asFound := by
  induction lines generalizing offset with
  | nil => rfl
  | cons line rest ih =>
      have later := @ih (offset + line.length + 1)
        (fun other member => fits other (List.mem_cons_of_mem _ member))
        (fun other member => same other (List.mem_cons_of_mem _ member))
      rw [scannedFrom_cons (fits line List.mem_cons_self), same line List.mem_cons_self, later,
        committedFrom, List.map_append]
      cases tailEvent line <;> rfl

theorem Content.scannedSuffix_eq (content : Content maxEventBytes)
    : content.scannedSuffix
      = (((scannedEvent content.suffix).filter positive).map fun event =>
          (⟨event, none⟩ : Found)).toList :=
  filter_foundIn content.fit none

variable {content : Content maxEventBytes}

/-- The events after complete lines are those whose lines end past them. -/
theorem committed_filter {before after : List Bytes} (parts : content.lines = before ++ after)
    : content.committed.filter (fun event => (join before).length < event.2)
      = committedFrom (join before).length after := by
  have early : (committedFrom 0 before).filter (fun event => (join before).length < event.2) = [] := by
    refine List.filter_eq_nil_iff.mpr fun event member => ?_
    have bound := (ending_of_mem_committedFrom member).2
    simp only [decide_eq_true_eq]
    omega
  have late : (committedFrom (join before).length after).filter
      (fun event => (join before).length < event.2) = committedFrom (join before).length after :=
    List.filter_eq_self.mpr fun event member =>
      decide_eq_true (ending_of_mem_committedFrom member).1
  rw [Content.committed, parts, committedFrom_append, Nat.zero_add, List.filter_append, early, late,
    List.nil_append]

theorem Plain.agree (plain : Plain generation content)
    : Agree generation content := by
  have reads : ∀ inode limit, 1 ≤ limit →
      content.read inode generation limit = (content.committed.take limit).map asFound := by
    intro inode limit some_
    rw [content.read_eq inode generation some_, content.scannedSuffix_eq, plain.torn, Option.map_none,
      Option.toList_none, List.append_nil, scannedFrom_eq content.fits plain.same, List.map_take]
    rfl
  refine ⟨reads, fun limit cursor _ => ?_, fun inode limit some_ found member => ?_⟩
  · obtain ⟨before, after, parts, position⟩ := content.position generation cursor
    rw [position, committed_filter parts]
    exact content.tailAll_eq plain.room parts position
  · rw [reads inode limit some_] at member
    obtain ⟨event, inside, rfl⟩ := List.mem_map.mp member
    have bound := (ending_of_mem_committedFrom (List.mem_of_mem_take inside)).2
    rw [Nat.zero_add] at bound
    exact ⟨event.2, rfl, by rw [content.repair]; exact bound⟩

/-- Lists that start with at most one element of a kind of which no other is are equal in parts. -/
theorem toList_append_inj {α : Type} {kind : α → Prop} {left right : Option α} {lefts rights : List α}
    (first : ∀ element ∈ left, kind element) (second : ∀ element ∈ right, kind element)
    (others : ∀ element ∈ lefts, ¬kind element) (others' : ∀ element ∈ rights, ¬kind element)
    (same : left.toList ++ lefts = right.toList ++ rights)
    : left = right ∧ lefts = rights := by
  cases left with
  | none =>
      cases right with
      | none => exact ⟨rfl, same⟩
      | some element =>
          refine absurd (second element rfl) (others element ?_)
          rw [Option.toList_none, List.nil_append] at same
          rw [same]
          exact List.mem_cons_self
  | some element =>
      cases right with
      | none =>
          refine absurd (first element rfl) (others' element ?_)
          rw [Option.toList_none, List.nil_append] at same
          rw [← same]
          exact List.mem_cons_self
      | some other =>
          obtain ⟨rfl, rest⟩ := List.cons.inj same
          exact ⟨rfl, rest⟩

theorem ending_of_mem_scannedFrom {found : Found}
    (member : found ∈ scannedFrom maxEventBytes offset lines)
    : ∃ ending, found.ending = some ending ∧ offset < ending := by
  obtain ⟨before, line, after, _, held⟩ := mem_foundLines (List.mem_filter.mp member).1
  refine ⟨_, ending_of_foundIn held, ?_⟩
  rw [join_append, List.length_append, length_join_cons]
  omega

/-- Where the scan finds what `tail` does, the parsers agree on each line, by induction over them.
-/
theorem same_of_scannedFrom (fits : ∀ line ∈ lines, line.length ≤ maxEventBytes)
    (found : scannedFrom maxEventBytes offset lines = (committedFrom offset lines).map asFound)
    : ∀ line ∈ lines, (scannedEvent line).filter positive = tailEvent line := by
  induction lines generalizing offset with
  | nil => intro line member; cases member
  | cons line rest ih =>
      rw [scannedFrom_cons (fits line List.mem_cons_self), committedFrom, List.map_append] at found
      have tails : (((tailEvent line).map fun event =>
            (event, offset + line.length + 1)).toList).map asFound
          = ((tailEvent line).map fun event => asFound (event, offset + line.length + 1)).toList := by
        cases tailEvent line <;> rfl
      rw [tails] at found
      obtain ⟨here, later⟩ := @toList_append_inj Found
        (fun found => found.ending = some (offset + line.length + 1)) _ _ _ _
        (fun element member => by
          obtain ⟨_, _, rfl⟩ := Option.map_eq_some_iff.mp member
          rfl)
        (fun element member => by
          obtain ⟨_, _, rfl⟩ := Option.map_eq_some_iff.mp member
          rfl)
        (fun element member ends => by
          obtain ⟨ending, same, past⟩ := ending_of_mem_scannedFrom member
          rw [ends] at same
          exact absurd (Option.some.inj same) (by omega))
        (fun element member ends => by
          obtain ⟨event, inside, rfl⟩ := List.mem_map.mp member
          have past := (ending_of_mem_committedFrom inside).1
          exact absurd (Option.some.inj ends) (by omega))
        found
      intro other member
      rcases List.mem_cons.mp member with rfl | behind
      · refine Option.map_injective (fun left right same => ?_) here
        exact congrArg Found.event same
      · exact ih (fun other member => fits other (List.mem_cons_of_mem _ member)) later other behind

theorem encoded_of_tailAll {file : Bytes} {fuel cursor : Nat} {result : TailResult}
    (ran : tailAll maxEventBytes generation file limit fuel cursor = some result)
    : ∃ offset, encodeCursor generation offset = some result.nextOffset := by
  induction fuel generalizing cursor result with
  | zero => cases ran
  | succ fuel ih =>
      rw [tailAll] at ran
      obtain ⟨call, called, next⟩ := Option.bind_eq_some_iff.mp ran
      split at next
      · obtain rfl := Option.some.inj next
        obtain ⟨events, _, encoded⟩ := Option.bind_eq_some_iff.mp called
        obtain ⟨cursor, known, rfl⟩ := Option.map_eq_some_iff.mp encoded
        exact ⟨_, known⟩
      · obtain ⟨rest, later, rfl⟩ := Option.map_eq_some_iff.mp next
        exact @ih call.nextOffset rest later

theorem room_of_tailAll {fuel cursor : Nat} {result : TailResult}
    (ran : tailAll maxEventBytes generation content.file limit fuel cursor = some result)
    (ends : tailPosition generation content.file result.nextOffset = (join content.lines).length)
    : content.Room generation := by
  obtain ⟨offset, encoded⟩ := encoded_of_tailAll ran
  obtain ⟨safe, same⟩ := Option.ite_none_right_eq_some.mp encoded
  have next := Option.some.inj same
  by_cases none_ : (join content.lines).length = 0
  · rw [Content.Room, none_]
    exact ⟨by decide, by omega⟩
  · have decoded : decodedOffset generation content.file result.nextOffset
        = (join content.lines).length := by
      rw [tailPosition] at ends
      split at ends
      · exact ends
      · exact absurd ends.symm none_
    rw [decodedOffset] at decoded
    split at decoded
    · next known =>
        simp only [Bool.and_eq_true, decide_eq_true_eq, beq_iff_eq] at known
        have small := Nat.mod_lt result.nextOffset (by decide : 0 < cursorOffsetBase)
        have parts := Nat.div_add_mod result.nextOffset cursorOffsetBase
        rw [known.2, Nat.mul_comm] at parts
        exact ⟨by omega, by omega⟩
    · exact absurd decoded.symm none_

theorem Agree.plain (agree : Agree generation content)
    : Plain generation content := by
  -- a limit that cuts neither list
  have whole := agree.reads 0 ((scannedFrom maxEventBytes 0 content.lines
    ++ content.scannedSuffix).length + content.committed.length + 1) (by omega)
  rw [content.read_eq 0 generation (by omega), List.take_of_length_le (by omega),
    List.take_of_length_le (by omega)] at whole
  have torn : content.scannedSuffix = [] := by
    refine List.eq_nil_iff_forall_not_mem.mpr fun found member => ?_
    have inside : found ∈ content.committed.map asFound :=
      whole ▸ List.mem_append_right _ member
    obtain ⟨event, _, rfl⟩ := List.mem_map.mp inside
    rw [content.scannedSuffix_eq] at member
    obtain ⟨_, _, same⟩ := Option.map_eq_some_iff.mp (Option.mem_toList.mp member)
    cases congrArg Found.ending same
  rw [torn, List.append_nil] at whole
  rw [content.scannedSuffix_eq, Option.toList_eq_nil_iff, Option.map_eq_none_iff] at torn
  obtain ⟨fuel, last, ran, ends⟩ := agree.tails 1 0 le_rfl
  exact ⟨same_of_scannedFrom content.fits whole, torn, room_of_tailAll ran ends⟩

theorem readers_agree_iff (maxEventBytes generation : Nat) (content : Content maxEventBytes)
    : Agree generation content ↔ Plain generation content :=
  ⟨Agree.plain, Plain.agree⟩

/-- A crash that took the newline of an appended event and nothing else. -/
def tornEvent : Content 100 where
  lines := []
  suffix := Utf8.encode (lit "\x7b\"id\":\"a\",\"sequence\":1\x7d")
  clean := by simp
  fits := by simp
  unended := by decide +kernel
  fit := by decide +kernel

theorem torn_event_is_read
    : (tornEvent.read 7 0 100).length = 1
      ∧ tail 100 0 tornEvent.file 100 0 = some ⟨[], 0⟩
      ∧ repairEventLog 100 tornEvent.file = []
      ∧ ¬Agree 0 tornEvent := by
  have read : (tornEvent.read 7 0 100).length = 1 := by decide +kernel
  have repaired : repairEventLog 100 tornEvent.file = [] := tornEvent.repair
  obtain ⟨here, rest, parts, _, call⟩ := @Content.tail_eq 100 0 100 tornEvent
    ⟨by decide, by decide⟩ [] [] rfl 0 rfl
  obtain ⟨rfl, rfl⟩ := List.append_eq_nil_iff.mp parts.symm
  refine ⟨read, call, repaired, fun agree => ?_⟩
  rw [agree.reads 7 100 (by decide)] at read
  cases read

end PiFabric.EventLog
