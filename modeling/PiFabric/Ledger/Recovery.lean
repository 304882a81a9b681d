import PiFabric.Foundation.Sha256
import PiFabric.Ledger.Originals
import PiFabric.Ledger.Plans

/-! What survives a death. Every reachable ledger is stored, so every reopen is accepted, and it
answers as before for records, seen events and pending work.
-/

namespace PiFabric.Ledger

open JsString LineLog Memory Outcome
open Json (Members)

variable {T : Type} [LinearOrder T] {settings : Settings T}

variable {now : JsNumber} {ledger : FileLedger}

/-- A mutation that returned either wrote nothing or made its line durable. -/
theorem perform_cases {op : Op} {next : FileLedger} {reply : Reply}
    (h : perform settings now op ledger = .ok (reply, next))
    : (plan settings.num now ledger.memory op = .ok (.answer reply) ∧ next = ledger)
      ∨ ∃ line bytes, plan settings.num now ledger.memory op = .ok (.write line)
        ∧ encode settings.sha256Hex line = some bytes
        ∧ next = compactIfDue settings false now (appended line bytes ledger)
        ∧ reply = writtenReply op line next.memory := by
  obtain ⟨decision, planned, h⟩ := bind_eq_ok.mp h
  cases decision with
  | answer answered =>
      obtain ⟨rfl, rfl⟩ := Prod.mk.inj (Except.ok.inj h)
      exact .inl ⟨planned, rfl⟩
  | write line =>
      obtain ⟨after, written, h⟩ := bind_eq_ok.mp h
      obtain ⟨rfl, rfl⟩ := Prod.mk.inj (Except.ok.inj h)
      unfold append at written
      split at written
      · exact absurd written (by simp)
      · next bytes encoded =>
          exact .inr ⟨line, bytes, planned, encoded, (Except.ok.inj written).symm, rfl⟩

variable {reached : FileLedger}

theorem InFlight.stored (h : InFlight settings now ledger reached) (stored : Stored settings ledger)
    : Stored settings reached := by
  cases h with
  | idle => exact stored
  | written decided encoded => exact stored.appended (plan_write_valid decided) encoded

variable {file : Bytes} {renamed : Bool}

theorem Death.inFlight (h : Death settings now ledger file reached renamed)
    : InFlight settings now ledger reached := by
  cases h with
  | between inFlight => exact inFlight
  | torn => exact .idle
  | renamed inFlight => exact inFlight

/-- A death leaves whole lines and possibly a part of one more, by the kinds of deaths. -/
theorem Death.file_eq (h : Death settings now ledger file reached renamed)
    : ∃ tail, newline ∉ tail ∧ file = (held settings now reached renamed).file ++ tail := by
  cases h with
  | between => exact ⟨[], List.not_mem_nil, (List.append_nil _).symm⟩
  | renamed => exact ⟨[], List.not_mem_nil, (List.append_nil _).symm⟩
  | @torn op line bytes count decided encoded part =>
      refine ⟨bytes.take count, ?_, rfl⟩
      have whole := encode_eq_some encoded
      rw [whole, List.length_append, List.length_singleton] at part
      rw [whole, List.take_append_of_le_length (by omega)]
      exact fun member => newline_not_mem_lineBytes line (List.mem_of_mem_take member)

variable {died : JsNumber}

/-- A reopen after a death returns the ledger whose lines the death left. -/
theorem load_death {died now : JsNumber} {ledger reached : FileLedger} {file : Bytes}
    {renamed : Bool} (stored : Stored settings ledger)
    (death : Death settings died ledger file reached renamed)
    : load settings now file
      = .ok (compactIfDue settings true now (held settings died reached renamed)) := by
  obtain ⟨tail, clean, rfl⟩ := death.file_eq
  exact load_stored ((death.inFlight.stored stored).held died renamed) clean now

theorem Step.stored {next : FileLedger} {event : Event} (step : Step settings ledger event next)
    (h : Stored settings ledger)
    : Stored settings next := by
  cases step with
  | resolve call =>
      rcases perform_cases call with ⟨-, rfl⟩ | ⟨line, bytes, planned, encoded, rfl, -⟩
      · exact h
      · exact (h.appended (plan_write_valid planned) encoded).compactIfDue false _
  | reject => exact h
  | compact => exact h.compact _
  | reopen death opened =>
      rw [load_death h death] at opened
      rw [← Except.ok.inj opened]
      exact ((death.inFlight.stored h).held _ _).compactIfDue true _

theorem Run.stored {first last : FileLedger} {events : List Event}
    (run : Run settings first events last) (h : Stored settings first)
    : Stored settings last := by
  induction run with
  | refl => exact h
  | step head _ ih => exact ih (head.stored h)

theorem stored_empty : Stored settings (ledgerOf settings []) :=
  ⟨[], by simp, rfl⟩

/-- An empty directory opens as the ledger without lines. -/
theorem load_empty (settings : Settings T) (now : JsNumber)
    : load settings now [] = .ok (ledgerOf settings []) := by
  have empty := load_stored (@stored_empty T _ settings) List.not_mem_nil now
  have notDue : compactDue settings true now (ledgerOf settings []) = false := by
    simp [compactDue, ledgerOf, liveLines, replay, Memory.empty, JsMap.empty, JsMap.values,
      JsMap.size]
  rw [compactIfDue, notDue] at empty
  exact empty

theorem Reachable.stored (h : Reachable settings ledger)
    : Stored settings ledger := by
  obtain ⟨now, opened, events, start, run⟩ := h
  rw [load_empty] at start
  apply run.stored
  rw [← Except.ok.inj start]
  exact stored_empty

/-- Two memories answer alike from `now` on. -/
structure SameAnswers (num : Numbers T) (now : JsNumber) (left right : Memory) : Prop where
  records : SameRecords num now left right
  originals : SameOriginals num now left right

theorem SameAnswers.refl (num : Numbers T) (now : JsNumber) (memory : Memory)
    : SameAnswers num now memory memory := by
  constructor
  · constructor <;> intros <;> rfl
  · intros _ _ _ _ _
    rfl

variable {num : Numbers T}

variable {memory : Memory}

/-- A compaction keeps every answer exactly where the index is current. -/
theorem sameAnswers_compacted_iff (sound : memory.Sound)
    : SameAnswers num now (memory.compacted num now) memory
      ↔ OriginalsCurrent num now memory := by
  rw [← sameOriginals_iff sound]
  constructor
  · exact SameAnswers.originals
  · exact fun originals => ⟨compacted_sameRecords sound, originals⟩

/-- A rewrite that may be skipped keeps every answer exactly where the index is current at it. -/
theorem sameAnswers_rewrite_iff (sound : memory.Sound) (rewrites : Bool)
    : SameAnswers num now (if rewrites then memory.compacted num now else memory) memory
      ↔ (rewrites = true → OriginalsCurrent num now memory) := by
  cases rewrites with
  | false => simp [SameAnswers.refl]
  | true => simpa using sameAnswers_compacted_iff sound

theorem filter_live_filter (order : num.value died ≤ num.value now) (records : List Members)
    : (records.filter (live num died)).filter (live num now) = records.filter (live num now) := by
  rw [List.filter_filter]
  apply List.filter_congr
  intro r _
  cases alive : live num now r with
  | false => simp
  | true => simp [live_of_live order alive]

/-- A compaction leaves the same lines to a later one. -/
theorem liveLines_compacted (sound : memory.Sound) (order : num.value died ≤ num.value now)
    : (memory.compacted num died).liveLines num now = memory.liveLines num now := by
  rw [liveLines, compacted_commands sound, compacted_seen sound, JsMap.values_filter,
    JsMap.values_filter, filter_live_filter order, filter_live_filter order, ← liveLines]

/-- A forced compaction that is not due finds nothing expired. -/
theorem live_of_not_due (h : compactDue settings true now ledger = false)
    : ledger.memory.commands.values.filter (live settings.num now)
        = ledger.memory.commands.values
      ∧ ledger.memory.seen.values.filter (live settings.num now)
        = ledger.memory.seen.values := by
  have commands := List.length_filter_le (live settings.num now) ledger.memory.commands.values
  have seen := List.length_filter_le (live settings.num now) ledger.memory.seen.values
  simp only [compactDue, Bool.not_true, Bool.false_and, Bool.false_eq_true, if_false,
    Bool.true_and, Bool.or_eq_false_iff, decide_eq_false_iff_not, liveLines,
    List.length_append, List.length_map, JsMap.size] at h
  have commandsSame : (ledger.memory.commands.values.filter (live settings.num now)).length
      = ledger.memory.commands.values.length := by
    simp only [JsMap.values, List.length_map] at *
    omega
  have seenSame : (ledger.memory.seen.values.filter (live settings.num now)).length
      = ledger.memory.seen.values.length := by
    simp only [JsMap.values, List.length_map] at *
    omega
  exact ⟨List.filter_sublist.eq_of_length commandsSame,
    List.filter_sublist.eq_of_length seenSame⟩

/-- Whether the records of a ledger are rewritten between a death and the end of its reopen. -/
def rewrites (settings : Settings T) (now : JsNumber) (reached : FileLedger) (renamed : Bool)
    : Bool :=
  renamed || compactDue settings true now reached

theorem compactIfDue_memory (stored : Stored settings ledger) (force : Bool) (now : JsNumber)
    : (compactIfDue settings force now ledger).memory
      = if compactDue settings force now ledger then ledger.memory.compacted settings.num now
        else ledger.memory := by
  unfold compactIfDue
  split
  · rw [stored.compact_eq]
    rfl
  · rfl

/-- Two compactions in a row leave what the second leaves, whether or not it runs. -/
theorem compactIfDue_compact_memory (stored : Stored settings reached)
    (order : settings.num.value died ≤ settings.num.value now)
    : (compactIfDue settings true now (compact settings died reached)).memory
      = reached.memory.compacted settings.num now := by
  have lines := liveLines_compacted stored.sound order
  have first : (compact settings died reached).memory
      = reached.memory.compacted settings.num died := by
    rw [stored.compact_eq]
    rfl
  rw [compactIfDue_memory (stored.compact died), first]
  split
  · rw [Memory.compacted, lines, ← Memory.compacted]
  · next notDue =>
      obtain ⟨commands, seen⟩ := live_of_not_due (Bool.not_eq_true _ ▸ notDue)
      rw [first] at commands seen
      have same : reached.memory.liveLines settings.num now
          = reached.memory.liveLines settings.num died := by
        rw [← lines, liveLines, commands, seen, compacted_commands stored.sound,
          compacted_seen stored.sound, JsMap.values_filter, JsMap.values_filter, ← liveLines]
      rw [Memory.compacted, Memory.compacted, same]

/-- What a ledger reopened after a death holds in memory. -/
theorem reopened_memory (stored : Stored settings reached)
    (order : settings.num.value died ≤ settings.num.value now) (renamed : Bool)
    : (compactIfDue settings true now (held settings died reached renamed)).memory
      = if rewrites settings now reached renamed then
          reached.memory.compacted settings.num now
        else reached.memory := by
  cases renamed with
  | true =>
      rw [rewrites, Bool.true_or, if_pos rfl]
      exact compactIfDue_compact_memory stored order
  | false =>
      rw [rewrites, Bool.false_or]
      exact compactIfDue_memory stored true now

/-- In every reachable ledger a compaction, the one that an append makes, and a death with its
reopen keep every answer about what has not expired, exactly where the index of original
command ids is current whenever records are rewritten. A reopen is never refused and always
keeps the records, the seen events and the pending work.
-/
theorem ledger_recovers {ledger : FileLedger} (reachable : Reachable settings ledger)
    : (∀ now,
        SameAnswers settings.num now (compact settings now ledger).memory ledger.memory
        ↔ OriginalsCurrent settings.num now ledger.memory)
      ∧ (∀ now reached, InFlight settings now ledger reached →
        (SameAnswers settings.num now (compactIfDue settings false now reached).memory
            reached.memory
          ↔ (compactDue settings false now reached = true →
            OriginalsCurrent settings.num now reached.memory)))
      ∧ ∀ died now file reached renamed, Death settings died ledger file reached renamed →
        settings.num.value died ≤ settings.num.value now →
        ∃ next, load settings now file = .ok next
          ∧ SameRecords settings.num now next.memory reached.memory
          ∧ (SameAnswers settings.num now next.memory reached.memory
            ↔ (rewrites settings now reached renamed = true →
              OriginalsCurrent settings.num now reached.memory)) := by
  have stored := reachable.stored
  refine ⟨?_, ?_, ?_⟩
  · intro now
    rw [stored.compact_eq]
    exact sameAnswers_compacted_iff stored.sound
  · intro now reached inFlight
    have stored := inFlight.stored stored
    rw [compactIfDue_memory stored]
    exact sameAnswers_rewrite_iff stored.sound _
  · intro died now file reached renamed death order
    have opened : load settings now file = _ := load_death stored death
    have stored := death.inFlight.stored stored
    refine ⟨_, opened, ?_, ?_⟩
    · rw [reopened_memory stored order]
      split
      · exact compacted_sameRecords stored.sound
      · exact (SameAnswers.refl _ _ _).records
    · rw [reopened_memory stored order]
      exact sameAnswers_rewrite_iff stored.sound _

/-- The clock of whole milliseconds with the horizon of one day. -/
def millis : Numbers Int where
  value
    | .int value => value
    | .decimal _ => 0
  expiry deadlineAt claimedAt :=
    .int (max (match deadlineAt with | .int value => value | .decimal _ => 0)
      (match claimedAt with | .int value => value | .decimal _ => 0) + 24 * 60 * 60 * 1000)
  expiry_ge := by
    intro deadlineAt claimedAt
    cases claimedAt <;> simp only <;> omega

def millisSettings : Settings Int where
  num := millis
  sha256Hex := Sha256.hex
  minCompactLines := 1024

def repeated (digit : Char) : JsString :=
  List.replicate 64 (unitOf digit)

def claimInput (digit : Char) : Members :=
  [(lit "direction", .string (lit "toNats")), (lit "commandId", .string (repeated digit)),
    (lit "originalCommandId", .string (lit "run")), (lit "sourceEventId", .string (lit "event")),
    (lit "bodyDigest", .string (repeated '0')), (lit "sourceMachine", .string (lit "a")),
    (lit "requesterId", .string (lit "requester")), (lit "replyTo", .string (lit "requester")),
    (lit "targetId", .string (lit "target")), (lit "operation", .string (lit "followUp")),
    (lit "origin", .string (lit "topic")), (lit "ownerHostId", .string (lit "host")),
    (lit "ownerIdentityId", .string (lit "owner")), (lit "deadlineAt", .number (.int 0)),
    (lit "from", .object [(lit "id", .string (lit "id")), (lit "name", .string (lit "name")),
      (lit "kind", .string (lit "agent"))]),
    (lit "envelopeId", .string (lit "envelope")), (lit "resolvedBody", .object []),
    (lit "targetMachine", .string (lit "b"))]

/-- The record that claim stores at the time 0. -/
def claimedRecord (digit : Char) : Members :=
  claimRecord millis (.int 0) (claimInput digit)

def sentLines : List Line :=
  [.cmd (claimedRecord 'a'), .cmd (claimedRecord 'b'),
    .cmd ((claimedRecord 'a').assign [stateChange .sent])]

theorem Run.snoc {first middle last : FileLedger} {events : List Event} {event : Event}
    (run : Run settings first events middle) (step : Step settings middle event last)
    : Run settings first (events ++ [event]) last := by
  induction run with
  | refl => exact .step step .refl
  | step head _ ih => exact .step head (ih step)

theorem Reachable.write {lines : List Line} (h : Reachable settings (ledgerOf settings lines))
    {op : Op} {line : Line} (planned : plan settings.num now (replay lines) op = .ok (.write line))
    (short : (Json.stringify (.object line.record)).length ≤ 900000)
    (few : lines.length < settings.minCompactLines)
    : Reachable settings (ledgerOf settings (lines ++ [line])) := by
  obtain ⟨opening, opened, events, start, run⟩ := h
  have encoded := @encode_of_short settings.sha256Hex line short
  have call : perform settings now op (ledgerOf settings lines)
      = .ok (writtenReply op line (replay (lines ++ [line])),
          ledgerOf settings (lines ++ [line])) := by
    have notDue : compactIfDue settings false now (ledgerOf settings (lines ++ [line]))
        = ledgerOf settings (lines ++ [line]) := by
      have small : (ledgerOf settings (lines ++ [line])).lines ≤ settings.minCompactLines := by
        simpa [ledgerOf] using few
      simp only [compactIfDue, compactDue, Bool.not_false, Bool.true_and, small, decide_true,
        if_true, Bool.false_eq_true, if_false]
    have decided : plan settings.num now (ledgerOf settings lines).memory op
        = .ok (.write line) :=
      planned
    rw [perform, decided]
    simp only [bind, Except.bind, append, encoded, appended_ledgerOf encoded, notDue]
    rfl
  exact ⟨opening, opened, _, start, run.snoc (.resolve call)⟩

def claimedLines : List Line :=
  [.cmd (claimedRecord 'a'), .cmd (claimedRecord 'b')]

set_option maxRecDepth 10000 in
theorem reachable_claimedLines
    : Reachable millisSettings
        (ledgerOf millisSettings claimedLines) := by
  have opened : Reachable millisSettings (ledgerOf millisSettings []) :=
    ⟨.int 0, _, [], load_empty _ _, .refl⟩
  have planned (digit : Char) (lines : List Line)
      (h : plan millis (.int 0) (replay lines) (.claim (claimInput digit))
        = .ok (.write (.cmd (claimedRecord digit))))
      : plan millisSettings.num (.int 0) (replay lines) (.claim (claimInput digit))
        = .ok (.write (.cmd (claimedRecord digit))) :=
    h
  have first := opened.write (planned 'a' [] rfl) (by decide +kernel)
    (show 0 < 1024 by decide)
  exact first.write (planned 'b' [.cmd (claimedRecord 'a')] rfl) (by decide +kernel)
    (show 1 < 1024 by decide)

set_option maxRecDepth 10000 in
theorem reachable_sentLines
    : Reachable millisSettings
        (ledgerOf millisSettings sentLines) := by
  have planned : plan millisSettings.num (.int 0) (replay claimedLines)
      (.markSent (repeated 'a') none none)
      = .ok (.write (.cmd ((claimedRecord 'a').assign [stateChange .sent]))) :=
    show plan millis _ _ _ = _ from rfl
  exact reachable_claimedLines.write planned (by decide +kernel)
    (show 2 < 1024 by decide)

/-- Witness: a death after the two claims and the send, with the reopen a millisecond later. -/
theorem ledger_recovers_sent
    : ∃ next,
        load millisSettings (.int 1)
            (ledgerOf millisSettings sentLines).file = .ok next
          ∧ SameRecords millis (.int 1) next.memory (replay sentLines) := by
  obtain ⟨next, opened, same, -⟩ := (ledger_recovers reachable_sentLines).2.2
    (.int 0) (.int 1) _ _ false (.between .idle) (show (0 : Int) ≤ 1 by decide)
  exact ⟨next, opened, same⟩

/-- After the two claims and the send, the index names the first command; a compaction makes it
name the second.
-/
theorem original_moves_at_compaction
    : Reachable millisSettings (ledgerOf millisSettings sentLines)
        ∧ ¬SameAnswers millis (.int 0)
          (compact millisSettings (.int 0) (ledgerOf millisSettings sentLines)).memory
          (ledgerOf millisSettings sentLines).memory := by
  have reachable := reachable_sentLines
  refine ⟨reachable, ?_⟩
  intro same
  have answers := same.originals (.int 0) (le_refl _) .toNats (lit "requester") (lit "run")
  rw [reachable.stored.compact_eq] at answers
  have names := congrArg (Option.map commandIdOf) answers
  have before : ((replay sentLines).lookupOriginal millis (.int 0) .toNats (lit "requester")
      (lit "run")).map commandIdOf = some (repeated 'a') := by
    decide +kernel
  have after : (((replay sentLines).compacted millis (.int 0)).lookupOriginal millis (.int 0)
      .toNats (lit "requester") (lit "run")).map commandIdOf = some (repeated 'b') := by
    decide +kernel
  have moved : some (repeated 'b') = some (repeated 'a') :=
    after.symm.trans (names.trans before)
  exact absurd moved (by decide)

end PiFabric.Ledger
