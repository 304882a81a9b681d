import PiFabric.Foundation.LineLog
import PiFabric.Foundation.Utf8

/-! Publication to the live event log: the appends of one hold and the compaction that ends it. -/

namespace PiFabric.EventLog

open LineLog JsString

def cursorOffsetBase : Nat := 2 ^ 32

def defaultMaxEventLogBytes : Nat := 64 * 1024 * 1024

def defaultRetainedEventLogBytes : Nat := 16 * 1024 * 1024

/-- The sizes of `EventLogOptions`, rounded down. -/
structure SizeOptions where
  maxEventLogBytes : Option Int
  retainedEventLogBytes : Option Int

/-- The sizes of an event log. The retained tail is shorter than a log that is compacted. -/
structure Limits where
  maxEventBytes : Nat
  maxEventLogBytes : Nat
  retainedEventLogBytes : Nat
  retained_pos : 0 < retainedEventLogBytes
  retained_lt : retainedEventLogBytes < maxEventLogBytes

def clampedMax (maxEventBytes : Nat) (options : SizeOptions) : Int :=
  min (cursorOffsetBase - 1)
    (max (maxEventBytes + 2) (options.maxEventLogBytes.getD defaultMaxEventLogBytes))

def clampedRetained (maxEventBytes : Nat) (options : SizeOptions) : Int :=
  min (clampedMax maxEventBytes options - 1)
    (max (maxEventBytes + 1) (options.retainedEventLogBytes.getD defaultRetainedEventLogBytes))

theorem clamped_bounds (maxEventBytes : Nat) (options : SizeOptions)
    : 0 < clampedRetained maxEventBytes options
      ∧ clampedRetained maxEventBytes options < clampedMax maxEventBytes options := by
  simp only [clampedRetained, clampedMax, cursorOffsetBase]
  omega

def Limits.of (maxEventBytes : Nat) (options : SizeOptions) : Limits where
  maxEventBytes
  maxEventLogBytes := (clampedMax maxEventBytes options).toNat
  retainedEventLogBytes := (clampedRetained maxEventBytes options).toNat
  retained_pos := by
    have bounds := clamped_bounds maxEventBytes options
    omega
  retained_lt := by
    have bounds := clamped_bounds maxEventBytes options
    omega

/-- A line of the log, without its newline. -/
abbrev Line := { bytes : Bytes // newline ∉ bytes }

def text (lines : List Line) : Bytes :=
  join (lines.map Subtype.val)

theorem text_append (first second : List Line)
    : text (first ++ second) = text first ++ text second := by
  simp only [text, List.map_append, join_append]

theorem length_text_append (first second : List Line)
    : (text (first ++ second)).length = (text first).length + (text second).length := by
  rw [text_append, List.length_append]

def retainedStart (captured : Bytes) (retentionBoundary : Nat) : Nat :=
  if retentionBoundary = 0 then 0
  else
    match (captured.drop retentionBoundary).findIdx? (· = newline) with
    | some index => retentionBoundary + index + 1
    | none => captured.length

/-- `#compactEventLog`: the live log after it. The size was taken before settling, which may append
`settled`.
-/
def compactEventLog (limits : Limits) (settled log : Bytes) : Bytes :=
  let size := log.length
  if size ≤ limits.maxEventLogBytes then log
  else
    let readBytes := min size (limits.retainedEventLogBytes + limits.maxEventBytes + 1)
    let captured := ((log ++ settled).drop (size - readBytes)).take readBytes
    let retentionBoundary := captured.length - limits.retainedEventLogBytes
    captured.drop (retainedStart captured retentionBoundary)

/-- From the retained start on is what follows the first newline after the boundary. -/
theorem drop_retainedStart {captured : Bytes} {boundary : Nat} (later : boundary ≠ 0)
    : captured.drop (retainedStart captured boundary)
      = afterNewline (captured.drop boundary) := by
  rw [retainedStart, if_neg later, afterNewline]
  cases found : (captured.drop boundary).findIdx? (· = newline) with
  | none =>
      have absent : ∀ byte ∈ captured.drop boundary, (decide (byte ≠ newline)) = true := by
        simpa using List.findIdx?_eq_none_iff.mp found
      rw [List.drop_length, List.dropWhile_eq_nil_iff.mpr absent, List.drop_nil]
  | some index =>
      have first := List.findIdx?_eq_some_iff_findIdx_eq.mp found
      rw [List.dropWhile_eq_drop_findIdx_not, List.drop_drop, List.drop_drop]
      have same : (fun byte : UInt8 => !decide (byte ≠ newline)) = fun byte => byte = newline := by
        funext byte
        simp
      rw [same, first.2]
      rfl

variable {limits : Limits}

/-- Compaction keeps what follows the first newline of the last `retainedEventLogBytes` bytes. -/
theorem compactEventLog_eq {settled log : Bytes} (long : limits.maxEventLogBytes < log.length)
    : compactEventLog limits settled log
      = afterNewline (log.drop (log.length - limits.retainedEventLogBytes)) := by
  have below := limits.retained_lt
  simp only [compactEventLog, if_neg (not_le.mpr long)]
  have captured : ((log ++ settled).drop (log.length
        - min log.length (limits.retainedEventLogBytes + limits.maxEventBytes + 1))).take
        (min log.length (limits.retainedEventLogBytes + limits.maxEventBytes + 1))
      = log.drop (log.length
        - min log.length (limits.retainedEventLogBytes + limits.maxEventBytes + 1)) := by
    rw [List.drop_append_of_le_length (by omega), List.take_append_of_le_length (by
      rw [List.length_drop]
      omega), List.take_of_length_le (by
      rw [List.length_drop]
      omega)]
  rw [captured, drop_retainedStart (by
    rw [List.length_drop]
    omega), List.drop_drop]
  congr 2
  rw [List.length_drop]
  omega

/-- The compacted log is the old one without some lines at its start, and it keeps the last lines
`own` exactly where the log was not rewritten or they are shorter than the retained tail.
-/
theorem compactEventLog_keeps (limits : Limits) (settled : Bytes) (before own : List Line)
    : (∃ kept, kept <:+ before ++ own
        ∧ compactEventLog limits settled (text (before ++ own)) = text kept ∧ own <:+ kept)
      ↔ (text (before ++ own)).length ≤ limits.maxEventLogBytes
        ∨ (text own).length < limits.retainedEventLogBytes := by
  by_cases short : (text (before ++ own)).length ≤ limits.maxEventLogBytes
  · refine iff_of_true ⟨before ++ own, List.suffix_rfl, ?_, List.suffix_append _ _⟩ (Or.inl short)
    simp only [compactEventLog, if_pos short]
  · have below := limits.retained_lt
    have positive := limits.retained_pos
    rw [not_le] at short
    have clean : ∀ line ∈ (before ++ own).map Subtype.val, newline ∉ line := by
      intro line member
      obtain ⟨line, _, rfl⟩ := List.mem_map.mp member
      exact line.2
    obtain ⟨dropped, bound, cut, low, high⟩ := afterNewline_drop_join clean
      (show (text (before ++ own)).length - limits.retainedEventLogBytes
        < (join ((before ++ own).map Subtype.val)).length by
          rw [← text]
          omega)
    rw [← List.map_drop, ← text, ← text, ← compactEventLog_eq short] at cut
    rw [← List.map_take, ← text] at low
    rw [← List.map_take, ← text] at high
    have whole (count : Nat) : (text (before ++ own)).length
        = (text ((before ++ own).take count)).length
          + (text ((before ++ own).drop count)).length := by
      rw [← List.length_append, ← text_append, List.take_append_drop]
    constructor
    · rintro ⟨kept, _, same, more, rfl⟩
      right
      have split := whole (dropped + 1)
      have longer := length_text_append more own
      rw [← cut, same] at split
      omega
    · rintro (fits | fits)
      · omega
      · refine ⟨(before ++ own).drop (dropped + 1), List.drop_suffix _ _, cut, ?_⟩
        have early : dropped < before.length := by
          by_contra late
          have all := whole before.length
          rw [List.take_left, List.drop_left] at all
          rw [List.take_append, List.take_of_length_le (by omega), text_append,
            List.length_append] at low
          omega
        rw [List.drop_append_of_le_length (by omega)]
        exact List.suffix_append _ _

/-- How the commit step of a prepared publication ends. -/
inductive Commit where
  /-- A receipt or a recovered line answers; nothing is appended. -/
  | prior
  /-- A new event: its line, never empty, and the limit of its publisher. -/
  | fresh (line : Line) (some_ : line.val ≠ []) (maxEventBytes : Option Nat)
  /-- It throws, perhaps inside its append, perhaps because its key was used for another event. -/
  | failed (appendStarted keyReused : Bool)

structure Failure where
  appendStarted : Bool
  keyReused : Bool

def commit (limits : Limits) : Commit → Except Failure (Option Line)
  | .prior => .ok none
  | .fresh line _ limit =>
      if min limits.maxEventBytes (limit.getD limits.maxEventBytes) < line.val.length then
        .error ⟨false, false⟩
      else .ok (some line)
  | .failed appendStarted keyReused => .error ⟨appendStarted, keyReused⟩

def bridgeBatchMaxEvents : Nat := 32

/-- Whether a hold ends before its next commit; `late` where `BRIDGE_BATCH_MAX_MS` has passed. -/
def heldBack (limits : Limits) (count bytes : Nat) (late : Bool) : Bool :=
  0 < count && (bridgeBatchMaxEvents ≤ count || late
    || limits.retainedEventLogBytes < bytes + 2 * limits.maxEventBytes + 1)

/-- The loop of `publishBatch` under the lock, after `count` commits that appended `bytes`: the
lines that it still appends, or none where it throws.
-/
def hold (limits : Limits) (count bytes : Nat) : List (Bool × Commit) → Option (List Line)
  | [] => some []
  | (late, next) :: rest =>
      if heldBack limits count bytes late then some []
      else
        match commit limits next with
        | .ok none => hold limits (count + 1) bytes rest
        | .ok (some line) =>
            (hold limits (count + 1) (bytes + (line.val.length + 1)) rest).map (line :: ·)
        | .error failure =>
            if failure.keyReused || failure.appendStarted || count = 0 then none else some []

inductive Publication where
  | publish (next : Commit)
  | publishBatch (prepared : List (Bool × Commit))

/-- What a call that returned has done: the lines it newly appended, and the live log. -/
structure Published where
  own : List Line
  log : Bytes
deriving DecidableEq

/-- `publish` and `publishBatch` on a log. The archive's recovery first brings back the lines
`recovered`, and settling other intents during a compaction may append `settled`.
-/
def publish (limits : Limits) (recovered : List Line) (settled log : Bytes)
    : Publication → Option Published
  | .publish next =>
      match commit limits next with
      | .ok none => some ⟨[], log ++ text recovered⟩
      | .ok (some line) =>
          some ⟨[line], compactEventLog limits settled (log ++ text recovered ++ text [line])⟩
      | .error _ => none
  | .publishBatch prepared =>
      if prepared.isEmpty || 256 < prepared.length then none
      else
        (hold limits 0 0 prepared).map fun own =>
          ⟨own, compactEventLog limits settled (log ++ text recovered ++ text own)⟩

/-- The first line that a hold appends, where `count` commits have appended nothing. -/
def firstOf (limits : Limits) (count : Nat) : List (Bool × Commit) → Option Line
  | [] => none
  | (late, next) :: rest =>
      if heldBack limits count 0 late then none
      else
        match commit limits next with
        | .ok none => firstOf limits (count + 1) rest
        | .ok (some line) => some line
        | .error _ => none

def firstOwn (limits : Limits) : Publication → Option Line
  | .publish next => (commit limits next).toOption.join
  | .publishBatch prepared => firstOf limits 0 prepared

/-- The live log of a call is what was there, less some lines at its start, and all that the call
newly appended, line by line.
-/
def Survives (before : List Line) (done : Published) : Prop :=
  ∃ kept, kept <:+ before ++ done.own ∧ done.log = text kept ∧ done.own <:+ kept

/-- The first line that the call appends is shorter than the retained tail, or the log with it is
not compacted.
-/
def Fits (limits : Limits) (before : List Line) (call : Publication) : Prop :=
  ∀ line, firstOwn limits call = some line →
    line.val.length + 1 < limits.retainedEventLogBytes
    ∨ (text (before ++ [line])).length ≤ limits.maxEventLogBytes

theorem length_text_cons (line : Line) (lines : List Line)
    : (text (line :: lines)).length = line.val.length + 1 + (text lines).length := by
  simp only [text, List.map_cons, length_join_cons]

/-- A commit appends a line of at most `maxEventBytes` bytes, and not an empty one. -/
theorem length_of_commit {next : Commit} {line : Line} (h : commit limits next = .ok (some line))
    : 0 < line.val.length ∧ line.val.length ≤ limits.maxEventBytes := by
  cases next with
  | prior => simp [commit] at h
  | failed appendStarted keyReused => simp [commit] at h
  | fresh other some_ limit =>
      simp only [commit] at h
      split at h
      · cases h
      · next fits =>
          obtain rfl := Option.some.inj (Except.ok.inj h)
          exact ⟨List.length_pos_iff.mpr some_, by omega⟩

variable {own : List Line}

/-- Once something was committed, a hold stops `maxEventBytes` bytes short of the retained tail, by
induction over the prepared commits.
-/
theorem hold_bound {count bytes : Nat} {prepared : List (Bool × Commit)} (some_ : 0 < count)
    (h : hold limits count bytes prepared = some own)
    : own = []
      ∨ bytes + (text own).length + limits.maxEventBytes ≤ limits.retainedEventLogBytes := by
  induction prepared generalizing count bytes own with
  | nil => exact Or.inl (Option.some.inj h).symm
  | cons first rest ih =>
      obtain ⟨late, next⟩ := first
      simp only [hold] at h
      split at h
      · exact Or.inl (Option.some.inj h).symm
      · next goes =>
          split at h
          · exact ih (Nat.succ_pos count) h
          · next line done =>
              obtain ⟨more, held, rfl⟩ := Option.map_eq_some_iff.mp h
              have size := length_of_commit done
              simp only [heldBack, some_, decide_true, Bool.true_and, Bool.or_eq_true,
                decide_eq_true_eq, not_or, not_lt] at goes
              right
              rw [length_text_cons]
              rcases ih (Nat.succ_pos count) held with rfl | bound
              · simp only [text, List.map_nil, join_nil, List.length_nil]
                omega
              · omega
          · split at h
            · cases h
            · exact Or.inl (Option.some.inj h).symm

/-- A hold appends nothing, or the first line alone, or lines that are together shorter than the
retained tail. By induction over the prepared commits up to the first that appends.
-/
theorem hold_lines {count : Nat} {prepared : List (Bool × Commit)}
    (h : hold limits count 0 prepared = some own)
    : own.head? = firstOf limits count prepared
      ∧ (own.length ≤ 1 ∨ (text own).length < limits.retainedEventLogBytes) := by
  induction prepared generalizing count with
  | nil =>
      obtain rfl := Option.some.inj h
      exact ⟨rfl, Or.inl (Nat.zero_le 1)⟩
  | cons first rest ih =>
      obtain ⟨late, next⟩ := first
      simp only [hold] at h
      simp only [firstOf]
      split at h
      · next stops =>
          obtain rfl := Option.some.inj h
          rw [if_pos stops]
          exact ⟨rfl, Or.inl (Nat.zero_le 1)⟩
      · next goes =>
          rw [if_neg goes]
          split at h
          · exact ih h
          · next line done =>
              obtain ⟨more, held, rfl⟩ := Option.map_eq_some_iff.mp h
              have size := length_of_commit done
              refine ⟨rfl, ?_⟩
              rcases hold_bound (Nat.succ_pos count) held with rfl | bound
              · exact Or.inl le_rfl
              · right
                rw [length_text_cons]
                omega
          · split at h
            · cases h
            · obtain rfl := Option.some.inj h
              exact ⟨rfl, Or.inl (Nat.zero_le 1)⟩

/-- The end of a hold: its lines stay exactly where the first of them fits. -/
theorem compacted_survives {settled : Bytes} {before : List Line}
    (few : own.length ≤ 1 ∨ (text own).length < limits.retainedEventLogBytes)
    : Survives before ⟨own, compactEventLog limits settled (text before ++ text own)⟩
      ↔ ∀ line, own.head? = some line → line.val.length + 1 < limits.retainedEventLogBytes
        ∨ (text (before ++ [line])).length ≤ limits.maxEventLogBytes := by
  have positive := limits.retained_pos
  rw [Survives, ← text_append]
  refine (compactEventLog_keeps limits settled before own).trans ?_
  match own, few with
  | [], _ =>
      refine iff_of_true (Or.inr ?_) (by simp)
      simpa [text] using positive
  | [line], _ =>
      rw [length_text_cons]
      simp only [text, List.map_nil, join_nil, List.length_nil, List.head?_cons,
        Option.some.injEq, forall_eq']
      exact or_comm
  | line :: next :: more, few =>
      have short : (text (line :: next :: more)).length < limits.retainedEventLogBytes := by
        rcases few with few | few
        · simp at few
        · exact few
      refine iff_of_true (Or.inr short) ?_
      rintro first same
      obtain rfl := Option.some.inj same
      rw [length_text_cons] at short
      omega

/-- A call that returns keeps all that it newly appended, each line whole, and keeps a tail of the
log from a line boundary on, exactly where its first new line fits.
-/
theorem publication_survives (limits : Limits) (prior recovered : List Line) (settled : Bytes)
    (call : Publication) {done : Published}
    (h : publish limits recovered settled (text prior) call = some done)
    : Survives (prior ++ recovered) done ↔ Fits limits (prior ++ recovered) call := by
  cases call with
  | publish next =>
      simp only [publish] at h
      split at h
      · next nothing =>
          obtain rfl := Option.some.inj h
          refine iff_of_true ⟨prior ++ recovered, ?_, (text_append ..).symm, List.nil_suffix⟩ ?_
          · rw [List.append_nil]
          · simp [Fits, firstOwn, nothing, Except.toOption]
      · next line done =>
          obtain rfl := Option.some.inj h
          rw [← text_append, compacted_survives (Or.inl le_rfl)]
          simp only [Fits, firstOwn, done, Except.toOption, Option.join_some, List.head?_cons]
      · cases h
  | publishBatch prepared =>
      simp only [publish] at h
      split at h
      · cases h
      · obtain ⟨own, held, rfl⟩ := Option.map_eq_some_iff.mp h
        obtain ⟨first, few⟩ := hold_lines held
        rw [← text_append, compacted_survives few, first]
        exact Iff.rfl

def sampleEvent : Line :=
  ⟨Utf8.encode (lit ("\x7b\"id\":\"e\",\"sequence\":2,\"topic\":\"t\",\"kind\":\"message\","
    ++ "\"from\":\x7b\"id\":\"a\",\"name\":\"a\",\"kind\":\"agent\"\x7d,\"createdAt\":1\x7d")),
    by decide +kernel⟩

/-- A store whose events may be as long as that line and `spare` bytes, with the smallest sizes that
it accepts.
-/
def tightLimits (spare : Nat) : Limits :=
  .of (sampleEvent.val.length + spare) ⟨some 0, some 0⟩

theorem sampleEvent_ne_nil : sampleEvent.val ≠ [] := by decide +kernel

/-- An event of exactly `maxEventBytes` bytes fills the smallest retained tail: its own newline is
the first one of the tail, and its publication leaves an empty live log.
-/
theorem full_event_is_compacted_away
    : publish (tightLimits 0) [] [] (text [sampleEvent])
        (.publish (.fresh sampleEvent sampleEvent_ne_nil none)) = some ⟨[sampleEvent], []⟩
      ∧ ¬Survives [sampleEvent] ⟨[sampleEvent], []⟩ := by
  refine ⟨by decide +kernel, ?_⟩
  rintro ⟨kept, _, empty, more, rfl⟩
  have size := congrArg List.length empty
  rw [length_text_append, length_text_cons, List.length_nil] at size
  omega

/-- An event that is one byte shorter than `maxEventBytes` stays in the compacted log. -/
theorem short_event_survives
    : Survives [sampleEvent] ⟨[sampleEvent], text [sampleEvent]⟩
      ↔ Fits (tightLimits 1) [sampleEvent]
        (.publish (.fresh sampleEvent sampleEvent_ne_nil none)) :=
  publication_survives (tightLimits 1) [sampleEvent] [] []
    (.publish (.fresh sampleEvent sampleEvent_ne_nil none)) (by decide +kernel)

end PiFabric.EventLog
