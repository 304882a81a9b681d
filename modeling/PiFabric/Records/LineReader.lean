import PiFabric.Foundation.TextBytes

/-! The reader that splits the service's byte stream into lines and refuses an overlong one. What it
reports up to its first refusal depends on the stream alone, not on how the stream was cut into
chunks.
-/

namespace PiFabric.Records

open JsString

def maxLineBytes : Nat := 1024 * 1024

def newline : UInt16 := 0x0A

inductive ReaderCall where
  | onLine (line : JsString)
  | onOverflow
deriving DecidableEq

def Overlong (text : JsString) : Prop :=
  maxLineBytes < Utf8.byteLength text

instance (text : JsString) : Decidable (Overlong text) :=
  inferInstanceAs (Decidable (maxLineBytes < Utf8.byteLength text))

/-- The loop of `push` and the check after it: the calls that are made, and the buffer that is left.
-/
def drain (buffer : JsString) : List ReaderCall × JsString :=
  match found : buffer.idxOf? newline with
  | none => if Overlong buffer then ([.onOverflow], []) else ([], buffer)
  | some index =>
      let line := buffer.take index
      let rest := buffer.drop (index + 1)
      if Overlong line then ([.onOverflow], [])
      else
        let after := drain rest
        (if trim line = [] then after.1 else .onLine line :: after.1, after.2)
termination_by buffer.length
decreasing_by
  have bound : index < buffer.length := (List.idxOf?_eq_some_iff.mp found).1
  simp only [List.length_drop]
  omega

def push (buffer chunk : JsString) : List ReaderCall × JsString :=
  drain (buffer ++ chunk)

def pushAll : JsString → List JsString → List ReaderCall
  | _, [] => []
  | buffer, chunk :: rest => (push buffer chunk).1 ++ pushAll (push buffer chunk).2 rest

def linesBefore (calls : List ReaderCall) : List ReaderCall :=
  calls.takeWhile (· ≠ .onOverflow)

/-- The newline-terminated lines of a stream up to the first overlong one, without the blank ones.
-/
def expectedLines (stream : JsString) : List ReaderCall :=
  (((stream.splitOn newline).dropLast.takeWhile (¬ Overlong ·)).filter (trim · ≠ [])).map .onLine

/-- A line or the unterminated tail is overlong. -/
def Refused (stream : JsString) : Prop :=
  ∃ piece ∈ stream.splitOn newline, Overlong piece

/-- Texts go by their first line. -/
theorem lines_induction {motive : JsString → Prop} (tail : ∀ text, newline ∉ text → motive text)
    (line : ∀ line rest, newline ∉ line → motive rest → motive (line ++ newline :: rest))
    (text : JsString)
    : motive text := by
  induction size : text.length using Nat.strong_induction_on generalizing text with
  | _ size_ ih =>
      by_cases ended : newline ∈ text
      · obtain ⟨first, rest, rfl, clean⟩ := List.eq_append_cons_of_mem ended
        refine line first rest clean (ih rest.length ?_ rest rfl)
        simp only [List.length_append, List.length_cons] at size
        omega
      · exact tail text ended

variable {text : JsString}

theorem splitOn_tail (clean : newline ∉ text) : text.splitOn newline = [text] :=
  List.splitOn_eq_singleton clean

variable {line : JsString}

theorem splitOn_line (clean : newline ∉ line) (rest : JsString)
    : (line ++ newline :: rest).splitOn newline = line :: rest.splitOn newline := by
  rw [List.splitOn_eq_splitOnP, List.splitOnP_append_cons_of_forall_mem _ _ (by simp)]
  · rfl
  · intro unit member
    rw [beq_eq_false_iff_ne]
    rintro rfl
    exact clean member

theorem expectedLines_tail (clean : newline ∉ text)
    : expectedLines text = [] := by
  rw [expectedLines, splitOn_tail clean]
  rfl

theorem refused_tail (clean : newline ∉ text) : Refused text ↔ Overlong text := by
  rw [Refused, splitOn_tail clean]
  simp

def lineCall (line : JsString) : List ReaderCall :=
  if trim line = [] then [] else [.onLine line]

theorem expectedLines_line (clean : newline ∉ line) (rest : JsString)
    : expectedLines (line ++ newline :: rest)
        = if Overlong line then [] else lineCall line ++ expectedLines rest := by
  rw [expectedLines, splitOn_line clean, List.dropLast_cons_of_ne_nil (List.splitOn_ne_nil _ _)]
  by_cases long : Overlong line
  · simp [long]
  · by_cases blank : trim line = []
    · simp [long, blank, lineCall, expectedLines]
    · simp [long, blank, lineCall, expectedLines]

theorem refused_line (clean : newline ∉ line) (rest : JsString)
    : Refused (line ++ newline :: rest) ↔ Overlong line ∨ Refused rest := by
  rw [Refused, splitOn_line clean]
  simp [Refused]

theorem Overlong.append (long : Overlong text) (more : JsString)
    : Overlong (text ++ more) :=
  long.trans_le (Utf8.byteLength_le_append text more)

/-- An overlong text without a newline is refused, however it goes on. -/
theorem Overlong.refused (long : Overlong text) (clean : newline ∉ text) (more : JsString)
    : expectedLines (text ++ more) = [] ∧ Refused (text ++ more) := by
  by_cases ended : newline ∈ more
  · obtain ⟨first, rest, rfl, more_clean⟩ := List.eq_append_cons_of_mem ended
    have whole : newline ∉ text ++ first := by
      rw [List.mem_append]
      exact not_or.mpr ⟨clean, more_clean⟩
    rw [← List.append_assoc]
    rw [expectedLines_line whole, refused_line whole, if_pos (long.append first)]
    exact ⟨rfl, .inl (long.append first)⟩
  · have whole : newline ∉ text ++ more := by
      rw [List.mem_append]
      exact not_or.mpr ⟨clean, ended⟩
    exact ⟨expectedLines_tail whole, (refused_tail whole).mpr (long.append more)⟩

theorem overflow_not_mem_lineCall (line : JsString) : .onOverflow ∉ lineCall line := by
  unfold lineCall
  split
  · exact List.not_mem_nil
  · rw [List.mem_singleton]
    intro same
    cases same

theorem linesBefore_quiet {calls : List ReaderCall} (quiet : .onOverflow ∉ calls)
    (more : List ReaderCall)
    : linesBefore (calls ++ more) = calls ++ linesBefore more := by
  unfold linesBefore
  refine List.takeWhile_append_of_pos ?_
  intro call member
  rw [decide_eq_true_iff]
  rintro rfl
  exact quiet member

theorem linesBefore_append (line : JsString) (more : List ReaderCall)
    : linesBefore (lineCall line ++ more) = lineCall line ++ linesBefore more :=
  linesBefore_quiet (overflow_not_mem_lineCall line) more

theorem linesBefore_stopped {calls : List ReaderCall} (stopped : .onOverflow ∈ calls)
    (more : List ReaderCall)
    : linesBefore (calls ++ more) = linesBefore calls := by
  induction calls with
  | nil => cases stopped
  | cons call rest ih =>
      cases call with
      | onOverflow => rfl
      | onLine line =>
          have later : .onOverflow ∈ rest := by simpa using stopped
          exact congrArg (ReaderCall.onLine line :: ·) (ih later)

theorem drain_tail {buffer : JsString} (clean : newline ∉ buffer)
    : drain buffer = if Overlong buffer then ([.onOverflow], []) else ([], buffer) := by
  have absent : buffer.idxOf? newline = none := List.idxOf?_eq_none_iff.mpr clean
  rw [drain]
  split
  · rfl
  · rename_i found
    rw [absent] at found
    cases found

theorem drain_line (clean : newline ∉ line) (rest : JsString)
    : drain (line ++ newline :: rest)
        = if Overlong line then ([.onOverflow], [])
          else (lineCall line ++ (drain rest).1, (drain rest).2) := by
  have first : (line ++ newline :: rest).idxOf? newline = some line.length := by
    rw [List.idxOf?_eq_some_iff]
    refine ⟨by simp, by simp, ?_⟩
    intro index below same
    rw [List.getElem_append_left below] at same
    exact clean (same ▸ List.getElem_mem below)
  rw [drain]
  split
  · rename_i found
    rw [first] at found
    cases found
  · rename_i index found
    obtain rfl : line.length = index := Option.some.inj (first.symm.trans found)
    have after : (line ++ newline :: rest).drop (line.length + 1) = rest := by
      rw [List.drop_append]
      simp
    simp only [List.take_left, after]
    split
    · rfl
    · by_cases blank : trim line = []
      · simp [lineCall, blank]
      · simp [lineCall, blank]

/-- What a buffer's loop has reported, when more of the stream comes: either it has refused what the
whole stream is refused for, or the rest of the stream goes on from the buffer that it left.
-/
structure Drained (text : JsString) (calls : List ReaderCall) (left : JsString) : Prop where
  refused : .onOverflow ∈ calls → ∀ more,
    linesBefore calls = expectedLines (text ++ more) ∧ Refused (text ++ more)
  quiet : .onOverflow ∉ calls →
    newline ∉ left ∧ ¬ Overlong left ∧ ∀ more,
      expectedLines (text ++ more) = calls ++ expectedLines (left ++ more)
        ∧ (Refused (text ++ more) ↔ Refused (left ++ more))

theorem drain_drained (text : JsString) : Drained text (drain text).1 (drain text).2 := by
  induction text using lines_induction with
  | tail text clean =>
      rw [drain_tail clean]
      by_cases long : Overlong text
      · rw [if_pos long]
        refine ⟨fun _ more => ?_, fun absent => absurd (List.mem_singleton.mpr rfl) absent⟩
        have refused := long.refused clean more
        exact ⟨refused.1.symm, refused.2⟩
      · rw [if_neg long]
        exact ⟨fun there => absurd there List.not_mem_nil, fun _ => ⟨clean, long, fun _ => by simp⟩⟩
  | line line rest clean ih =>
      rw [drain_line clean]
      by_cases long : Overlong line
      · rw [if_pos long]
        refine ⟨fun _ more => ?_, fun absent => absurd (List.mem_singleton.mpr rfl) absent⟩
        rw [List.append_assoc, List.cons_append, expectedLines_line clean, refused_line clean,
          if_pos long]
        exact ⟨rfl, .inl long⟩
      · rw [if_neg long]
        have heard
            : .onOverflow ∈ lineCall line ++ (drain rest).1 ↔ .onOverflow ∈ (drain rest).1 := by
          rw [List.mem_append, or_iff_right (overflow_not_mem_lineCall line)]
        refine ⟨fun there more => ?_, fun absent => ?_⟩
        · obtain ⟨lines, refused⟩ := ih.refused (heard.mp there) more
          rw [List.append_assoc, List.cons_append, expectedLines_line clean, refused_line clean,
            if_neg long, linesBefore_append, lines]
          exact ⟨rfl, .inr refused⟩
        · obtain ⟨left, short, later⟩ := ih.quiet fun there => absent (heard.mpr there)
          refine ⟨left, short, fun more => ?_⟩
          obtain ⟨lines, refused⟩ := later more
          rw [List.append_assoc, List.cons_append, expectedLines_line clean, refused_line clean,
            if_neg long, lines, List.append_assoc, or_iff_right long]
          exact ⟨rfl, refused⟩

theorem pushAll_reports (chunks : List JsString) {buffer : JsString} (clean : newline ∉ buffer)
    (short : ¬ Overlong buffer)
    : linesBefore (pushAll buffer chunks) = expectedLines (buffer ++ chunks.flatten)
        ∧ (.onOverflow ∈ pushAll buffer chunks ↔ Refused (buffer ++ chunks.flatten)) := by
  induction chunks generalizing buffer with
  | nil =>
      rw [List.flatten_nil, List.append_nil, expectedLines_tail clean, refused_tail clean]
      exact ⟨rfl, iff_of_false List.not_mem_nil short⟩
  | cons chunk rest ih =>
      rw [List.flatten_cons, ← List.append_assoc, pushAll, push]
      have drained := drain_drained (buffer ++ chunk)
      by_cases stopped : .onOverflow ∈ (drain (buffer ++ chunk)).1
      · obtain ⟨lines, refused⟩ := drained.refused stopped rest.flatten
        rw [linesBefore_stopped stopped, List.mem_append]
        exact ⟨lines, iff_of_true (.inl stopped) refused⟩
      · obtain ⟨left, quiet, later⟩ := drained.quiet stopped
        obtain ⟨lines, refused⟩ := later rest.flatten
        obtain ⟨more, heard⟩ := ih left quiet
        rw [linesBefore_quiet stopped, more, lines, List.mem_append, or_iff_right stopped, heard,
          refused]
        exact ⟨rfl, Iff.rfl⟩

/-- What is reported before the first overflow, and whether there is one, is told by the stream. Two
ways of cutting one stream into chunks report the same.
-/
theorem lineReader_independent_of_chunking
    : (∀ chunks : List JsString,
        linesBefore (pushAll [] chunks) = expectedLines chunks.flatten
          ∧ (.onOverflow ∈ pushAll [] chunks ↔ Refused chunks.flatten))
      ∧ ∀ chunks others : List JsString, chunks.flatten = others.flatten →
          linesBefore (pushAll [] chunks) = linesBefore (pushAll [] others)
            ∧ (.onOverflow ∈ pushAll [] chunks ↔ .onOverflow ∈ pushAll [] others) := by
  have reports (chunks : List JsString)
      : linesBefore (pushAll [] chunks) = expectedLines chunks.flatten
        ∧ (.onOverflow ∈ pushAll [] chunks ↔ Refused chunks.flatten) :=
    pushAll_reports chunks List.not_mem_nil (by decide)
  refine ⟨reports, ?_⟩
  intro chunks others same
  rw [(reports chunks).1, (reports chunks).2, (reports others).1, (reports others).2, same]
  exact ⟨rfl, Iff.rfl⟩

/-- A chunk may end between the halves of a surrogate pair. -/
theorem lineReader_independent_of_split_pair
    : linesBefore (pushAll [] [[0xD83D], [0xDE00, newline]])
      = linesBefore (pushAll [] [[0xD83D, 0xDE00, newline]]) :=
  (lineReader_independent_of_chunking.2 [[0xD83D], [0xDE00, newline]] [[0xD83D, 0xDE00, newline]]
    rfl).1

end PiFabric.Records
