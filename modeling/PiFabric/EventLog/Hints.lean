import PiFabric.EventLog.Scan
import PiFabric.Foundation.JsMap

/-! The hints of `#readEventsAfter`: line ends that earlier reads have passed, from which a later
read may start. No hint changes an answer, over appends, compactions and reads in any order.
-/

namespace PiFabric.EventLog

open LineLog JsString

structure ReadHints where
  generation : Nat
  inode : Nat
  lines : List Hint
  anchors : JsMap ℚ Hint

/-- An event log with the live file as the file system shows it. A compaction gives the file another
inode and then writes the next generation; `rewriting` holds between the two.
-/
structure Log where
  file : Bytes
  inode : Nat
  generation : Nat
  rewriting : Bool
  hints : Option ReadHints

def Log.cached (log : Log) : Option ReadHints :=
  log.hints.filter fun hints => hints.generation == log.generation && hints.inode == log.inode

def boundaryOf (after : ℚ) (hints : List Hint) : Option Hint :=
  hints.foldl (fun boundary hint =>
    if hint.sequence ≤ after && boundary.all (fun old => old.sequence < hint.sequence) then some hint
    else boundary) none

def endsLine (file : Bytes) (offset : Nat) : Bool :=
  offset == 0 || file[offset - 1]? == some newline

def startOf (file : Bytes) (after : ℚ) (hints : List Hint) : Option Hint :=
  (boundaryOf after hints).filter fun hint => hint.offset ≤ file.length && endsLine file hint.offset

/-- An anchor becomes the last used one; the one used longest ago makes room. -/
def useAnchor (after : ℚ) (hint : Hint) (anchors : JsMap ℚ Hint) : JsMap ℚ Hint :=
  let used := (anchors.delete after).set after hint
  if readHintLines < used.size then
    match used.keys.head? with
    | some oldest => used.delete oldest
    | none => used
  else used

/-- The hints of a cache and of a scan by sequence, the last ones of them. -/
def lastLines (lines scanned : List Hint) : List Hint :=
  let merged := JsMap.bindAll Hint.sequence Hint.offset .empty (lines ++ scanned)
  let sorted := (merged.entries.map fun entry => (⟨entry.1, entry.2⟩ : Hint)).mergeSort
    fun left right => left.sequence ≤ right.sequence
  sorted.drop (sorted.length - readHintLines)

def Log.lines (log : Log) : List Hint :=
  log.cached.elim [] ReadHints.lines

def Log.anchors (log : Log) : JsMap ℚ Hint :=
  log.cached.elim .empty ReadHints.anchors

def Log.hinted (log : Log) : List Hint :=
  log.lines ++ log.anchors.values

def Log.scan (maxEventBytes : Nat) (query : Query) (log : Log) : Scan :=
  let start := startOf log.file query.after log.hinted
  scanFrom maxEventBytes query (start.elim 0 Hint.offset) start log.file

def readEventsAfter (maxEventBytes : Nat) (query : Query) (log : Log) : List Found × Log :=
  let scan := log.scan maxEventBytes query
  let hints :=
    if !scan.scanned.isEmpty || scan.boundary.isSome then
      some {
        generation := log.generation
        inode := log.inode
        lines := lastLines log.lines scan.scanned
        anchors := scan.boundary.elim log.anchors fun hint =>
          useAnchor query.after hint log.anchors }
    else log.hints
  (scan.events, { log with hints })

variable {maxEventBytes : Nat} {query : Query} {file : Bytes}

theorem foundLines_append (offset : Nat) (first second : List Bytes)
    : foundLines maxEventBytes offset (first ++ second)
      = foundLines maxEventBytes offset first
        ++ foundLines maxEventBytes (offset + (join first).length) second := by
  induction first generalizing offset with
  | nil => simp [foundLines]
  | cons line rest ih =>
      rw [List.cons_append, foundLines, foundLines, ih, length_join_cons, List.append_assoc]
      simp only [Nat.add_assoc]

variable {lines : List Bytes}

variable {found : Found}

/-- What lines hold is what one of them holds, by induction over them. -/
theorem mem_foundLines {offset : Nat} (member : found ∈ foundLines maxEventBytes offset lines)
    : ∃ before line after, lines = before ++ line :: after
      ∧ foundIn maxEventBytes (some (offset + (join (before ++ [line])).length)) line
        = some found := by
  induction lines generalizing offset with
  | nil => cases member
  | cons first rest ih =>
      rcases List.mem_append.mp member with here | later
      · refine ⟨[], first, rest, rfl, ?_⟩
        rw [List.nil_append, length_join_cons, join_nil, List.length_nil, Nat.add_zero]
        exact Option.mem_toList.mp here
      · obtain ⟨before, line, after, same, found⟩ := ih later
        refine ⟨first :: before, line, after, by rw [same]; rfl, ?_⟩
        rw [List.cons_append, length_join_cons, ← Nat.add_assoc, ← Nat.add_assoc]
        exact found

theorem ending_of_foundIn {ending : Option Nat} {line : Bytes}
    (held : foundIn maxEventBytes ending line = some found) : found.ending = ending := by
  rw [foundIn] at held
  split at held
  · cases held
  · obtain ⟨event, _, rfl⟩ := Option.map_eq_some_iff.mp held
    rfl

/-- Sequences do not fall in log order. -/
def Rising (maxEventBytes : Nat) (file : Bytes) : Prop :=
  (foundLines maxEventBytes 0 (split file).1).Pairwise fun earlier later =>
    earlier.event.sequence ≤ later.event.sequence

/-- A hint ends a line of the file, and no event before its offset has a higher sequence. -/
def Marks (maxEventBytes : Nat) (file : Bytes) (hint : Hint) : Prop :=
  ∃ lines, lines <+: (split file).1 ∧ hint.offset = (join lines).length
    ∧ ∀ found ∈ foundLines maxEventBytes 0 lines, found.event.sequence ≤ hint.sequence

variable {hint : Hint}

theorem Marks.append (marks : Marks maxEventBytes file hint) (more : Bytes)
    : Marks maxEventBytes (file ++ more) hint := by
  obtain ⟨lines, front, offset, below⟩ := marks
  exact ⟨lines, front.trans (split_append_front file more), offset, below⟩

theorem split_drop (front : lines <+: (split file).1)
    : split (file.drop (join lines).length)
      = ((split file).1.drop lines.length, (split file).2) := by
  obtain ⟨rest, whole⟩ := front
  have clean := newline_not_mem_split file
  have others : ∀ line ∈ rest, newline ∉ line := fun line member =>
    clean.1 line (by rw [← whole]; exact List.mem_append_right _ member)
  have bytes : file = join lines ++ (join rest ++ (split file).2) := by
    conv_lhs => rw [← join_split file, ← whole, join_append, List.append_assoc]
  conv_lhs => rw [bytes, List.drop_left' rfl, split_join others, split_of_not_mem clean.2]
  rw [← whole, List.drop_left' rfl, List.append_nil]

/-- The events of a file are those of some of its lines and those after them. -/
theorem foundFrom_split (front : lines <+: (split file).1)
    : foundFrom maxEventBytes 0 file
      = foundLines maxEventBytes 0 lines
        ++ foundFrom maxEventBytes (join lines).length (file.drop (join lines).length) := by
  rw [foundFrom, foundFrom, split_drop front, ← List.append_assoc]
  obtain ⟨rest, whole⟩ := front
  rw [← whole, foundLines_append, List.drop_left' rfl, Nat.zero_add]

theorem marks_of_found (rising : Rising maxEventBytes file) (front : lines <+: (split file).1)
    (member : found ∈ foundFrom maxEventBytes (join lines).length (file.drop (join lines).length))
    (same : found.hint? = some hint)
    : Marks maxEventBytes file hint := by
  rw [foundFrom, split_drop front] at member
  obtain ⟨rest, whole⟩ := front
  rw [← whole, List.drop_left' rfl] at member
  rcases List.mem_append.mp member with inside | last
  · obtain ⟨before, line, after, rfl, held⟩ := mem_foundLines inside
    have all : (split file).1 = (lines ++ before ++ [line]) ++ after := by
      rw [← whole]
      simp
    have ending : found.ending = some ((join (lines ++ before ++ [line])).length) := by
      rw [ending_of_foundIn held, List.append_assoc, join_append lines, List.length_append]
    have offset : hint.sequence = found.event.sequence
        ∧ hint.offset = (join (lines ++ before ++ [line])).length := by
      rw [Found.hint?, ending] at same
      obtain rfl := Option.some.inj same
      exact ⟨rfl, rfl⟩
    refine ⟨lines ++ before ++ [line], ⟨after, all.symm⟩, offset.2, fun other passed => ?_⟩
    rw [offset.1]
    have held' : foundLines maxEventBytes (0 + (join (lines ++ before)).length) [line] = [found] := by
      have place : 0 + (join (lines ++ before)).length + line.length + 1
          = (join lines).length + (join (before ++ [line])).length := by
        simp only [join_append, List.length_append, length_join_cons, join_nil, List.length_nil]
        omega
      rw [foundLines, foundLines, place, held]
      rfl
    rw [foundLines_append, held'] at passed
    rcases List.mem_append.mp passed with earlier | own
    · rw [Rising, all, foundLines_append, foundLines_append, held'] at rising
      have ordered := (List.pairwise_append.mp (List.pairwise_append.mp rising).1).2.2
      exact ordered other earlier found (List.mem_singleton_self _)
    · rw [List.mem_singleton.mp own]
  · rw [Found.hint?, ending_of_foundIn (Option.mem_toList.mp last)] at same
    cases same

variable {after : ℚ}

/-- The boundary is one of the hints and not above the cursor, by induction over the hints. -/
theorem mem_boundaryOf {hints : List Hint} (found : boundaryOf after hints = some hint)
    : hint ∈ hints ∧ hint.sequence ≤ after := by
  have general : ∀ (hints : List Hint) (start : Option Hint),
      hints.foldl (fun boundary hint =>
        if hint.sequence ≤ after && boundary.all (fun old => old.sequence < hint.sequence) then
          some hint
        else boundary) start = some hint →
      start = some hint ∨ hint ∈ hints ∧ hint.sequence ≤ after := by
    intro hints
    induction hints with
    | nil => exact fun start same => Or.inl same
    | cons first rest ih =>
        intro start found
        rcases ih _ found with same | ⟨inside, low⟩
        · dsimp only at same
          split at same
          · next better =>
              obtain rfl := Option.some.inj same
              simp only [Bool.and_eq_true, decide_eq_true_eq] at better
              exact Or.inr ⟨List.mem_cons_self, better.1⟩
          · exact Or.inl same
        · exact Or.inr ⟨List.mem_cons_of_mem _ inside, low⟩
  exact (general hints none found).resolve_left (by simp)

theorem mem_startOf {hints : List Hint} (found : startOf file after hints = some hint)
    : hint ∈ hints ∧ hint.sequence ≤ after :=
  mem_boundaryOf (Option.filter_eq_some_iff.mp found).1

theorem mem_lastLines {lines scanned : List Hint} (member : hint ∈ lastLines lines scanned)
    : hint ∈ lines ∨ hint ∈ scanned := by
  have inside := List.mem_mergeSort.mp (List.mem_of_mem_drop member)
  obtain ⟨entry, held, rfl⟩ := List.mem_map.mp inside
  rcases JsMap.mem_bindAll held with none_ | ⟨source, known, rfl⟩
  · cases none_
  · exact List.mem_append.mp known

theorem mem_delete_values {anchors : JsMap ℚ Hint} (member : hint ∈ (anchors.delete after).values)
    : hint ∈ anchors.values :=
  (List.filter_sublist.map Prod.snd).subset member

theorem mem_useAnchor {used : Hint} {anchors : JsMap ℚ Hint}
    (member : hint ∈ (useAnchor after used anchors).values)
    : hint = used ∨ hint ∈ anchors.values := by
  have inside : hint ∈ ((anchors.delete after).set after used).values := by
    simp only [useAnchor] at member
    split at member
    · split at member
      · exact mem_delete_values member
      · exact member
    · exact member
  obtain ⟨entry, held, rfl⟩ := List.mem_map.mp inside
  rcases (JsMap.mem_setEntries (anchors.delete after).distinct).mp held with rfl | ⟨old, _⟩
  · exact Or.inl rfl
  · exact Or.inr (mem_delete_values (List.mem_map_of_mem old))

inductive LogStep (maxEventBytes : Nat) : Log → Log → Prop where
  /-- Bytes are appended: whole lines, or a part of one. -/
  | append {log : Log} (more : Bytes) (locked : log.rewriting = false)
      (rising : Rising maxEventBytes (log.file ++ more))
    : LogStep maxEventBytes log { log with file := log.file ++ more }
  /-- A repair cuts what follows the last newline. -/
  | repair {log : Log} (locked : log.rewriting = false)
    : LogStep maxEventBytes log { log with file := join (split log.file).1 }
  /-- A compaction renames a new file into place. -/
  | rewrite {log : Log} (file : Bytes) (inode : Nat) (locked : log.rewriting = false)
      (fresh : inode ≠ log.inode) (rising : Rising maxEventBytes file)
    : LogStep maxEventBytes log { log with file, inode, rewriting := true }
  /-- And writes the next generation. -/
  | advance {log : Log} (between : log.rewriting = true)
    : LogStep maxEventBytes log { log with generation := log.generation + 1, rewriting := false }
  /-- A read from any cursor. -/
  | read {log : Log} (query : Query) (some_ : 1 ≤ query.limit)
    : LogStep maxEventBytes log (readEventsAfter maxEventBytes query log).2

/-- The histories of an event log, from any file in order and an empty cache. -/
inductive History (maxEventBytes : Nat) : Log → Prop where
  | start {file : Bytes} {inode generation : Nat} (rising : Rising maxEventBytes file)
    : History maxEventBytes ⟨file, inode, generation, false, none⟩
  | step {log next : Log} (before : History maxEventBytes log)
      (step : LogStep maxEventBytes log next) : History maxEventBytes next

/-- The hints for the live file are line ends, and those for another one do not come back. -/
structure Hinted (maxEventBytes : Nat) (log : Log) : Prop where
  rising : Rising maxEventBytes log.file
  marks : ∀ hint ∈ log.hinted, Marks maxEventBytes log.file hint
  past : ∀ hints, log.hints = some hints → hints.generation ≤ log.generation
  own : log.rewriting = false → ∀ hints, log.hints = some hints →
    hints.generation = log.generation → hints.inode = log.inode

variable {log : Log}

/-- A read starts after lines that hold nothing above its cursor. -/
theorem Hinted.start (hinted : Hinted maxEventBytes log) (after : ℚ)
    : ∃ lines, lines <+: (split log.file).1
      ∧ (startOf log.file after log.hinted).elim 0 Hint.offset = (join lines).length
      ∧ ∀ found ∈ foundLines maxEventBytes 0 lines, found.event.sequence ≤ after := by
  cases start : startOf log.file after log.hinted with
  | none => exact ⟨[], List.nil_prefix, rfl, by simp [foundLines]⟩
  | some hint =>
      obtain ⟨inside, low⟩ := mem_startOf start
      obtain ⟨lines, front, offset, below⟩ := hinted.marks hint inside
      exact ⟨lines, front, offset, fun found member => (below found member).trans low⟩

/-- A read with hints answers as one that scans the whole file. -/
theorem Hinted.answer (hinted : Hinted maxEventBytes log) (some_ : 1 ≤ query.limit)
    : (readEventsAfter maxEventBytes query log).1 = firstEvents maxEventBytes query log.file := by
  obtain ⟨lines, front, position, below⟩ := hinted.start query.after
  have nothing : (foundLines maxEventBytes 0 lines).filter query.wants = [] := by
    refine List.filter_eq_nil_iff.mpr fun found member wanted => ?_
    simp only [Query.wants, Bool.and_eq_true, decide_eq_true_eq] at wanted
    exact absurd wanted.1 (not_lt.mpr (below found member))
  change (log.scan maxEventBytes query).events = _
  rw [Log.scan, scanFrom_events some_, position, firstEvents, foundFrom_split front, List.filter_append, nothing,
    List.nil_append]

theorem Hinted.marks_of_scan (hinted : Hinted maxEventBytes log)
    (made : hint ∈ (log.scan maxEventBytes query).scanned
      ∨ (log.scan maxEventBytes query).boundary = some hint)
    : Marks maxEventBytes log.file hint := by
  obtain ⟨lines, front, position, _⟩ := hinted.start query.after
  rw [Log.scan, scanFrom_eq, position] at made
  rcases made with scanned | ends
  · rcases takeAll_scanned scanned with none_ | ⟨found, member, same⟩
    · cases none_
    · exact marks_of_found hinted.rising front member same
  · rcases takeAll_boundary ends with start | ⟨found, member, same⟩
    · exact hinted.marks hint (mem_startOf start).1
    · exact marks_of_found hinted.rising front member same

/-- Hints for another file or generation do not count. -/
theorem hinted_of_stale (stale : ∀ hints, log.hints = some hints →
      hints.generation = log.generation → hints.inode ≠ log.inode)
    : log.hinted = [] := by
  have none_ : log.cached = none := by
    rw [Log.cached, Option.filter_eq_none_iff]
    intro hints held both
    simp only [Bool.and_eq_true, beq_iff_eq] at both
    exact stale hints held both.1 both.2
  rw [Log.hinted, Log.lines, Log.anchors, none_]
  rfl

theorem Hinted.step {next : Log} (hinted : Hinted maxEventBytes log)
    (step : LogStep maxEventBytes log next) : Hinted maxEventBytes next := by
  cases step with
  | append more locked rising =>
      exact ⟨rising, fun hint member => (hinted.marks hint member).append more, hinted.past,
        hinted.own⟩
  | repair locked =>
      have same : (split (join (split log.file).1)).1 = (split log.file).1 := by
        have lines := split_join (newline_not_mem_split log.file).1 []
        rw [List.append_nil] at lines
        rw [lines]
        simp [split]
      refine ⟨?_, fun hint member => ?_, hinted.past, hinted.own⟩
      · rw [Rising, same]
        exact hinted.rising
      · obtain ⟨lines, front, offset, below⟩ := hinted.marks hint member
        exact ⟨lines, same.symm ▸ front, offset, below⟩
  | rewrite file inode locked fresh rising =>
      refine ⟨rising, fun hint member => ?_, hinted.past, by simp⟩
      rw [hinted_of_stale fun hints held same =>
        (hinted.own locked hints held same).symm ▸ fresh.symm] at member
      cases member
  | advance between =>
      have old : ∀ hints, log.hints = some hints → hints.generation ≠ log.generation + 1 := by
        intro hints held same
        have past := hinted.past hints held
        omega
      have none_ : ({ log with generation := log.generation + 1, rewriting := false } : Log).hinted
          = [] := hinted_of_stale fun hints held same => absurd same (old hints held)
      refine ⟨hinted.rising, fun hint member => ?_, fun hints held => ?_, fun _ hints held same => ?_⟩
      · rw [none_] at member
        cases member
      · exact (hinted.past hints held).trans (Nat.le_succ _)
      · exact absurd same (old hints held)
  | read query some_ =>
      cases records : !(log.scan maxEventBytes query).scanned.isEmpty
          || (log.scan maxEventBytes query).boundary.isSome with
      | false =>
          have same : (readEventsAfter maxEventBytes query log).2 = log := by
            simp only [readEventsAfter, records, Bool.false_eq_true, if_false]
          rw [same]
          exact hinted
      | true =>
          have hints : (readEventsAfter maxEventBytes query log).2.hints
              = some ⟨log.generation, log.inode, lastLines log.lines (log.scan maxEventBytes query).scanned,
                (log.scan maxEventBytes query).boundary.elim log.anchors fun hint =>
                  useAnchor query.after hint log.anchors⟩ := by
            simp only [readEventsAfter, records, if_true]
          refine ⟨hinted.rising, fun hint member => ?_, fun cached held => ?_, fun _ cached held _ => ?_⟩
          · have cached : (readEventsAfter maxEventBytes query log).2.cached
                = (readEventsAfter maxEventBytes query log).2.hints := by
              rw [Log.cached, hints]
              exact Option.filter_some_pos (by simp [readEventsAfter])
            rw [Log.hinted, Log.lines, Log.anchors, cached, hints, Option.elim_some,
              Option.elim_some] at member
            dsimp only at member
            rcases List.mem_append.mp member with line | anchor
            · rcases mem_lastLines line with old | new
              · exact hinted.marks hint (List.mem_append_left _ old)
              · exact hinted.marks_of_scan (Or.inl new)
            · have kept : hint ∈ log.anchors.values → Marks maxEventBytes log.file hint :=
                fun old => hinted.marks hint (List.mem_append_right _ old)
              cases ends : (log.scan maxEventBytes query).boundary with
              | none => exact kept (by simpa only [ends, Option.elim_none] using anchor)
              | some used =>
                  rw [ends, Option.elim_some] at anchor
                  rcases mem_useAnchor anchor with same | old
                  · exact hinted.marks_of_scan (Or.inr (ends.trans (congrArg some same.symm)))
                  · exact kept old
          · rw [hints] at held
            obtain rfl := Option.some.inj held
            exact le_rfl
          · rw [hints] at held
            obtain rfl := Option.some.inj held
            rfl

theorem History.hinted (history : History maxEventBytes log)
    : Hinted maxEventBytes log := by
  induction history with
  | start rising => exact ⟨rising, by simp [Log.hinted, Log.lines, Log.anchors, Log.cached,
      JsMap.values, JsMap.empty], by simp, by simp⟩
  | step _ step ih => exact ih.step step

/-- In every history of appends, compactions and reads, a read with hints answers as one without:
the first events after its cursor that pass its filters, in log order, from lines that are not too
long.
-/
theorem read_hints_change_no_answer (maxEventBytes : Nat) (log : Log)
    (history : History maxEventBytes log) (query : Query) (some_ : 1 ≤ query.limit)
    : (readEventsAfter maxEventBytes query log).1 = firstEvents maxEventBytes query log.file
      ∧ (readEventsAfter maxEventBytes query log).1
        = (readEventsAfter maxEventBytes query { log with hints := none }).1 := by
  have bare : Hinted maxEventBytes { log with hints := none } :=
    ⟨history.hinted.rising, by simp [Log.hinted, Log.lines, Log.anchors, Log.cached,
      JsMap.values, JsMap.empty], by simp, by simp⟩
  exact ⟨history.hinted.answer some_, (history.hinted.answer some_).trans (bare.answer some_).symm⟩

def eventLine (text : String) : Bytes :=
  Utf8.encode (lit text) ++ [newline]

def oneEvent : Log where
  file := eventLine "\x7b\"sequence\":1,\"topic\":\"t\"\x7d"
  inode := 7
  generation := 0
  rewriting := false
  hints := none

def tenEvents : Query where
  after := 0
  filter := ⟨none, none⟩
  limit := 10

/-- The first read leaves a hint, which the second may use. -/
theorem read_hints_change_no_answer_twice
    : (readEventsAfter 100 tenEvents oneEvent).2.hints.isSome = true
      ∧ ((readEventsAfter 100 { tenEvents with after := 1 }
          (readEventsAfter 100 tenEvents oneEvent).2).1
            = firstEvents 100 { tenEvents with after := 1 } oneEvent.file
        ∧ (readEventsAfter 100 { tenEvents with after := 1 }
          (readEventsAfter 100 tenEvents oneEvent).2).1
            = (readEventsAfter 100 { tenEvents with after := 1 }
              { (readEventsAfter 100 tenEvents oneEvent).2 with hints := none }).1) := by
  have rising : Rising 100 oneEvent.file := by
    unfold Rising
    decide +kernel
  have history : History 100 (readEventsAfter 100 tenEvents oneEvent).2 :=
    .step (.start rising) (.read tenEvents (by decide))
  exact ⟨by decide +kernel, read_hints_change_no_answer 100 _ history _ (by decide)⟩

end PiFabric.EventLog
