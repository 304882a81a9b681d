import PiFabric.Foundation.LineLog
import PiFabric.Foundation.NumberValue
import PiFabric.Foundation.Utf8

/-! The scan of the live log for the events after a cursor: it reads the file in chunks, joins the
pieces of a line and skips a line that is too long. Chunks make no difference: the scan finds what
the lines hold.
-/

namespace PiFabric.EventLog

open LineLog JsString

/-- A parsed value with a numeric `sequence`. -/
structure MeshEvent where
  value : Json
  sequence : ℚ

def eventIn (text : JsString) : Option MeshEvent :=
  (Json.parse text).bind fun value =>
    match value.field? "sequence" with
    | some (.number sequence) => some ⟨value, sequence.value⟩
    | _ => none

def withoutReturn (text : JsString) : JsString :=
  if text.getLast? = some 0x0D then text.dropLast else text

def scannedEvent (line : Bytes) : Option MeshEvent :=
  eventIn (withoutReturn (Utf8.decode line))

structure EventFilter where
  topic : Option JsString
  «to» : Option JsString

def eventMatches (filter : EventFilter) (event : MeshEvent) : Bool :=
  filter.topic.all (fun topic => (event.value.field? "topic").any fun value =>
    match value with
    | .string text => text == topic
    | _ => false)
  && filter.to.all fun name => (event.value.field? "to").any fun value =>
    match value with
    | .string text => text == name
    | _ => false

/-- An event and the end of its line, which an unterminated line does not have. -/
structure Found where
  event : MeshEvent
  ending : Option Nat

/-- The end of a line: the sequence of its event, and the offset after its newline. -/
structure Hint where
  sequence : ℚ
  offset : Nat
  deriving DecidableEq

def readHintLines : Nat := 128

def eventReadChunkBytes : Nat := 64 * 1024

structure Query where
  after : ℚ
  filter : EventFilter
  limit : Nat

/-- The variables of a scan: the pieces of the present line, whether it is skipped, and what has
been found.
-/
structure Scan where
  line : Bytes
  skipping : Bool
  events : List Found
  scanned : List Hint
  boundary : Option Hint
  reached : Bool

variable (maxEventBytes : Nat) (query : Query)

/-- A segment of a line joins the pieces before it, unless the line gets too long. -/
def addSegment (segment : Bytes) (scan : Scan) : Scan :=
  if scan.skipping then scan
  else if scan.line.length + segment.length ≤ maxEventBytes then
    { scan with line := scan.line ++ segment }
  else { scan with line := [], skipping := true }

def remember (event : MeshEvent) : Option Nat → Scan → Scan
  | some ending, scan =>
      let hint : Hint := ⟨event.sequence, ending⟩
      let scanned := scan.scanned ++ [hint]
      { scan with
        scanned := if 2 * readHintLines < scanned.length then
          scanned.drop (scanned.length - readHintLines) else scanned
        boundary := if event.sequence ≤ query.after then some hint else scan.boundary }
  | none, scan => scan

def collect (event : MeshEvent) (ending : Option Nat) (scan : Scan) : Scan :=
  if query.after < event.sequence && eventMatches query.filter event then
    let events := scan.events ++ [⟨event, ending⟩]
    { scan with events, reached := query.limit ≤ events.length }
  else scan

def emitLine (ending : Option Nat) (scan : Scan) : Scan :=
  let next :=
    if scan.skipping || scan.line.isEmpty then scan
    else
      match scannedEvent scan.line with
      | some event => collect query event ending (remember query event ending scan)
      | none => scan
  { next with line := [], skipping := false }

def scanLines : Nat → List Bytes → Scan → Scan
  | _, [], scan => scan
  | offset, line :: rest, scan =>
      if scan.reached then scan
      else
        let ending := offset + line.length + 1
        scanLines ending rest (emitLine query (some ending) (addSegment maxEventBytes line scan))

/-- One chunk that starts at `offset`: the lines that end in it, and what follows its last newline.
-/
def scanChunk (offset : Nat) (captured : Bytes) (scan : Scan) : Scan :=
  let next := scanLines maxEventBytes query offset (split captured).1 scan
  if next.reached then next else addSegment maxEventBytes (split captured).2 next

/-- The loop over the chunks; each takes at least one byte of the fuel. -/
def scanChunks : Nat → Nat → Bytes → Scan → Scan
  | 0, _, _, scan => scan
  | fuel + 1, position, bytes, scan =>
      if bytes.isEmpty || scan.reached then scan
      else
        let chunk := bytes.take eventReadChunkBytes
        scanChunks fuel (position + chunk.length) (bytes.drop eventReadChunkBytes)
          (scanChunk maxEventBytes query position chunk scan)

/-- A line that the file does not end is emitted last. -/
def finish (scan : Scan) : Scan :=
  if !scan.reached && (!scan.line.isEmpty || scan.skipping) then emitLine query none scan else scan

def Scan.start (boundary : Option Hint) : Scan where
  line := []
  skipping := false
  events := []
  scanned := []
  boundary
  reached := false

def scanFrom (position : Nat) (boundary : Option Hint) (file : Bytes) : Scan :=
  finish query (scanChunks maxEventBytes query file.length position (file.drop position)
    (.start boundary))

/-- What a line holds, unless it is empty, too long or no event. -/
def foundIn (ending : Option Nat) (line : Bytes) : Option Found :=
  if line.isEmpty || maxEventBytes < line.length then none
  else (scannedEvent line).map fun event => ⟨event, ending⟩

def foundLines : Nat → List Bytes → List Found
  | _, [] => []
  | offset, line :: rest =>
      (foundIn maxEventBytes (some (offset + line.length + 1)) line).toList
        ++ foundLines (offset + line.length + 1) rest

/-- What a file holds from an offset on, its unterminated line included. -/
def foundFrom (offset : Nat) (bytes : Bytes) : List Found :=
  foundLines maxEventBytes offset (split bytes).1
    ++ (foundIn maxEventBytes none (split bytes).2).toList

def Query.wants (query : Query) (found : Found) : Bool :=
  query.after < found.event.sequence && eventMatches query.filter found.event

/-- The answer of a read that scans the whole file: the first events that it asks for. -/
def firstEvents (file : Bytes) : List Found :=
  ((foundFrom maxEventBytes 0 file).filter query.wants).take query.limit

variable {maxEventBytes query}

/-- The segments of a line may be held one after the other. -/
theorem addSegment_append (first second : Bytes) (scan : Scan)
    : addSegment maxEventBytes second (addSegment maxEventBytes first scan)
      = addSegment maxEventBytes (first ++ second) scan := by
  unfold addSegment
  cases skipping : scan.skipping with
  | true => simp [skipping]
  | false =>
      simp only [Bool.false_eq_true, if_false, List.length_append]
      by_cases short : scan.line.length + first.length ≤ maxEventBytes
      · simp only [if_pos short, List.length_append, Bool.false_eq_true, if_false,
          List.append_assoc, ← Nat.add_assoc]
      · have long : ¬scan.line.length + (first.length + second.length) ≤ maxEventBytes := by omega
        simp only [if_neg short, if_neg long, if_true]

theorem addSegment_reached (segment : Bytes) (scan : Scan)
    : (addSegment maxEventBytes segment scan).reached = scan.reached := by
  unfold addSegment
  split
  · rfl
  · split <;> rfl

variable {offset : Nat} {scan : Scan}

theorem scanLines_of_reached {lines : List Bytes} (reached : scan.reached = true)
    : scanLines maxEventBytes query offset lines scan = scan := by
  cases lines <;> simp [scanLines, reached]

/-- Lines may be scanned one part after the other, by induction over the first. -/
theorem scanLines_append {first second : List Bytes}
    : scanLines maxEventBytes query offset (first ++ second) scan
      = scanLines maxEventBytes query (offset + (join first).length) second
        (scanLines maxEventBytes query offset first scan) := by
  induction first generalizing offset scan with
  | nil => simp [scanLines]
  | cons line rest ih =>
      cases reached : scan.reached with
      | true => simp only [scanLines_of_reached reached]
      | false =>
          rw [List.cons_append, scanLines, scanLines, reached, if_neg Bool.false_ne_true,
            if_neg Bool.false_ne_true, ih, length_join_cons]
          simp only [Nat.add_assoc]

theorem scanChunk_of_reached {captured : Bytes} (reached : scan.reached = true)
    : scanChunk maxEventBytes query offset captured scan = scan := by
  simp [scanChunk, scanLines_of_reached, reached]

/-- A chunk may be scanned in two parts. -/
theorem scanChunk_append {first second : Bytes}
    : scanChunk maxEventBytes query offset (first ++ second) scan
      = scanChunk maxEventBytes query (offset + first.length) second
        (scanChunk maxEventBytes query offset first scan) := by
  have count := length_split first
  cases reached : (scanLines maxEventBytes query offset (split first).1 scan).reached with
  | true =>
      have same : scanChunk maxEventBytes query offset first scan
          = scanLines maxEventBytes query offset (split first).1 scan := by
        simp [scanChunk, reached]
      rw [same, scanChunk_of_reached reached, scanChunk]
      have whole : scanLines maxEventBytes query offset (split (first ++ second)).1 scan
          = scanLines maxEventBytes query offset (split first).1 scan := by
        obtain ⟨rest, lines⟩ := split_append_front first second
        rw [← lines, scanLines_append, scanLines_of_reached reached]
      rw [whole, reached, if_pos rfl]
  | false =>
      have same : scanChunk maxEventBytes query offset first scan
          = addSegment maxEventBytes (split first).2
            (scanLines maxEventBytes query offset (split first).1 scan) := by
        simp [scanChunk, reached]
      rw [same, scanChunk, scanChunk, split_append]
      cases lines : (split second).1 with
      | nil =>
          simp only [scanLines, reached, addSegment_reached, Bool.false_eq_true, if_false, addSegment_append]
      | cons line more =>
          simp only [scanLines_append, scanLines, reached, addSegment_reached, Bool.false_eq_true, if_false,
            addSegment_append, List.length_append]
          have ending : offset + (join (split first).1).length + ((split first).2.length + line.length)
              + 1 = offset + first.length + line.length + 1 := by omega
          rw [ending]

theorem scanChunks_eq {fuel position : Nat} {bytes : Bytes} (enough : bytes.length ≤ fuel)
    : scanChunks maxEventBytes query fuel position bytes scan
      = if scan.reached || bytes.isEmpty then scan
        else scanChunk maxEventBytes query position bytes scan := by
  induction fuel generalizing position bytes scan with
  | zero =>
      obtain rfl := List.length_eq_zero_iff.mp (Nat.le_zero.mp enough)
      simp [scanChunks]
  | succ fuel ih =>
      rw [scanChunks, Bool.or_comm]
      cases stops : scan.reached || bytes.isEmpty with
      | true => rfl
      | false =>
          simp only [Bool.or_eq_false_iff] at stops
          have some_ : bytes ≠ [] := by simpa using stops.2
          have shorter : (bytes.drop eventReadChunkBytes).length ≤ fuel := by
            rw [List.length_drop]
            simp only [eventReadChunkBytes]
            omega
          rw [if_neg Bool.false_ne_true, if_neg Bool.false_ne_true, ih shorter]
          cases none_ : (bytes.drop eventReadChunkBytes).isEmpty with
          | true =>
              have whole : bytes.take eventReadChunkBytes = bytes := by
                rw [List.isEmpty_iff] at none_
                simpa [none_] using List.take_append_drop eventReadChunkBytes bytes
              rw [Bool.or_true, if_pos rfl, whole]
          | false =>
              conv_rhs => rw [← List.take_append_drop eventReadChunkBytes bytes, scanChunk_append]
              rw [Bool.or_false]
              split
              · next reached => rw [scanChunk_of_reached reached]
              · rfl

structure Fresh (scan : Scan) : Prop where
  line : scan.line = []
  skipping : scan.skipping = false

theorem emitLine_fresh (ending : Option Nat) (scan : Scan)
    : Fresh (emitLine query ending scan) :=
  ⟨rfl, rfl⟩

def Found.hint? (found : Found) : Option Hint :=
  found.ending.map fun offset => ⟨found.event.sequence, offset⟩

def take (query : Query) (scan : Scan) (found : Found) : Scan :=
  collect query found.event found.ending (remember query found.event found.ending scan)

theorem take_line_of_fresh (fresh : Fresh scan) (found : Found) (line : Bytes)
    : { take query { scan with line } found with line := [], skipping := false }
      = take query scan found := by
  obtain ⟨event, ending⟩ := found
  obtain ⟨held, skipping, events, scanned, boundary, reached⟩ := scan
  obtain ⟨rfl, rfl⟩ := fresh
  cases ending <;> simp only [take, remember, collect] <;> split <;> rfl

/-- A whole line, held and emitted, is what it holds. -/
theorem emitLine_addSegment (fresh : Fresh scan) (ending : Option Nat) (line : Bytes)
    : emitLine query ending (addSegment maxEventBytes line scan)
      = (foundIn maxEventBytes ending line).elim scan (take query scan) := by
  have same : { scan with line := [], skipping := false } = scan := by
    obtain ⟨held, skipping, events, scanned, boundary, reached⟩ := scan
    obtain ⟨rfl, rfl⟩ := fresh
    rfl
  by_cases short : line.length ≤ maxEventBytes
  · have held : addSegment maxEventBytes line scan = { scan with line } := by
      simp [addSegment, fresh.skipping, fresh.line, short]
    have plain : (decide (maxEventBytes < line.length)) = false := decide_eq_false (by omega)
    rw [held, emitLine, foundIn, plain, Bool.or_false, fresh.skipping, Bool.false_or]
    cases none_ : line.isEmpty with
    | true =>
        simp only [if_true, Option.elim_none]
        exact same
    | false =>
        simp only [Bool.false_eq_true, if_false]
        cases scannedEvent line with
        | none => exact same
        | some event =>
            have recorded : ({ take query { scan with line } ⟨event, ending⟩ with
                line := [], skipping := false } : Scan) = take query scan ⟨event, ending⟩ :=
              take_line_of_fresh fresh _ line
            rw [fresh.skipping] at recorded
            exact recorded
  · have held : addSegment maxEventBytes line scan = { scan with line := [], skipping := true } := by
      simp [addSegment, fresh.skipping, fresh.line, short]
    have long : (decide (maxEventBytes < line.length)) = true := decide_eq_true (by omega)
    rw [held, emitLine, foundIn, long, Bool.or_true, if_pos rfl, Bool.true_or, if_pos rfl,
      Option.elim_none]
    exact same

/-- Scanning the events that lines hold, until the limit is reached. -/
def takeAll (query : Query) (scan : Scan) : List Found → Scan
  | [] => scan
  | found :: rest => if scan.reached then scan else takeAll query (take query scan found) rest

variable {founds : List Found}

theorem takeAll_of_reached (reached : scan.reached = true)
    : takeAll query scan founds = scan := by
  cases founds <;> simp [takeAll, reached]

theorem take_fresh (fresh : Fresh scan) (found : Found)
    : Fresh (take query scan found) := by
  obtain ⟨event, ending⟩ := found
  cases ending <;> simp only [take, remember, collect] <;> split <;> exact ⟨fresh.line, fresh.skipping⟩

theorem takeAll_fresh (fresh : Fresh scan) (founds : List Found)
    : Fresh (takeAll query scan founds) := by
  induction founds generalizing scan with
  | nil => exact fresh
  | cons found rest ih =>
      rw [takeAll]
      split
      · exact fresh
      · exact ih (take_fresh fresh found)

/-- Lines are scanned as the events that they hold, by induction over them. -/
theorem scanLines_eq {lines : List Bytes} (fresh : Fresh scan)
    : scanLines maxEventBytes query offset lines scan
      = takeAll query scan (foundLines maxEventBytes offset lines) := by
  induction lines generalizing offset scan with
  | nil => rfl
  | cons line rest ih =>
      cases reached : scan.reached with
      | true => rw [scanLines_of_reached reached, takeAll_of_reached reached]
      | false =>
          rw [scanLines, reached, if_neg Bool.false_ne_true]
          have next := @emitLine_addSegment maxEventBytes query scan fresh (some (offset + line.length + 1))
            line
          dsimp only
          rw [ih (emitLine_fresh _ _), next, foundLines]
          cases foundIn maxEventBytes (some (offset + line.length + 1)) line with
          | none => rfl
          | some found => simp [takeAll, reached]

theorem takeAll_append (first second : List Found)
    : takeAll query scan (first ++ second) = takeAll query (takeAll query scan first) second := by
  induction first generalizing scan with
  | nil => rfl
  | cons found rest ih =>
      cases reached : scan.reached with
      | true => simp only [takeAll_of_reached reached]
      | false =>
          rw [List.cons_append, takeAll, takeAll, reached, if_neg Bool.false_ne_true,
            if_neg Bool.false_ne_true, ih]

/-- A fresh scan that holds nothing after a segment has been given none. -/
theorem addSegment_idle (fresh : Fresh scan) {segment : Bytes}
    (idle : (addSegment maxEventBytes segment scan).line = []
      ∧ (addSegment maxEventBytes segment scan).skipping = false)
    : segment = [] ∧ addSegment maxEventBytes segment scan = scan := by
  simp only [addSegment, fresh.skipping, fresh.line, List.nil_append, Bool.false_eq_true, if_false] at idle ⊢
  split at idle
  · next short =>
      obtain rfl : segment = [] := idle.1
      rw [if_pos short]
      obtain ⟨held, skipping, events, scanned, boundary, reached⟩ := scan
      obtain ⟨rfl, rfl⟩ := fresh
      exact ⟨rfl, rfl⟩
  · exact absurd idle.2 (by simp)

theorem scanFrom_eq (position : Nat) (boundary : Option Hint) (file : Bytes)
    : scanFrom maxEventBytes query position boundary file
      = takeAll query (.start boundary)
        (foundFrom maxEventBytes position (file.drop position)) := by
  have fresh : Fresh (Scan.start boundary) := ⟨rfl, rfl⟩
  have enough : (file.drop position).length ≤ file.length := by
    rw [List.length_drop]
    omega
  rw [scanFrom, scanChunks_eq enough, foundFrom, takeAll_append, ← scanLines_eq fresh]
  cases rest : file.drop position with
  | nil => rfl
  | cons byte more =>
      rw [if_neg (by simp [Scan.start]), scanChunk]
      have middle := @takeAll_fresh query _ fresh
        (foundLines maxEventBytes position (split (byte :: more)).1)
      rw [← scanLines_eq fresh] at middle
      cases reached : (scanLines maxEventBytes query position (split (byte :: more)).1
          (.start boundary)).reached with
      | true =>
          rw [if_pos rfl, takeAll_of_reached reached]
          simp [finish, reached]
      | false =>
          have last := @emitLine_addSegment maxEventBytes query _ middle none (split (byte :: more)).2
          rw [if_neg Bool.false_ne_true, finish, addSegment_reached, reached, Bool.not_false, Bool.true_and,
            last]
          split
          · cases foundIn maxEventBytes none (split (byte :: more)).2 with
            | none => rfl
            | some found => simp [takeAll, reached]
          · next idle =>
              obtain ⟨none_, same⟩ := addSegment_idle middle (by simpa using idle)
              rw [same, none_]
              rfl

/-- A scan's events are the first ones it asks for, by induction over what it passes. -/
theorem takeAll_events (live : scan.reached = false) (room : scan.events.length < query.limit)
    : (takeAll query scan founds).events
      = (scan.events ++ founds.filter query.wants).take query.limit := by
  induction founds generalizing scan with
  | nil => simp [takeAll, List.take_of_length_le room.le]
  | cons found rest ih =>
      have same : ∀ ending, (remember query found.event ending scan).events = scan.events := by
        intro ending
        cases ending <;> rfl
      have still : ∀ ending, (remember query found.event ending scan).reached = scan.reached := by
        intro ending
        cases ending <;> rfl
      rw [takeAll, live, if_neg Bool.false_ne_true]
      cases asked : query.wants found with
      | false =>
          rw [List.filter_cons_of_neg (by simp [asked])]
          have skipped : take query scan found
              = remember query found.event found.ending scan := by
            rw [take, collect, if_neg (by rw [← Query.wants, asked]; simp)]
          rw [skipped, ih ((still _).trans live) (by rw [same]; exact room), same]
      | true =>
          rw [List.filter_cons_of_pos asked]
          have events : (take query scan found).events = scan.events ++ [found] := by
            rw [take, collect, if_pos (by rw [← Query.wants, asked])]
            exact congrArg (· ++ [found]) (same _)
          have reached : (take query scan found).reached
              = decide (query.limit ≤ (scan.events ++ [found]).length) := by
            rw [take, collect, if_pos (by rw [← Query.wants, asked])]
            exact congrArg (fun events => decide (query.limit ≤ (events ++ [found]).length)) (same _)
          by_cases full : query.limit ≤ (scan.events ++ [found]).length
          · have whole : scan.events ++ found :: rest.filter query.wants
                = (scan.events ++ [found]) ++ rest.filter query.wants := by simp
            rw [takeAll_of_reached (reached.trans (decide_eq_true full)), events, whole]
            have count : (scan.events ++ [found]).length = query.limit := by
              rw [List.length_append, List.length_singleton] at *
              omega
            rw [List.take_append_of_le_length count.ge, ← count, List.take_length]
          · rw [ih (reached.trans (decide_eq_false full)) (by rw [events]; omega), events,
              List.append_assoc, List.singleton_append]

/-- A scan from a position where it does nothing before gives the first events after it. -/
theorem scanFrom_events {position : Nat} {boundary : Option Hint} {file : Bytes}
    (some_ : 1 ≤ query.limit)
    : (scanFrom maxEventBytes query position boundary file).events
      = ((foundFrom maxEventBytes position (file.drop position)).filter query.wants).take
        query.limit := by
  have room : (Scan.start boundary).events.length < query.limit := some_
  rw [scanFrom_eq, takeAll_events rfl room]
  rfl

variable {hint : Hint}

theorem take_scanned {found : Found} (member : hint ∈ (take query scan found).scanned)
    : hint ∈ scan.scanned ∨ found.hint? = some hint := by
  have kept : (take query scan found).scanned
      = (remember query found.event found.ending scan).scanned := by
    rw [take, collect]
    split <;> rfl
  rw [kept] at member
  obtain ⟨event, ending⟩ := found
  cases ending with
  | none => exact Or.inl member
  | some offset =>
      have inside : hint ∈ scan.scanned ++ [⟨event.sequence, offset⟩] := by
        simp only [remember] at member
        split at member
        · exact List.mem_of_mem_drop member
        · exact member
      rcases List.mem_append.mp inside with before | same
      · exact Or.inl before
      · exact Or.inr (congrArg some (List.mem_singleton.mp same).symm)

/-- Every hint of a scan is that of a line it passed, by induction over what it passes. -/
theorem takeAll_scanned (member : hint ∈ (takeAll query scan founds).scanned)
    : hint ∈ scan.scanned ∨ ∃ found ∈ founds, found.hint? = some hint := by
  induction founds generalizing scan with
  | nil => exact Or.inl member
  | cons found rest ih =>
      rw [takeAll] at member
      split at member
      · exact Or.inl member
      · rcases ih member with before | ⟨other, inside, same⟩
        · exact (take_scanned before).imp_right fun same => ⟨found, List.mem_cons_self, same⟩
        · exact Or.inr ⟨other, List.mem_cons_of_mem _ inside, same⟩

theorem take_boundary {found : Found} (ends : (take query scan found).boundary = some hint)
    : scan.boundary = some hint ∨ found.hint? = some hint := by
  have kept : (take query scan found).boundary
      = (remember query found.event found.ending scan).boundary := by
    rw [take, collect]
    split <;> rfl
  rw [kept] at ends
  obtain ⟨event, ending⟩ := found
  cases ending with
  | none => exact Or.inl ends
  | some offset =>
      simp only [remember] at ends
      split at ends
      · exact Or.inr ends
      · exact Or.inl ends

/-- The boundary of a scan is its first one or that of a line it passed. -/
theorem takeAll_boundary (ends : (takeAll query scan founds).boundary = some hint)
    : scan.boundary = some hint ∨ ∃ found ∈ founds, found.hint? = some hint := by
  induction founds generalizing scan with
  | nil => exact Or.inl ends
  | cons found rest ih =>
      rw [takeAll] at ends
      split at ends
      · exact Or.inl ends
      · rcases ih ends with before | ⟨other, inside, same⟩
        · exact (take_boundary before).imp_right fun same => ⟨found, List.mem_cons_self, same⟩
        · exact Or.inr ⟨other, List.mem_cons_of_mem _ inside, same⟩

end PiFabric.EventLog
