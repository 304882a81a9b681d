import PiFabric.Foundation.JsMap
import PiFabric.Foundation.JsonObject
import PiFabric.Foundation.LineLog
import PiFabric.Foundation.Utf8

/-! Receipts of a session file: what its complete lines say, read on from where the last call ended.
-/

namespace PiFabric.Sessions

open JsString LineLog

abbrev Thrown := JsString

/-- The functions that callers pass, by their identities. Each may throw. -/
structure Filters (ι ν : Type) where
  matchesLine : ι → JsString → Except Thrown Bool
  matchesEntry : ι → Json → Except Thrown Bool
  project : ι → Json → Except Thrown ν

structure Choice (ι : Type) where
  matchesLine : ι
  matchesEntry : Option ι
  project : ι
deriving DecidableEq

structure SessionReceiptSnapshot (ν : Type) where
  count : Nat
  entries : JsMap Nat ν

namespace SessionReceiptSnapshot

variable {ν : Type}

@[ext]
theorem ext {left right : SessionReceiptSnapshot ν} (count : left.count = right.count)
    (entries : left.entries = right.entries)
    : left = right := by
  cases left
  cases right
  simp_all

def empty : SessionReceiptSnapshot ν where
  count := 0
  entries := .empty

end SessionReceiptSnapshot

section

variable {ι ν : Type} (filters : Filters ι ν) (choice : Choice ι)

def receiptOf (line : Bytes) : Except Thrown (Option ν) := do
  let text := Utf8.decode line
  if ← filters.matchesLine choice.matchesLine text then
    match Json.parse text with
    | none => return none
    | some entry =>
      let wanted ← match choice.matchesEntry with
        | none => pure true
        | some own => filters.matchesEntry own entry
      if wanted then
        let value ← filters.project choice.project entry
        return some value
      else return none
  else return none

def addLine (snapshot : SessionReceiptSnapshot ν) (line : Bytes)
    : Except Thrown (SessionReceiptSnapshot ν) := do
  let index := snapshot.count
  match ← receiptOf filters choice line with
  | none => return { snapshot with count := snapshot.count + 1 }
  | some value =>
    return { count := snapshot.count + 1, entries := snapshot.entries.set index value }

/-- A fresh scan: the complete lines of a file, one after the other. -/
def fullScan (file : Bytes) : Except Thrown (SessionReceiptSnapshot ν) :=
  (split file).1.foldlM (addLine filters choice) .empty

end

def tailBytes : Nat := 64

def bufferBytes : Nat := 2 ^ 20

def lastBytes (bytes : Bytes) : Bytes :=
  bytes.drop (bytes.length - tailBytes)

def readAt (file : Bytes) (length position : Nat) : Except Thrown Bytes :=
  if position + length ≤ file.length then .ok ((file.drop position).take length)
  else .error (lit "Session receipt changed while reading")

def tailMatches (file : Bytes) (offset : Nat) (tail : Bytes) : Except Thrown Bool := do
  let current ← readAt file tail.length (offset - tail.length)
  return current = tail

structure Progress (ν : Type) where
  position : Nat
  offset : Nat
  snapshot : SessionReceiptSnapshot ν
  carry : List Bytes
  tail : Bytes
  endTail : Bytes

def Progress.start {ν : Type} : Progress ν where
  position := 0
  offset := 0
  snapshot := .empty
  carry := []
  tail := []
  endTail := []

section

variable {ι ν : Type} (filters : Filters ι ν) (choice : Choice ι)

/-- The loop over the lines that end in a view, from `start` in it on. The first line goes on from
the carry.
-/
def takeLines : Nat → List Bytes → Progress ν → Except Thrown (Nat × Progress ν)
  | start, [], progress => .ok (start, progress)
  | start, line :: rest, progress => do
    let whole := (progress.carry ++ [line]).flatten
    let start := start + line.length + 1
    let snapshot ← addLine filters choice progress.snapshot whole
    takeLines start rest
      { progress with snapshot, carry := [], offset := progress.position + start }

def takeView (view : Bytes) (progress : Progress ν) : Except Thrown (Progress ν) := do
  let (start, next) ← takeLines filters choice 0 (split view).1 progress
  return { next with
    position := next.position + view.length
    tail := if 0 < start then lastBytes (next.endTail ++ view.take start) else next.tail
    endTail := lastBytes (next.endTail ++ view)
    carry := if start < view.length then next.carry ++ [view.drop start] else next.carry }

/-- The loop over the views, up to the size the file had; each takes one of the fuel. -/
def scanOn (file : Bytes) (size : Nat) : Nat → Progress ν → Except Thrown (Progress ν)
  | 0, progress => .ok progress
  | fuel + 1, progress =>
    if progress.position < size then do
      let view ← readAt file (min bufferBytes (size - progress.position)) progress.position
      scanOn file size fuel (← takeView filters choice view progress)
    else .ok progress

end

/-- `fs.Stats`, as far as a call compares it. -/
structure Stats where
  dev : Nat
  ino : Nat
  size : Nat
  mtimeMs : Int
  ctimeMs : Int
deriving DecidableEq

structure ReceiptCache (ι ν : Type) where
  file : JsString
  choice : Choice ι
  stat : Stats
  offset : Nat
  snapshot : SessionReceiptSnapshot ν
  carry : List Bytes
  tail : Bytes
  partialTail : Bytes

section

variable {ι ν : Type} [DecidableEq ι]

/-- The cache of an earlier call, where it is of the same file, filters and inode, and the file has
not shrunk.
-/
def ReceiptCache.previous (cache : Option (ReceiptCache ι ν)) (file : JsString)
    (choice : Choice ι) (stat : Stats) : Option (ReceiptCache ι ν) :=
  cache.filter fun cache =>
    cache.file = file ∧ cache.choice = choice ∧ cache.stat.dev = stat.dev
      ∧ cache.stat.ino = stat.ino ∧ cache.stat.size ≤ stat.size

def ReceiptCache.unchanged (cache : ReceiptCache ι ν) (stat : Stats) : Bool :=
  stat.size = cache.stat.size ∧ stat.mtimeMs = cache.stat.mtimeMs
    ∧ stat.ctimeMs = cache.stat.ctimeMs

/-- The file still holds the bytes before both ends of what was read. -/
def ReceiptCache.holds (cache : ReceiptCache ι ν) (bytes : Bytes) : Except Thrown Bool := do
  if ← tailMatches bytes cache.offset cache.tail then
    if cache.offset < cache.stat.size then tailMatches bytes cache.stat.size cache.partialTail
    else return true
  else return false

def ReceiptCache.progress (cache : ReceiptCache ι ν) : Progress ν where
  position := cache.stat.size
  offset := cache.offset
  snapshot := cache.snapshot
  carry := cache.carry
  tail := cache.tail
  endTail := cache.partialTail

variable (filters : Filters ι ν)

def rescan (file : JsString) (choice : Choice ι) (stat : Stats) (bytes : Bytes)
    (start : Progress ν) : Except Thrown (ReceiptCache ι ν) := do
  let progress ← scanOn filters choice bytes stat.size stat.size start
  return {
    file
    choice
    stat
    offset := progress.offset
    snapshot := progress.snapshot
    carry := progress.carry
    tail := progress.tail
    partialTail := progress.endTail }

/-- What `confirmedSessionReceiptSnapshot` does with a file it has opened: the cache that it leaves,
which holds the snapshot it returns.
-/
def visit (cache : Option (ReceiptCache ι ν)) (file : JsString) (choice : Choice ι) (stat : Stats)
    (bytes : Bytes) : Except Thrown (ReceiptCache ι ν) :=
  match ReceiptCache.previous cache file choice stat with
  | none => rescan filters file choice stat bytes .start
  | some previous =>
    if previous.unchanged stat then .ok previous
    else do
      if ← previous.holds bytes then rescan filters file choice stat bytes previous.progress
      else rescan filters file choice stat bytes .start

/-- A file that was opened: its stat, and its bytes by the time they are read. -/
structure Opened where
  stat : Stats
  bytes : Bytes

/-- `confirmedSessionReceiptSnapshot` of a persisted session with a file: the cache after it, and
what it returns. A missing file is no receipt, and a call that throws anywhere leaves no cache.
-/
def confirmedSessionReceiptSnapshot (cache : Option (ReceiptCache ι ν)) (file : JsString)
    (choice : Choice ι) (opened : Option Opened) (interrupted : Option Thrown)
    : Option (ReceiptCache ι ν) × Except Thrown (SessionReceiptSnapshot ν) :=
  match interrupted, opened with
  | some error, _ => (none, .error error)
  | none, none => (none, .ok .empty)
  | none, some opened =>
    match visit filters cache file choice opened.stat opened.bytes with
    | .ok next => (some next, .ok next.snapshot)
    | .error error => (none, .error error)

end

end PiFabric.Sessions
