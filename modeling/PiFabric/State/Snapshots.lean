import PiFabric.State.Namespaces

/-! Reading the state file, and preparing a commit from a snapshot of it. A batch that is decided
under the lock encodes and hashes beforehand what its callback is not expected to change.
-/

namespace PiFabric.State

open JsString
open Json (Members)

abbrev Bytes := List UInt8

inductive FileError where
  | state (error : StateError)
  | exceeds (bytes : Nat)
  | unreadable
  | moved

def transitioned {α : Type} : Except StateError α → Except FileError α
  | .ok value => .ok value
  | .error error => .error (.state error)

/-- The scan of `recoverConcatenatedState`; `document` is the text since `start`. -/
structure Scan where
  snapshots : List Document
  documents : Nat
  document : Option JsString
  depth : Nat
  inString : Bool
  escaped : Bool

def Scan.close (scan : Scan) (document : JsString) : Option Scan :=
  (Json.parse document).map fun parsed =>
    {
      scan with
      snapshots := scan.snapshots ++ (meshStateFile parsed).toList
      documents := scan.documents + 1
      document := none
      depth := 0
    }

/-- One character of the scan; nothing where the recovery gives up. -/
def Scan.next (scan : Scan) (unit : UInt16) : Option Scan :=
  match scan.document with
  | none =>
      if isBlank unit then some scan
      else if unit ≠ unitOf '\x7b' then none
      else some { scan with document := some [unit], depth := 1 }
  | some text =>
      let document := text ++ [unit]
      let scan := { scan with document := some document }
      if scan.inString then
        if scan.escaped then some { scan with escaped := false }
        else if unit = unitOf '\\' then some { scan with escaped := true }
        else if unit = unitOf '"' then some { scan with inString := false }
        else some scan
      else if unit = unitOf '"' then some { scan with inString := true }
      else if unit = unitOf '\x7b' then some { scan with depth := scan.depth + 1 }
      else if unit = unitOf '\x7d' then
        if scan.depth - 1 ≠ 0 then some { scan with depth := scan.depth - 1 }
        else scan.close document
      else some scan

def recoverConcatenatedState (serialized : JsString) : Option Document := do
  let scan ← serialized.foldlM Scan.next
    { snapshots := [], documents := 0, document := none, depth := 0, inString := false,
      escaped := false }
  if scan.document.isNone && 1 < scan.documents then scan.snapshots.getLast? else none

def hasMovedMarkerShape (marker : JsMap JsString Json) : Bool :=
  Json.strictEqual (marker.get? (lit "format")) (some (.string (lit "sqlite")))
    && Json.strictEqual (marker.get? (lit "movedTo")) (some (.string (lit "state.db")))
    && Json.strictEqual (marker.get? (lit "backend")) (some (.string (lit "sqlite")))
    && match marker.get? (lit "epoch") with
      | some (.number (.int epoch)) => 1 ≤ epoch && epoch ≤ maxSafeInteger
      | _ => false

def isStreamUnit (unit : UInt16) : Bool :=
  isKeyHead unit || unit = unitOf '_' || unit = unitOf '-'

def isMoved : Json → Bool
  | .object members =>
      let marker := ofMembers members
      hasMovedMarkerShape marker
        && match marker.get? (lit "natsStream") with
          | none => true
          | some (.string stream) =>
              !stream.isEmpty && stream.length ≤ 255 && stream.all isStreamUnit
          | some _ => false
  | _ => false

/-- What a read gives: the state, and the text that it was parsed from where that is the whole
file (`observed`).
-/
structure StateRead where
  state : Document
  observed : Option JsString

/-- A text that is no state: a concatenation whose last state counts, or damage. -/
def readDamaged (recoverDamage : Bool) (serialized : JsString) : Except FileError StateRead :=
  match recoverConcatenatedState serialized with
  | some state => .ok { state, observed := none }
  | none =>
      if recoverDamage then .ok { state := emptyDocument, observed := none }
      else .error .unreadable

def decodeState (recoverDamage : Bool) (bytes : Bytes) : Except FileError StateRead :=
  let serialized := Utf8.decode bytes
  if (trim serialized).isEmpty && recoverDamage then
    .ok { state := emptyDocument, observed := none }
  else
    match Json.parse serialized with
    | none => readDamaged recoverDamage serialized
    | some parsed =>
        match meshStateFile parsed with
        | some state => .ok { state, observed := some serialized }
        | none => if isMoved parsed then .error .moved else readDamaged recoverDamage serialized

def readState (maxBytes : Nat) (recoverDamage : Bool) (file : Option Bytes)
    : Except FileError StateRead :=
  match file with
  | none => .ok { state := emptyDocument, observed := none }
  | some bytes =>
      if maxBytes < bytes.length then .error (.exceeds maxBytes)
      else decodeState recoverDamage bytes

/-- The table of revisions. A write on its own refuses `null`; a batch takes it for an empty one. -/
def Document.revisions (state : Document) (nullish : Bool)
    : Option (Option (JsMap JsString Json)) :=
  match state.fields.get? (lit "versions") with
  | none => some none
  | some (.object members) => some (some (ofMembers members))
  | some .null => if nullish then some none else none
  | some _ => none

def Document.tombstones (state : Document) : Option (Option (List JsString)) :=
  match state.fields.get? (lit "tombstoneOrder") with
  | none | some .null => some none
  | some (.array keys) => some <$> keys.mapM fun key => Json.text? (some key)
  | some _ => none

/-- What a write reads of the document. A table or an order of another shape is refused. -/
def Document.file (state : Document) (nullish : Bool) : Option StateFile := do
  let versions ← state.revisions nullish
  let tombstoneOrder ← state.tombstones
  some {
    format := (state.fields.get? (lit "format")).getD .null
    revisionFormat := state.fields.get? (lit "revisionFormat")
    entries := state.entries
    versions
    tombstoneOrder
    highWater := state.fields.get? (lit "highWater")
  }

def StateFile.assigned (file : StateFile) : List (JsString × Json) :=
  [(lit "versions", .object (membersOf file.retained)), (lit "format", file.format)]
    ++ (file.revisionFormat.toList.map fun mark => (lit "revisionFormat", mark))
    ++ (file.highWater.toList.map fun clock => (lit "highWater", clock))
    ++ [(lit "tombstoneOrder", .array (file.order.map .string))]

/-- The document after a write; every other field stays. -/
def Document.revised (state : Document) (file : StateFile) : Document where
  fields := JsMap.bindAll Prod.fst Prod.snd state.fields file.assigned
  entries := file.entries

/-- Whether an operation is decided from what the locked state holds. -/
def BatchOp.locked : BatchOp → Bool
  | .put _ value _ ifVersion onConflict =>
      ifVersion.isSome || (onConflict matches .ask _) || (value matches .computed _)
  | .delete _ ifVersion onConflict condition =>
      ifVersion.isSome || (onConflict matches .ask _) || condition.isSome

inductive Request where
  | put (key : JsString) (value : Option Json) (identity : Json) (ifVersion : Option Json)
  | delete (key : JsString) (ifVersion : Option Json)
  | batch (ops : List BatchOp) (prepare : Option (StateFile → Except StateError (List BatchOp)))
      (fileRead : Bool)

namespace Request

def lockedKeys : Request → Option (List JsString)
  | batch ops prepare fileRead =>
      if prepare.isSome || fileRead || ops.any BatchOp.locked then some (ops.map BatchOp.key)
      else none
  | _ => none

def nullish : Request → Bool
  | batch .. => true
  | _ => false

def change (limits : Limits) (now : Nat) (file : StateFile)
    : Request → Except StateError (Option (List JsString × StateFile))
  | put key value identity ifVersion => do
      let (_, _, next) ← State.put limits key value identity ifVersion now file
      .ok (some ([key], next))
  | delete key ifVersion => do
      let written ← State.delete limits key ifVersion file
      .ok (written.map fun written => ([key], written.2))
  | batch ops prepare _ => do
      let (_, results, next) ← writeBatch limits now ops (prepare.getD fun _ => .ok []) file
      .ok (next.map fun next => ((results.filter BatchResult.applied).map BatchResult.key, next))

def apply (limits : Limits) (now : Nat) (request : Request) (state : Document)
    : Except FileError (Option (List JsString × Document)) :=
  match state.file request.nullish with
  | none => .error .unreadable
  | some file => do
      let changed ← transitioned (request.change limits now file)
      .ok (changed.map fun changed => (changed.1, state.revised changed.2))

end Request

structure PreparedStateCommit where
  stamped : Document
  generation : JsString
  encoded : EncodedState
  namespaces : JsMap JsString JsString
  serializedText : JsString

def Document.stamp (state : Document) (generation : JsString) (journalHash : Option JsString)
    : Document where
  fields :=
    let payload := (state.fields.delete (lit "readGeneration")).delete (lit "readJournalHash")
    ofMembers ((lit "readGeneration", .string generation)
      :: (journalHash.toList.map fun hash => (lit "readJournalHash", .string hash))
        ++ membersOf payload)
  entries := state.entries

/-- The state that is written and its encoding. The chain head of the journal is left out where it
would not fit.
-/
def stampAndEncode (maxStateBytes : Nat) (state : Document) (reuse : Encodings)
    (generation : JsString) (journalHash : Option JsString) : Document × EncodedState :=
  let unstamped := state.stamp generation none
  let canonical := encodeState unstamped reuse
  match journalHash with
  | none => (unstamped, canonical)
  | some hash =>
      let stamped := state.stamp generation (some hash)
      let encoded := encodeState stamped canonical.entries
      if maxStateBytes < encoded.serialized.length then (unstamped, canonical)
      else (stamped, encoded)

def unchangedNamespaces (namespaces : JsMap JsString JsString) (keys : List JsString)
    : JsMap JsString JsString :=
  keys.foldl (fun unchanged key => (keyNamespace key).elim unchanged unchanged.delete) namespaces

/-- `#prepareStateCommit`. `generation` is the UUID it draws and `journalHash` what
`prepareStateJournal` returns, where the store writes a journal.
-/
def prepareStateCommit (digest : Digest) (maxStateBytes : Nat) (state : Document)
    (reuse : Encodings) (keys : List JsString) (generation : JsString)
    (journalHash : Option JsString) (namespaces : JsMap JsString JsString)
    : Except FileError PreparedStateCommit :=
  let (stamped, encoded) := stampAndEncode maxStateBytes state reuse generation journalHash
  if maxStateBytes < encoded.serialized.length then .error (.exceeds maxStateBytes)
  else .ok {
    stamped
    generation
    encoded
    namespaces := signalNamespaces digest encoded.entries (unchangedNamespaces namespaces keys) []
    serializedText := Utf8.decode encoded.serialized
  }

/-- `#writeEncodings`: what the last commit of this store wrote, and its members. -/
structure WriteEncodings where
  serialized : JsString
  entries : Encodings

/-- `#readStateForWrite`: the state, and the encodings of this store's last commit where the file
still has its text.
-/
def readStateForWrite (maxStateBytes : Nat) (kept : Option WriteEncodings) (file : Option Bytes)
    : Except FileError (Document × Encodings) := do
  let read ← readState maxStateBytes false file
  match kept with
  | none => .ok (read.state, JsMap.empty)
  | some kept =>
      if read.observed = some kept.serialized then .ok (read.state, kept.entries)
      else .ok (read.state, JsMap.empty)

/-- The entries outside custody, encoded before the lock where they are not kept. -/
def encodeOutside (locked : List JsString) (state : Document) (reuse : Encodings) : Encodings :=
  (membersOf state.entries).foldl
    (fun reuse entry =>
      if locked.contains entry.1 || reuse.has entry.1 then reuse
      else reuse.set entry.1 (encodeEntry entry.1 entry.2))
    reuse

inductive Prepared where
  /-- A batch that is decided under the lock. -/
  | locked (state : Document) (reuse : Encodings) (namespaces : JsMap JsString JsString)
  /-- A write that is decided; it has a commit where it changed something. -/
  | decided (state : Document) (commit : Option PreparedStateCommit)

/-- `GENERATION`: a UUID as `randomUUID` draws it. -/
def isGeneration (text : JsString) : Bool :=
  text.length == 36 && text.zipIdx.all fun (unit, place) =>
    if [8, 13, 18, 23].contains place then unit == unitOf '-' else isHexUnit unit

/-- What a commit is given: the UUID and the chain head of its journal. -/
structure Stamp where
  generation : JsString
  shaped : isGeneration generation = true
  journalHash : Option JsString

structure StoreLimits where
  limits : Limits
  maxStateBytes : Nat

def decideWrite (digest : Digest) (limits : StoreLimits) (request : Request) (now : Nat) (stamp : Stamp)
    (state : Document) (reuse : Encodings) (namespaces : JsMap JsString JsString)
    : Except FileError (Option PreparedStateCommit) := do
  match ← request.apply limits.limits now state with
  | none => .ok none
  | some (keys, next) =>
      some <$> prepareStateCommit digest limits.maxStateBytes next reuse keys stamp.generation
        stamp.journalHash namespaces

/-- The first phase of `#writeState`, on a snapshot of the file. -/
def prepareWrite (digest : Digest) (limits : StoreLimits) (kept : Option WriteEncodings)
    (request : Request) (now : Nat) (stamp : Stamp) (file : Option Bytes)
    : Except FileError Prepared := do
  let (state, reuse) ← readStateForWrite limits.maxStateBytes kept file
  match request.lockedKeys with
  | some locked =>
      let reuse := encodeOutside locked state reuse
      .ok (.locked state reuse
        (signalNamespaces digest reuse JsMap.empty (locked.map keyNamespace)))
  | none => do
      .ok (.decided state (← decideWrite digest limits request now stamp state reuse JsMap.empty))

/-- The second phase of `#writeState`, under the lock: the commit, if there is anything to commit.
-/
def commitWrite (digest : Digest) (limits : StoreLimits) (request : Request) (now : Nat)
    (stamp : Stamp) : Prepared → Except FileError (Document × Option PreparedStateCommit)
  | .locked state reuse namespaces => do
      .ok (state, ← decideWrite digest limits request now stamp state reuse namespaces)
  | .decided state commit => .ok (state, commit)

end PiFabric.State
