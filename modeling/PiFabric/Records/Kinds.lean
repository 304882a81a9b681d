import PiFabric.Foundation.JsValue

/-! The kinds of records and the check of a `records.append` call: a known kind, known fields of the
right types, bounded sizes.
-/

namespace PiFabric.Records.Kinds

open JsString JsValue Json

inductive AppendError where
  /-- A `RecordsArgumentError` with its message. -/
  | invalid (message : JsString)
  /-- `JSON.stringify` does not know how to serialize a big integer. -/
  | unserializable
  deriving DecidableEq

def argumentError {α : Type} (message : JsString) : Except AppendError α :=
  .error (.invalid (lit "Invalid records call: " ++ message))

/-- Throws where a test says so. -/
def refuseIf (test : Bool) (message : JsString) : Except AppendError Unit :=
  if test then argumentError message else .ok ()

theorem refuseIf_eq_ok {test : Bool} {message : JsString}
    : refuseIf test message = .ok () ↔ test = false := by
  cases test <;> simp [refuseIf, argumentError]

def commas (names : List JsString) : JsString :=
  (lit ", ").intercalate names

def within (first last : Char) (unit : UInt16) : Bool :=
  unitOf first ≤ unit && unit ≤ unitOf last

def isPlain (others : JsString) (unit : UInt16) : Bool :=
  within 'A' 'Z' unit || within 'a' 'z' unit || isDigit unit || others.contains unit

structure Pattern where
  source : JsString
  test : JsString → Bool

def recipient : Pattern where
  source := lit "/^[A-Za-z0-9._@:/-]\x7b1,256\x7d$/"
  test text := 1 ≤ text.length && text.length ≤ 256 && text.all (isPlain (lit "._@:/-"))

/-- A part of `REF` or `REPO`: 1 to 100 of letters, digits and `_ . -`, and the text after it. -/
def namePart (text : JsString) : Option (JsString × JsString) :=
  let part := text.takeWhile (isPlain (lit "_.-"))
  if 1 ≤ part.length && part.length ≤ 100 then
    some (part, text.drop part.length)
  else none

def after (unit : Char) : JsString → Option JsString
  | first :: rest => if first = unitOf unit then some rest else none
  | [] => none

structure ParsedRef where
  ref : JsString
  owner : JsString
  repo : JsString
  number : Nat
  native : Bool

def matchRef (ref : JsString) : Option ParsedRef := do
  let (owner, rest) ← namePart ref
  let (repo, rest) ← namePart (← after '/' rest)
  let rest ← after '#' rest
  let native := rest.head? == some (unitOf 'L')
  let number := if native then rest.tail else rest
  if number.length ≤ 10 && number.all isDigit && number.head?.any (within '1' '9') then
    some { ref, owner, repo, number := natValue number, native }
  else none

def matchRepo (text : JsString) : Option (JsString × JsString) := do
  let (owner, rest) ← namePart text
  let (repo, rest) ← namePart (← after '/' rest)
  if rest.isEmpty then some (owner, repo) else none

def parseRef (ref : JsString) : Except AppendError ParsedRef :=
  match matchRef ref with
  | some parsed => .ok parsed
  | none =>
      argumentError (lit "ref must look like Owner/repo#123 or Owner/repo#L12, not "
        ++ quote (ref.take 120))

def parseRepo (repo : JsString) : Except AppendError (JsString × JsString) :=
  match matchRepo repo with
  | some parsed => .ok parsed
  | none => argumentError (lit "repo must look like Owner/repo, not " ++ quote (repo.take 120))

def isHexDigit (unit : UInt16) : Bool :=
  isDigit unit || within 'a' 'f' unit || within 'A' 'F' unit

def isUuid (text : JsString) : Bool :=
  text.length == 36 && text.zipIdx.all fun (unit, place) =>
    if [8, 13, 18, 23].contains place then unit == unitOf '-' else isHexDigit unit

def lowerUnit (unit : UInt16) : UInt16 :=
  if within 'A' 'Z' unit then unit + 32 else unit

def lowerCase (text : JsString) : JsString :=
  text.map lowerUnit

inductive RecordKind where
  | issue
  | status
  | comment
  | decision
  | ask
  | answer
  | handoff
  | link
  | close
  | reopen
  | mirror
  deriving DecidableEq

def RecordKind.text : RecordKind → JsString
  | issue => lit "issue"
  | status => lit "status"
  | comment => lit "comment"
  | decision => lit "decision"
  | ask => lit "ask"
  | answer => lit "answer"
  | handoff => lit "handoff"
  | link => lit "link"
  | close => lit "close"
  | reopen => lit "reopen"
  | mirror => lit "mirror"

def recordKinds : List RecordKind :=
  [.issue, .status, .comment, .decision, .ask, .answer, .handoff, .link, .close, .reopen, .mirror]

def importFields : List JsString := [lit "via", lit "githubId"]

inductive FieldType where
  | string
  | strings
  | number
  | boolean
  | uuid
  | eta
  deriving DecidableEq

structure FieldSpec where
  type : FieldType
  required : Bool := false
  values : Option (List JsString) := none
  pattern : Option Pattern := none
  hint : Option JsString := none

def statusStates : List JsString :=
  [lit "in progress", lit "waiting", lit "blocked", lit "done"]

def mirrorStates : List JsString :=
  [lit "pending", lit "mirrored", lit "refused", lit "skipped", lit "unknown"]

def recipientSpec : FieldSpec where
  type := .string
  required := true
  pattern := some recipient
  hint := some (lit "a participant id or name (1-256 of A-Z a-z 0-9 . _ @ : / -)")

def kindFields : RecordKind → List (JsString × FieldSpec)
  | .issue =>
      [(lit "title", { type := .string }), (lit "body", { type := .string }),
        (lit "owner", { type := .string }), (lit "acceptance", { type := .string }),
        (lit "labels", { type := .strings }), (lit "nextAction", { type := .string }),
        (lit "stage", { type := .string })]
  | .status =>
      [(lit "eta", { type := .eta }),
        (lit "state", { type := .string, values := some statusStates }),
        (lit "waitOn", { type := .string })]
  | .comment => [(lit "deleted", { type := .boolean })]
  | .decision => [(lit "by", { type := .string }), (lit "where", { type := .string })]
  | .ask =>
      [(lit "to", recipientSpec), (lit "class", { type := .string }),
        (lit "minutes", { type := .number })]
  | .answer =>
      [(lit "ask", { type := .uuid, required := true }),
        (lit "outcome",
          { type := .string, required := true, values := some [lit "answered", lit "withdrawn"] })]
  | .handoff => [(lit "to", recipientSpec), (lit "key", { type := .string })]
  | .link =>
      [(lit "pr", { type := .string }), (lit "issue", { type := .string }),
        (lit "commit", { type := .string }), (lit "url", { type := .string }),
        (lit "forge", { type := .string }), (lit "number", { type := .number })]
  | .close => [(lit "reason", { type := .string })]
  | .reopen => [(lit "reason", { type := .string })]
  | .mirror =>
      [(lit "mirrorOf", { type := .uuid, required := true }),
        (lit "target", { type := .string, required := true }), (lit "url", { type := .string }),
        (lit "githubId", { type := .string }),
        (lit "state", { type := .string, required := true, values := some mirrorStates }),
        (lit "attempts", { type := .number }), (lit "error", { type := .string })]

/-- The names that every plain object inherits. Their values are functions, or the prototype. -/
def objectPrototype : List JsString :=
  [lit "constructor", lit "__defineGetter__", lit "__defineSetter__", lit "hasOwnProperty",
    lit "__lookupGetter__", lit "__lookupSetter__", lit "isPrototypeOf",
    lit "propertyIsEnumerable", lit "toString", lit "valueOf", lit "__proto__",
    lit "toLocaleString"]

/-- What `specs[name]` yields. An inherited value is no spec: it has no `type`. -/
inductive Looked where
  | spec (spec : FieldSpec)
  | inherited
  | absent

def look (specs : List (JsString × FieldSpec)) (name : JsString) : Looked :=
  match specs.lookup name with
  | some spec => .spec spec
  | none => if objectPrototype.contains name then .inherited else .absent

def isStage (item : JsValue) : Bool :=
  match item.object? with
  | some members =>
      (get members (lit "stage")).text?.isSome && (get members (lit "at")).text?.isSome
        && members.all fun member => member.1 == lit "stage" || member.1 == lit "at"
  | none => false

def checkField (kind name : JsString) (spec : FieldSpec) (value : JsValue)
    : Except AppendError Unit :=
  let bad (what : JsString) : JsString :=
    lit "data." ++ name ++ lit " of a " ++ kind ++ lit " record must be " ++ what
  match spec.type with
  | .string =>
      match value.text? with
      | none => argumentError (bad (lit "a string"))
      | some text => do
          refuseIf (spec.values.any fun values => !values.contains text)
            (bad (lit "one of " ++ commas ((spec.values.getD []).map quote)))
          refuseIf (spec.pattern.any fun pattern => !pattern.test text)
            (bad (spec.hint.getD (lit "a string matching " ++ spec.pattern.elim [] Pattern.source)))
  | .strings =>
      match value with
      | .array items =>
          refuseIf (!items.all fun item => item.text?.isSome) (bad (lit "an array of strings"))
      | _ => argumentError (bad (lit "an array of strings"))
  | .number =>
      match value with
      | .number _ => .ok ()
      | _ => argumentError (bad (lit "a finite number"))
  | .boolean =>
      match value with
      | .bool _ => .ok ()
      | _ => argumentError (bad (lit "a boolean"))
  | .uuid =>
      match value with
      | .string text => refuseIf (!isUuid text) (bad (lit "a record id (UUID)"))
      | _ => argumentError (bad (lit "a record id (UUID)"))
  | .eta =>
      match value with
      | .string _ => .ok ()
      | .array items =>
          refuseIf (!items.all isStage) (bad (lit "a string or a list of \x7bstage, at\x7d"))
      | _ => argumentError (bad (lit "a string or a list of \x7bstage, at\x7d"))

structure AppendOptions where
  importer : Bool
  mirror : Bool

/-- A field of the importer's, unless it is the mirror's own `githubId`. -/
def isImport (kind : RecordKind) (name : JsString) : Bool :=
  importFields.contains name && !(kind == .mirror && name == lit "githubId")

/-- The check of one entry of `data`. A value that is not a spec passes `checkField`'s switch. -/
def checkEntry (kind : RecordKind) (options : AppendOptions) (field : JsString × JsValue)
    : Except AppendError Unit :=
  if isImport kind field.1 then do
    refuseIf (!options.importer)
      (lit "data." ++ field.1 ++ lit " is set only by the importer role")
    refuseIf (!(field.2.text?.any fun text => !(trim text).isEmpty))
      (lit "data." ++ field.1 ++ lit " must be a non-empty string")
  else
    match look (kindFields kind) field.1 with
    | .spec spec => checkField kind.text field.1 spec field.2
    | .inherited => .ok ()
    | .absent =>
        let names := commas ((kindFields kind).map Prod.fst)
        argumentError (lit "unknown field data." ++ field.1 ++ lit " for a " ++ kind.text
          ++ lit " record; allowed: " ++ if names.isEmpty then lit "none" else names)

def checkRequired (kind : RecordKind) (fields : List (JsString × JsValue))
    (field : JsString × FieldSpec) : Except AppendError Unit :=
  refuseIf (field.2.required && (get fields field.1).isUndefined)
    (lit "a " ++ kind.text ++ lit " record needs data." ++ field.1)

def maxTextBytes : Nat := 64 * 1024
def maxDataBytes : Nat := 64 * 1024
def maxKeyLength : Nat := 256
def maxEncodedRecordBytes : Nat := 192 * 1024

def callFields : List JsString :=
  [lit "ref", lit "repo", lit "kind", lit "key", lit "text", lit "data", lit "supersedes",
    lit "author"]

def textRequired : List RecordKind := [.comment, .decision, .ask]

structure AppendCall where
  ref : Option JsString
  repo : Option JsString
  kind : RecordKind
  key : JsString
  text : Option JsString
  fields : List (JsString × JsValue)
  supersedes : Option JsString
  author : JsValue

def optional (value : JsValue) (message : JsString) : Except AppendError (Option JsString) :=
  match value with
  | .undefined => .ok none
  | .string text => .ok (some text)
  | _ => argumentError message

def checkTarget (kind : RecordKind) (supersedes : JsValue)
    : Option JsString → Option JsString → Except AppendError Unit
  | none, none => argumentError (lit "ref is required (repo alone only creates an issue)")
  | some _, some _ => argumentError (lit "pass ref or repo, not both")
  | none, some repo => do
      refuseIf (kind != .issue || !supersedes.isUndefined)
        (lit "repo without ref only creates an issue (kind issue, no supersedes)")
      let _ ← parseRepo repo
  | some ref, none => do
      let _ ← parseRef ref

def isBlankText (text : Option JsString) : Bool :=
  text.all fun text => (trim text).isEmpty

def checkSizes (text : Option JsString) (fields : List (JsString × JsValue))
    : Except AppendError Unit :=
  let record := [(lit "text", text.elim .null .string), (lit "data", .object fields)]
  match encodedBytes fields, encodedBytes record with
  | some data, some encoded => do
      refuseIf (maxDataBytes < data) (lit "data exceeds " ++ digits maxDataBytes ++ lit " bytes")
      refuseIf (maxEncodedRecordBytes < encoded) (lit "text and data exceed "
        ++ digits maxEncodedRecordBytes ++ lit " bytes as JSON (escapes count)")
  | _, _ => .error .unserializable

def checkCall (input : JsValue) : Except AppendError AppendCall := do
  let some members := input.object?
    | argumentError (lit "pass one object: \x7bref, kind, key, text?, data?, supersedes?\x7d")
  let extra := (members.map Prod.fst).filter fun name => !callFields.contains name
  refuseIf (!extra.isEmpty)
    (lit "unknown field " ++ commas (extra.map quote) ++ lit "; allowed: " ++ commas callFields)
  let some kind := recordKinds.find? fun kind =>
      (get members (lit "kind")).text? == some kind.text
    | argumentError (lit "kind must be one of " ++ commas (recordKinds.map RecordKind.text))
  let some key := (get members (lit "key")).text?.filter fun key =>
      !(trim key).isEmpty && key.length ≤ maxKeyLength
    | argumentError (lit "key is required: a stable idempotency key of 1-" ++ digits maxKeyLength
        ++ lit " characters (retry with the same key)")
  let ref ← optional (get members (lit "ref")) (lit "ref must be a string")
  let repo ← optional (get members (lit "repo")) (lit "repo must be a string")
  let supersedes := get members (lit "supersedes")
  checkTarget kind supersedes ref repo
  let text ← optional (get members (lit "text")) (lit "text must be a string")
  refuseIf (text.any fun text => maxTextBytes < (Utf8.encode text).length)
    (lit "text exceeds " ++ digits maxTextBytes ++ lit " bytes")
  refuseIf (textRequired.contains kind && isBlankText text)
    (lit "a " ++ kind.text ++ lit " record needs text")
  refuseIf (!supersedes.isUndefined && !supersedes.text?.any isUuid)
    (lit "supersedes must be a record id (UUID)")
  let data := get members (lit "data")
  refuseIf (!data.isUndefined && data.object?.isNone) (lit "data must be an object")
  let fields := data.object?.getD []
  checkSizes text fields
  return { ref, repo, kind, key, text, fields, supersedes := supersedes.text?
           author := get members (lit "author") }

def checkRoles (call : AppendCall) (options : AppendOptions)
    : Except AppendError (Option JsString) := do
  refuseIf (call.kind == .issue && call.repo.isSome
      && (get call.fields (lit "title")).text?.isNone) (lit "a new issue needs data.title")
  refuseIf (call.kind == .link && ([lit "pr", lit "issue", lit "commit", lit "url", lit "forge"].all
      fun name => (get call.fields name).isUndefined))
    (lit "a link record needs data.pr, data.issue, data.commit, data.url or data.forge")
  refuseIf (call.kind == .mirror && !options.mirror)
    (lit "record.mirror is written only by the mirror role")
  if call.author.isUndefined then return none
  refuseIf (!options.importer)
    (lit "author is taken from the authenticated caller; only the importer role sets it")
  let some author := call.author.text?.filter fun author =>
      !(trim author).isEmpty && author.length ≤ 256
    | argumentError (lit "author must be a non-empty string")
  refuseIf (get call.fields (lit "via")).text?.isNone
    (lit "an imported record (author set) needs data.via")
  return some (trim author)

structure AppendArgs where
  ref : Option JsString
  repo : Option JsString
  kind : RecordKind
  key : JsString
  text : Option JsString
  data : List (JsString × JsValue)
  supersedes : Option JsString
  author : Option JsString

def canonicalField (kind : RecordKind) (field : JsString × JsValue) : JsString × JsValue :=
  match look (kindFields kind) field.1, field.2 with
  | .spec spec, .string text =>
      (field.1, .string (if spec.type = .uuid then lowerCase text else text))
  | _, value => (field.1, value)

def validateAppend (input : JsValue) (options : AppendOptions) : Except AppendError AppendArgs := do
  let call ← checkCall input
  call.fields.forM (checkEntry call.kind options)
  (kindFields call.kind).forM (checkRequired call.kind call.fields)
  let author ← checkRoles call options
  return {
    ref := call.ref
    repo := call.repo
    kind := call.kind
    key := call.key
    text := call.text
    data := call.fields.map (canonicalField call.kind)
    supersedes := call.supersedes.map lowerCase
    author }

end PiFabric.Records.Kinds
