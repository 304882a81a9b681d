import PiFabric.Foundation.Sha256
import PiFabric.Foundation.Json
import PiFabric.Foundation.Outcome

/-! The file of external mesh grants, and the three sections that read and rewrite it under the mesh
lock. A section may fail at any of its effects, and a process that dies in one leaves what it had
done: an outcome that nobody sees.
-/

namespace PiFabric.Grants

open JsString

def externalDataMaxBytes : Nat := 64 * 1024
def minTtlMs : Int := 60000
def maxTtlMs : Int := 30 * 24 * 60 * 60 * 1000
def grantMaxUses : Int := 10000
def maxActiveGrants : Nat := 1000
def maxGrantFileBytes : Nat := 4 * 1024 * 1024

def isAlphanumeric (unit : UInt16) : Bool :=
  isDigit unit || unitOf 'a' ≤ unit && unit ≤ unitOf 'z' || unitOf 'A' ≤ unit && unit ≤ unitOf 'Z'

/-- `TOPIC_PATTERN` and `KIND_PATTERN`. -/
def isName : JsString → Bool
  | [] => false
  | unit :: rest =>
      isAlphanumeric unit && rest.length ≤ 127
        && rest.all fun unit => isAlphanumeric unit || (lit "._:/-").contains unit

def isGrantId (text : JsString) : Bool :=
  0 < text.length && text.length ≤ 64
    && text.all fun unit => isAlphanumeric unit || unit = unitOf '-'

def isToken (text : JsString) : Bool :=
  text.length = 43 && text.all fun unit => isAlphanumeric unit || (lit "_-").contains unit

def isSafeInteger (value : Int) : Bool :=
  value.natAbs < 2 ^ 53

structure MeshGrantRecord where
  grantId : JsString
  topic : JsString
  kind : Option JsString
  createdAt : Int
  expiresAt : Int
  uses : Int
  maxUses : Int
  createdBy : Json
  hash : JsString
  maxEventBytes : Int
  lastEventId : Option JsString

structure MeshGrantInfo where
  grantId : JsString
  topic : JsString
  kind : Option JsString
  createdAt : Int
  expiresAt : Int
  uses : Int
  maxUses : Int
  createdBy : Json

def info (grant : MeshGrantRecord) : MeshGrantInfo :=
  { grant with }

def hashToken (token : JsString) : JsString :=
  Sha256.hex (Utf8.encode token)

def isGrantRecord (grant : MeshGrantRecord) : Bool :=
  (grant.hash.length = 64 && grant.hash.all isHexUnit) && isSafeInteger grant.expiresAt
    && isSafeInteger grant.uses && isSafeInteger grant.maxUses && isSafeInteger grant.maxEventBytes

def MeshGrantRecord.json (grant : MeshGrantRecord) : Json :=
  .object ([(lit "grantId", .string grant.grantId), (lit "topic", .string grant.topic)]
    ++ (grant.kind.map fun kind => (lit "kind", Json.string kind)).toList
    ++ [(lit "createdAt", .number (.int grant.createdAt)),
      (lit "expiresAt", .number (.int grant.expiresAt)), (lit "uses", .number (.int grant.uses)),
      (lit "maxUses", .number (.int grant.maxUses)), (lit "createdBy", grant.createdBy),
      (lit "hash", .string grant.hash), (lit "maxEventBytes", .number (.int grant.maxEventBytes))]
    ++ (grant.lastEventId.map fun event => (lit "lastEventId", Json.string event)).toList)

def fileJson (grants : List MeshGrantRecord) : Json :=
  .object [(lit "format", .number (.int 1)), (lit "grants", .array (grants.map (·.json)))]

def newline (depth : Nat) : JsString :=
  0x0A :: List.replicate (2 * depth) 0x20

def bracketed (left right : Char) (depth : Nat) (items : List JsString) : JsString :=
  if items.isEmpty then [unitOf left, unitOf right]
  else
    unitOf left :: ((items.map fun item => newline (depth + 1) ++ item).intersperse
      [unitOf ',']).flatten ++ newline depth ++ [unitOf right]

mutual
def indented (depth : Nat) : Json → JsString
  | .array items => bracketed '[' ']' depth (indentedItems depth items)
  | .object members => bracketed '\x7b' '\x7d' depth (indentedMembers depth members)
  | value => value.stringify

def indentedItems (depth : Nat) : List Json → List JsString
  | [] => []
  | item :: rest => indented (depth + 1) item :: indentedItems depth rest

def indentedMembers (depth : Nat) : List (JsString × Json) → List JsString
  | [] => []
  | member :: rest =>
      (Json.quote member.1 ++ lit ": " ++ indented (depth + 1) member.2)
        :: indentedMembers depth rest
end

def fileBytes (grants : List MeshGrantRecord) : Nat :=
  (Utf8.encode (indented 0 (fileJson grants))).length

inductive Failure where
  | invalidInteger (name : String) (min max : Int)
  | invalidTopic (topic : JsString)
  | invalidKind (kind : JsString)
  | invalidGrantId (grantId : JsString)
  | notSerializable
  | dataTooLarge
  | readFailed (message : JsString)
  | fileTooLarge
  | tooManyGrants
  | unknownToken
  | expired
  | exhausted
  | topicNotCovered (topic : JsString)
  | kindNotCovered (kind : JsString)
  | storeFailed (message : JsString)
deriving DecidableEq

def Failure.message : Failure → JsString
  | invalidInteger name min max =>
      lit name ++ lit " must be an integer from " ++ Json.integerToken min ++ lit " to "
        ++ Json.integerToken max
  | invalidTopic topic => lit "Invalid Fabric mesh topic: " ++ topic
  | invalidKind kind => lit "Invalid Fabric mesh event kind: " ++ kind
  | invalidGrantId grantId => lit "Invalid Fabric mesh grant id: " ++ grantId
  | notSerializable => lit "External mesh data must be JSON-serializable"
  | dataTooLarge =>
      lit "External mesh data exceeds " ++ Json.digits externalDataMaxBytes ++ lit " bytes"
  | readFailed message => lit "Failed to read Fabric mesh grants: " ++ message
  | fileTooLarge =>
      lit "Fabric mesh grants exceed " ++ Json.digits maxGrantFileBytes ++ lit " bytes"
  | tooManyGrants =>
      lit "At most " ++ Json.digits maxActiveGrants ++ lit " mesh grants may be active"
  | unknownToken => lit "Fabric mesh grant token is not valid or was revoked"
  | expired => lit "Fabric mesh grant has expired"
  | exhausted => lit "Fabric mesh grant has no uses left"
  | topicNotCovered topic => lit "Fabric mesh grant does not cover topic " ++ topic
  | kindNotCovered kind => lit "Fabric mesh grant does not cover kind " ++ kind
  | storeFailed message => message

/-- A check that throws. -/
def require (condition : Bool) (failure : Failure) : Except Failure Unit :=
  if condition then .ok () else .error failure

/-- `grants.json`, if it is there. -/
abbrev File : Type := Option (List MeshGrantRecord)

/-- What becomes of an effect: it is done, or it throws, having taken place or not. -/
inductive Fate where
  | done
  | fails (took : Bool) (message : JsString)

def Fate.took : Fate → Bool
  | done => true
  | fails took _ => took

def Fate.outcome : Fate → Except Failure Unit
  | done => .ok ()
  | fails _ message => .error (.storeFailed message)

/-- `readGrants`, which may be unable to read. -/
def readGrants (fails : Option JsString) (file : File) : Except Failure (List MeshGrantRecord) := do
  match fails, file with
  | some message, _ => throw (.readFailed message)
  | none, none => pure []
  | none, some grants =>
      require (fileBytes grants ≤ maxGrantFileBytes) (.readFailed
        (lit "exceeds " ++ Json.digits maxGrantFileBytes ++ lit " bytes"))
      require (grants.all isGrantRecord) (.readFailed (lit "invalid format"))
      pure grants

def writeGrants (fate : Fate) (grants : List MeshGrantRecord) (file : File)
    : File × Except Failure Unit :=
  if maxGrantFileBytes < fileBytes grants then (file, .error .fileTooLarge)
  else (if fate.took then some grants else file, fate.outcome)

def boundedInteger (value : Option Int) (name : String) (min max : Int) : Except Failure Int :=
  match value with
  | some value =>
      if isSafeInteger value ∧ min ≤ value ∧ value ≤ max then .ok value
      else .error (.invalidInteger name min max)
  | none => .error (.invalidInteger name min max)

structure CreateInput where
  topic : JsString
  kind : Option JsString := none
  ttlMs : Option Int
  uses : Option Int := some 1
  createdBy : Json

def createRecord (storeMaxEventBytes : Int) (now : Int) (grantId token : JsString)
    (input : CreateInput) : Except Failure MeshGrantRecord := do
  let ttlMs ← boundedInteger input.ttlMs "ttlMs" minTtlMs maxTtlMs
  let uses ← boundedInteger input.uses "uses" 1 grantMaxUses
  require (isName input.topic) (.invalidTopic input.topic)
  require (input.kind.all isName) (.invalidKind (input.kind.getD []))
  pure {
    grantId
    topic := input.topic
    kind := input.kind
    createdAt := now
    expiresAt := now + ttlMs
    uses
    maxUses := uses
    createdBy := input.createdBy
    hash := hashToken token
    maxEventBytes := storeMaxEventBytes
    lastEventId := none
  }

/-- The input of a post; `some none` is data that JSON has no text for. -/
structure PostInput where
  token : JsString
  topic : Option JsString := none
  kind : Option JsString := none
  data : Option (Option Json) := none

/-- What `postWithMeshGrant` checks before it asks for the lock. -/
def checkPost (input : PostInput) : Except Failure Unit := do
  require (input.kind.all isName) (.invalidKind (input.kind.getD []))
  match input.data with
  | none => pure ()
  | some none => throw .notSerializable
  | some (some data) =>
      require ((Utf8.encode data.stringify).length ≤ externalDataMaxBytes) .dataTooLarge

structure MeshEvent where
  id : JsString
  topic : JsString
  kind : JsString
  fromId : JsString
  data : Option Json
  grantId : JsString
  maxEventBytes : Int
  createdAt : Int

/-- What a section leaves: the file, the event it appended, and its outcome. -/
structure Section (α : Type) where
  file : File
  appended : Option MeshEvent
  outcome : Except Failure α

structure Choice where
  read : Option JsString := none
  write : Fate := .done
  append : Fate := .done
  eventId : JsString := []

def createSection (now : Int) (record : MeshGrantRecord) (choice : Choice) (file : File)
    : Section Unit :=
  match readGrants choice.read file with
  | .error failure => ⟨file, none, .error failure⟩
  | .ok stored =>
      let grants := stored.filter fun grant => now < grant.expiresAt
      if maxActiveGrants ≤ grants.length then ⟨file, none, .error .tooManyGrants⟩
      else
        let written := writeGrants choice.write (grants ++ [record]) file
        ⟨written.1, none, written.2⟩

def revokeSection (now : Int) (grantId : JsString) (choice : Choice) (file : File)
    : Section Bool :=
  match readGrants choice.read file with
  | .error failure => ⟨file, none, .error failure⟩
  | .ok grants =>
      let kept := grants.filter fun grant => grant.grantId ≠ grantId && now < grant.expiresAt
      let revoked := grants.any fun grant => grant.grantId = grantId
      if kept.length ≠ grants.length then
        let written := writeGrants choice.write kept file
        ⟨written.1, none, written.2.map fun _ => revoked⟩
      else ⟨file, none, .ok revoked⟩

/-- The grant that a token is of, the first one. -/
def findGrant (presented : JsString) (grants : List MeshGrantRecord) : Option MeshGrantRecord :=
  grants.find? fun grant => grant.hash = presented

def replaceGrant (presented : JsString) (updated : MeshGrantRecord)
    : List MeshGrantRecord → List MeshGrantRecord
  | [] => []
  | grant :: rest =>
      if grant.hash = presented then updated :: rest
      else grant :: replaceGrant presented updated rest

def authorize (now : Int) (input : PostInput) (grants : List MeshGrantRecord)
    : Except Failure MeshGrantRecord :=
  match findGrant (hashToken input.token) grants with
  | none => .error .unknownToken
  | some grant => do
      require (isToken input.token) .unknownToken
      require (now < grant.expiresAt) .expired
      require (0 < grant.uses) .exhausted
      require (input.topic.all fun topic => topic = grant.topic)
        (.topicNotCovered (input.topic.getD []))
      require (grant.kind.all fun covered => input.kind.all fun kind => kind = covered)
        (.kindNotCovered (input.kind.getD []))
      pure grant

def externalEvent (grant : MeshGrantRecord) (input : PostInput) (eventId : JsString)
    (createdAt : Int) : MeshEvent where
  id := eventId
  topic := grant.topic
  kind := input.kind.getD (grant.kind.getD (lit "external"))
  fromId := lit "external:" ++ grant.grantId
  data := input.data.join
  grantId := grant.grantId
  maxEventBytes := grant.maxEventBytes
  createdAt

/-- The section of `postWithMeshGrant`, entered at a given time: the debit is written first. -/
def postSection (clock now : Int) (input : PostInput) (choice : Choice) (file : File)
    : Section (MeshEvent × MeshGrantInfo) :=
  match readGrants choice.read file with
  | .error failure => ⟨file, none, .error failure⟩
  | .ok grants =>
      match authorize now input grants with
      | .error failure => ⟨file, none, .error failure⟩
      | .ok grant =>
          let updated := { grant with
            uses := grant.uses - 1, lastEventId := some choice.eventId }
          let written := writeGrants choice.write
            (replaceGrant (hashToken input.token) updated grants) file
          match written.2 with
          | .error failure => ⟨written.1, none, .error failure⟩
          | .ok () =>
              let event := externalEvent grant input choice.eventId clock
              ⟨written.1, if choice.append.took then some event else none,
                choice.append.outcome.map fun _ => (event, info updated)⟩

def activeGrants (now : Int) (file : File) : List MeshGrantRecord :=
  (file.getD []).filter fun grant => now < grant.expiresAt

end PiFabric.Grants
