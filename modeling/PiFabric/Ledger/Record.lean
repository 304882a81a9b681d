import PiFabric.Foundation.JsonObject
import PiFabric.Foundation.LineLog

/-! Records of the bridge ledger: command mappings and seen events, their shape checks, and the
line each is stored as. A record is the object that JSON carries, with every property it has.
-/

namespace PiFabric.Ledger

open JsString LineLog
open Json (Members)

def maxLineBytes : Nat := 4 * 1024 * 1024

def maxRecords : Nat := 1000000

inductive Direction where
  | toNats
  | toFile
  deriving DecidableEq

def Direction.name : Direction → JsString
  | .toNats => lit "toNats"
  | .toFile => lit "toFile"

inductive CommandState where
  | claimed
  | uncertain
  | sent
  | acked
  | ackForwarded
  deriving DecidableEq

namespace CommandState

def name : CommandState → JsString
  | claimed => lit "claimed"
  | uncertain => lit "uncertain"
  | sent => lit "sent"
  | acked => lit "acked"
  | ackForwarded => lit "ackForwarded"

def rank : CommandState → Nat
  | claimed => 0
  | uncertain => 1
  | sent => 2
  | acked => 3
  | ackForwarded => 4

def states : List CommandState :=
  [claimed, uncertain, sent, acked, ackForwarded]

def of? (value : Option Json) : Option CommandState :=
  states.find? fun state => Json.text? value = some state.name

theorem of?_name (state : CommandState) : of? (some (.string state.name)) = some state := by
  cases state <;> decide

end CommandState

def isObject : Option Json → Bool
  | some (.object _) => true
  | _ => false

/-- `text(value, max)`: a string of bounded length without control characters. -/
def isText (max : Nat) (value : Option Json) : Bool :=
  match value with
  | some (.string text) =>
      0 < text.length && text.length ≤ max && !text.any (fun unit => unit ≤ 0x1F || unit = 0x7F)
  | _ => false

/-- `finite(value)`; every number JSON carries is finite. -/
def isFinite : Option Json → Bool
  | some (.number _) => true
  | _ => false

def isLiteral (text : String) (value : Option Json) : Bool :=
  Json.text? value = some (lit text)

def isOne : Option Json → Bool
  | some (.number value) => value = .int 1
  | _ => false

def isDirection (value : Option Json) : Bool :=
  isLiteral "toNats" value || isLiteral "toFile" value

/-- `COMMAND_ID` and `DIGEST`. -/
def isHex64 : Option Json → Bool
  | some (.string text) => text.length = 64 && text.all isHexUnit
  | _ => false

def isMachineUnit (unit : UInt16) : Bool :=
  isDigit unit || unitOf 'a' ≤ unit && unit ≤ unitOf 'z'

def isMachine : Option Json → Bool
  | some (.string (head :: rest)) =>
      isMachineUnit head && rest.length ≤ 31
        && rest.all (fun unit => isMachineUnit unit || unit = unitOf '-')
  | _ => false

def operations : List String :=
  ["steer", "followUp", "stop", "ask", "cancel", "setModel", "setThinking"]

def isOperation (value : Option Json) : Bool :=
  operations.any (isLiteral · value)

def isSequence : Option Json → Bool
  | some (.number (.int value)) => 0 ≤ value && value ≤ 9007199254740991
  | _ => false

def optional (check : Option Json → Bool) (value : Option Json) : Bool :=
  value.isNone || check value

def hasOnly (allowed : List String) (members : Members) : Bool :=
  members.all fun member => allowed.any (lit · = member.1)

def validIdentity : Option Json → Bool
  | some (.object value) =>
      isText 512 (Members.get? "id" value)
        && (match Members.get? "name" value with
          | some (.string name) => name.length ≤ 512
          | _ => false)
        && (isLiteral "main" (Members.get? "kind" value) || isLiteral "actor" (Members.get? "kind" value)
          || isLiteral "agent" (Members.get? "kind" value))
        && optional (isText 512) (Members.get? "sessionId" value)
        && hasOnly ["id", "name", "kind", "sessionId"] value
  | _ => false

def validPrincipal : Option Json → Bool
  | some (.object value) =>
      isText 256 (Members.get? "id" value)
        && (isLiteral "herdr-client" (Members.get? "binding" value)
          || isLiteral "voice-call" (Members.get? "binding" value)
          || isLiteral "org-agent" (Members.get? "binding" value))
        && hasOnly ["id", "binding"] value
  | _ => false

def isBool : Option Json → Bool
  | some (.bool _) => true
  | _ => false

def validAck (ack : Option Json) (commandId : Option Json) : Bool :=
  match ack with
  | some (.object value) =>
      isOne (Members.get? "v" value) && Json.strictEqual (Members.get? "commandId" value) commandId
        && isBool (Members.get? "accepted" value) && isText 512 (Members.get? "fromId" value)
        && isText 512 (Members.get? "ackEventId" value) && isObject (Members.get? "data" value)
        && isFinite (Members.get? "receivedAt" value)
  | _ => false

def validOrigin (r : Members) : Bool :=
  (isLiteral "control" (r.get? "origin") || isLiteral "topic" (r.get? "origin"))
    && !(isLiteral "topic" (r.get? "origin")
      && (!isLiteral "followUp" (r.get? "operation") || !isLiteral "toNats" (r.get? "direction")))

/-- A cancel names what it cancels, and nothing else does. -/
def validCancel (r : Members) : Bool :=
  isLiteral "cancel" (r.get? "operation") == (r.get? "cancelCommandId").isSome
    && optional (fun id => isHex64 id && isText 512 (r.get? "originalCancelCommandId"))
      (r.get? "cancelCommandId")

def stateOf (r : Members) : Option CommandState :=
  CommandState.of? (r.get? "state")

/-- The rules that tie the state of a record to its ACK and its destination id. -/
def validState (r : Members) : Bool :=
  (decide (stateOf r = some .acked) || decide (stateOf r = some .ackForwarded))
      == (r.get? "ack").isSome
    && optional (fun ack => validAck ack (r.get? "commandId")) (r.get? "ack")
    && !(isLiteral "toFile" (r.get? "direction") && decide (stateOf r = some .sent)
      && (r.get? "envelopeId").isNone)

def validToNats (r : Members) : Bool :=
  !(isLiteral "toNats" (r.get? "direction")
    && ((r.get? "envelopeId").isNone || !isObject (r.get? "resolvedBody")
      || !isText 64 (r.get? "targetMachine")))

/-- Shape check of a command record read back from disk or built from a claim. -/
def validCommand (r : Members) : Bool :=
  isOne (r.get? "v") && (stateOf r).isSome && isDirection (r.get? "direction")
    && isHex64 (r.get? "commandId") && isText 512 (r.get? "originalCommandId")
    && isText 512 (r.get? "sourceEventId") && isHex64 (r.get? "bodyDigest")
    && isText 64 (r.get? "sourceMachine") && isText 512 (r.get? "requesterId")
    && isText 512 (r.get? "replyTo") && isText 512 (r.get? "targetId")
    && isOperation (r.get? "operation") && isText 512 (r.get? "ownerHostId")
    && isText 512 (r.get? "ownerIdentityId") && isFinite (r.get? "deadlineAt")
    && isFinite (r.get? "claimedAt") && isFinite (r.get? "expiresAt")
    && validIdentity (r.get? "from") && optional validPrincipal (r.get? "principal")
    && validOrigin r && optional (isText 512) (r.get? "envelopeId") && validToNats r
    && optional (isText 128) (r.get? "ownerIncarnation")
    && optional isMachine (r.get? "targetMachine") && validCancel r
    && optional isObject (r.get? "resolvedBody")
    && optional isSequence (r.get? "destinationSequence") && validState r

def validSeen (r : Members) : Bool :=
  isOne (r.get? "v") && isText 512 (r.get? "eventId") && isDirection (r.get? "direction")
    && isFinite (r.get? "seenAt") && isFinite (r.get? "expiresAt")
    && optional (isText 512) (r.get? "destinationId")
    && optional isSequence (r.get? "destinationSequence")

inductive Line where
  | cmd (r : Members)
  | seen (r : Members)

namespace Line

def tag : Line → JsString
  | cmd _ => lit "cmd"
  | seen _ => lit "seen"

def record : Line → Members
  | cmd r => r
  | seen r => r

def valid : Line → Bool
  | cmd r => validCommand r
  | seen r => validSeen r

def json (line : Line) : Json :=
  .object [(lit "t", .string line.tag), (lit "r", .object line.record)]

end Line

mutual
def sortKeys : Json → Json
  | .array items => .array (sortItems items)
  | .object members => .object ((sortMembers members).mergeSort fun a b => JsString.le a.1 b.1)
  | value => value

def sortItems : List Json → List Json
  | [] => []
  | item :: rest => sortKeys item :: sortItems rest

def sortMembers : List (JsString × Json) → List (JsString × Json)
  | [] => []
  | member :: rest => (member.1, sortKeys member.2) :: sortMembers rest
end

def canonical (value : Json) : JsString :=
  Json.stringify (sortKeys value)

section Checksum

-- the lower-case hexadecimal SHA-256 of some bytes
variable (sha256Hex : Bytes → JsString)

def checksum (line : Line) : JsString :=
  (sha256Hex (Utf8.encode (canonical line.json))).take 32

def lineBytes (line : Line) : Bytes :=
  Json.bytes (.object [(lit "t", .string line.tag), (lit "r", .object line.record),
    (lit "h", .string (checksum sha256Hex line))])

/-- `encode(line)`; `none` where it throws because the line is too long. -/
def encode (line : Line) : Option Bytes :=
  if maxLineBytes < (lineBytes sha256Hex line).length + 1 then none
  else some (lineBytes sha256Hex line ++ [newline])

def lineOf (tag : Option Json) (record : Option Json) : Option Line :=
  match record with
  | some (.object r) =>
      if isLiteral "cmd" tag then some (.cmd r)
      else if isLiteral "seen" tag then some (.seen r)
      else none
  | _ => none

def parseLine (raw : Bytes) : Option Line :=
  match Json.ofBytes raw with
  | some (.object value) =>
      match Members.get? "h" value, lineOf (Members.get? "t" value) (Members.get? "r" value) with
      | some (.string h), some line =>
          if checksum sha256Hex line ≠ h then none
          else if line.valid then some line
          else none
      | _, _ => none
  | _ => none

variable {sha256Hex}

theorem parseLine_lineBytes {line : Line} (valid : line.valid = true)
    : parseLine sha256Hex (lineBytes sha256Hex line) = some line := by
  have tag (tag r h : Json)
      : Members.get? "t" [(lit "t", tag), (lit "r", r), (lit "h", h)] = some tag := rfl
  have record (tag r h : Json)
      : Members.get? "r" [(lit "t", tag), (lit "r", r), (lit "h", h)] = some r := rfl
  have sum (tag r h : Json)
      : Members.get? "h" [(lit "t", tag), (lit "r", r), (lit "h", h)] = some h := rfl
  have kind : lineOf (some (.string line.tag)) (some (.object line.record)) = some line := by
    cases line <;> rfl
  simp only [parseLine, lineBytes, Json.ofBytes_bytes, tag, record, sum, kind, ne_eq,
    not_true_eq_false, if_false, valid, if_true]

theorem newline_not_mem_lineBytes (line : Line) : newline ∉ lineBytes sha256Hex line :=
  Json.newline_not_mem_bytes _

theorem encode_eq_some {line : Line} {bytes : Bytes} (h : encode sha256Hex line = some bytes)
    : bytes = lineBytes sha256Hex line ++ [newline] := by
  unfold encode at h
  split at h
  · exact absurd h (by simp)
  · exact (Option.some.inj h).symm

/-- A record of moderate size encodes, whatever its checksum. -/
theorem encode_of_short {line : Line}
    (short : (Json.stringify (.object line.record)).length ≤ 900000)
    : encode sha256Hex line = some (lineBytes sha256Hex line ++ [newline]) := by
  have fits : (lineBytes sha256Hex line).length + 1 ≤ maxLineBytes := by
    have tag : (Json.quote line.tag).length ≤ 6 := by
      cases line with
      | cmd => exact (by decide : (Json.quote (lit "cmd")).length ≤ 6)
      | seen => exact (by decide : (Json.quote (lit "seen")).length ≤ 6)
    have sum := Json.quote_length_le (checksum sha256Hex line)
    have cut : (checksum sha256Hex line).length ≤ 32 := List.length_take_le _ _
    have key : (Json.quote (lit "t")).length = 3 ∧ (Json.quote (lit "r")).length = 3
        ∧ (Json.quote (lit "h")).length = 3 := by
      decide
    have units : (Json.stringify (.object [(lit "t", .string line.tag),
        (lit "r", .object line.record), (lit "h", .string (checksum sha256Hex line))])).length
        ≤ 1000000 := by
      simp only [Json.stringify, Json.stringifyMembers, List.length_cons, List.length_append,
        List.length_nil, key]
      omega
    have bytes := (Utf8.encode_length_le _).trans (Nat.mul_le_mul_left 4 units)
    exact (Nat.succ_le_succ bytes).trans (by decide)
  rw [encode, if_neg (by omega)]

end Checksum

end PiFabric.Ledger
