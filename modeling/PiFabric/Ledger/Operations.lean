import PiFabric.Ledger.Memory

/-! The operations of the ledger. Each decides on the memory under the mutation queue: it answers
at once, or appends one line and answers with what the memory then holds.
-/

namespace PiFabric.Ledger

open JsString LineLog Memory
open Json (Members)

inductive LedgerError where
  | claimField (field : String)
  | claimRecord
  | updateRecord
  | seenRecord
  | sentEnvelope
  | sentDiffers
  | sentNeedsId
  | settleAck
  | noAck
  | lineTooLong
  | full
  | unknown
  | damagedBefore (badAt : Nat)
  | damagedTail (badAt : Nat)
  deriving DecidableEq

namespace LedgerError

def code : LedgerError → String
  | full => "BRIDGE_NATS_LEDGER_FULL"
  | unknown => "BRIDGE_NATS_LEDGER_UNKNOWN"
  | damagedBefore _ => "BRIDGE_NATS_LEDGER_CORRUPT"
  | damagedTail _ => "BRIDGE_NATS_LEDGER_CORRUPT"
  | _ => "BRIDGE_NATS_LEDGER_INVALID"

def message (file : String) : LedgerError → String
  | claimField field => "claim " ++ field ++ " is invalid"
  | claimRecord => "claim does not form a valid record"
  | updateRecord => "update does not form a valid record"
  | seenRecord => "seen record is invalid"
  | sentEnvelope => "markSent envelopeId is invalid"
  | sentDiffers => "markSent names a different destination id"
  | sentNeedsId => "markSent toward the file mesh needs the appended event id"
  | settleAck => "settle ACK is invalid"
  | noAck => "no ACK is recorded to forward"
  | lineTooLong => "ledger record is larger than the line bound"
  | full => "ledger holds its maximum of live commands"
  | unknown => "no live claim for that commandId"
  | damagedBefore badAt =>
      "ledger " ++ file ++ " has a damaged record at byte " ++ toString badAt
        ++ " before valid records; refusing to open"
  | damagedTail badAt =>
      "ledger " ++ file ++ " ends in more than one damaged record (from byte "
        ++ toString badAt ++ "); refusing to open"

end LedgerError

/-- The status of a claim; `created` holds for `new` only. -/
inductive ClaimStatus where
  | new
  | duplicate
  | conflict
  | mismatch
  deriving DecidableEq

inductive Reply where
  | claimed (status : ClaimStatus) (record : Members)
  | record (record : Members)

inductive Plan where
  /-- Resolve without writing. -/
  | answer (reply : Reply)
  /-- Append the line, then resolve with the record it stored. -/
  | write (line : Line)

inductive Op where
  | claim (input : Members)
  | markUncertain (commandId : JsString)
  | markSent (commandId : JsString) (envelopeId sequence : Option Json)
  | settle (commandId : JsString) (ack : Json)
  | markAckForwarded (commandId : JsString)
  | markSeen (dir : Direction) (eventId : JsString)
      (destinationId destinationSequence : Option Json)

def require (condition : Bool) (reason : LedgerError) : Except LedgerError Unit :=
  if condition then .ok () else .error reason

def validateClaim (input : Members) : Except LedgerError Unit := do
  let invalid := fun condition field => require (!condition) (.claimField field)
  invalid (!isDirection (input.get? "direction")) "direction"
  invalid (!isHex64 (input.get? "commandId")) "commandId"
  invalid (!isText 512 (input.get? "originalCommandId")) "originalCommandId"
  invalid (!isText 512 (input.get? "sourceEventId")) "sourceEventId"
  invalid (!isHex64 (input.get? "bodyDigest")) "bodyDigest"
  invalid (!isOperation (input.get? "operation")) "operation"
  invalid (!isLiteral "control" (input.get? "origin") && !isLiteral "topic" (input.get? "origin"))
    "origin"
  invalid
    (isLiteral "topic" (input.get? "origin")
      && (!isLiteral "followUp" (input.get? "operation")
        || !isLiteral "toNats" (input.get? "direction")))
    "origin (a topic route is a followUp toward NATS)"
  invalid (!validIdentity (input.get? "from")) "from"
  invalid (!optional validPrincipal (input.get? "principal")) "principal"
  invalid (!optional isObject (input.get? "resolvedBody")) "resolvedBody"
  if isLiteral "toNats" (input.get? "direction") then do
    invalid (!isText 512 (input.get? "envelopeId")) "envelopeId (required toward NATS)"
    invalid (!isObject (input.get? "resolvedBody")) "resolvedBody (required toward NATS)"
    invalid (!isMachine (input.get? "targetMachine")) "targetMachine (required toward NATS)"
  else
    invalid (input.get? "envelopeId").isSome
      "envelopeId (recorded by markSent toward the file mesh)"
  invalid
    (isLiteral "cancel" (input.get? "operation") != (input.get? "cancelCommandId").isSome)
    "cancelCommandId"
  invalid
    ((input.get? "cancelCommandId").isSome
      && (!isHex64 (input.get? "cancelCommandId")
        || !isText 512 (input.get? "originalCancelCommandId")))
    "cancelCommandId"
  invalid (!isFinite (input.get? "deadlineAt")) "deadlineAt"

def claimedFields : List String :=
  ["direction", "sourceMachine", "requesterId", "originalCommandId", "replyTo", "targetId",
    "operation"]

def repeatedStatus (existing input : Members) : ClaimStatus :=
  if !Json.strictEqual (existing.get? "bodyDigest") (input.get? "bodyDigest") then .conflict
  else if claimedFields.any fun field =>
      !Json.strictEqual (existing.get? field) (input.get? field) then .mismatch
  else .duplicate

section Clock

variable {T : Type} [LinearOrder T] (num : Numbers T)

/-- The record of a first claim: `{ ...input, v: 1, state: "claimed", claimedAt, expiresAt }`. -/
def claimRecord (now : JsNumber) (input : Members) : Members :=
  let deadlineAt := match input.get? "deadlineAt" with
    | some (.number deadlineAt) => deadlineAt
    | _ => now
  input.assign [("v", .number (.int 1)), ("state", .string (lit "claimed")),
    ("claimedAt", .number now), ("expiresAt", .number (num.expiry deadlineAt now))]

def claim (now : JsNumber) (memory : Memory) (input : Members) : Except LedgerError Plan := do
  validateClaim input
  match memory.get num now (commandIdOf input) with
  | some existing => .ok (.answer (.claimed (repeatedStatus existing input) existing))
  | none => do
      require ((memory.commands.values.filter (live num now)).length < maxRecords) .full
      require (validCommand (claimRecord num now input)) .claimRecord
      .ok (.write (.cmd (claimRecord num now input)))

def requireLive (now : JsNumber) (memory : Memory) (commandId : JsString)
    : Except LedgerError Members :=
  match memory.get num now commandId with
  | some record => .ok record
  | none => .error .unknown

def update (record : Members) (changes : List (String × Json)) : Except LedgerError Plan := do
  require (validCommand (record.assign changes)) .updateRecord
  .ok (.write (.cmd (record.assign changes)))

def stateChange (state : CommandState) : String × Json :=
  ("state", .string state.name)

def markUncertain (now : JsNumber) (memory : Memory) (commandId : JsString)
    : Except LedgerError Plan := do
  let record ← requireLive num now memory commandId
  -- a confirmed send or a recorded ACK is never downgraded by a late uncertain outcome
  if stateOf record = some .claimed then update record [stateChange .uncertain]
  else .ok (.answer (.record record))

def markSent (now : JsNumber) (memory : Memory) (commandId : JsString)
    (envelopeId sequence : Option Json)
    : Except LedgerError Plan := do
  let record ← requireLive num now memory commandId
  require (optional (isText 512) envelopeId) .sentEnvelope
  require ((record.get? "envelopeId").isNone || envelopeId.isNone
    || Json.strictEqual envelopeId (record.get? "envelopeId")) .sentDiffers
  require (!(isLiteral "toFile" (record.get? "direction") && (record.get? "envelopeId").isNone
    && envelopeId.isNone)) .sentNeedsId
  let envelope := (envelopeId.toList.map fun id => ("envelopeId", id))
  if stateOf record ≠ some .claimed ∧ stateOf record ≠ some .uncertain then
    if (record.get? "envelopeId").isSome || envelopeId.isNone then .ok (.answer (.record record))
    -- an ACK can arrive before the append receipt
    else update record envelope
  else
    update record ([stateChange .sent]
      ++ (if (record.get? "envelopeId").isNone then envelope else [])
      ++ sequence.toList.map fun sequence => ("destinationSequence", sequence))

def settle (now : JsNumber) (memory : Memory) (commandId : JsString) (ack : Json)
    : Except LedgerError Plan := do
  let record ← requireLive num now memory commandId
  require (validAck (some ack) (some (.string commandId))) .settleAck
  -- the first recorded ACK stands
  if (record.get? "ack").isSome then .ok (.answer (.record record))
  else update record [stateChange .acked, ("ack", ack)]

def markAckForwarded (now : JsNumber) (memory : Memory) (commandId : JsString)
    : Except LedgerError Plan := do
  let record ← requireLive num now memory commandId
  require (record.get? "ack").isSome .noAck
  if stateOf record = some .ackForwarded then .ok (.answer (.record record))
  else update record [stateChange .ackForwarded]

def markSeen (now : JsNumber) (memory : Memory) (dir : Direction) (eventId : JsString)
    (destinationId destinationSequence : Option Json)
    : Except LedgerError Plan :=
  match memory.seenRecord num now dir eventId with
  | some existing => .ok (.answer (.record existing))
  | none => do
      let record : Members := [(lit "v", .number (.int 1)), (lit "eventId", .string eventId),
          (lit "direction", .string dir.name), (lit "seenAt", .number now),
          (lit "expiresAt", .number (num.expiry now now))]
        ++ (destinationId.toList.map fun id => (lit "destinationId", id))
        ++ destinationSequence.toList.map fun sequence => (lit "destinationSequence", sequence)
      require (validSeen record) .seenRecord
      .ok (.write (.seen record))

def plan (now : JsNumber) (memory : Memory) : Op → Except LedgerError Plan
  | .claim input => claim num now memory input
  | .markUncertain commandId => markUncertain num now memory commandId
  | .markSent commandId envelopeId sequence =>
      markSent num now memory commandId envelopeId sequence
  | .settle commandId ack => settle num now memory commandId ack
  | .markAckForwarded commandId => markAckForwarded num now memory commandId
  | .markSeen dir eventId destinationId destinationSequence =>
      markSeen num now memory dir eventId destinationId destinationSequence

def writtenReply (op : Op) (line : Line) (memory : Memory) : Reply :=
  match op, line with
  | .claim _, .cmd r => .claimed .new ((memory.commands.get? (commandIdOf r)).getD [])
  | _, .cmd r => .record ((memory.commands.get? (commandIdOf r)).getD [])
  | _, .seen r => .record ((memory.seen.get? (seenKeyOf r)).getD [])

end Clock

structure FileLedger where
  memory : Memory
  file : Bytes
  lines : Nat

structure Scan where
  lines : List Line
  offset : Nat
  good : Nat
  bad : Nat
  badAt : Option Nat

structure Settings (T : Type) [LinearOrder T] where
  num : Numbers T
  /-- The lower-case hexadecimal SHA-256 of some bytes. -/
  sha256Hex : Bytes → JsString
  minCompactLines : Nat

section File

variable {T : Type} [LinearOrder T] (settings : Settings T)

/-- Whether the file holds enough expired or superseded lines to rewrite it. -/
def compactDue (force : Bool) (now : JsNumber) (ledger : FileLedger) : Bool :=
  if !force && ledger.lines ≤ settings.minCompactLines then false
  else
    let kept := (ledger.memory.liveLines settings.num now).length
    let expired := ledger.memory.commands.size + ledger.memory.seen.size - kept
    force && 0 < expired || max settings.minCompactLines (4 * kept) < ledger.lines

def encodeAll (lines : List Line) : Option Bytes :=
  (lines.mapM (encode settings.sha256Hex)).map List.flatten

/-- Rewrites the file with the live lines; an error before the rename changes nothing. -/
def compact (now : JsNumber) (ledger : FileLedger) : FileLedger :=
  match encodeAll settings (ledger.memory.liveLines settings.num now) with
  | some file => {
      memory := ledger.memory.compacted settings.num now
      file
      lines := (ledger.memory.liveLines settings.num now).length
    }
  | none => ledger

def compactIfDue (force : Bool) (now : JsNumber) (ledger : FileLedger) : FileLedger :=
  if compactDue settings force now ledger then compact settings now ledger else ledger

def appended (line : Line) (bytes : Bytes) (ledger : FileLedger) : FileLedger where
  memory := ledger.memory.apply line
  file := ledger.file ++ bytes
  lines := ledger.lines + 1

def append (now : JsNumber) (line : Line) (ledger : FileLedger) : Except LedgerError FileLedger :=
  match encode settings.sha256Hex line with
  | none => .error .lineTooLong
  | some bytes => .ok (compactIfDue settings false now (appended line bytes ledger))

/-- One mutation, run to its end. -/
def perform (now : JsNumber) (op : Op) (ledger : FileLedger)
    : Except LedgerError (Reply × FileLedger) := do
  match ← plan settings.num now ledger.memory op with
  | .answer reply => .ok (reply, ledger)
  | .write line => do
      let next ← append settings now line ledger
      .ok (writtenReply op line next.memory, next)

def scanRow (scan : Scan) (row : Bytes) : Except LedgerError Scan :=
  let offset := scan.offset + row.length + 1
  match parseLine settings.sha256Hex row, scan.badAt with
  | none, _ => .ok {
      scan with
      offset
      bad := scan.bad + 1
      badAt := some (scan.badAt.getD scan.offset)
    }
  | some _, some badAt => .error (.damagedBefore badAt)
  | some line, none => .ok { scan with lines := scan.lines ++ [line], offset, good := offset }

def load (now : JsNumber) (data : Bytes) : Except LedgerError FileLedger := do
  let scan ← (split data).1.foldlM (scanRow settings)
    { lines := [], offset := 0, good := 0, bad := 0, badAt := none }
  if 1 < scan.bad || scan.bad = 1 && scan.offset < data.length then
    .error (.damagedTail (scan.badAt.getD 0))
  else
    .ok (compactIfDue settings true now {
      memory := replay scan.lines
      file := data.take scan.good
      lines := scan.lines.length
    })

end File

inductive ClaimAction where
  | publish (record : Members)
  | resend (record : Members)
  | awaitAck (record : Members)
  | replayAck (record : Members) (ack : Json)
  | refuse (record : Members) (code : String)

/-- The one decision for a claim result, never a wait. -/
def bridgeNatsClaimAction (status : ClaimStatus) (record : Members) : ClaimAction :=
  match status with
  | .new => .publish record
  | .conflict => .refuse record "BRIDGE_NATS_ID_CONFLICT"
  | .mismatch => .refuse record "BRIDGE_NATS_CLAIM_MISMATCH"
  | .duplicate =>
      match record.get? "ack" with
      | some ack => .replayAck record ack
      | none => if stateOf record = some .sent then .awaitAck record else .resend record

end PiFabric.Ledger
