import PiFabric.Foundation.Faulty
import PiFabric.Foundation.Json

/-! The spool of child completions that an actor's activations and its owner share: envelopes of
unread outcomes, receipts of what was claimed, markers of the batches that were sent, and intents
to abandon a claim.
-/

namespace PiFabric.Completions

open Faulty (Proc)

/-- What `ID` accepts: thirty-two lower-case hexadecimal digits. -/
def isId (text : JsString) : Bool :=
  text.length = 32
    && text.all fun unit => (48 ≤ unit && unit ≤ 57) || (97 ≤ unit && unit ≤ 102)

def validId (id : String) : Bool :=
  isId (JsString.lit id)

inductive SpawnerKind
  | main | agent | actor
  deriving DecidableEq

structure AgentSpawner where
  id : String
  kind : SpawnerKind
  runId : Option String
  deriving DecidableEq

inductive RunStatus
  | completed | failed | stopped | timedOut
  deriving DecidableEq

structure ActorChildResult where
  id : String
  name : JsString
  status : RunStatus
  text : JsString
  error : Option JsString
  startedAt : Nat
  finishedAt : Option Nat
  deriving DecidableEq

structure ActorChildCompletion where
  format : Nat
  spawner : AgentSpawner
  result : ActorChildResult
  deriving DecidableEq

inductive ReceiptKind
  | live | mailbox | foreground
  deriving DecidableEq

structure Receipt where
  id : String
  kind : Option ReceiptKind
  batchId : Option String
  publication : Option String
  unread : Bool
  deriving DecidableEq

structure Abandon where
  id : String
  publication : String

/-- The files of a spool, by the id that each is named after. -/
structure Spool where
  receipts : String → Option Receipt
  /-- The ids that the marker of a live batch lists. -/
  markers : String → Option (List String)
  abandons : String → Option Abandon
  envelopes : String → Option ActorChildCompletion
  results : String → Option (ActorChildResult × AgentSpawner)

def Spool.empty : Spool :=
  ⟨fun _ => none, fun _ => none, fun _ => none, fun _ => none, fun _ => none⟩

namespace Spool
variable (spool : Spool)

def putReceipt (id : String) (receipt : Receipt) : Spool :=
  { spool with receipts := Function.update spool.receipts id (some receipt) }

def putMarker (id : String) (marker : Option (List String)) : Spool :=
  { spool with markers := Function.update spool.markers id marker }

def putAbandon (id : String) (abandon : Option Abandon) : Spool :=
  { spool with abandons := Function.update spool.abandons id abandon }

def putEnvelope (id : String) (envelope : Option ActorChildCompletion) : Spool :=
  { spool with envelopes := Function.update spool.envelopes id envelope }

def putResult (id : String) (result : Option (ActorChildResult × AgentSpawner)) : Spool :=
  { spool with results := Function.update spool.results id result }

def batchCommitted : Option String → Bool
  | none | some "" => true
  | some batch => validId batch && (spool.markers batch).isSome

def received (id : String) : Bool :=
  match spool.receipts id with
  | none => false
  | some receipt => !receipt.unread && spool.batchCommitted receipt.batchId

/-- The publication that an id was claimed for, which may still be abandoned. -/
def publication (id : String) : Option String :=
  if spool.received id then (spool.receipts id).bind Receipt.publication else none

def mailboxClaimed (id : String) : Bool :=
  spool.received id && (spool.receipts id).any fun receipt =>
    receipt.kind = some .mailbox
      || receipt.kind.isNone && receipt.batchId.isNone && receipt.publication.isNone

end Spool

structure Store where
  publicationId : String
  consumed : String → Bool
  /-- Its last write of the receipt of this id failed. -/
  uncertain : String → Bool
  /-- Whether the session held a completion of an envelope when that was checked. -/
  checked : String → Option Bool

def Store.new (publicationId : String) : Store :=
  ⟨publicationId, fun _ => false, fun _ => false, fun _ => none⟩

structure Desk where
  spool : Spool
  /-- The text of the session file, if it can be read. -/
  session : Option JsString
  store : Store

inductive Error
  | message (text : String)
  | claimLost (ids : List String)
  | io
  deriving DecidableEq

abbrev Section (α : Type) : Type :=
  Proc Desk Error α

namespace Desk
variable (desk : Desk)

def withSpool (spool : Spool) : Desk :=
  { desk with spool := spool }

def setConsumed (id : String) : Desk :=
  { desk with store := { desk.store with consumed := Function.update desk.store.consumed id true } }

def setUncertain (id : String) (value : Bool) : Desk :=
  { desk with
    store := { desk.store with uncertain := Function.update desk.store.uncertain id value } }

def setChecked (id : String) (value : Option Bool) : Desk :=
  { desk with store := { desk.store with checked := Function.update desk.store.checked id value } }

def retainChecked (listed : List String) : Desk :=
  { desk with
    store := { desk.store with
      checked := fun id => if listed.contains id then desk.store.checked id else none } }

end Desk

def writeSpool (change : Spool → Spool) : Section Unit :=
  Proc.write .io fun desk => desk.withSpool (change desk.spool)

def syncDirectoryChain : Section Unit :=
  Proc.write .io id

def rollbackAbandoned (id : String) : Section Unit := do
  let desk ← Proc.get
  match desk.spool.abandons id with
  | none => return ()
  | some abandoned =>
      let publication := (desk.spool.receipts id).bind Receipt.publication
      if abandoned.id = id ∧ publication = some abandoned.publication then
        writeSpool (·.putReceipt id ⟨id, none, none, none, true⟩)
        Proc.modify (·.setChecked id none)
      writeSpool (·.putAbandon id none)

structure ConsumeOptions where
  handoff : Bool := false
  publication : Bool := false
  mailbox : Bool := false

def claimReceipt (id : String) (mailbox : Bool) (publication : Option String) : Receipt :=
  ⟨id, some (if mailbox then .mailbox else .foreground), none, publication, false⟩

def releaseResult (id : String) : Section Unit :=
  writeSpool (·.putResult id none)

def consume (id : String) (options : ConsumeOptions) : Section Unit := do
  if !validId id then return ()
  let desk ← Proc.get
  let received := desk.spool.received id
  if received && options.mailbox && !desk.spool.mailboxClaimed id then
    Proc.throw (.claimLost [id])
  let own := some desk.store.publicationId
  if !received || desk.store.uncertain id
      || (!options.publication && desk.spool.publication id = own) then
    Proc.modify (·.setUncertain id true)
    writeSpool (·.putReceipt id
      (claimReceipt id options.mailbox (if options.publication then own else none)))
    Proc.modify (·.setUncertain id false)
  else syncDirectoryChain
  if !options.handoff then releaseResult id

/-- An envelope is removed, and need not be checked any more. -/
def removeEnvelope (id : String) : Section Unit := do
  writeSpool (·.putEnvelope id none)
  Proc.modify (·.setChecked id none)

def acknowledge (id : String) (handoff : Bool) : Section Unit := do
  if !validId id then return ()
  consume id { handoff := handoff, mailbox := handoff }
  removeEnvelope id

/-- The envelope of an outcome: the full result is kept in its own file. -/
def envelopeOf (result : ActorChildResult) (spawner : AgentSpawner) : ActorChildCompletion :=
  ⟨1, spawner, { result with text := result.text.take 4000
                             error := result.error.map (·.take 4000) }⟩

def checkIdentity (result : ActorChildResult) (spawner : AgentSpawner) : Section Unit :=
  if !validId result.id || spawner.kind ≠ .actor then
    Proc.throw (.message "Invalid actor child completion identity")
  else return ()

/-- What is claimed for good, or is there already, is not written again. -/
def enqueue (result : ActorChildResult) (spawner : AgentSpawner) (notify : Bool)
    : Section Unit := do
  rollbackAbandoned result.id
  let desk ← Proc.get
  let id := result.id
  if desk.store.consumed id || desk.spool.received id && (desk.spool.publication id).isNone then
    syncDirectoryChain
  else if (desk.spool.envelopes id).isSome && (desk.spool.results id).isSome then
    syncDirectoryChain
  else
    writeSpool (·.putResult id (some (result, spawner)))
    if notify then writeSpool (·.putEnvelope id (some (envelopeOf result spawner)))

def liveReceipt (id batch : String) : Receipt :=
  ⟨id, some .live, some batch, none, false⟩

def claimBatch (ids : List String) (batch : String) : Section Unit := do
  let desk ← Proc.get
  let lost := ids.filter desk.spool.received
  if lost ≠ [] then Proc.throw (.claimLost lost)
  Proc.each (fun id => writeSpool (·.putReceipt id (liveReceipt id batch))) ids
  Proc.attempt (writeSpool (·.putMarker batch (some ids))) fun error => do
    writeSpool (·.putMarker batch none)
    syncDirectoryChain
    Proc.throw error

def consumeLiveBatch (ids : List String) : Section Unit :=
  if ids.any (!validId ·) then Proc.throw (.message "Invalid actor child completion id")
  else match ids.head? with
  | none => return ()
  | some batch => claimBatch ids batch

def isText (field : Option Json) (text : String) : Bool :=
  match field with
  | some (.string found) => found = JsString.lit text
  | _ => false

/-- The ids that a line of a session file commits, as completions that were sent. -/
def lineIds (line : JsString) : List JsString :=
  match Json.parse line with
  | none => []
  | some entry =>
      let message :=
        if isText (entry.field? "type") "custom_message" then some entry
        else if isText (entry.field? "type") "message" then entry.field? "message"
        else none
      match message with
      | none => []
      | some message =>
          if isText (message.field? "customType") "pi-fabric-agent-complete" then
            match (message.field? "details").bind (Json.field? "ids") with
            | some (.array items) => items.filterMap fun
                | .string id => if isId id then some id else none
                | _ => none
            | _ => []
          else []

def committedIds (session : Option JsString) : List JsString :=
  match session with
  | none => []
  | some text => (text.splitOn 10).flatMap lineIds

structure PendingOptions where
  actorId : Option String
  inFlightRunId : Option String

def PendingOptions.admits (options : PendingOptions) (spawner : AgentSpawner) : Bool :=
  (options.actorId.isNone || options.actorId = some spawner.id)
    && (options.inFlightRunId.isNone || options.inFlightRunId ≠ spawner.runId)

/-- What a directory scan lists: envelopes and intents to abandon, in any order. -/
structure Listing where
  envelopes : List String
  abandons : List String

/-- Intents that cannot be carried out stay for the next time. -/
def rollbackAll : List String → Section Unit :=
  Proc.each fun id => Proc.attempt (rollbackAbandoned id) fun _ => return ()

/-- What becomes of one envelope: it is eligible, or was claimed and is removed. -/
def judgeEnvelope (options : PendingOptions) (id : String)
    : Section (Option ActorChildCompletion) := do
  rollbackAbandoned id
  let desk ← Proc.get
  if desk.spool.received id then
    if (desk.spool.publication id).isSome then return none
    removeEnvelope id
    return none
  else
    match desk.spool.envelopes id with
    | none => return none
    | some value =>
        if value.format = 1 ∧ value.result.id = id ∧ value.spawner.kind = .actor
            ∧ options.admits value.spawner then return some value
        else return none

/-- The eligible envelopes, a hundred at most. -/
def collect (options : PendingOptions) (room : Nat)
    : List String → Section (List ActorChildCompletion)
  | [] => return []
  | id :: rest => do
      match ← Proc.attempt (judgeEnvelope options id) fun _ => return none with
      | none => collect options room rest
      | some value =>
          match room with
          | 0 | 1 => return [value]
          | room + 2 => return value :: (← collect options (room + 1) rest)

/-- What was not checked yet is checked against one reading of the session. -/
def check (eligible : List ActorChildCompletion) : Section Unit := do
  let desk ← Proc.get
  let unchecked := eligible.filter fun value => (desk.store.checked value.result.id).isNone
  let committed := committedIds desk.session
  Proc.modify fun desk => unchecked.foldl (fun desk value => desk.setChecked value.result.id
    (some (committed.contains (JsString.lit value.result.id)))) desk

/-- What the session holds is acknowledged; the rest is unread. -/
def deliverable : List ActorChildCompletion → Section (List ActorChildCompletion)
  | [] => return []
  | value :: rest => do
      let desk ← Proc.get
      if desk.store.checked value.result.id = some true then
        Proc.attempt (acknowledge value.result.id false) fun _ => return ()
        deliverable rest
      else
        let unread := !desk.spool.received value.result.id
        let others ← deliverable rest
        return if unread then value :: others else others

def pending (options : PendingOptions) (listing : Listing)
    : Section (List ActorChildCompletion) := do
  rollbackAll listing.abandons
  Proc.modify (·.retainChecked listing.envelopes)
  let eligible ← collect options 100 listing.envelopes
  check eligible
  deliverable eligible

def hasPendingWork (options : PendingOptions) (listing : Listing) (spool : Spool) : Bool :=
  !listing.abandons.isEmpty || listing.envelopes.any fun id =>
    match spool.envelopes id with
    | none => false
    | some value =>
        options.actorId.isNone && options.inFlightRunId.isNone
          || value.format = 1 && value.spawner.kind = .actor && options.admits value.spawner

end PiFabric.Completions
