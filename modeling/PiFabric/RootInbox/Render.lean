import PiFabric.Foundation.JsonObject
import PiFabric.Foundation.NumberValue
import PiFabric.Foundation.Sha256
import PiFabric.Foundation.TextBytes

/-! Mesh events as the root inbox shows them: one row of text for each, and the receipts that a
shown event leaves.
-/

namespace PiFabric.RootInbox

open JsString

structure MeshIdentity where
  id : JsString
  name : JsString
deriving DecidableEq

/-- An event of the mesh, with the fields that the inbox reads. -/
structure MeshEvent where
  id : JsString
  sequence : Int
  dedupeKey : Option JsString
  topic : JsString
  kind : JsString
  sender : MeshIdentity
  text : Option JsString
  data : Option Json
  createdAt : ℚ

def MeshEvent.field? (event : MeshEvent) (field : String) : Option Json :=
  event.data.bind (Json.field? field)

def eventTextBytes : Nat := 4 * 1024

/-- Decimal digits with leading zeros up to a width. -/
def padDigits (width n : Nat) : JsString :=
  List.replicate (width - (Json.digits n).length) (unitOf '0') ++ Json.digits n

/-- The year, month and day of a number of days since 1970, in the proleptic Gregorian calendar. -/
def civilDate (days : Int) : Int × Nat × Nat :=
  let shifted := days + 719468
  let era := shifted / 146097
  let dayOfEra := (shifted % 146097).toNat
  let yearOfEra :=
    (dayOfEra - dayOfEra / 1460 + dayOfEra / 36524 - dayOfEra / 146096) / 365
  let dayOfYear := dayOfEra - (365 * yearOfEra + yearOfEra / 4 - yearOfEra / 100)
  let monthFromMarch := (5 * dayOfYear + 2) / 153
  let month := if monthFromMarch < 10 then monthFromMarch + 3 else monthFromMarch - 9
  let year : Int := yearOfEra + era * 400
  (if month ≤ 2 then year + 1 else year, month, dayOfYear - (153 * monthFromMarch + 2) / 5 + 1)

/-- Years outside four digits are written with a sign and six. -/
def yearText (year : Int) : JsString :=
  if 0 ≤ year ∧ year ≤ 9999 then padDigits 4 year.toNat
  else unitOf (if year < 0 then '-' else '+') :: padDigits 6 year.natAbs

/-- The milliseconds that a `Date` takes a number for: it is cut to an integer. -/
def timeValue (time : ℚ) : Int :=
  if 0 ≤ time then ⌊time⌋ else ⌈time⌉

/-- A number that a `Date` can hold. -/
def DateHolds (time : ℚ) : Prop :=
  -8640000000000000 ≤ time ∧ time ≤ 8640000000000000

instance (time : ℚ) : Decidable (DateHolds time) :=
  inferInstanceAs (Decidable (_ ∧ _))

def isoString (time : ℚ) : Option JsString :=
  if DateHolds time then
    let value := timeValue time
    let date := civilDate (value / 86400000)
    let inDay := (value % 86400000).toNat
    some (yearText date.1 ++ lit "-" ++ padDigits 2 date.2.1 ++ lit "-" ++ padDigits 2 date.2.2
      ++ lit "T" ++ padDigits 2 (inDay / 3600000) ++ lit ":" ++ padDigits 2 (inDay / 60000 % 60)
      ++ lit ":" ++ padDigits 2 (inDay / 1000 % 60) ++ lit "." ++ padDigits 3 (inDay % 1000)
      ++ lit "Z")
  else none

example : isoString 1700000000000 = some (lit "2023-11-14T22:13:20.000Z") := by decide +kernel

def escapeXml (text : JsString) : JsString :=
  text.flatMap fun unit =>
    if unit = unitOf '&' then lit "&amp;"
    else if unit = unitOf '<' then lit "&lt;"
    else if unit = unitOf '>' then lit "&gt;"
    else [unit]

def withoutReplacement (text : JsString) : JsString :=
  if text.getLast? = some Utf8.replacement then text.dropLast else text

def bounded (text : JsString) (sequence : Int) : JsString :=
  if Utf8.byteLength text ≤ eventTextBytes then text
  else
    withoutReplacement (Utf8.decode ((Utf8.encode text).take eventTextBytes))
      ++ lit "\n[cut at " ++ Json.digits eventTextBytes
      ++ lit " bytes; read the whole event with mesh.read(\x7b after: "
      ++ Json.integerToken (sequence - 1) ++ lit ", limit: 1 \x7d)]"

def quoted (name : String) (value : JsString) : JsString :=
  lit name ++ lit "=\"" ++ value ++ lit "\""

def dataAttribute (event : MeshEvent) (name : String) : List JsString :=
  match Json.text? (event.field? name) with
  | some value => [lit name ++ lit "=" ++ Json.quote (value.take 256)]
  | none => []

def renderEvent (event : MeshEvent) : Option JsString :=
  (isoString event.createdAt).map fun time =>
    let attributes :=
      [quoted "id" event.id, quoted "sequence" (Json.integerToken event.sequence),
        quoted "topic" (escapeXml event.topic), quoted "kind" (escapeXml event.kind),
        lit "from_name=" ++ Json.quote event.sender.name,
        lit "from_id=" ++ Json.quote event.sender.id]
      ++ dataAttribute event "ref" ++ dataAttribute event "key" ++ [quoted "at" time]
    lit "<event " ++ (lit " ").intercalate attributes ++ lit ">"
      ++ escapeXml (bounded (event.text.getD []) event.sequence) ++ lit "</event>"

theorem renderEvent_isSome_iff {event : MeshEvent}
    : (renderEvent event).isSome = true ↔ DateHolds event.createdAt := by
  rw [renderEvent, Option.isSome_map, isoString]
  split
  · simp_all
  · simp_all

def receipt (fromId kind value : JsString) : JsString :=
  Sha256.hex (Utf8.encode (Json.stringify
    (.array [.string fromId, .string kind, .string value])))

structure Identity where
  kind : JsString
  value : JsString
deriving DecidableEq

def identityOf (event : MeshEvent) (field kind : String) : Option Identity :=
  match Json.text? (event.field? field) with
  | some value => if value = [] then none else some { kind := lit kind, value }
  | none => none

def deliveryIdentity (event : MeshEvent) : Option Identity :=
  (identityOf event "deliveryId" "delivery").or
    ((identityOf event "messageId" "id").or (identityOf event "commandId" "delivery"))

/-- `workReceipts` without a topic, which states no key or ref work. -/
def workReceipts (event : MeshEvent) : List JsString :=
  match deliveryIdentity event with
  | some identity => [receipt event.sender.id identity.kind identity.value]
  | none => []

def crossIdentityReceipts (event : MeshEvent) : List JsString :=
  match deliveryIdentity event with
  | some identity =>
      [receipt event.sender.id (if identity.kind = lit "delivery" then lit "id" else lit "delivery")
        identity.value]
  | none => []

def eventReceipt (id : JsString) : JsString :=
  receipt [] (lit "event") id

def eventReceipts (event : MeshEvent) : List JsString :=
  [eventReceipt event.id, receipt event.sender.id (lit "id") event.id]
    ++ (match event.dedupeKey with
      | some key => if key = [] then [] else [receipt [] (lit "dedupe") key]
      | none => [])
    ++ if event.topic = lit "fabric.control.command" then []
      else workReceipts event ++ crossIdentityReceipts event

end PiFabric.RootInbox

/-! The message that brings a batch of events into the session: each id once, in the order of
priority, cut to two budgets. What is cut stays pending.
-/

namespace PiFabric.RootInbox

open JsString

def actionKinds : List JsString :=
  [lit "blocked", lit "blocker", lit "ask", lit "handoff"]

def inboxPriority : List JsString :=
  [lit "blocked", lit "blocker", lit "ask", lit "handoff", lit "done", lit "wait", lit "answer",
    lit "info", lit "progress", lit "status", lit "ack"]

def isAction (event : MeshEvent) : Bool :=
  event.kind ∈ actionKinds

/-- Kinds that the list does not hold come last. -/
def rank (kind : JsString) : Nat :=
  inboxPriority.idxOf (if kind = lit "completion" then lit "done" else kind)

def inboxLe (a b : MeshEvent) : Bool :=
  if rank a.kind ≠ rank b.kind then rank a.kind < rank b.kind
  else if a.createdAt ≠ b.createdAt then a.createdAt < b.createdAt
  else a.sequence ≤ b.sequence

def maxEvents : Nat := 8
def maxTextBytes : Nat := 12 * 1024
def maxActionRenderedBytes : Nat := 128 * 1024

def textSize (event : MeshEvent) : Nat :=
  min (Utf8.byteLength (event.text.getD [])) eventTextBytes

def rowBytes (row : JsString) : Nat :=
  Utf8.byteLength row + 1

structure Budget where
  shown : List MeshEvent
  overflow : List MeshEvent
  bytes : Nat
  full : Bool
  actionBytes : Nat
  actionsFull : Bool

def Budget.start : Budget where
  shown := []
  overflow := []
  bytes := 0
  full := false
  actionBytes := 0
  actionsFull := false

def Budget.show (budget : Budget) (event : MeshEvent) : Budget :=
  { budget with shown := budget.shown ++ [event], bytes := budget.bytes + textSize event }

/-- An action counts with its rendered bytes; none where rendering it throws. -/
def actionStep (budget : Budget) (event : MeshEvent) : Option Budget :=
  (renderEvent event).map fun row =>
    if budget.actionsFull = true ∨ maxActionRenderedBytes < budget.actionBytes + rowBytes row then
      { budget with actionsFull := true, overflow := budget.overflow ++ [event] }
    else { budget with actionBytes := budget.actionBytes + rowBytes row }.show event

def plainStep (budget : Budget) (event : MeshEvent) : Budget :=
  if budget.full = true ∨ maxEvents ≤ budget.shown.length
      ∨ (0 < budget.shown.length ∧ maxTextBytes < budget.bytes + textSize event) then
    { budget with full := true, overflow := budget.overflow ++ [event] }
  else budget.show event

def budgetStep (budget : Budget) (event : MeshEvent) : Option Budget :=
  if isAction event then actionStep budget event else some (plainStep budget event)

def rootInboxBudget (events : List MeshEvent) : Option Budget :=
  (events.mergeSort inboxLe).foldlM budgetStep .start

/-- `unique`: the first event of each id that was not seen before, and the ids seen after it. -/
def unique : List JsString → List MeshEvent → List MeshEvent × List JsString
  | seen, [] => ([], seen)
  | seen, event :: rest =>
      if event.id ∈ seen then unique seen rest
      else
        let later := unique (seen ++ [event.id]) rest
        (event :: later.1, later.2)

def overflowLine (events : List MeshEvent) : JsString :=
  let sequences := events.map MeshEvent.sequence
  let first := (sequences.min?).getD 0
  let last := (sequences.max?).getD 0
  let senders := (events.map fun event =>
    if event.sender.name = [] then event.sender.id else event.sender.name).eraseDups
  let from_ := (lit ", ").intercalate ((senders.take 3).map Json.quote)
    ++ (if senders.length > 3 then
        lit " and " ++ Json.digits (senders.length - 3) ++ lit " more" else [])
  let count := Json.digits events.length
  lit "<overflow count=\"" ++ count ++ lit "\">+" ++ count
    ++ lit " more addressed event(s) not shown (sequence " ++ Json.integerToken first ++ lit "-"
    ++ Json.integerToken last ++ lit ", from " ++ escapeXml from_ ++ lit "); " ++ count
    ++ lit " more pending, shown next turn.</overflow>"

structure InboxDetails where
  ids : List JsString
  receipts : List JsString

structure InboxMessage where
  lines : List JsString
  details : InboxDetails

def InboxMessage.content (message : InboxMessage) : JsString :=
  (lit "\n").intercalate message.lines

def messageOf (shown rest : List MeshEvent) (rows : List JsString) : InboxMessage where
  lines :=
    [lit "<fabric-inbox count=\"" ++ Json.digits (shown ++ rest).length ++ lit "\""
      ++ (if rest = [] then [] else lit " shown=\"" ++ Json.digits shown.length ++ lit "\"")
      ++ lit ">",
      lit "Work events addressed to you that no steer or follow-up delivered (a shadow copy can repeat a message you already saw):"]
    ++ rows ++ (if rest = [] then [] else [overflowLine rest]) ++ [lit "</fabric-inbox>"]
  details := { ids := shown.map MeshEvent.id, receipts := shown.flatMap eventReceipts }

/-- `rootInboxMessage`: without an explicit overflow the batch is cut to the budget. -/
def rootInboxMessage (input : List MeshEvent) (extra : Option (List MeshEvent)) : Option InboxMessage := do
  let batch := unique [] input
  let (shown, rest) ←
    match extra with
    | none => (rootInboxBudget batch.1).map fun budget => (budget.shown, budget.overflow)
    | some extra => some (batch.1, (unique batch.2 extra).1)
  let rows ← shown.mapM renderEvent
  return messageOf shown rest rows

end PiFabric.RootInbox
