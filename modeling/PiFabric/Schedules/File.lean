import PiFabric.Grants.File
import PiFabric.Foundation.TextBytes

/-! Scheduled events: `schedules.json`, and what the calls of a store do to it under the mesh lock. A
release appends the events that are due and then rewrites the file without them.
-/

namespace PiFabric.Schedules

open JsString
open Json (literal serializedBytes)
open Grants (isName isSafeInteger Fate)

def meshMaxPendingSchedules : Nat := 1000
def meshMaxScheduleAheadMs : Int := 366 * 24 * 60 * 60 * 1000
def maxScheduleFileBytes : Nat := 16 * 1024 * 1024
def maxSafeInteger : Int := 2 ^ 53 - 1

structure FabricPrincipal where
  id : JsString
  binding : JsString

/-- `copyFabricPrincipal`: only a well-formed principal is carried. -/
def copyFabricPrincipal (value : Json) : Option FabricPrincipal :=
  match value.field? "id", value.field? "binding" with
  | some (.string id), some (.string binding) =>
      if id.trim ≠ [] ∧ id.length ≤ 256
          ∧ binding ∈ [lit "herdr-client", lit "voice-call", lit "org-agent"] then
        some { id, binding }
      else none
  | _, _ => none

def FabricPrincipal.json (principal : FabricPrincipal) : Json :=
  literal [("id", some (.string principal.id)), ("binding", some (.string principal.binding))]

structure MeshSchedule where
  id : JsString
  key : Option JsString
  topic : JsString
  kind : JsString
  from_ : Json
  to_ : Option JsString
  text : Option JsString
  data : Option Json
  dueAt : Int
  createdAt : Int
  sender : Option Json
  principal : Option Json

def MeshSchedule.json (schedule : MeshSchedule) : Json :=
  literal [("id", some (.string schedule.id)), ("key", schedule.key.map .string),
    ("topic", some (.string schedule.topic)), ("kind", some (.string schedule.kind)),
    ("from", some schedule.from_), ("to", schedule.to_.map .string),
    ("text", schedule.text.map .string), ("data", schedule.data),
    ("dueAt", some (.number (.int schedule.dueAt))),
    ("createdAt", some (.number (.int schedule.createdAt))), ("sender", schedule.sender),
    ("principal", schedule.principal)]

def isMeshSchedule (entry : MeshSchedule) : Bool :=
  (match entry.from_ with
    | .object _ | .array _ => true
    | _ => false) && isSafeInteger entry.dueAt && isSafeInteger entry.createdAt

/-- An event of the log, without the sequence and the time that the append gives it. -/
structure MeshEvent where
  id : JsString
  topic : JsString
  kind : JsString
  from_ : Json
  to_ : Option JsString
  text : Option JsString
  data : Option Json
  scheduled : Option (Int × Option JsString)
  sender : Option Json
  principal : Option FabricPrincipal

def scheduledJson (scheduled : Int × Option JsString) : Json :=
  literal [("dueAt", some (.number (.int scheduled.1))), ("key", scheduled.2.map .string)]

def MeshEvent.json (event : MeshEvent) (sequence createdAt : Int) : Json :=
  literal [("id", some (.string event.id)), ("sequence", some (.number (.int sequence))),
    ("topic", some (.string event.topic)), ("kind", some (.string event.kind)),
    ("from", some event.from_), ("to", event.to_.map .string), ("text", event.text.map .string),
    ("data", event.data), ("scheduled", event.scheduled.map scheduledJson),
    ("sender", event.sender), ("principal", event.principal.map (·.json)),
    ("createdAt", some (.number (.int createdAt)))]

/-- The event that a release appends for a schedule; a damaged principal is not carried. -/
def MeshSchedule.event (entry : MeshSchedule) : MeshEvent :=
  { entry with
    scheduled := some (entry.dueAt, entry.key)
    principal := entry.principal.bind copyFabricPrincipal }

inductive Failure where
  | aborted
  | invalidTopic (topic : JsString)
  | emptyRecipient
  | invalidKey (key : JsString)
  | badDueTime
  | tooFarAhead
  | eventTooLarge (maxEventBytes : Nat)
  | readFailed (message : JsString)
  | fileTooLarge
  | tooManySchedules
  | appendFailed (message : JsString)

/-- What the errors say; an abort and a failed append throw what they were given. -/
def Failure.message : Failure → JsString
  | aborted => []
  | invalidTopic topic => lit "Invalid Fabric mesh topic: " ++ topic
  | emptyRecipient => lit "Mesh recipient is empty"
  | invalidKey key => lit "Invalid Fabric mesh schedule key: " ++ key
  | badDueTime => lit "Mesh schedule due time must be a nonnegative epoch millisecond integer"
  | tooFarAhead => lit "Mesh schedules may be at most 366 days ahead"
  | eventTooLarge maxEventBytes =>
      lit "Mesh event exceeds " ++ Json.digits maxEventBytes ++ lit " bytes"
  | readFailed message => lit "Failed to read Fabric mesh schedules: " ++ message
  | fileTooLarge =>
      lit "Fabric mesh schedules exceed " ++ Json.digits maxScheduleFileBytes ++ lit " bytes"
  | tooManySchedules =>
      lit "At most " ++ Json.digits meshMaxPendingSchedules ++ lit " mesh schedules may be pending"
  | appendFailed message => message

def require (condition : Bool) (failure : Failure) : Except Failure Unit :=
  if condition then .ok () else .error failure

/-- `schedules.json`, if it is there. -/
abbrev File : Type := Option (List MeshSchedule)

def fileBytes (schedules : List MeshSchedule) : Nat :=
  serializedBytes (.object [(lit "format", .number (.int 1)),
    (lit "schedules", .array (schedules.map (·.json)))])

def readSchedules : File → Except Failure (List MeshSchedule)
  | none => pure []
  | some schedules => do
      require (fileBytes schedules ≤ maxScheduleFileBytes) (.readFailed
        (lit "exceeds " ++ Json.digits maxScheduleFileBytes ++ lit " bytes"))
      require (schedules.all isMeshSchedule) (.readFailed (lit "invalid format"))
      pure schedules

/-- `#writeSchedules`: an empty list removes the file. -/
def writeSchedules (schedules : List MeshSchedule) : Except Failure File :=
  if schedules = [] then .ok none
  else if maxScheduleFileBytes < fileBytes schedules then .error .fileTooLarge
  else .ok (some schedules)

structure ScheduleInput where
  topic : JsString
  kind : Option JsString := none
  from_ : Json
  to_ : Option JsString := none
  text : Option JsString := none
  data : Option Json := none
  dueAt : Int
  key : Option JsString := none
  principal : Option Json := none

/-- What `schedule` has made when it asks for the lock, under a random id. -/
def makeSchedule (maxEventBytes : Nat) (now : Int) (id : JsString) (sender : Json)
    (input : ScheduleInput)
    : Except Failure MeshSchedule := do
  require (isName input.topic) (.invalidTopic input.topic)
  require (input.to_.all fun to_ => to_.trim ≠ []) .emptyRecipient
  require (input.key.all isName) (.invalidKey (input.key.getD []))
  require (isSafeInteger input.dueAt && 0 ≤ input.dueAt) .badDueTime
  require (input.dueAt ≤ now + meshMaxScheduleAheadMs) .tooFarAhead
  let kind := (input.kind.map trim).getD []
  let schedule : MeshSchedule := { input with
    id
    kind := if kind = [] then lit "message" else kind
    createdAt := now
    sender := some sender
    principal := (input.principal.bind copyFabricPrincipal).map (·.json) }
  require (serializedBytes (schedule.event.json maxSafeInteger maxSafeInteger) ≤ maxEventBytes)
    (.eventTooLarge maxEventBytes)
  pure schedule

/-- The section of `schedule` up to its write; a schedule of the same key is replaced. -/
def storeSchedule (aborted : Bool) (schedule : MeshSchedule) (file : File)
    : Except Failure File := do
  require (!aborted) .aborted
  let schedules ← readSchedules file
  let pending := schedules.filter fun entry => schedule.key = none ∨ entry.key ≠ schedule.key
  require (pending.length < meshMaxPendingSchedules) .tooManySchedules
  writeSchedules (pending ++ [schedule])

/-- `unschedule`: the file, and whether there was such a schedule. -/
def unschedule (key : JsString) (file : File) : Except Failure (File × Bool) := do
  require (isName key) (.invalidKey key)
  let schedules ← readSchedules file
  let pending := schedules.filter fun entry => entry.key ≠ some key
  if pending.length = schedules.length then pure (file, false)
  else
    let written ← writeSchedules pending
    pure (written, true)

/-- What a release has appended: the schedules that go from the file, then the one whose append threw
after it took place; and what was thrown.
-/
structure Appended where
  released : List MeshSchedule
  threw : List MeshSchedule
  outcome : Except Failure Unit

def Appended.all (appended : Appended) : List MeshSchedule :=
  appended.released ++ appended.threw

/-- The loop of `#releaseDueLocked`, by what becomes of each `appendLocked`. -/
def appendDue (fate : JsString → Fate) : List MeshSchedule → Appended
  | [] => ⟨[], [], .ok ()⟩
  | entry :: rest =>
      match fate entry.id with
      | .done =>
          let later := appendDue fate rest
          { later with released := entry :: later.released }
      | .fails took message =>
          ⟨[], if took then [entry] else [], .error (.appendFailed message)⟩

section
-- `localeCompare`
variable (localeCompare : JsString → JsString → Ordering)

/-- By what `compareSchedules` compares. -/
def MeshSchedule.place (entry : MeshSchedule) : Int × Int × JsString :=
  (entry.dueAt, entry.createdAt, entry.id)

def comparePlaces (left right : Int × Int × JsString) : Ordering :=
  (compare left.1 right.1).then
    ((compare left.2.1 right.2.1).then (localeCompare left.2.2 right.2.2))

def due (now : Int) (schedules : List MeshSchedule) : List MeshSchedule :=
  (schedules.filter fun entry => entry.dueAt ≤ now).mergeSort fun left right =>
    comparePlaces localeCompare left.place right.place != .gt

/-- `#releaseDueLocked`: the file after it, and what it has appended. The file is also rewritten where an
append threw.
-/
def releaseDueLocked (now : Int) (fate : JsString → Fate) (file : File) : File × Appended :=
  match readSchedules file with
  | .error failure => (file, ⟨[], [], .error failure⟩)
  | .ok schedules =>
      let appended := appendDue fate (due localeCompare now schedules)
      if appended.released = [] then (file, appended)
      else
        match writeSchedules (schedules.filter fun entry =>
            entry.id ∉ appended.released.map (·.id)) with
        | .ok written => (written, appended)
        | .error failure => (file, { appended with outcome := .error failure })

end

end PiFabric.Schedules
