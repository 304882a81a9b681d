import PiFabric.Foundation.JsonObject
import PiFabric.Foundation.Literals

/-! `repairToolResultPairing`: a list of messages in which every tool result answers an open call,
and calls that a provider would miss are answered by a synthetic error.
-/

namespace PiFabric.Compaction

open JsString

def missingToolResultText : JsString := lit "Tool result missing (repaired by Fabric)"

structure ToolCallView where
  id : JsString
  name : JsString
deriving DecidableEq

abbrev Message := Json

def role (message : Message) : Option JsString :=
  Json.text? (message.field? "role")

def isUser (message : Message) : Bool :=
  role message = some (lit "user")

def isAssistant (message : Message) : Bool :=
  role message = some (lit "assistant")

def isToolResult (message : Message) : Bool :=
  role message = some (lit "toolResult")

def isBoundary (message : Message) : Bool :=
  isUser message || isAssistant message

def replaysAssistant (message : Message) : Bool :=
  Json.text? (message.field? "stopReason") ≠ some (lit "error")
    && Json.text? (message.field? "stopReason") ≠ some (lit "aborted")

def toolCallId (message : Message) : Option JsString :=
  Json.text? (message.field? "toolCallId")

def toolCall? (part : Json) : Option ToolCallView :=
  if Json.text? (part.field? "type") = some (lit "toolCall") then
    (Json.text? (part.field? "id")).map fun id =>
      ⟨id, (Json.text? (part.field? "name")).getD []⟩
  else none

def toolCallsOf (message : Message) : List ToolCallView :=
  match message.field? "content" with
  | some (.array parts) => parts.filterMap toolCall?
  | _ => []

/-- An assistant's window: its calls without a result, and the last index inside it, which is the
assistant itself or a matched result.
-/
structure Window where
  calls : JsMap JsString ToolCallView
  ownerIndex : Nat
  synthesize : Bool
  windowEnd : Nat

structure Detection where
  drop : List Nat
  insertAfter : JsMap Nat (List ToolCallView)
  window : Option Window

def Detection.start : Detection where
  drop := []
  insertAfter := .empty
  window := none

/-- Whether a window that closes has calls to answer, in a list of some length. -/
def Window.lacks (length : Nat) (window : Window) : Bool :=
  0 < window.calls.size && window.synthesize && window.ownerIndex + 1 < length

def Detection.closeWindow (length : Nat) (detection : Detection) : Detection :=
  match detection.window with
  | none => detection
  | some window =>
      { detection with
        insertAfter :=
          if window.lacks length then
            detection.insertAfter.set window.windowEnd window.calls.values
          else detection.insertAfter
        window := none }

def Window.opened (index : Nat) (assistant : Message) : Window where
  calls := .bindAll ToolCallView.id (fun call => call) .empty (toolCallsOf assistant)
  ownerIndex := index
  synthesize := replaysAssistant assistant
  windowEnd := index

def Window.answer (window : Window) (index : Nat) (result : Message) : Option Window :=
  (toolCallId result).bind fun id =>
    if window.calls.has id then
      some { window with calls := window.calls.delete id, windowEnd := index }
    else none

def Detection.read (length index : Nat) (detection : Detection) (message : Message) : Detection :=
  if isBoundary message then
    let closed := detection.closeWindow length
    if isAssistant message then { closed with window := some (.opened index message) } else closed
  else if isToolResult message then
    match detection.window.bind fun window => window.answer index message with
    | some window => { detection with window := some window }
    | none => { detection with drop := detection.drop ++ [index] }
  else detection

def detect (length index : Nat) (detection : Detection) : List Message → Detection
  | [] => detection.closeWindow length
  | message :: rest => detect length (index + 1) (detection.read length index message) rest

def synthetic (now : Int) (call : ToolCallView) : Message :=
  .object [(lit "role", .string (lit "toolResult")), (lit "toolCallId", .string call.id),
    (lit "toolName", .string call.name),
    (lit "content", .array [.object [(lit "type", .string (lit "text")),
      (lit "text", .string missingToolResultText)]]),
    (lit "isError", .bool true), (lit "timestamp", .number (.int now))]

/-- The results for some calls; `now` reads the clock for each result that is inserted. -/
def synthetics (now : Nat → Int) (inserted : Nat) : List ToolCallView → List Message
  | [] => []
  | call :: rest => synthetic (now inserted) call :: synthetics now (inserted + 1) rest

/-- The rebuilding pass from an index on: its messages, and how many it has inserted. -/
def rebuild (now : Nat → Int) (detection : Detection) (index inserted : Nat)
    : List Message → List Message × Nat
  | [] => ([], inserted)
  | message :: rest =>
      let kept := if index ∈ detection.drop then [] else [message]
      let missing := (detection.insertAfter.get? index).getD []
      let later := rebuild now detection (index + 1) (inserted + missing.length) rest
      (kept ++ synthetics now inserted missing ++ later.1, later.2)

structure OrphanRepairResult where
  messages : List Message
  dropped : Nat
  inserted : Nat

def repairToolResultPairing (now : Nat → Int) (messages : List Message) : OrphanRepairResult :=
  let detection := detect messages.length 0 .start messages
  if detection.drop.length = 0 && detection.insertAfter.size = 0 then ⟨messages, 0, 0⟩
  else
    let repaired := rebuild now detection 0 0 messages
    ⟨repaired.1, detection.drop.length, repaired.2⟩

end PiFabric.Compaction

/-! The entries of a session branch that a model's context replays, with context edits applied. How
many tokens a message takes and what a timestamp is in milliseconds are parameters.
-/

namespace PiFabric.Compaction

open JsString

structure ContextHost where
  /-- `estimateTokens(message)`. -/
  estimateTokens : Message → Nat
  /-- `new Date(timestamp).getTime()`. -/
  getTime : JsString → Json

/-- What an entry holds by its type. A message is an object; types that carry nothing into the
context are one case.
-/
inductive EntryBody where
  | message (message : Json.Members)
  | customMessage (customType content display details : Option Json)
  | branchSummary (summary fromId : JsString)
  | compaction (summary firstKeptEntryId : JsString) (tokensBefore : JsNumber)
      (systemMessage : Option Message)
  | contextEdit (targetId : JsString) (replacement : Option Json)
  | other (type : JsString)

structure SessionEntry where
  id : JsString
  parentId : Option JsString
  timestamp : JsString
  body : EntryBody

/-- The last edit of each entry; an edit without a replacement omits its entry. -/
def contextEdits (entries : List SessionEntry) : JsMap JsString (Option Json) :=
  entries.foldl (fun edits entry =>
    match entry.body with
    | .contextEdit targetId replacement => edits.set targetId replacement
    | _ => edits) .empty

def editedContent (message : Json.Members) (content : Json) : Json :=
  let wrapped := isAssistant (.object message) || isToolResult (.object message)
  match content with
  | .string text =>
      if wrapped then
        .array [Json.literal [("type", some (.string (lit "text"))), ("text", some (.string text))]]
      else content
  | _ => content

def editableRoles : List JsString :=
  [lit "user", lit "assistant", lit "toolResult", lit "custom"]

def withContent (message : Json.Members) (content : Json) : Json.Members :=
  message.set "content" content

def applyContextEdit (edits : JsMap JsString (Option Json)) (entry : SessionEntry) : SessionEntry :=
  match edits.get? entry.id with
  | none => entry
  | some none => { entry with body := .other (lit "custom") }
  | some (some content) =>
      match entry.body with
      | .customMessage customType _ display details =>
          { entry with body := .customMessage customType (some content) display details }
      | .message message =>
          if (role (.object message)).any fun role => decide (role ∈ editableRoles) then
            { entry with body := .message (withContent message (editedContent message content)) }
          else entry
      | _ => entry

def applyContextEdits (entries : List SessionEntry) : List SessionEntry :=
  entries.map (applyContextEdit (contextEdits entries))

theorem id_applyContextEdit (edits : JsMap JsString (Option Json)) (entry : SessionEntry)
    : (applyContextEdit edits entry).id = entry.id := by
  unfold applyContextEdit
  split
  · rfl
  · rfl
  · split
    · rfl
    · split <;> rfl
    · rfl

/-- Context edits keep the identities of the branch in order. -/
theorem ids_applyContextEdits (entries : List SessionEntry)
    : (applyContextEdits entries).map (·.id) = entries.map (·.id) := by
  rw [applyContextEdits, List.map_map]
  exact List.map_congr_left fun entry _ => id_applyContextEdit _ entry

def lacksContent (message : Json.Members) : Bool :=
  match message.get? "content" with
  | none => true
  | some .null => true
  | _ => false

def contextMessages (host : ContextHost) (entry : SessionEntry) : List Message :=
  match entry.body with
  | .message message =>
      if role (.object message) = some (lit "system") ∧ lacksContent message then
        [.object (withContent message (.string []))]
      else if (isUser (.object message) ∨ isAssistant (.object message)
          ∨ isToolResult (.object message)) ∧ lacksContent message then
        [.object (withContent message (.array []))]
      else [.object message]
  | .customMessage customType content display details =>
      -- `content ?? []`.
      let given :=
        match content with
        | none => .array []
        | some .null => .array []
        | some content => content
      [Json.literal [("role", some (.string (lit "custom"))), ("customType", customType),
        ("content", some given), ("display", display), ("details", details),
        ("timestamp", some (host.getTime entry.timestamp))]]
  | .branchSummary summary fromId =>
      if summary = [] then []
      else
        [Json.literal [("role", some (.string (lit "branchSummary"))),
          ("summary", some (.string summary)), ("fromId", some (.string fromId)),
          ("timestamp", some (host.getTime entry.timestamp))]]
  | .compaction summary _ tokensBefore systemMessage =>
      systemMessage.toList ++
        [Json.literal [("role", some (.string (lit "compactionSummary"))),
          ("summary", some (.string summary)), ("tokensBefore", some (.number tokensBefore)),
          ("timestamp", some (host.getTime entry.timestamp))]]
  | .contextEdit _ _ => []
  | .other _ => []

def isTypedPart (part : Json) : Bool :=
  match Json.text? (part.field? "type") with
  | some type =>
      if type = lit "text" then (Json.text? (part.field? "text")).isSome
      else decide (type = lit "image")
  | none => false

def isTypedCustomContent : Option Json → Bool
  | some (.string _) => true
  | some (.array parts) => parts.all isTypedPart
  | _ => false

def isPiCustomMessageEntry (entry : SessionEntry) : Bool :=
  match entry.body with
  | .customMessage customType content display _ =>
      (Json.text? customType).isSome
        && (match display with
          | some (.bool _) => true
          | _ => false)
        && isTypedCustomContent content
  | _ => false

def isHiddenEmptyCustom (message : Message) : Bool :=
  decide (role message = some (lit "custom"))
    && (match message.field? "display" with
      | some (.bool false) => true
      | _ => false)
    && (match message.field? "content" with
      | some (.string []) => true
      | some (.array []) => true
      | _ => false)

/-- An entry of the context that is not summarized yet. -/
structure LiveEntry where
  entry : SessionEntry
  branchIndex : Nat
  turnBoundary : Bool
  cutPoint : Bool
  estimatedTokens : Nat

def turnRoles : List JsString :=
  [lit "user", lit "custom", lit "bashExecution", lit "branchSummary", lit "compactionSummary"]

def SessionEntry.isCompaction (entry : SessionEntry) : Bool :=
  match entry.body with
  | .compaction _ _ _ _ => true
  | _ => false

/-- An entry that is passed over: a compaction marker, a system message, a custom message of another
shape or one that is hidden and empty.
-/
def isPassedOver (entry : SessionEntry) : Bool :=
  match entry.body with
  | .compaction _ _ _ _ => true
  | .message message =>
      decide (role (.object message) = some (lit "system")) || isHiddenEmptyCustom (.object message)
  | .customMessage _ _ _ _ => !isPiCustomMessageEntry entry
  | _ => false

def liveEntryAt? (host : ContextHost) (entry : SessionEntry) (index : Nat) : Option LiveEntry :=
  let messages := contextMessages host entry
  if isPassedOver entry ∨ messages = [] then none
  else
    some {
      entry
      branchIndex := index
      turnBoundary := messages.any fun message =>
        (role message).any fun role => decide (role ∈ turnRoles)
      cutPoint := messages.any fun message => !isToolResult message
      estimatedTokens := (messages.map host.estimateTokens).sum
    }

def collectContextEntries (host : ContextHost) (entries : List SessionEntry) (startIndex : Nat)
    : List LiveEntry :=
  (entries.zipIdx.drop startIndex).filterMap fun item => liveEntryAt? host item.1 item.2

def findLastCompaction (entries : List SessionEntry) : Option (Nat × JsString) :=
  entries.zipIdx.reverse.findSome? fun item =>
    match item.1.body with
    | .compaction _ firstKeptEntryId _ _ => some (item.2, firstKeptEntryId)
    | _ => none

def collectLive (host : ContextHost) (entries : List SessionEntry) : List LiveEntry :=
  match findLastCompaction entries with
  | none => collectContextEntries host entries 0
  | some (index, firstKeptEntryId) =>
      match if firstKeptEntryId = [] then none
        else entries.findIdx? fun entry => entry.id = firstKeptEntryId with
      | some kept => collectContextEntries host entries kept
      | none => collectContextEntries host entries (index + 1)

/-- The index of the last compaction; before the branch where there is none. -/
def previousCompactionIndex (entries : List SessionEntry) : Int :=
  match findLastCompaction entries with
  | none => -1
  | some (index, _) => index

theorem cutPoint_of_turnBoundary {host : ContextHost} {entry : SessionEntry} {index : Nat}
    {live : LiveEntry} (made : liveEntryAt? host entry index = some live)
    (starts : live.turnBoundary = true)
    : live.cutPoint = true := by
  rw [liveEntryAt?] at made
  split at made
  · cases made
  · obtain rfl := Option.some.inj made
    obtain ⟨message, member, turn⟩ := List.any_eq_true.mp starts
    refine List.any_eq_true.mpr ⟨message, member, ?_⟩
    obtain ⟨name, known, listed⟩ := (Option.any_eq_true _ _).mp turn
    have other : ¬name = lit "toolResult" := by
      intro same
      rw [same] at listed
      revert listed
      decide +kernel
    simpa [isToolResult, known] using other

end PiFabric.Compaction
