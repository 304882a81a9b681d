import PiFabric.Foundation.Bisect
import PiFabric.Foundation.Literals
import PiFabric.Foundation.TextBytes

/-! `ActorLogStore.recordMessage`: a message is cut down until it fits an event of the mesh. -/

namespace PiFabric.Actors

open JsString Json Utf8

def actorMessageHistoryLimit : Nat := 100

def actorMessageEnvelopeBytes : Nat := 4096

def actorTruncationSuffix : JsString := lit "\n[actor message truncated]"

def detachedPreview (text : JsString) (max : Nat) : JsString :=
  text.take max

/-- `truncateUtf8` without a suffix, as all of its callers call it. -/
def truncateUtf8 (value : JsString) (maxBytes : Nat) : JsString :=
  if byteLength value ≤ maxBytes then detachedPreview value value.length
  else
    detachedPreview value
      (bisect (fun middle => byteLength (value.take middle) ≤ maxBytes) 0 value.length)

def textObject (text : JsString) : Json :=
  literal [("text", some (.string text))]

/-- The suffix of a text that is cut to some bytes: none where it does not fit itself. -/
def suffixWithin (maxBytes : Nat) : JsString :=
  if serializedBytes (textObject actorTruncationSuffix) ≤ maxBytes then actorTruncationSuffix
  else []

def boundedActorText (value : JsString) (maxBytes : Nat) : JsString :=
  if serializedBytes (textObject value) ≤ maxBytes then detachedPreview value value.length
  else
    let suffix := suffixWithin maxBytes
    let fits middle := serializedBytes (textObject (value.take middle ++ suffix)) ≤ maxBytes
    detachedPreview value (bisect (fun middle => fits middle) 0 value.length) ++ suffix

/-- The data of a message as `structuredClone` copies it: what `JSON.stringify` writes, or what it
does not write, with its `String(data)`.
-/
inductive Cloned where
  | plain (value : Json)
  | unwritten (text : JsString)

def truncatedData (originalBytes : Nat) (preview : Option JsString) : Json :=
  literal [("fabricTruncated", some (.bool true)),
    ("originalBytes", some (.number (.int originalBytes))), ("preview", preview.map .string)]

def dataObject (data : Json) : Json :=
  literal [("data", some data)]

/-- Half of the bytes are fewer, so the loop over ever shorter previews ends. -/
theorem byteLength_truncateUtf8_lt {text : JsString} (some_ : text ≠ [])
    : byteLength (truncateUtf8 text (byteLength text / 2)) < byteLength text := by
  have positive : 0 < byteLength text :=
    (List.length_pos_iff.mpr some_).trans_le (length_le_byteLength text)
  have over_half : ¬byteLength text ≤ byteLength text / 2 := by omega
  unfold truncateUtf8 detachedPreview
  rw [if_neg over_half]
  rcases bisect_fits (fun middle => byteLength (text.take middle) ≤ byteLength text / 2) 0
      text.length with none_left | fits
  · rw [none_left]
    exact positive
  · exact (of_decide_eq_true fits).trans_lt (by omega)

/-- The loop of `boundedActorData`: the preview is halved until it fits or is gone. -/
def shrinkPreview (originalBytes maxBytes : Nat) (preview : JsString) : JsString :=
  if some_ : preview ≠ [] then
    if maxBytes < serializedBytes (dataObject (truncatedData originalBytes (some preview))) then
      shrinkPreview originalBytes maxBytes (truncateUtf8 preview (byteLength preview / 2))
    else preview
  else preview
termination_by byteLength preview
decreasing_by exact byteLength_truncateUtf8_lt some_

def boundedActorData (data : Cloned) (maxBytes : Nat) : Json :=
  let cut (serialized : JsString) : Json :=
    let originalBytes := byteLength serialized
    let preview := shrinkPreview originalBytes maxBytes (truncateUtf8 serialized (maxBytes - 256))
    let bounded := truncatedData originalBytes (some preview)
    if serializedBytes (dataObject bounded) ≤ maxBytes then bounded
    else truncatedData originalBytes none
  match data with
  | .plain value =>
    if serializedBytes (dataObject value) ≤ maxBytes then value else cut (Json.stringify value)
  | .unwritten text => cut text

inductive Direction where
  | in_
  | out
deriving DecidableEq

def Direction.text : Direction → JsString
  | in_ => lit "in"
  | out => lit "out"

inductive DirectiveAction where
  | silent
  | message
  | stop
deriving DecidableEq

def DirectiveAction.text : DirectiveAction → JsString
  | silent => lit "silent"
  | message => lit "message"
  | stop => lit "stop"

/-- What `JSON.stringify` writes for a number: `null`, or a token of at most 25 characters. -/
structure Stamp where
  written : Json
  short : serializedBytes written ≤ 25

/-- `FabricActorMessage`; data are as a caller has them, as they are copied, or as they are kept. -/
structure FabricActorMessage (δ : Type) where
  principal : Option Json
  id : JsString
  actorId : JsString
  actorName : JsString
  direction : Direction
  source : JsString
  createdAt : Stamp
  text : Option JsString
  data : Option δ
  action : Option DirectiveAction
  runId : Option JsString
  usage : Option Json
  error : Option JsString
  stale : Option Bool
  reason : Option JsString

/-- A message as `JSON.stringify` reads it. The order of the properties does not matter to its size.
-/
def FabricActorMessage.toJson (message : FabricActorMessage Json) : Json :=
  literal [
    ("principal", message.principal),
    ("id", some (.string message.id)),
    ("actorId", some (.string message.actorId)),
    ("actorName", some (.string message.actorName)),
    ("direction", some (.string message.direction.text)),
    ("source", some (.string message.source)),
    ("createdAt", some message.createdAt.written),
    ("text", message.text.map .string),
    ("data", message.data),
    ("action", message.action.map fun action => .string action.text),
    ("runId", message.runId.map .string),
    ("usage", message.usage),
    ("error", message.error.map .string),
    ("stale", message.stale.map .bool),
    ("reason", message.reason.map .string)]

def whenText (change : JsString → JsString) : Option JsString → Option JsString
  | none => none
  | some text => some (if text = [] then text else change text)

def fallback {δ : Type} (message : FabricActorMessage δ) : FabricActorMessage Json where
  principal := none
  id := message.id
  actorId := message.actorId
  actorName := message.actorName
  direction := message.direction
  source := boundedActorText message.source 1024
  createdAt := message.createdAt
  text := none
  data := none
  action := message.action
  runId := message.runId.filter fun runId => runId ≠ []
  usage := none
  error := some (lit "Actor message content exceeded the mesh event limit")
  stale := none
  reason := none

/-- The text of a message, cut to what a context may hold. -/
def contextBounded (eventContextChars : Nat) (text : JsString) : JsString :=
  if eventContextChars < text.length then
    detachedPreview text eventContextChars ++ actorTruncationSuffix
  else text

def contentBytes (maxPayloadBytes : Nat) (message : FabricActorMessage Cloned) : Nat :=
  let fixed : FabricActorMessage Json := { message with text := none, data := none }
  max 1 (maxPayloadBytes - serializedBytes fixed.toJson - 128)

/-- The first attempt: text and data share what is left. -/
def shareContent (contentBytes eventContextChars : Nat) (message : FabricActorMessage Cloned)
    : FabricActorMessage Json :=
  let both := message.text.any (fun text => text ≠ []) && message.data.isSome
  let textBytes := if both then contentBytes / 2 else contentBytes
  let dataBytes := if both then contentBytes - textBytes else contentBytes
  { message with
    text := whenText
      (fun text => boundedActorText (contextBounded eventContextChars text) textBytes) message.text
    data := message.data.map fun data => boundedActorData data dataBytes }

/-- The second attempt: the text alone. -/
def withoutData (contentBytes : Nat) (message : FabricActorMessage Json)
    : FabricActorMessage Json :=
  { message with
    data := none
    text := whenText (fun text => boundedActorText text contentBytes) message.text }

/-- `recordMessage`, as far as it makes the message that is kept. -/
def bound (maxEventBytes eventContextChars : Nat) (message : FabricActorMessage Cloned)
    : FabricActorMessage Json :=
  let maxPayloadBytes := max 1 (maxEventBytes - actorMessageEnvelopeBytes)
  let contentBytes := contentBytes maxPayloadBytes message
  let first := shareContent contentBytes eventContextChars message
  let second :=
    if maxPayloadBytes < serializedBytes first.toJson then withoutData contentBytes first
    else first
  if maxPayloadBytes < serializedBytes second.toJson then fallback second else second

/-- The last messages of a history, at most as many as it keeps. -/
def newest {α : Type} (messages : List α) : List α :=
  messages.drop (messages.length - actorMessageHistoryLimit)

end PiFabric.Actors
