import PiFabric.Foundation.JsonObject

/-! Activation filters of an actor: their rules, how a filter is checked and copied, and which
queued items it skips.
-/

namespace PiFabric.Activation

open JsString

inductive Test where
  | equals (value : Json)
  | among (values : List Json)
  | present

/-- A dotted path, or alternatives of which the first one with a value is used. -/
inductive Paths where
  | one (path : JsString)
  | alternatives (paths : List JsString)

/-- `ActorActivationFilterPredicate`. -/
structure Predicate where
  path : Paths
  test : Test

structure SkipRule where
  id : JsString
  source : Option (List JsString)
  topic : Option (List JsString)
  kind : Option (List JsString)
  «where» : Option (List Predicate)
  «unless» : Option (List Predicate)

inductive Preset where
  | hold
  | neverMessageEvents
deriving DecidableEq

def Preset.name : Preset → JsString
  | hold => lit "hold"
  | neverMessageEvents => lit "never-message-events"

/-- An entry of `FabricActorActivationFilter`. -/
inductive Entry where
  | preset (preset : Preset)
  | rule (rule : SkipRule)

/-- A rule of `never-message-events` about one event type. -/
def neverMessage (event action : String) : SkipRule where
  id := lit "never-message-events/" ++ lit event ++ lit "." ++ lit action
  source := none
  topic := some [lit "github.*"]
  kind := none
  «where» := some [⟨.one (lit "data.event"), .equals (.string (lit event))⟩,
    ⟨.one (lit "data.payload.action"), .equals (.string (lit action))⟩]
  «unless» := none

/-- `FABRIC_ACTOR_ACTIVATION_PRESETS`. -/
def Preset.rules : Preset → List SkipRule
  | hold => [{
      id := lit "hold"
      source := none
      topic := some [lit "github.*"]
      kind := none
      «where» := some [⟨.alternatives [lit "data.payload.issue.labels.name",
        lit "data.payload.pull_request.labels.name", lit "data.payload.labels"],
        .equals (.string (lit "hold"))⟩]
      «unless» := some [⟨.one (lit "data.payload.action"), .equals (.string (lit "unlabeled"))⟩,
        ⟨.one (lit "data.payload.label.name"), .equals (.string (lit "hold"))⟩] }]
  | neverMessageEvents => [neverMessage "issues" "field_added", neverMessage "issues" "typed",
      neverMessage "issue_comment" "deleted",
      { id := lit "never-message-events/host:tool_error", source := some [lit "host:tool_error"],
        topic := none, kind := none, «where» := none, «unless» := none },
      { id := lit "never-message-events/ops.owner:actions.minutes", source := none,
        topic := some [lit "ops.owner"], kind := some [lit "actions.minutes"], «where» := none,
        «unless» := none }]

def expand (filter : List Entry) : List SkipRule :=
  filter.flatMap fun entry =>
    match entry with
    | .preset preset => preset.rules
    | .rule rule => [rule]

def matchesOne (value pattern : JsString) : Bool :=
  if pattern.getLast? = some (unitOf '*') then pattern.dropLast.isPrefixOf value
  else value = pattern

def matchesPattern (value : Option Json) : Option (List JsString) → Bool
  | none => true
  | some list =>
      match Json.text? value with
      | some text => list.any fun pattern => matchesOne text pattern
      | none => false

def own? (segment : JsString) : Json → Option Json
  | .object members => (members.reverse.find? fun member => member.1 = segment).map Prod.snd
  | _ => none

def fanOut : Json → List Json
  | .array items => items
  | value => [value]

def step (segment : JsString) (value : Json) : List Json :=
  match own? segment value with
  | some next => fanOut next
  | none => []

def valuesAlong (root : Json) (segments : List JsString) : List Json :=
  segments.foldl (fun values segment => values.flatMap (step segment)) [root]

def segments (path : JsString) : List JsString :=
  path.splitOn (unitOf '.')

def valuesAt (root : Json) (path : JsString) : List Json :=
  valuesAlong root (segments path)

def firstValues (payload : Json) : List JsString → List Json
  | [] => []
  | path :: rest =>
      if (valuesAt payload path).isEmpty then firstValues payload rest else valuesAt payload path

def Paths.list : Paths → List JsString
  | one path => [path]
  | alternatives paths => paths

def Test.passes (test : Test) (value : Json) : Bool :=
  match test with
  | equals wanted => Json.strictEqual (some value) (some wanted)
  | among wanted => wanted.any fun one => Json.strictEqual (some value) (some one)
  | present => true

def predicateResult (predicate : Predicate) (payload : Json) : Option Bool :=
  let values := firstValues payload predicate.path.list
  if values.isEmpty then none else some (values.any predicate.test.passes)

def ruleSkips (rule : SkipRule) (payload : Json) : Bool :=
  (match rule.where with
    | some predicates =>
        predicates.all fun predicate => predicateResult predicate payload = some true
    | none => true)
  && match rule.unless with
    | some predicates =>
        predicates.any fun predicate => predicateResult predicate payload = some false
    | none => true

def meshField (name : String) (source : JsString) (payload : Json) : Option Json :=
  if (lit "mesh:").isPrefixOf source then payload.field? name else none

def concerns (rule : SkipRule) (source : JsString) (payload : Json) : Bool :=
  matchesPattern (some (.string source)) rule.source
    && matchesPattern (meshField "topic" source payload) rule.topic
    && matchesPattern (meshField "kind" source payload) rule.kind

/-- `activationFilterSkip`: the id of the first rule that skips the item. -/
def activationFilterSkip (filter : Option (List Entry)) (source : JsString) (payload : Json)
    : Option JsString :=
  match filter with
  | none => none
  | some filter =>
      ((expand filter).find? fun rule =>
        concerns rule source payload && ruleSkips rule payload).map SkipRule.id

def isAlphanumeric (unit : UInt16) : Bool :=
  isDigit unit || unitOf 'a' ≤ unit && unit ≤ unitOf 'z' || unitOf 'A' ≤ unit && unit ≤ unitOf 'Z'

def isNameUnit (unit : UInt16) : Bool :=
  isAlphanumeric unit || (lit "._:/-").contains unit

def isName (length : Nat) : JsString → Bool
  | [] => false
  | unit :: rest => isAlphanumeric unit && rest.length < length && rest.all isNameUnit

def isRuleId (text : JsString) : Bool :=
  isName 80 text

def isPattern (text : JsString) : Bool :=
  text = lit "*"
    || isName 128 (if text.getLast? = some (unitOf '*') then text.dropLast else text)

def isPath (text : JsString) : Bool :=
  (segments text).all fun segment =>
    !segment.isEmpty && segment.all fun unit => isAlphanumeric unit || (lit "_-").contains unit

def maxRules : Nat := 32
def maxPredicates : Nat := 16
def maxList : Nat := 64

def isScalar : Json → Bool
  | .null | .bool _ | .number _ => true
  | .string text => text.length ≤ 256
  | _ => false

mutual
def toText : Json → JsString
  | .null => lit "null"
  | .bool true => lit "true"
  | .bool false => lit "false"
  | .number value => Json.numberToken value
  | .string text => text
  | .object _ => lit "[object Object]"
  | .array items => itemsText items

def itemsText : List Json → JsString
  | [] => []
  | [item] => itemText item
  | item :: rest => itemText item ++ lit "," ++ itemsText rest

def itemText : Json → JsString
  | .null => []
  | item => toText item
end

def invalid (place problem : JsString) : JsString :=
  lit "Invalid activationFilter " ++ place ++ problem

/-- A check that throws. -/
def require (condition : Bool) (message : JsString) : Except JsString Unit :=
  if condition then .ok () else .error message

def strings (valid : JsString → Bool) : List Json → Option (List JsString)
  | [] => some []
  | .string text :: rest =>
      if valid text then (strings valid rest).map (text :: ·) else none
  | _ :: _ => none

def patterns (value : Option Json) (place : JsString) : Except JsString (Option (List JsString)) :=
  let problem :=
    invalid place (lit ": use a non-empty list of names, a trailing * matches a prefix")
  match value with
  | none => .ok none
  | some (.array items) =>
      if items.isEmpty || maxList < items.length then .error problem
      else
        match strings isPattern items with
        | some names => .ok (some names)
        | none => .error problem
  | some _ => .error problem

/-- The properties of an object, all of them known. -/
def knownFields (known : List String) (place : JsString) (members : List (JsString × Json))
    : Except JsString Unit :=
  match members.find? fun member => !(known.map lit).contains member.1 with
  | some member => .error (invalid place (lit ": unknown field " ++ member.1))
  | none => .ok ()

def isShortPath (text : JsString) : Bool :=
  text.length ≤ 200 && isPath text

def readPaths : Option Json → Option Paths
  | some (.string path) => if isShortPath path then some (.one path) else none
  | some (.array items) =>
      if items.isEmpty || 8 < items.length then none
      else (strings isShortPath items).map .alternatives
  | _ => none

def readTest (entry : Json) (place : JsString) : Except JsString Test :=
  match ["equals", "in", "exists"].filter fun key => (entry.field? key).isSome with
  | ["equals"] =>
      match entry.field? "equals" with
      | some value =>
          if isScalar value then .ok (.equals value)
          else .error (invalid place (lit ".equals: use a string, number, boolean or null"))
      | none => .error []
  | ["in"] =>
      let problem :=
        invalid place (lit ".in: use a non-empty list of strings, numbers, booleans or null")
      match entry.field? "in" with
      | some (.array items) =>
          if items.isEmpty || maxList < items.length || !items.all isScalar then .error problem
          else .ok (.among items)
      | _ => .error problem
  | ["exists"] =>
      if Json.strictEqual (entry.field? "exists") (some (.bool true)) then .ok .present
      else
        .error (invalid place (lit ".exists: only true is allowed (unsure means deliver)"))
  | _ => .error (invalid place (lit ": use exactly one of equals, in, exists"))

def readPredicate (place : JsString) (entry : Json) : Except JsString Predicate :=
  match entry with
  | .object members => do
      knownFields ["path", "equals", "in", "exists"] place members
      match readPaths (entry.field? "path") with
      | none =>
          .error (invalid place
            (lit ".path: use a dotted path such as data.payload.action, or a list of them"))
      | some path =>
          let test ← readTest entry place
          .ok ⟨path, test⟩
  | _ => .error (invalid place (lit ": not an object"))

def readPredicates (place : JsString) (index : Nat) : List Json → Except JsString (List Predicate)
  | [] => .ok []
  | entry :: rest => do
      let predicate ← readPredicate (place ++ lit "[" ++ Json.digits index ++ lit "]") entry
      let others ← readPredicates place (index + 1) rest
      .ok (predicate :: others)

def predicates (value : Option Json) (place : JsString)
    : Except JsString (Option (List Predicate)) :=
  let problem := invalid place
    (lit ": use a list of 1 to " ++ Json.digits maxPredicates ++ lit " predicates")
  match value with
  | none => .ok none
  | some (.array items) =>
      if items.isEmpty || maxPredicates < items.length then .error problem
      else (readPredicates place 0 items).map some
  | some _ => .error problem

def names (list : Option (List JsString)) : Bool :=
  match list with
  | some patterns => patterns.any fun pattern => pattern ≠ lit "*"
  | none => false

def presetNames : JsString :=
  Preset.hold.name ++ lit ", " ++ Preset.neverMessageEvents.name

def normalizeRule (value : Json) (index : Nat) : Except JsString SkipRule :=
  let place := lit "rule " ++ Json.digits index
  match value with
  | .object members => do
      knownFields ["id", "source", "topic", "kind", "where", "unless"] place members
      match value.field? "id" with
      | some (.string id) => do
          require (isRuleId id) (invalid place (lit ".id: " ++ id))
          let source ← patterns (value.field? "source") (id ++ lit ".source")
          let topic ← patterns (value.field? "topic") (id ++ lit ".topic")
          let kind ← patterns (value.field? "kind") (id ++ lit ".kind")
          let «where» ← predicates (value.field? "where") (id ++ lit ".where")
          let «unless» ← predicates (value.field? "unless") (id ++ lit ".unless")
          require (names source || names topic || names kind || «where».isSome)
            (invalid (lit "rule " ++ id) (lit ": name a source, topic, kind or where predicate"))
          .ok ⟨id, source, topic, kind, «where», «unless»⟩
      | other =>
          .error (invalid place
            (lit ".id: " ++ match other with
              | some id => toText id
              | none => lit "undefined"))
  | _ =>
      .error
        (invalid place (lit ": use a preset name (" ++ presetNames ++ lit ") or a rule object"))

def preset? (text : JsString) : Option Preset :=
  [Preset.hold, .neverMessageEvents].find? fun preset => preset.name = text

def normalizeEntry (value : Json) (index : Nat) : Except JsString Entry :=
  match value with
  | .string text =>
      match preset? text with
      | some preset => .ok (.preset preset)
      | none =>
          .error (lit "Unknown activationFilter preset: " ++ text ++ lit " (use " ++ presetNames
            ++ lit ")")
  | value => (normalizeRule value index).map .rule

def normalizeEntries (index : Nat) : List Json → Except JsString (List Entry)
  | [] => .ok []
  | value :: rest => do
      let entry ← normalizeEntry value index
      let others ← normalizeEntries (index + 1) rest
      .ok (entry :: others)

def distinctIds (seen : List JsString) : List SkipRule → Except JsString Unit
  | [] => .ok ()
  | rule :: rest =>
      if seen.contains rule.id then
        .error (lit "Duplicate activationFilter rule id: " ++ rule.id)
      else distinctIds (rule.id :: seen) rest

def normalizeActorActivationFilter (value : Json) : Except JsString (List Entry) :=
  let problem := lit "Invalid activationFilter: use a list of up to " ++ Json.digits maxRules
    ++ lit " preset names or rules"
  match value with
  | .array items =>
      if maxRules < items.length then .error problem
      else do
        let filter ← normalizeEntries 0 items
        distinctIds [] (expand filter)
        .ok filter
  | _ => .error problem

end PiFabric.Activation
