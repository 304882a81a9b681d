import PiFabric.Foundation.Literals
import PiFabric.Foundation.ObjectKeys
import PiFabric.Foundation.Utf8

/-! The normalized entries of a session and the JSON that a cache file holds for them. -/

namespace PiFabric.Memory

open JsString

inductive FabricExecutionOutcome where
  | succeeded
  | failed
  | aborted
  | timedOut
  deriving DecidableEq

def FabricExecutionOutcome.text : FabricExecutionOutcome → JsString
  | succeeded => lit "succeeded"
  | failed => lit "failed"
  | aborted => lit "aborted"
  | timedOut => lit "timed_out"

def nullable : Option JsString → Json
  | some text => .string text
  | none => .null

def nullableNumber : Option JsNumber → Json
  | some value => .number value
  | none => .null

/-- One normalized record of a session. The two nested records are carried as the JSON of their
data.
-/
structure NormalizedEntry where
  sessionFile : JsString
  sessionId : JsString
  index : Nat
  entryId : Option JsString
  parentId : Option JsString
  type : JsString
  role : Option JsString
  toolName : Option JsString
  text : JsString
  timestamp : Option JsNumber
  isError : Bool
  truncated : Bool
  filesTouched : Option (List JsString) := none
  parentEntryId : Option (Option JsString) := none
  operationAddress : Option JsString := none
  ref : Option JsString := none
  provider : Option JsString := none
  action : Option JsString := none
  outcome : Option FabricExecutionOutcome := none
  operation : Option Json := none
  branchFact : Option Json := none
  factAddress : Option JsString := none
  carrierEntryId : Option JsString := none
  carrierParentId : Option (Option JsString) := none
  carrierFromId : Option (Option JsString) := none

def NormalizedEntry.properties (entry : NormalizedEntry) : List (String × Option Json) :=
  [("sessionFile", some (.string entry.sessionFile)),
    ("sessionId", some (.string entry.sessionId)),
    ("index", some (.number (.int entry.index))),
    ("entryId", some (nullable entry.entryId)),
    ("parentId", some (nullable entry.parentId)),
    ("type", some (.string entry.type)),
    ("role", some (nullable entry.role)),
    ("toolName", some (nullable entry.toolName)),
    ("text", some (.string entry.text)),
    ("timestamp", some (nullableNumber entry.timestamp)),
    ("isError", some (.bool entry.isError)),
    ("truncated", some (.bool entry.truncated)),
    ("filesTouched", entry.filesTouched.map fun files => .array (files.map .string)),
    ("parentEntryId", entry.parentEntryId.map nullable),
    ("operationAddress", entry.operationAddress.map .string),
    ("ref", entry.ref.map .string),
    ("provider", entry.provider.map .string),
    ("action", entry.action.map .string),
    ("outcome", entry.outcome.map fun outcome => .string outcome.text),
    ("operation", entry.operation),
    ("branchFact", entry.branchFact),
    ("factAddress", entry.factAddress.map .string),
    ("carrierEntryId", entry.carrierEntryId.map .string),
    ("carrierParentId", entry.carrierParentId.map nullable),
    ("carrierFromId", entry.carrierFromId.map nullable)]

def NormalizedEntry.json (entry : NormalizedEntry) : Json :=
  Json.literal entry.properties

def entryNames : List String :=
  ["sessionFile", "sessionId", "index", "entryId", "parentId", "type", "role", "toolName", "text",
    "timestamp", "isError", "truncated", "filesTouched", "parentEntryId", "operationAddress", "ref",
    "provider", "action", "outcome", "operation", "branchFact", "factAddress", "carrierEntryId",
    "carrierParentId", "carrierFromId"]

theorem entryNames_distinct : (entryNames.map lit).Nodup := by
  decide +kernel

def isCachedEntry (entry : Json) : Bool :=
  (match entry.field? "index" with
    | some (.number _) => true
    | _ => false)
    && (Json.text? (entry.field? "sessionFile")).isSome
    && (Json.text? (entry.field? "text")).isSome

theorem isCachedEntry_json (entry : NormalizedEntry) : isCachedEntry entry.json = true := by
  have distinct : (entry.properties.map fun property => lit property.1).Nodup :=
    entryNames_distinct
  have index : entry.json.field? "index" = some (.number (.int entry.index)) :=
    Json.field?_literal distinct (by simp [NormalizedEntry.properties])
  have file : entry.json.field? "sessionFile" = some (.string entry.sessionFile) :=
    Json.field?_literal distinct (by simp [NormalizedEntry.properties])
  have text : entry.json.field? "text" = some (.string entry.text) :=
    Json.field?_literal distinct (by simp [NormalizedEntry.properties])
  rw [isCachedEntry, index, file, text]
  rfl

end PiFabric.Memory

/-! Lexical tokens of memory text and the order of its terms. What Unicode says of a character is a
parameter: the normal form NFKC, the letters and numbers, and lower case.
-/

namespace PiFabric.Memory

open JsString

structure Unicode where
  /-- `text.normalize("NFKC")`. -/
  nfkc : JsString → JsString
  /-- The code points of `\p{L}` and `\p{N}`. -/
  isLetterOrNumber : Nat → Bool
  /-- `text.toLowerCase()`. -/
  toLowerCase : JsString → JsString

variable (unicode : Unicode)

def codePoints : JsString → List (JsString × Nat)
  | [] => []
  | [unit] => [([unit], unit.toNat)]
  | first :: second :: rest =>
      if isHigh first && isLow second then
        ([first, second], Utf8.pairPoint first second) :: codePoints rest
      else ([first], first.toNat) :: codePoints (second :: rest)

/-- A character of `[\p{L}\p{N}_]`. -/
def Unicode.isWord (point : Nat) : Bool :=
  unicode.isLetterOrNumber point || point = '_'.toNat

/-- The longest runs of word characters, in order; `run` is what the open one has so far. -/
def wordRuns (run : JsString) : List (JsString × Nat) → List JsString
  | [] => if run = [] then [] else [run]
  | (units, point) :: rest =>
      if unicode.isWord point then wordRuns (run ++ units) rest
      else if run = [] then wordRuns [] rest else run :: wordRuns [] rest

def tokenizeLexical (text : JsString) : List JsString :=
  (wordRuns unicode [] (codePoints (unicode.nfkc text))).map unicode.toLowerCase

def normalizeMemoryPhrase (text : JsString) : JsString :=
  unicode.toLowerCase (unicode.nfkc text)

/-- A set of terms in the order of `compareLexical`. -/
def sortedTerms (terms : List JsString) : List JsString :=
  JsString.sorted terms

theorem sortedTerms_ascending {terms : List JsString} (distinct : terms.Nodup)
    : (sortedTerms terms).Pairwise (· < ·) := by
  have ordered : (sortedTerms terms).Pairwise fun left right => JsString.le left right = true :=
    List.pairwise_insertionSort _ _
  have apart : (sortedTerms terms).Pairwise (· ≠ ·) :=
    (JsString.perm_sorted terms).nodup_iff.mpr distinct
  refine (ordered.and apart).imp fun {left right} both => ?_
  refine List.not_le.mp fun back => both.2 ?_
  exact List.le_antisymm (JsString.le_iff.mp both.1) back

end PiFabric.Memory
