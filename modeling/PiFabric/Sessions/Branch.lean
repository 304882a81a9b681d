import PiFabric.Foundation.JsMap
import PiFabric.Foundation.JsonObject
import PiFabric.Foundation.NumberValue

/-! The active branch of a session: the full read of every entry, the walk by point lookups, and
the cursor that reads only what is new.
-/

namespace PiFabric.Sessions

open JsString

/-- What a reader throws: a `SessionEntryBranchRefusalError`, or what the manager threw. A climb
that takes more lookups than it is given is `unfinished`.
-/
inductive Failure where
  | refusal (message : JsString)
  | thrown (value : JsString)
  | unfinished
deriving DecidableEq

/-- `SessionEntryCursorManager`: each method may be missing, and may throw. A lookup of an entry may
end otherwise each time; its number within the read says which one it is.
-/
structure Manager where
  getLeafId : Option (Except Failure (Option JsString))
  getLeafEntry : Option (Except Failure (Option Json))
  getEntry : Option (Nat → JsString → Except Failure (Option Json))
  getEntries : Option (Except Failure (List Json))
  getSessionId : Option (Except Failure JsString)

def filled (value : Option Json) : Option JsString :=
  (Json.text? value).filter fun text => text ≠ []

def sessionEntryId (value : Option Json) : Option JsString :=
  filled (value.bind (Json.field? "id"))

def sessionParentId (value : Option Json) : Option (Option JsString) :=
  match value.bind (Json.field? "parentId") with
  | some .null => some none
  | parent => (filled parent).map some

def atLimit (maxEntries : Option Nat) (reverse : List Json) : Bool :=
  maxEntries.any fun limit => limit ≤ reverse.length

def byIds : List Json → JsMap JsString Json → Except Failure (JsMap JsString Json)
  | [], byId => .ok byId
  | entry :: rest, byId =>
    match sessionEntryId (some entry) with
    | none => .error (.refusal (lit "Full session read has missing or duplicate entry ids"))
    | some id =>
      if byId.has id then
        .error (.refusal (lit "Full session read has missing or duplicate entry ids"))
      else byIds rest (byId.set id entry)

/-- The loop of the full read, over the entries that it may still visit. `reverse` holds what it
has passed, the lowest entry last.
-/
def ancestry (byId : JsMap JsString Json) (maxEntries : Option Nat)
    : Nat → List JsString → List Json → Json → Except Failure (List Json)
  | 0, _, _, _ => .error .unfinished
  | fuel + 1, visited, reverse, current =>
    match sessionEntryId (some current) with
    | none =>
      .error (.refusal (lit "Full session read contains cyclic or invalid active ancestry"))
    | some id =>
      if id ∈ visited then
        .error (.refusal (lit "Full session read contains cyclic or invalid active ancestry"))
      else if atLimit maxEntries (current :: reverse) then .ok (current :: reverse)
      else
        match sessionParentId (some current) with
        | some none => .ok (current :: reverse)
        | none =>
          .error (.refusal (lit "Full session read contains incomplete active ancestry"))
        | some (some parent) =>
          match byId.get? parent with
          | none => .error (.refusal (lit "Full session read is missing an active ancestor"))
          | some above => ancestry byId maxEntries fuel (id :: visited) (current :: reverse) above

def leafIdOrNull (manager : Manager) : Except Failure (Option JsString) :=
  manager.getLeafId.getD (.ok none)

def fullActiveBranchRead (manager : Manager) (leaf : Option Json) (maxEntries : Option Nat)
    : Except Failure (List Json) :=
  match manager.getEntries with
  | none =>
    .error (.refusal
      (lit "Active session ancestry is incomplete and no full session read is available"))
  | some read => do
    let entries ← read
    if maxEntries = some 0 then return []
    let byId ← byIds entries .empty
    let leafId ← match sessionEntryId leaf with
      | some id => pure (some id)
      | none => leafIdOrNull manager
    match leafId with
    | none =>
      if entries.isEmpty then return []
      else .error (.refusal (lit "Full session read cannot identify the active leaf"))
    | some id =>
      match byId.get? id with
      | none => .error (.refusal (lit "Full session read is missing the active leaf"))
      | some entry => ancestry byId maxEntries (entries.length + 1) [] [] entry

def truthy : Option Json → Bool
  | none | some .null => false
  | some (.bool value) => value
  | some (.number value) => value.value ≠ 0
  | some (.string text) => !text.isEmpty
  | some (.array _) | some (.object _) => true

def walkUp (manager : Manager) (lookup : Nat → JsString → Except Failure (Option Json))
    (leaf : Json) (maxEntries : Option Nat)
    : Nat → Nat → List JsString → List Json → Json → Except Failure (List Json)
  | 0, _, _, _, _ => .error .unfinished
  | fuel + 1, calls, visited, reverse, current =>
    let full := fullActiveBranchRead manager (some leaf) maxEntries
    match sessionEntryId (some current) with
    | none => full
    | some id =>
      if id ∈ visited then full
      else if atLimit maxEntries (current :: reverse) then .ok (current :: reverse)
      else
        match sessionParentId (some current) with
        | some none => .ok (current :: reverse)
        | none => full
        | some (some parent) =>
          match lookup calls parent with
          | .error _ | .ok none => full
          | .ok (some above) =>
            if truthy (some above) then
              walkUp manager lookup leaf maxEntries fuel (calls + 1) (id :: visited)
                (current :: reverse) above
            else full

def lastOf (limit : Nat) {α : Type} (items : List α) : List α :=
  if limit = 0 then items else items.drop (items.length - limit)

def walkActiveSessionBranch (manager : Manager) (maxEntries : Option Nat) (fuel calls : Nat)
    : Except Failure (List Json) :=
  match manager.getLeafEntry, manager.getEntry with
  | some leafEntry, some lookup =>
    if maxEntries = some 0 then .ok []
    else do
      let leaf ← leafEntry
      match leaf with
      | some entry =>
        if truthy leaf then walkUp manager lookup entry maxEntries fuel calls [] [] entry
        else leafless leaf
      | none => leafless none
  | _, _ => do
    let entries ← manager.getEntries.getD (.ok [])
    match maxEntries with
    | none => return entries
    | some 0 => return []
    | some limit => return lastOf limit entries
where
  /-- There is no leaf entry: a full read where the manager names one all the same. -/
  leafless (leaf : Option Json) : Except Failure (List Json) := do
    let declared ← leafIdOrNull manager
    if declared.any (fun id => !id.isEmpty) then fullActiveBranchRead manager leaf maxEntries
    else return []

end PiFabric.Sessions

/-! `SessionEntryCursor`: a reader of the active branch that remembers how far it got. -/

namespace PiFabric.Sessions

structure SessionEntryCursorFailure where
  sessionId : Option JsString
  leafId : Option JsString
  maxEntries : Option Nat
  error : Failure
deriving DecidableEq

structure SessionEntryCursor where
  initialized : Bool
  sessionId : Option JsString
  leafId : Option JsString
  pathIds : List JsString
  known : List JsString
  maxEntries : Option Nat
  failure : Option SessionEntryCursorFailure

def SessionEntryCursor.new : SessionEntryCursor where
  initialized := false
  sessionId := none
  leafId := none
  pathIds := []
  known := []
  maxEntries := none
  failure := none

structure SessionEntryRead where
  entries : List Json
  reset : Bool
  leafId : Option JsString

def cursorKnownIdMaximum : Nat := 500

def cursorKnownIdLimit (maxEntries : Option Nat) : Nat :=
  min (maxEntries.getD cursorKnownIdMaximum) cursorKnownIdMaximum

def currentLeafId (manager : Manager) : Option JsString :=
  match manager.getLeafId with
  | some (.ok declared) => declared
  | some (.error _) => none
  | none =>
    match manager.getLeafEntry with
    | some (.ok leaf) => sessionEntryId leaf
    | _ => none

def sessionIdOf (manager : Manager) : Except Failure (Option JsString) :=
  match manager.getSessionId with
  | some read => read.map some
  | none => .ok none

namespace SessionEntryCursor

def setPath (cursor : SessionEntryCursor) (entries : List Json) : SessionEntryCursor :=
  let ids := entries.filterMap fun entry => sessionEntryId (some entry)
  let limit := cursorKnownIdLimit cursor.maxEntries
  let pathIds := if limit = 0 then [] else lastOf limit ids
  { cursor with leafId := ids.getLast?, pathIds, known := pathIds }

def trimPath (cursor : SessionEntryCursor) : SessionEntryCursor :=
  let limit := cursorKnownIdLimit cursor.maxEntries
  if limit = 0 then { cursor with pathIds := [], known := [] }
  else if cursor.pathIds.length ≤ limit then cursor
  else { cursor with pathIds := lastOf limit cursor.pathIds, known := lastOf limit cursor.pathIds }

def pushPath (cursor : SessionEntryCursor) : List Json → SessionEntryCursor
  | [] => cursor
  | entry :: rest =>
    match sessionEntryId (some entry) with
    | none => cursor.pushPath rest
    | some id =>
      if 0 < cursorKnownIdLimit cursor.maxEntries then
        pushPath
          { cursor with
            pathIds := cursor.pathIds ++ [id]
            known := cursor.known.insert id
            leafId := some id }
          rest
      else pushPath { cursor with leafId := some id } rest

def appendPath (cursor : SessionEntryCursor) (entries : List Json) : SessionEntryCursor :=
  (cursor.pushPath entries).trimPath

def heldFailure (cursor : SessionEntryCursor) (sessionId leafId : Option JsString)
    (maxEntries : Option Nat) : Option Failure :=
  cursor.failure.bind fun failure =>
    if failure.sessionId = sessionId ∧ failure.leafId = leafId ∧ failure.maxEntries = maxEntries
    then some failure.error else none

/-- What `reset` does once no failure stands in its way. -/
def rederive (manager : Manager) (sessionId leafId : Option JsString) (maxEntries : Option Nat)
    (fuel calls : Nat) : SessionEntryCursor × Except Failure SessionEntryRead :=
  let cursor := { SessionEntryCursor.new with sessionId, maxEntries }
  match walkActiveSessionBranch manager maxEntries fuel calls with
  | .ok entries =>
    let cursor := { cursor.setPath entries with initialized := true }
    (cursor, .ok ⟨entries, true, cursor.leafId⟩)
  | .error (.refusal message) =>
    ({ cursor with failure := some ⟨sessionId, leafId, maxEntries, .refusal message⟩ },
      .error (.refusal message))
  | .error error => (cursor, .error error)

def reset (cursor : SessionEntryCursor) (manager : Manager) (maxEntries : Option Nat)
    (fuel calls : Nat) : SessionEntryCursor × Except Failure SessionEntryRead :=
  match sessionIdOf manager with
  | .error error => (cursor, .error error)
  | .ok sessionId =>
    match cursor.heldFailure sessionId (currentLeafId manager) maxEntries with
    | some error => (cursor, .error error)
    | none => rederive manager sessionId (currentLeafId manager) maxEntries fuel calls

/-- How the climb from a new leaf ends: at the remembered one with the entries after it, or with
nothing to add to, after some lookups.
-/
inductive Climb where
  | added (entries : List Json)
  | reset (calls : Nat)
  | unfinished

/-- The loop of `read`. -/
def climb (lookup : Nat → JsString → Except Failure (Option Json)) (remembered : Option JsString)
    (known : List JsString) : Nat → Nat → List JsString → List Json → Option Json → Climb
  | 0, _, _, _, _ => .unfinished
  | _ + 1, calls, _, _, none => .reset calls
  | fuel + 1, calls, visited, reverse, some current =>
    if truthy (some current) = false then .reset calls
    else
      match sessionEntryId (some current) with
      | none => .reset calls
      | some id =>
        if id ∈ visited then .reset calls
        else if remembered = some id then .added reverse
        else if id ∈ known then .reset calls
        else
          match sessionParentId (some current) with
          | none | some none => .reset calls
          | some (some parent) =>
            if remembered = some parent then .added (current :: reverse)
            else
              match lookup calls parent with
              | .error _ => .reset (calls + 1)
              | .ok above =>
                climb lookup remembered known fuel (calls + 1) (id :: visited)
                  (current :: reverse) above

def advance (cursor : SessionEntryCursor) (manager : Manager)
    (lookup : Nat → JsString → Except Failure (Option Json)) (leaf : Option Json) (fuel : Nat)
    : SessionEntryCursor × Except Failure SessionEntryRead :=
  let leafId := sessionEntryId leaf
  if leafId = cursor.leafId then (cursor, .ok ⟨[], false, cursor.leafId⟩)
  else
    match climb lookup cursor.leafId cursor.known fuel 0 [] [] leaf with
    | .added entries =>
      ({ cursor.appendPath entries with leafId }, .ok ⟨entries, false, leafId⟩)
    | .reset calls => cursor.reset manager cursor.maxEntries fuel calls
    | .unfinished => (cursor, .error .unfinished)

def read (cursor : SessionEntryCursor) (manager : Manager) (fuel : Nat)
    : SessionEntryCursor × Except Failure SessionEntryRead :=
  match sessionIdOf manager with
  | .error error => (cursor, .error error)
  | .ok sessionId =>
    match cursor.heldFailure sessionId (currentLeafId manager) cursor.maxEntries with
    | some error => (cursor, .error error)
    | none =>
      let cursor := { cursor with failure := none }
      if cursor.initialized = false ∨ cursor.sessionId ≠ sessionId then
        cursor.reset manager cursor.maxEntries fuel 0
      else
        match manager.getLeafEntry, manager.getEntry with
        | some leafEntry, some lookup =>
          match leafEntry, manager.getLeafId with
          | .error error, _ => (cursor, .error error)
          | .ok _, some (.error error) => (cursor, .error error)
          | .ok leaf, some (.ok declared) =>
            if declared ≠ sessionEntryId leaf then cursor.reset manager cursor.maxEntries fuel 0
            else cursor.advance manager lookup leaf fuel
          | .ok leaf, none => cursor.advance manager lookup leaf fuel
        | _, _ => cursor.reset manager cursor.maxEntries fuel 0

end SessionEntryCursor

end PiFabric.Sessions
