import PiFabric.Foundation.ObjectKeys
import PiFabric.Foundation.Sha256
import PiFabric.State.Kernel

/-! The slot admission ledger: routes and canonical slot addresses, the pair of roles that a row
records, and the check that every reader makes of a row.
-/

namespace PiFabric.Slots

open JsString
open Json (Members)
open State (maxSafeInteger)

/-- The `SlotRefusalReason`s of an admission. -/
inductive Reason where
  | required
  | invalid
  | stale
  | foreignRoot
  | occupied
  | authorityUnavailable
  deriving DecidableEq

/-- `ActorSlotClaimRefusedError`. -/
structure Refusal where
  reason : Reason
  message : JsString
  deriving DecidableEq

def refuse {α : Type} (reason : Reason) (message : String) : Except Refusal α :=
  .error { reason, message := lit message }

def check (passes : Bool) (reason : Reason) (message : String) : Except Refusal Unit :=
  if passes then .ok () else refuse reason message

def positive (value : Nat) : Bool :=
  0 < value && value ≤ maxSafeInteger

def numeral? (text : JsString) : Option Nat :=
  if isDigits text && text.head? ≠ some (unitOf '0') then some (decimalValue text) else none

structure Route where
  repository : JsString
  topic : JsString
  maxSlot : Nat
  denominators : Option (List Nat)
  deriving DecidableEq

structure SlotTopic where
  route : Route
  slot : Nat
  topic : JsString
  valid : Bool
  deriving DecidableEq

def shard? (suffix : JsString) : Option (Nat × Option Nat) :=
  let slot := suffix.takeWhile isDigit
  let rest := suffix.dropWhile isDigit
  if rest = [] then (numeral? slot).map fun slot => (slot, none)
  else if rest.take 2 = lit "of" then do
    some (← numeral? slot, some (← numeral? (rest.drop 2)))
  else none

/-- What a route makes of a topic; a malformed shard of its receiver is its own, and not valid. -/
def matchRoute (route : Route) (topic : JsString) : Option SlotTopic :=
  if topic = route.topic then some { route, slot := 1, topic, valid := true }
  else if (route.topic ++ lit ".shard").isPrefixOf topic then
    let read := shard? (topic.drop (route.topic.length + 6))
    let slot := (read.map Prod.fst).getD 0
    let denominated := match read.bind Prod.snd with
      | none => true
      | some denominator =>
          positive denominator && slot ≤ denominator && denominator ≤ route.maxSlot
            && route.denominators.all fun allowed => allowed.contains denominator
    some { route, slot, topic, valid := positive slot && slot ≤ route.maxSlot && denominated }
  else none

def matchSlotTopic (routes : List Route) (topic : JsString) : Option SlotTopic :=
  routes.findSome? fun route => matchRoute route topic

def claimPrefix : JsString :=
  lit "factory/review-slots/v1/"

def admissionPrefix : JsString :=
  lit "actors/slot-admissions/v1/"

structure Address where
  key : JsString
  admissionKey : JsString
  repository : JsString
  slot : Nat
  generation : JsString
  deriving DecidableEq

def isName (part : JsString) : Bool :=
  !part.isEmpty && part.all fun unit =>
    isDigit unit || unitOf 'a' ≤ unit && unit ≤ unitOf 'z' || unit = unitOf '_'
      || unit = unitOf '.' || unit = unitOf '-'

def isGeneration (part : JsString) : Bool :=
  part = lit "base" || part.head? = some (unitOf 'r') && (numeral? part.tail).isSome

def unsafeParts : List JsString :=
  [lit "__proto__", lit "constructor", lit "prototype"]

def address (key : JsString) : Except Refusal Address :=
  match key.splitOn (unitOf '/') with
  | [factory, kind, protocol, owner, repository, slot, generation] =>
      let shaped := factory = lit "factory" && kind = lit "review-slots" && protocol = lit "v1"
        && isName owner && isName repository && (numeral? slot).any positive
        && isGeneration generation && key.length ≤ 256
        && !([owner, repository, generation].any unsafeParts.contains)
      if shaped then
        .ok {
          key
          admissionKey := admissionPrefix ++ key.drop claimPrefix.length
          repository := owner ++ lit "/" ++ repository
          slot := decimalValue slot
          generation
        }
      else refuse .invalid "Slot claim key is not canonical"
  | _ => refuse .invalid "Slot claim key is not canonical"

inductive RoleState where
  | admitted
  | revoking
  | retired
  deriving DecidableEq

def RoleState.name : RoleState → JsString
  | admitted => lit "admitted"
  | revoking => lit "revoking"
  | retired => lit "retired"

inductive RoleName where
  | review
  | security
  deriving DecidableEq

def RoleName.name : RoleName → JsString
  | review => lit "review"
  | security => lit "security"

structure Role where
  actorId : JsString
  requestKey : JsString
  specHash : JsString
  spec : Members
  registryRoot : JsString
  state : RoleState

/-- `Pair`, but for its constant version and kind. -/
structure Pair where
  authorityGeneration : JsString
  claimKey : JsString
  claimVersion : Nat
  rootId : JsString
  topic : JsString
  sealed : Bool
  roles : JsMap RoleName Role

def Role.json (role : Role) : Json :=
  .object [(lit "actorId", .string role.actorId), (lit "requestKey", .string role.requestKey),
    (lit "specHash", .string role.specHash),
    (lit "normalizedRecoverableSpec", .object role.spec),
    (lit "registryRoot", .string role.registryRoot), (lit "state", .string role.state.name)]

def Pair.json (pair : Pair) : Json :=
  .object [(lit "version", .number (.int 1)), (lit "kind", .string (lit "pair")),
    (lit "authorityGeneration", .string pair.authorityGeneration),
    (lit "claimKey", .string pair.claimKey),
    (lit "claimVersion", .number (.int pair.claimVersion)),
    (lit "rootId", .string pair.rootId), (lit "topic", .string pair.topic),
    (lit "sealed", .bool pair.sealed),
    (lit "roles", .object (pair.roles.entries.map fun role => (role.1.name, role.2.json)))]

/-- `spec.name`, of a role's spec or a request. -/
def named (members : Members) (name : JsString) : Bool :=
  Json.strictEqual (members.get? "name") (some (.string name))

def isSpecHash (text : JsString) : Bool :=
  text.length = 64 && text.all isHexUnit

def checkRole (pairSealed : Bool) (role : Role) : Except Refusal Unit := do
  check (!role.actorId.isEmpty && !role.requestKey.isEmpty && !role.registryRoot.isEmpty
    && isSpecHash role.specHash
    && Json.strictEqual (role.spec.get? "id") (some (.string role.actorId)))
    .occupied "Malformed occupied slot role"
  check (role.state = .admitted || pairSealed) .occupied "Unsealed terminal slot role"

def readPair (key : JsString) (pair : Pair) (generation : JsString) : Except Refusal Pair := do
  check (pair.authorityGeneration = generation && !pair.claimKey.isEmpty
    && positive pair.claimVersion && !pair.rootId.isEmpty && !pair.topic.isEmpty)
    .occupied "Malformed, foreign or blocked admission is permanent occupied state"
  let addr ← address pair.claimKey
  check (key = addr.admissionKey) .occupied "Admission is under the wrong canonical key"
  pair.roles.values.forM (checkRole pair.sealed)
  .ok pair

end PiFabric.Slots

/-! Admission to a slot: the checks of a request, the plan on one view of the mesh, and the
removal of a role. A plan reads the claim and the whole ledger and writes at most one pair.
-/

namespace PiFabric.Slots

open JsString
open Json (Members)

/-- `MeshIdentity`, as far as admission reads it. -/
structure Identity where
  kind : JsString
  id : JsString
  deriving DecidableEq

structure Entry (α : Type) where
  value : α
  version : Nat
  updatedBy : Identity

/-- The claims and the ledger, with the retained revision of every key. -/
structure Mesh where
  claims : JsString → Option (Entry Json)
  rows : JsMap JsString (Entry Pair)
  version : JsString → Nat

structure Put where
  key : JsString
  pair : Pair
  ifVersion : Nat

/-- A batch of at most one put, at the revision that the store issues for it. -/
def Mesh.commit (mesh : Mesh) (writer : Identity) (issued : Nat) : Option Put → Option Mesh
  | none => some mesh
  | some put =>
      if put.ifVersion = mesh.version put.key then
        some {
          claims := mesh.claims
          rows := mesh.rows.set put.key
            { value := put.pair, version := issued, updatedBy := writer }
          version := Function.update mesh.version put.key issued
        }
      else none

/-- What the native authority is bound to, and the routes it protects. The host policy names
registries, roots and receivers, none of them empty.
-/
structure Authority where
  generation : JsString
  registryRoots : List JsString
  rootIds : List JsString
  hubRootId : JsString
  routes : List Route
  registriesNamed : ∀ root ∈ registryRoots, root ≠ []
  rootsNamed : ∀ id ∈ rootIds, id ≠ []
  topicsNamed : ∀ route ∈ routes, route.topic ≠ []

structure Input where
  actorId : JsString
  request : Members
  spec : Members
  registryRoot : JsString
  caller : Identity

def texts (value : Option Json) : List JsString :=
  match value with
  | some (.array items) => items.filterMap fun item => Json.text? (some item)
  | _ => []

def allTexts (value : Option Json) : Bool :=
  match value with
  | some (.array items) => items.all fun item => (Json.text? (some item)).isSome
  | _ => false

/-- The members of a spec that a new attempt makes anew. -/
def volatileMembers : List JsString :=
  [lit "id", lit "createdAt", lit "updatedAt", lit "sessionFile", lit "runnerSessionId",
    lit "ownershipToken", lit "exceptionLane"]

def immutableSpec (spec : Members) : Members :=
  spec.filter fun member => !volatileMembers.contains member.1

def fingerprint (request spec : Members) (registryRoot callerId : JsString) : JsString :=
  Sha256.hex (Json.bytes (Json.canonical (.object [
    (lit "request", .object request), (lit "spec", .object (immutableSpec spec)),
    (lit "registryRoot", .string registryRoot), (lit "callerId", .string callerId)])))

structure Birth where
  actorId : JsString
  address : Address
  claimVersion : Nat
  topic : JsString
  name : JsString
  requestKey : JsString
  spec : Members
  specHash : JsString
  registryRoot : JsString
  callerId : JsString

def normalizedMembers (members : Members) : Members :=
  Json.sortedMembers (Json.canonicalMembers members)

def target (authority : Authority) (request : Members) : Except Refusal SlotTopic :=
  match (texts (request.get? "topics")).eraseDups.filterMap (matchSlotTopic authority.routes) with
  | [only] =>
      if only.valid then .ok only
      else refuse .invalid "One actor may subscribe to exactly one canonical protected receiver"
  | _ => refuse .invalid "One actor may subscribe to exactly one canonical protected receiver"

def slotClaim (request : Members) : Except Refusal (JsString × Nat) :=
  match request.get? "slotClaim" with
  | some (.object token) =>
      match Members.get? "key" token, Members.get? "ifVersion" token with
      | some (.string key), some (.number (.int version)) =>
          if !key.isEmpty && 0 ≤ version && positive version.toNat then .ok (key, version.toNat)
          else refuse .invalid
            "slotClaim requires a canonical key and positive safe entry revision"
      | _, _ =>
          refuse .invalid "slotClaim requires a canonical key and positive safe entry revision"
  | _ => refuse .required "Protected slot birth requires slotClaim"

def requestKey (request : Members) : Except Refusal JsString :=
  match request.get? "idempotencyKey" with
  | some (.string key) =>
      if !key.isEmpty && key.length ≤ 256 then .ok key
      else refuse .required "Protected slot birth requires a stable bounded idempotencyKey"
  | _ => refuse .required "Protected slot birth requires a stable bounded idempotencyKey"

def specMatches (actorId callerId : JsString) (request spec : Members) : Bool :=
  Json.strictEqual (spec.get? "id") (some (.string actorId))
    && Json.strictEqual (spec.get? "name") (request.get? "name")
    && (Json.text? (spec.get? "instructions")).any (fun text => !(trim text).isEmpty)
    && allTexts (spec.get? "topics")
    && (texts (spec.get? "topics")).eraseDups.insertionSort (fun a b => JsString.le a b = true)
      = (texts (request.get? "topics")).eraseDups.insertionSort (fun a b => JsString.le a b = true)
    && Json.strictEqual (spec.get? "rootId") (some (.string callerId))

def validateBytes (maxEventBytes : Nat) (value : Json) : Except Refusal Unit :=
  check ((Json.bytes value).length ≤ maxEventBytes) .invalid
    "Slot admission value exceeds the event limit"

/-- The checks of `admit` before it reads the mesh, for a request that names a protected topic.
A request without a name names nobody.
-/
def validate (authority : Authority) (maxEventBytes : Nat) (input : Input)
    : Except Refusal Birth := do
  check (authority.registryRoots.contains input.registryRoot) .authorityUnavailable
    "Actor registry is not registered with this native slot authority"
  let request := normalizedMembers input.request
  check (input.caller.kind = lit "main" && authority.rootIds.contains input.caller.id)
    .foreignRoot "Slot caller is not a registered authenticated Main"
  let target ← target authority request
  let (key, version) ← slotClaim request
  let addr ← address key
  check (addr.repository = target.route.repository && addr.slot = target.slot) .invalid
    "Claim does not address the exact protected receiver slot"
  let requestKey ← requestKey request
  check (!input.actorId.isEmpty) .invalid "Slot actor ID must be preallocated"
  let spec := normalizedMembers input.spec
  check (specMatches input.actorId input.caller.id request spec) .invalid
    "Recoverable slot specification does not match its native identity/request"
  validateBytes maxEventBytes (.object spec)
  .ok {
    actorId := input.actorId
    address := addr
    claimVersion := version
    topic := target.topic
    name := (Json.text? (request.get? "name")).getD []
    requestKey
    spec
    specHash := fingerprint request spec input.registryRoot input.caller.id
    registryRoot := input.registryRoot
    callerId := input.caller.id
  }

/-- What an attempt selected: a role, whether it was there already, and what to write. -/
structure Plan where
  role : Role
  reused : Bool
  put : Option Put

def claimNames (claim : Members) : Option (JsString × JsString) :=
  match claim.get? "names" with
  | some (.array [.string review, .string security]) =>
      if review.isEmpty || security.isEmpty || review = security then none
      else some (review, security)
  | _ => none

def reviewSuffix : JsString :=
  lit "-review-astra"

def securitySuffix : JsString :=
  lit "-security-astra"

def claimMembers : Json → Members
  | .object value => value
  | _ => []

def claimShaped (authority : Authority) (birth : Birth) (value : Members) : Bool :=
  Json.strictEqual (value.get? "version") (some (.number (.int 1)))
    && Json.strictEqual (value.get? "repository") (some (.string birth.address.repository))
    && Json.strictEqual (value.get? "slot") (some (.number (.int birth.address.slot)))
    && Json.strictEqual (value.get? "generation") (some (.string birth.address.generation))
    && (Json.text? (value.get? "owner")).any (fun owner => !owner.isEmpty)
    && Json.strictEqual (value.get? "hubRootId") (some (.string authority.hubRootId))
    && (claimNames value).isSome

def claimOwned (birth : Birth) (claim : Entry Json) : Bool :=
  Json.strictEqual ((claimMembers claim.value).get? "claimedBy") (some (.string birth.callerId))
    && claim.updatedBy = { kind := lit "main", id := birth.callerId }

/-- The review and security suffixes share one prefix. -/
def canonicalNames (names : JsString × JsString) : Bool :=
  reviewSuffix.isSuffixOf names.1
    && names.2 = names.1.take (names.1.length - 13) ++ securitySuffix

def roleOf (name : JsString) (names : JsString × JsString) : Except Refusal RoleName :=
  if name = names.1 then .ok .review
  else if name = names.2 then .ok .security
  else refuse .invalid "Actor name is not a claimed review/security role"

def claimedRole (authority : Authority) (birth : Birth) (claim : Option (Entry Json))
    : Except Refusal RoleName :=
  match claim with
  | none => refuse .stale "Slot claim is absent or its exact entry revision changed"
  | some claim => do
      check (claim.version = birth.claimVersion) .stale
        "Slot claim is absent or its exact entry revision changed"
      check (claimShaped authority birth (claimMembers claim.value)) .invalid
        "Malformed or mismatched canonical slot claim"
      check (claimOwned birth claim) .foreignRoot
        "Claim ownership/provenance is not the authenticated requesting Main"
      let names := (claimNames (claimMembers claim.value)).getD ([], [])
      check (canonicalNames names) .invalid
        "Slot claim names are not a canonical review/security pair"
      roleOf birth.name names

def checkIncumbent (authority : Authority) (birth : Birth) (row : JsString × Entry Pair)
    : Except Refusal Unit := do
  let incumbent ← readPair row.1 row.2.value authority.generation
  check (incumbent.roles.values.all fun role =>
      !(role.actorId = birth.actorId
        || incumbent.rootId = birth.callerId && role.requestKey = birth.requestKey))
    .occupied "Actor ID or root-scoped idempotencyKey is already admitted"

def Birth.role (birth : Birth) : Role where
  actorId := birth.actorId
  requestKey := birth.requestKey
  specHash := birth.specHash
  spec := birth.spec
  registryRoot := birth.registryRoot
  state := .admitted

def Birth.pair (birth : Birth) (authority : Authority) : Pair where
  authorityGeneration := authority.generation
  claimKey := birth.address.key
  claimVersion := birth.claimVersion
  rootId := birth.callerId
  topic := birth.topic
  sealed := false
  roles := JsMap.empty

def bear (authority : Authority) (maxEventBytes : Nat) (birth : Birth) (mesh : Mesh)
    (pair : Option Pair) (ifVersion : Nat) : Except Refusal Plan := do
  let name ← claimedRole authority birth (mesh.claims birth.address.key)
  check (!pair.any fun pair => pair.roles.has name) .occupied "Slot role is permanently occupied"
  mesh.rows.entries.forM (checkIncumbent authority birth)
  let pair := pair.getD (birth.pair authority)
  let next := { pair with roles := pair.roles.set name birth.role }
  validateBytes maxEventBytes next.json
  .ok {
    role := birth.role
    reused := false
    put := some { key := birth.address.admissionKey, pair := next, ifVersion }
  }

def prepare (authority : Authority) (maxEventBytes : Nat) (birth : Birth) (mesh : Mesh)
    : Except Refusal Plan :=
  match mesh.rows.get? birth.address.admissionKey with
  | none =>
      bear authority maxEventBytes birth mesh none (mesh.version birth.address.admissionKey)
  | some old => do
      let pair ← readPair birth.address.admissionKey old.value authority.generation
      check (pair.claimKey = birth.address.key && pair.claimVersion = birth.claimVersion
        && pair.rootId = birth.callerId && pair.topic = birth.topic && !pair.sealed) .occupied
        "Slot generation is sealed or belongs to another claim epoch/root/topic"
      match pair.roles.values.find? fun role => named role.spec birth.name with
      | some role =>
          check (role.state = .admitted && role.requestKey = birth.requestKey
            && role.specHash = birth.specHash && role.registryRoot = birth.registryRoot)
            .occupied "Slot role already has a different permanent incarnation/request"
          .ok { role, reused := true, put := none }
      | none => bear authority maxEventBytes birth mesh (some pair) old.version

def Plan.rebased (plan : Plan) (mesh : Mesh) : Plan :=
  { plan with put := plan.put.map fun put => { put with ifVersion := mesh.version put.key } }

structure Found where
  key : JsString
  row : Entry Pair
  name : RoleName
  role : Role

def matches_ (actorId registryRoot : JsString) (row : JsString × Entry Pair) : List Found :=
  (row.2.value.roles.entries.filter fun role =>
    role.2.actorId = actorId && role.2.registryRoot = registryRoot).map fun role =>
      { key := row.1, row := row.2, name := role.1, role := role.2 }

def find (authority : Authority) (actorId registryRoot : JsString) (mesh : Mesh)
    : Except Refusal (Option Found) := do
  mesh.rows.entries.forM fun row => do
    let _ ← readPair row.1 row.2.value authority.generation
  match mesh.rows.entries.flatMap (matches_ actorId registryRoot) with
  | [] => .ok none
  | [found] => .ok (some found)
  | _ => refuse .occupied "Actor ID appears in multiple native admissions"

/-- The plan of `beginRemoval` and `retire`. -/
def transition (authority : Authority) (actorId registryRoot : JsString) (topics : List JsString)
    (state : RoleState) (mesh : Mesh) : Except Refusal (Option Put) := do
  match ← find authority actorId registryRoot mesh with
  | none => refuse .occupied "No exact matching native slot incarnation to retire"
  | some found =>
      if !topics.contains found.row.value.topic then
        refuse .occupied "No exact matching native slot incarnation to retire"
      else if found.role.state = .retired ∨ found.role.state = state then .ok none
      else if state = .retired ∧ found.role.state ≠ .revoking then
        refuse .invalid "Slot must be durably revoking before retirement"
      else
        let pair := found.row.value
        .ok (some {
          key := found.key
          pair := {
            pair with
            sealed := true
            roles := pair.roles.set found.name { found.role with state }
          }
          ifVersion := found.row.version
        })

end PiFabric.Slots
