import Mathlib.Data.List.MinMax
import PiFabric.Foundation.JsonObject
import PiFabric.Foundation.NumberValue
import PiFabric.Foundation.Sha256

/-! The records that an actor's ownership is read from, and the facts of each that a prepared save
depends on: its participant record, its owner's host record and file lease, and the lineage closure
of its root.
-/

namespace PiFabric.Ownership

open JsString

/-- Milliseconds. -/
abbrev Time := ℚ

structure StateEntry where
  key : JsString
  value : Option Json
  version : JsNumber
  updatedAt : JsNumber
  updatedBy : Json

def number? : Option Json → Option JsNumber
  | some (.number number) => some number
  | _ => none

def isFormatOne (value : Json) : Bool :=
  (number? (value.field? "format")).any fun number => decide (number.value = 1)

def participantPrefix : JsString := lit "topology/participants/"
def hostPrefix : JsString := lit "topology/hosts/"
def lineageClosurePrefix : JsString := lit "topology/lineage-closures/"

def digest (id : JsString) : JsString :=
  Sha256.hex (Utf8.encode id)

def entryOf (text hash : JsString) : Option StateEntry :=
  match Json.parse text with
  | none => none
  | some value =>
      match number? (value.field? "updatedAt"), number? (value.field? "version"),
          value.field? "updatedBy" with
      | some updatedAt, some version, some updatedBy =>
          if isFormatOne value = true
              ∧ Json.text? (value.field? "key") = some (participantPrefix ++ hash)
              ∧ (Json.text? (updatedBy.field? "id")).isSome = true then
            some { key := participantPrefix ++ hash, value := value.field? "value", version
                   updatedAt, updatedBy }
          else none
      | _, _, _ => none

structure LeaseSession where
  id : JsString
  startedAt : JsNumber
  updatedAt : JsNumber
  expiresAt : JsNumber

structure MirrorLease where
  remoteHost : JsString
  observedAt : JsNumber
  sourceObservedAt : JsNumber
  sourceUpdatedAt : JsNumber
  sourceExpiresAt : JsNumber

/-- `FabricHostLease`, without what neither facts nor deadlines read. -/
structure HostLease where
  id : JsString
  rootId : JsString
  identityId : JsString
  updatedAt : JsNumber
  expiresAt : JsNumber
  startedAt : Option JsNumber
  incarnationToken : Option JsString
  session : Option LeaseSession
  mirror : Option MirrorLease

/-- The name of a host's lease file, without its extension. -/
def fileName (hostId : JsString) : JsString :=
  (digest hostId).take 32

def validSession (value : Option Json) : Option LeaseSession := do
  let session ← value
  let id ← Json.text? (session.field? "id")
  let startedAt ← number? (session.field? "startedAt")
  let updatedAt ← number? (session.field? "updatedAt")
  let expiresAt ← number? (session.field? "expiresAt")
  return { id, startedAt, updatedAt, expiresAt }

def validMirrorLease (value : Option Json) : Option MirrorLease := do
  let mirror ← value
  let remoteHost ← Json.text? (mirror.field? "remoteHost")
  guard (remoteHost ≠ [])
  let observedAt ← number? (mirror.field? "observedAt")
  let sourceObservedAt ← number? (mirror.field? "sourceObservedAt")
  let sourceUpdatedAt ← number? (mirror.field? "sourceUpdatedAt")
  let sourceExpiresAt ← number? (mirror.field? "sourceExpiresAt")
  return { remoteHost, observedAt, sourceObservedAt, sourceUpdatedAt, sourceExpiresAt }

def optionalNumber : Option Json → Option (Option JsNumber)
  | none => some none
  | some (.number number) => some (some number)
  | some _ => none

def optionalToken : Option Json → Option (Option JsString)
  | none => some none
  | some (.string text) => if text = [] then none else some (some text)
  | some _ => none

def leaseOf (text name : JsString) : Option HostLease := do
  let value ← Json.parse text
  guard (isFormatOne value = true)
  let id ← Json.text? (value.field? "id")
  guard (fileName id = name)
  let rootId ← Json.text? (value.field? "rootId")
  let identityId ← Json.text? (value.field? "identityId")
  let updatedAt ← number? (value.field? "updatedAt")
  let expiresAt ← number? (value.field? "expiresAt")
  let startedAt ← optionalNumber (value.field? "startedAt")
  let incarnationToken ← optionalToken (value.field? "incarnationToken")
  let _reloadUntil ← optionalNumber (value.field? "reloadUntil")
  return {
    id, rootId, identityId, updatedAt, expiresAt, startedAt, incarnationToken
    session := validSession (value.field? "session")
    mirror := validMirrorLease (value.field? "mirror")
  }

def orNull (property : Option Json) : Json :=
  property.getD .null

def absent : JsString := lit "absent"

def record? : Option Json → Option Json.Members
  | some (.object members) => some members
  | _ => none

def reloadFacts (value : Json.Members) : Json :=
  if Json.text? (value.get? "status") = some (lit "reloading") then
    .array [.string (lit "reloading"), orNull (value.get? "reloadUntil")]
  else .null

def invalidFacts (entry : StateEntry) : JsString :=
  Json.stringify (.array [.string (lit "invalid"), orNull entry.value])

def participantFacts (entry : Option StateEntry) : JsString :=
  match entry with
  | none => absent
  | some entry =>
      match record? entry.value with
      | none => invalidFacts entry
      | some value =>
          Json.stringify (.array [
            .string entry.key, orNull (entry.updatedBy.field? "id"), orNull (value.get? "format"),
            orNull (value.get? "id"), orNull (value.get? "kind"), orNull (value.get? "rootId"),
            orNull (value.get? "ownerHostId"), orNull (value.get? "ownerIdentityId"),
            orNull (value.get? "remoteHost"), orNull (value.get? "residency"),
            orNull (value.get? "actorOwnershipToken"), reloadFacts value])

def hostFacts (entry : Option StateEntry) : JsString :=
  match entry with
  | none => absent
  | some entry =>
      match record? entry.value with
      | none => invalidFacts entry
      | some value =>
          let identity := (record? (value.get? "identity")).getD []
          Json.stringify (.array [
            .string entry.key, orNull (entry.updatedBy.field? "id"), orNull (value.get? "format"),
            orNull (value.get? "id"), orNull (value.get? "rootId"), orNull (identity.get? "id"),
            orNull (identity.get? "kind"), orNull (value.get? "incarnationToken"),
            orNull (value.get? "startedAt"), orNull (value.get? "remoteHost")])

def leaseFacts (lease : Option HostLease) : JsString :=
  match lease with
  | none => absent
  | some lease =>
      Json.stringify (.array [
        .string lease.id, .string lease.rootId, .string lease.identityId,
        orNull (lease.incarnationToken.map .string), orNull (lease.startedAt.map .number),
        orNull (lease.session.map fun session => .string session.id),
        orNull (lease.session.map fun session => .number session.startedAt)])

def closureFacts (entry : Option StateEntry) : JsString :=
  match entry with
  | none => absent
  | some entry =>
      Json.stringify (.array [orNull (entry.updatedBy.field? "id"), orNull entry.value])

def reloadDeadline (entry : Option StateEntry) : Option Time :=
  match record? (entry.bind (·.value)) with
  | none => none
  | some value =>
      if Json.text? (value.get? "status") = some (lit "reloading") then
        some (((number? (value.get? "reloadUntil")).map (·.value)).getD 0)
      else none

structure Liveness where
  updatedAt : Time
  expiresAt : Time

def effectiveLiveness (stored lease : Option Liveness) : Liveness :=
  let base := (stored <|> lease).getD { updatedAt := 0, expiresAt := 0 }
  let other := lease.getD base
  { updatedAt := max base.updatedAt other.updatedAt
    expiresAt := max base.expiresAt other.expiresAt }

def HostLease.liveness (lease : HostLease) : Liveness where
  updatedAt := lease.updatedAt.value
  expiresAt := lease.expiresAt.value

structure HostLeaseOwner where
  id : JsString
  rootId : JsString
  identityId : JsString
  incarnationToken : Option JsString
  startedAt : Option JsNumber
  updatedAt : Time
  expiresAt : Time
  remoteHost : Option JsString
  mirrorLease : Bool

def mirrorFreshMs : Time := 15000

def matchingHostLease (leases : JsString → Option HostLease) (host : HostLeaseOwner)
    : Option HostLease :=
  (leases host.id).filter fun lease =>
    decide (lease.rootId = host.rootId ∧ lease.identityId = host.identityId)
      && (match host.incarnationToken with
        | some token => decide (lease.incarnationToken = some token)
        | none =>
            match lease.startedAt, host.startedAt with
            | some started, some expected => decide (started.value = expected.value)
            | _, _ => true)

def ownMirror (lease : Option HostLease) (host : HostLeaseOwner) : Option (HostLease × MirrorLease) :=
  lease.bind fun lease => lease.mirror.bind fun mirror =>
    if host.remoteHost = some mirror.remoteHost ∧ mirror.remoteHost ≠ [] then some (lease, mirror)
    else none

def hostLiveness (leases : JsString → Option HostLease) (host : HostLeaseOwner) : Liveness :=
  let lease := matchingHostLease leases host
  match ownMirror lease host with
  | some (lease, mirror) =>
      { updatedAt := mirror.observedAt.value
        expiresAt :=
          if mirror.sourceObservedAt.value < mirror.sourceExpiresAt.value then
            min lease.expiresAt.value (mirror.observedAt.value + mirrorFreshMs)
          else mirror.observedAt.value - 1 }
  | none =>
      if host.remoteHost.any (fun remote => decide (remote ≠ [])) ∧ host.mirrorLease then
        { updatedAt := host.updatedAt, expiresAt := host.updatedAt - 1 }
      else
        effectiveLiveness (some { updatedAt := host.updatedAt, expiresAt := host.expiresAt })
          (lease.map (·.liveness))

def hostEntryLiveness (entry : StateEntry) (leases : JsString → Option HostLease) : Liveness :=
  let value := (record? entry.value).getD []
  let identity := (record? (value.get? "identity")).getD []
  let updatedAt := entry.updatedAt.value
  let expiresAt := ((number? (value.get? "expiresAt")).map (·.value)).getD updatedAt
  match Json.text? (value.get? "id") with
  | none => { updatedAt, expiresAt }
  | some id =>
      match Json.text? (value.get? "rootId"), Json.text? (identity.get? "id") with
      | some rootId, some identityId =>
          hostLiveness leases {
            id, rootId, identityId
            incarnationToken := Json.text? (value.get? "incarnationToken")
            startedAt := number? (value.get? "startedAt")
            updatedAt, expiresAt
            remoteHost := Json.text? (value.get? "remoteHost")
            mirrorLease := (number? (value.get? "mirrorLease")).any fun one =>
              decide (one.value = 1)
          }
      | _, _ =>
          effectiveLiveness (some { updatedAt, expiresAt }) ((leases id).map (·.liveness))

/-- When an owner's authority ends: with its shared record, or by its file lease alone. -/
def hostDeadline (id : JsString) (entry : Option StateEntry) (lease : Option HostLease)
    : Option Time :=
  match entry with
  | some entry =>
      some (hostEntryLiveness entry fun other => if other = id then lease else none).expiresAt
  | none => lease.map (·.expiresAt.value)

end PiFabric.Ownership
