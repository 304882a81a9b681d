import PiFabric.Foundation.JsString

/-! Host lease files: the lease that a file holds, and the sections that read and write it under
the custody of its host. A file is what its readers make of it.
-/

namespace PiFabric.Leases

/-- A finite number of milliseconds. -/
abbrev Time := ℚ

/-- `session`: the lease of a main session, of its own term. -/
structure Session where
  id : JsString
  startedAt : Time
  updatedAt : Time
  expiresAt : Time
  deriving DecidableEq

/-- `FabricHostLease`. `carried` is the text of the fields that fencing only carries along: bridge
history, mirror and writer.
-/
structure HostLease where
  id : JsString
  rootId : JsString
  identityId : JsString
  updatedAt : Time
  expiresAt : Time
  startedAt : Option Time
  incarnationToken : Option JsString
  reloadUntil : Option Time
  session : Option Session
  carried : JsString
  deriving DecidableEq

inductive Content where
  | unreadable
  | lease (held : HostLease)
  deriving DecidableEq

abbrev File := Option Content

inductive LeaseError where
  | missingToken
  | invalid
  | contested
  | legacyBusy (expiresAt : Time)
  | superseded
  deriving DecidableEq

/-- `hostLeasePredecessor`. Bytes that are no lease never authorize a claim. -/
def hostLeasePredecessor : File → Except LeaseError (Option HostLease)
  | none => .ok none
  | some .unreadable => .error .invalid
  | some (.lease held) => .ok (some held)

def readHostLeaseCurrent : File → Option HostLease
  | some (.lease held) => some held
  | _ => none

def sameHostLeaseOwner (left right : HostLease) : Bool :=
  left.id = right.id && left.rootId = right.rootId && left.identityId = right.identityId
    && left.incarnationToken.isSome && left.incarnationToken = right.incarnationToken

def samePredecessor (left right : Option HostLease) : Bool :=
  match left, right with
  | none, none => true
  | some left, some right =>
      if left.incarnationToken.isSome || right.incarnationToken.isSome then
        sameHostLeaseOwner left right
      else
        left.id = right.id && left.rootId = right.rootId && left.identityId = right.identityId
          && left.startedAt = right.startedAt
  | _, _ => false

def assertHostLeaseOwner (file : File) (owner : HostLease) : Except LeaseError Unit :=
  match hostLeasePredecessor file with
  | .error error => .error error
  | .ok none => .error .superseded
  | .ok (some held) =>
      if held.incarnationToken = none then .error .contested
      else if sameHostLeaseOwner held owner then .ok ()
      else .error .superseded

structure CommitOptions where
  claim : Bool
  expected : Option HostLease

def Session.merged (session current : Session) : Session where
  id := session.id
  startedAt := session.startedAt
  updatedAt := max session.updatedAt current.updatedAt
  expiresAt := max session.expiresAt current.expiresAt

def mergedSession (session current : Option Session) : Option Session :=
  match session, current with
  | some session, some current =>
      if current.id = session.id ∧ current.startedAt = session.startedAt then
        some (session.merged current)
      else some session
  | session, _ => session

/-- An ordinary renewal keeps the later deadlines; one with a reload deadline is written as it is.
-/
def HostLease.merged (lease current : HostLease) : HostLease :=
  if lease.reloadUntil = none then
    {
      lease with
      updatedAt := max lease.updatedAt current.updatedAt
      expiresAt := max lease.expiresAt current.expiresAt
      session := mergedSession lease.session current.session
    }
  else lease

/-- What a commit does where a lease of a token, or none, is under the name. -/
def replaceLease (lease : HostLease) (options : CommitOptions) (current : Option HostLease)
    : Except LeaseError HostLease :=
  match current with
  | some held =>
      if sameHostLeaseOwner held lease then .ok (lease.merged held)
      else if options.claim ∧ samePredecessor current options.expected then .ok lease
      else .error .superseded
  | none =>
      if options.claim ∧ samePredecessor current options.expected then .ok lease
      else .error .superseded

def commitHostLeaseUnderCustody (now : Time) (lease : HostLease) (options : CommitOptions)
    (file : File) : Except LeaseError HostLease :=
  if lease.incarnationToken.isSome then
    match hostLeasePredecessor file with
    | .error error => .error error
    | .ok none => replaceLease lease options none
    | .ok (some held) =>
        if held.incarnationToken = none then
          if !options.claim then .error .contested
          else if now < held.expiresAt then .error (.legacyBusy held.expiresAt)
          else replaceLease lease options (some held)
        else replaceLease lease options (some held)
  else .error .missingToken

def removeOwnedHostLease (owner : HostLease) (file : File) : Except LeaseError Bool :=
  match readHostLeaseCurrent file with
  | none => .ok false
  | some held =>
      if held.incarnationToken = none then .error .contested
      else .ok (sameHostLeaseOwner held owner)

def writeHostLeaseVersionIf (expected : Option HostLease) (replacement : HostLease) (file : File)
    : Bool :=
  (expected.all fun expected => expected.id = replacement.id)
    && readHostLeaseCurrent file = expected && (expected.isSome || file = none)

/-- A call of `removeHostLeaseIf`: what it accepts, and whether its `beforeRemove`, if any,
succeeds.
-/
structure Remover where
  owned : HostLease → Bool
  beforeRemove : Option Bool

def Remover.accepts (remover : Remover) : Content → Bool
  | .unreadable => false
  | .lease held => remover.owned held

/-- What a removal leaves: the file, the copy it keeps aside, and whether it removed a lease. -/
structure Settled where
  file : File
  aside : Option Content
  removed : Bool

/-- The end of `removeHostLeaseIf`, for the bytes it moved aside. A link that fails for another
reason than a file under the name keeps them.
-/
def Remover.settle (remover : Remover) (linkFails : Bool) (aside : Content) (file : File)
    : Settled :=
  if remover.accepts aside && remover.beforeRemove ≠ some false then
    { file, aside := none, removed := true }
  else if linkFails then { file, aside := some aside, removed := false }
  else
    match file with
    | none => { file := some aside, aside := none, removed := false }
    | some _ =>
        {
          file
          aside := if remover.beforeRemove = none then none else some aside
          removed := false
        }

/-- `removeHostLeaseIf` under custody, where nothing comes between its steps. -/
def Remover.removeUnderCustody (remover : Remover) (linkFails : Bool) (file : File) : Settled :=
  match file with
  | some (.lease held) =>
      if remover.owned held then remover.settle linkFails (.lease held) none
      else { file, aside := none, removed := false }
  | _ => { file, aside := none, removed := false }

end PiFabric.Leases
