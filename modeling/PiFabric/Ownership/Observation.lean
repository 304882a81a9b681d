import PiFabric.Foundation.JsMap
import PiFabric.Ownership.Facts

/-! One prepared observation of the ownership inputs of some actors, and its check. Each single read
of the observation has an instant of its own, between which anything may be written; the check reads
one state of the world.
-/

namespace PiFabric.Ownership

open JsString

/-- A file under its name: what `stat` tells of it, and its text. -/
structure FileVersion where
  stat : JsString
  text : JsString
  deriving DecidableEq

/-- The participant files by the hash of their key, the lease files by their name, and the shared
state with its stamp.
-/
structure World where
  participants : JsString → Option FileVersion
  leases : JsString → Option FileVersion
  shared : JsString → Option StateEntry
  sharedStamp : JsString

/-- `stampOf`; a file that is not there is "absent". -/
def stampOf (file : Option FileVersion) : Option JsString :=
  file.map (·.stat)

namespace World

def participantFile (world : World) (id : JsString) : Option FileVersion :=
  world.participants (digest id)

def leaseFile (world : World) (id : JsString) : Option FileVersion :=
  world.leases (fileName id)

def readParticipant (world : World) (id : JsString) : Option StateEntry :=
  (world.participantFile id).bind fun file => entryOf file.text (digest id)

def readLease (world : World) (id : JsString) : Option HostLease :=
  (world.leaseFile id).bind fun file => leaseOf file.text (fileName id)

end World

/-- `StrictOwnershipValidators`; a validator that throws gives none. -/
structure StrictOwnershipValidators where
  participant : StateEntry → Option Bool
  host : StateEntry → Option Bool

/-- What an observation is made with: whether the shared state can be read, the validators of strict
mode and the clock at its start.
-/
structure ObservationOptions where
  openState : Bool
  strict : Option StrictOwnershipValidators
  observedAt : Time

/-- A participant as it was read; its stamp was taken at an instant and its file read at the next.
-/
structure ParticipantRecord where
  instant : Nat
  stamp : Option JsString
  facts : JsString
  shared : JsString
  owners : List JsString
  roots : List JsString
  deadline : Option Time
  arbitrated : Bool

/-- A host as it was read; its stamp was taken at an instant and its lease read at the next. -/
structure HostRecord where
  instant : Nat
  stamp : Option JsString
  facts : JsString
  shared : JsString
  deadline : Option Time

def validity (entry : Option StateEntry) (valid : Option (StateEntry → Option Bool)) : JsString :=
  match valid, entry with
  | some valid, some entry =>
      match valid entry with
      | some true => lit "|valid"
      | some false => lit "|invalid"
      | none => lit "|unknown"
  | _, _ => []

namespace ObservationOptions

variable (options : ObservationOptions)

def pFacts (entry : Option StateEntry) : JsString :=
  participantFacts entry ++ validity entry (options.strict.map (·.participant))

def hFacts (entry : Option StateEntry) : JsString :=
  hostFacts entry ++ validity entry (options.strict.map (·.host))

/-- A deadline that counts: one that has not passed, or any in strict mode. -/
def live (deadline : Option Time) : Option Time :=
  deadline.filter fun time => options.strict.isSome || decide (options.observedAt ≤ time)

def readShared (world : World) (key : JsString) : Option StateEntry :=
  if options.openState then world.shared key else none

end ObservationOptions

def earliest (deadlines : List (Option Time)) : Option Time :=
  (deadlines.filterMap id).min?

def ownerOf (entry : Option StateEntry) : Option JsString × Option JsString :=
  match record? (entry.bind (·.value)) with
  | none => (none, none)
  | some value => (Json.text? (value.get? "ownerHostId"), Json.text? (value.get? "rootId"))

def hostRecord (options : ObservationOptions) (id : JsString) (instant : Nat)
    (stamp : Option JsString) (lease : Option HostLease) (entry : Option StateEntry)
    : HostRecord where
  instant
  stamp
  facts := leaseFacts lease
  shared := options.hFacts entry
  deadline := options.live (hostDeadline id entry lease)

/-- The two records of a participant disagree, or the shared one is unknown. -/
def isArbitrated (options : ObservationOptions) (file shared : Option StateEntry) : Bool :=
  options.strict.isSome && file.isSome
    && (!options.openState
      || (shared.isSome
        && (decide (options.pFacts file ≠ options.pFacts shared)
          || decide (lit "|unknown" <:+ options.pFacts file))))

def participantRecord (options : ObservationOptions) (instant : Nat) (stamp : Option JsString)
    (file shared : Option StateEntry)
    : ParticipantRecord where
  instant
  stamp
  facts := options.pFacts file
  shared := options.pFacts shared
  owners := ([(ownerOf file).1, (ownerOf shared).1].filterMap id).eraseDups
  roots := ([(ownerOf file).2, (ownerOf shared).2].filterMap id).eraseDups
  deadline := earliest [options.live (reloadDeadline file), options.live (reloadDeadline shared)]
  arbitrated := isArbitrated options file shared

structure Observation where
  stateStamp : JsString
  participants : JsMap JsString ParticipantRecord
  hosts : JsMap JsString HostRecord
  closures : JsMap JsString JsString

/-- The observation so far, and the instant of its next read. -/
structure Progress where
  observation : Observation
  instant : Nat

section Observing

variable (options : ObservationOptions) (world : Nat → World)

def observeHost (progress : Progress) (id : JsString) : Progress :=
  let observation := progress.observation
  if observation.hosts.has id then progress
  else
    let instant := progress.instant
    let stamp := stampOf ((world instant).leaseFile id)
    let lease := (world (instant + 1)).readLease id
    let entry := options.readShared (world (instant + 2)) (hostPrefix ++ digest id)
    { observation := { observation with
        hosts := observation.hosts.set id (hostRecord options id instant stamp lease entry) }
      instant := instant + 3 }

def observeRoot (progress : Progress) (root : JsString) : Progress :=
  let observation := progress.observation
  if observation.closures.has root then progress
  else
    let entry := options.readShared (world progress.instant) (lineageClosurePrefix ++ digest root)
    { observation := { observation with
        closures := observation.closures.set root (closureFacts entry) }
      instant := progress.instant + 1 }

def observeActor (progress : Progress) (id : JsString) : Progress :=
  let observation := progress.observation
  if observation.participants.has id then progress
  else
    let instant := progress.instant
    let stamp := stampOf ((world instant).participantFile id)
    let file := (world (instant + 1)).readParticipant id
    let shared := options.readShared (world (instant + 2)) (participantPrefix ++ digest id)
    let record := participantRecord options instant stamp file shared
    let read : Progress := {
      observation := { observation with participants := observation.participants.set id record }
      instant := instant + 3
    }
    record.roots.foldl (observeRoot options world) (record.owners.foldl (observeHost options world) read)

def observeActorOwnership (actorIds : List JsString) : Progress :=
  actorIds.foldl (observeActor options world) {
    observation := {
      stateStamp := (world 0).sharedStamp, participants := .empty, hosts := .empty
      closures := .empty
    }
    instant := 1
  }

end Observing

namespace Observation

variable (options : ObservationOptions) (observation : Observation)

def scopedDeadline (records : List ParticipantRecord) : Option Time :=
  earliest (records.map (·.deadline)
    ++ (records.flatMap (·.owners)).map fun id => (observation.hosts.get? id).bind (·.deadline))

def participantKept (world : World) (id : JsString) (record : ParticipantRecord) : Bool :=
  decide (stampOf (world.participantFile id) = record.stamp)
    || decide (options.pFacts (world.readParticipant id) = record.facts)

def leaseMoved (world : World) (id : JsString) (host : HostRecord) : Bool :=
  decide (stampOf (world.leaseFile id) ≠ host.stamp)

def leaseKept (world : World) (id : JsString) (host : HostRecord) : Bool :=
  !leaseMoved world id host || decide (leaseFacts (world.readLease id) = host.facts)

def hostShared (world : World) (id : JsString) (host : HostRecord) : Bool :=
  decide (options.hFacts (world.shared (hostPrefix ++ digest id)) = host.shared)

/-- A deadline that the clock has not passed and that is no earlier than the observed one. -/
def deadlineKept (now : Time) (observed deadline : Option Time) : Bool :=
  match deadline with
  | none => false
  | some deadline =>
      decide (now ≤ deadline) && observed.any fun observed => decide (observed ≤ deadline)

def participantShared (world : World) (id : JsString) (record : ParticipantRecord) : Bool :=
  decide (options.pFacts (world.shared (participantPrefix ++ digest id)) = record.shared)

def closureKept (world : World) (root : JsString) : Bool :=
  decide (observation.closures.get? root
    = some (closureFacts (world.shared (lineageClosurePrefix ++ digest root))))

def records (scope : List JsString) : List (JsString × ParticipantRecord) :=
  scope.filterMap fun id => (observation.participants.get? id).map fun record => (id, record)

def checkHost (id : JsString) (check : HostRecord → Bool) : Bool :=
  (observation.hosts.get? id).any check

def sharedKept (world : World) (records : List (JsString × ParticipantRecord))
    (roots : List JsString)
    : Bool :=
  (records.all fun item => participantShared options world item.1 item.2)
    && roots.all fun root => observation.closureKept world root

def strictKept (world : World) (later : JsString → Time)
    (records : List (JsString × ParticipantRecord)) (owners roots : List JsString)
    : Bool :=
  let sharedMoved := decide (world.sharedStamp ≠ observation.stateStamp)
  let moved (id : JsString) : Bool := observation.checkHost id (leaseMoved world id)
  if (sharedMoved || owners.any moved) && !options.openState then false
  else if !sharedMoved && !owners.any moved then true
  else
    ((owners.filter fun id => sharedMoved || moved id).all fun id =>
      observation.checkHost id fun host =>
        hostShared options world id host
          && deadlineKept (later id) host.deadline
            (hostDeadline id (world.shared (hostPrefix ++ digest id)) (world.readLease id)))
      && (!sharedMoved || observation.sharedKept options world records roots)

/-- The check without strict mode: where the shared state moved, everything that is shared. -/
def plainKept (world : World) (records : List (JsString × ParticipantRecord))
    (owners roots : List JsString)
    : Bool :=
  decide (world.sharedStamp = observation.stateStamp) || !options.openState
    || observation.sharedKept options world records roots
      && owners.all fun id => observation.checkHost id (hostShared options world id)

/-- `unchanged` of a scope. The clock is read once, and once more for each owner whose deadline is
compared.
-/
def unchanged (world : World) (now : Time) (later : JsString → Time) (scope : List JsString) : Bool :=
  if scope.any fun id => (observation.participants.get? id).isNone then false
  else
    let records := observation.records scope
    let owners := (records.flatMap (·.2.owners)).eraseDups
    let roots := (records.flatMap (·.2.roots)).eraseDups
    if (observation.scopedDeadline (records.map (·.2))).any fun deadline => deadline ≤ now then false
    else if records.any (·.2.arbitrated) then false
    else if !records.all fun item => participantKept options world item.1 item.2 then false
    else if !owners.all fun id => observation.checkHost id (leaseKept world id) then false
    else if options.strict.isSome then
      observation.strictKept options world later records owners roots
    else observation.plainKept options world records owners roots

end Observation

end PiFabric.Ownership
