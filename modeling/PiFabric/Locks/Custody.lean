import PiFabric.Locks.World

/-! The publication fence: a lock that is taken in one attempt, pinned by the descriptor of its
directory, and released through that descriptor.
-/

namespace PiFabric.Locks

open Directories (Errno)

variable {ι P : Type}

/-- Where the publication of an owner by rename failed. -/
inductive PublishFailure
  | unwritten (error : Errno)
  | present
  | unseen (error : Errno)
  | unpublished (error : Errno)

def publishOwner (self : ι) (attempt : Nat) (record : String)
    : Proc ι P (Except PublishFailure Unit) := do
  match ← fs (.create (.staging self attempt) record) with
  | .error error => return .error (.unwritten error)
  | .ok () =>
      match ← lstat .lock with
      | .ok _ => return .error .present
      | .error .enoent =>
          match ← fs (.rename (.staging self attempt) .lock) with
          | .ok () => return .ok ()
          | .error error => return .error (.unpublished error)
      | .error error => return .error (.unseen error)

/-- What an attempt makes of it: only a lock that is there, or appeared, is no error. -/
def attempted : Except PublishFailure Unit → Except Errno Bool
  | .ok () => .ok true
  | .error .present => .ok false
  | .error (.unpublished .enoent) => .error .enoent
  | .error (.unpublished .eio) => .error .eio
  | .error (.unpublished _) => .ok false
  | .error (.unwritten error) | .error (.unseen error) => .error error

def tryCustody (self : ι) (attempt : Nat) (record : String) : Proc ι P (Except Errno Bool) := do
  match ← fs (.mkdir (.staging self attempt)) with
  | .error error => return .error error
  | .ok () =>
      let published ← publishOwner self attempt record
      match ← rmSync (.staging self attempt) with
      | .error error => return .error error
      | .ok () => return attempted published

/-- One attempt with the directory first, then the owner record in whatever is at the name. -/
def tryMeshLock (record : String) : Proc ι P (Except Errno Bool) := do
  match ← fs (.mkdir .lock) with
  | .error .eexist => return .ok false
  | .error error => return .error error
  | .ok () =>
      match ← fs (.create .lock record) with
      | .ok () => return .ok true
      | .error .eexist => return .ok false
      | .error error =>
          let _ ← fs (.rmdir .lock)
          return .error error

inductive Pin
  | pinned (inode : Nat)
  /-- Descriptors cannot be traversed here. -/
  | unpinned
  | foreign

def pinFenceLock (platform : Platform) (procFd : Bool) (record : String) : Proc ι P Pin := do
  if platform ≠ .linux then return .unpinned
  match ← opendir .lock with
  | .error _ => return .foreign
  | .ok inode =>
      if procFd then
        match ← readAt inode with
        | .ok owner => return if owner = record then .pinned inode else .foreign
        | .error .enoent => return .foreign
        | .error _ => return .unpinned
      else return .unpinned

inductive FenceLockRelease
  | released
  | refused (cause : Option Errno)
  /-- The call that looks at the name threw. -/
  | threw (error : Errno)

/-- When the removal failed: a successor at the name, or in the same directory, proves that it is
released all the same.
-/
def releaseUnremoved (record : String) (ours : Nat) (cause : Errno)
    : Proc ι P FenceLockRelease := do
  match ← lstat .lock with
  | .error .enoent => return .released
  | .error _ => return .refused (some cause)
  | .ok inode =>
      if inode ≠ ours then return .released
      match ← read .lock with
      | .error _ => return .refused (some cause)
      | .ok owner => return if owner ≠ record then .released else .refused (some cause)

/-- After the owner record was unlinked: off its name, or removed from it, the directory is
released.
-/
def releaseAfterOwnerUnlink (record : String) (ours : Nat) : Proc ι P FenceLockRelease := do
  match ← lstat .lock with
  | .error .enoent => return .released
  | .error error => return .refused (some error)
  | .ok inode =>
      if inode ≠ ours then return .released
      match ← fs (.rmdir .lock) with
      | .ok () | .error .enoent => return .released
      | .error cause => releaseUnremoved record ours cause

/-- The last of what is checked first: the directory must still be at its name. -/
def releaseAtName (record : String) (pin ours : Nat) : Proc ι P FenceLockRelease := do
  match ← lstat .lock with
  | .error .enoent => return .refused none
  | .error error => return .threw error
  | .ok inode =>
      if inode ≠ ours then return .refused none
      match ← fs (.unlinkAt pin) with
      | .error cause => return .refused (some cause)
      | .ok () => releaseAfterOwnerUnlink record ours

def releaseOwned (record : String) (pin : Nat) : Proc ι P FenceLockRelease := do
  match ← fstat pin with
  | .error error => return .threw error
  | .ok ours => releaseAtName record pin ours

def releaseFenceLock (record : String) (pin : Nat) : Proc ι P FenceLockRelease := do
  match ← readAt pin with
  | .error cause => return .refused (some cause)
  | .ok owner =>
      if owner ≠ record then return .refused none
      releaseOwned record pin

/-- How the lock is taken: both wires are in use at one name. -/
inductive Wire
  | custody | mesh

inductive FenceOutcome
  | busy
  | threw (error : Errno)
  | unpinned
  | ended (pin : Nat) (release : FenceLockRelease)

def attemptFence (wire : Wire) (self : ι) (attempt : Nat) (record : String)
    : Proc ι P (Except Errno Bool) :=
  match wire with
  | .custody => tryCustody self attempt record
  | .mesh => tryMeshLock record

def holdPinned (record : String) (pin : Nat) : Proc ι P FenceOutcome := do
  ask .enter
  ask .leave
  return .ended pin (← releaseFenceLock record pin)

/-- Attempts until one is pinned or the time is up, the section, and the release. -/
def holdMeshFenceSync (wire : Wire) (procFd : Bool) (self : ι) (record : String)
    : Nat → Proc ι P FenceOutcome
  | 0 => return .busy
  | attempts + 1 => do
      match ← attemptFence wire self attempts record with
      | .error error => return .threw error
      | .ok false => holdMeshFenceSync wire procFd self record attempts
      | .ok true =>
          match ← pinFenceLock .linux procFd record with
          | .pinned pin => holdPinned record pin
          | .unpinned => return .unpinned
          | .foreign => holdMeshFenceSync wire procFd self record attempts

/-- What a recoverer does to the whole directory at the lock, where its holder is not live. -/
inductive Recovery (ι : Type)
  | rename (owner : Option ι)
  | rmdir

def recover : List (Recovery ι) → Proc ι P Unit
  | [] => return ()
  | .rename owner :: rest => do
      let _ ← ask (.recover owner)
      recover rest
  | .rmdir :: rest => do
      let _ ← fs (.rmdir .lock)
      recover rest

inductive Fate
  | lapses | exits

def befall (process : P) : List Fate → Proc ι P Unit
  | [] => return ()
  | .lapses :: rest => do
      ask (.lapse process)
      befall process rest
  | .exits :: rest => do
      ask (.exit process)
      befall process rest

end PiFabric.Locks

/-! The file custody lock: a complete owner that is published by rename, waiters that recover the
lock of a dead holder, and the release through the pin or, where there is none, by the name.
-/

namespace PiFabric.Locks

open Directories (Errno)
open Interleaving (Config Run)

variable {ι P : Type}

structure Custodian where
  platform : Platform
  /-- Descriptors can be traversed under /proc. -/
  procFd : Bool
  options : CustodyOptions
  number : String → Option Rat

inductive Refusal
  | timeout (holder : Option String)
  | foreignHolder (note : StaleLockNote)
  /-- No valid owner pid; it is not retried. -/
  | unrecoverable
  | notPinned
  | threw (error : Errno)
  /-- Still waiting. -/
  | waiting

/-- The lock is still the directory and the record that were judged. -/
def sameLock (inode : Nat) (owner : Option String) : Proc ι P Bool := do
  match ← lstat .lock with
  | .error _ => return false
  | .ok current =>
      if current ≠ inode then return false
      match ← readOwner with
      | .error _ => return false
      | .ok now => return decide (now = owner)

/-- What came of a recovery, with the holder that blocked it. -/
inductive Cleared
  | recovered
  | kept (note : Option StaleLockNote)
  | unrecoverable

def fenceLock (unchanged : Bool) (inode : Nat) (owner : String) (namespace_ token : String)
    : Proc ι P Cleared := do
  if !(← sameLock inode (some owner)) then return .kept none
  if !unchanged then return .kept (some ⟨.unproven, namespace_, token⟩)
  match ← fs (.rename .lock (.dead inode (some owner))) with
  | .ok () => return .recovered
  | .error _ => return .kept none

/-- Fences the lock if its record is of a dead process, on the evidence. -/
def judgeLock (custodian : Custodian) (inode : Nat) (owner : String) : Proc ι P Cleared := do
  let evidence : Evidence ← ask (.examine owner)
  match judge custodian.number custodian.platform custodian.options owner evidence with
  | .kept => return .kept none
  | .blocked note => return .kept (some note)
  | .dead namespace_ token =>
      let _ ← ask (.judged inode owner)
      fenceLock evidence.unchanged inode owner namespace_ token

def clearDeadCustodyLock (custodian : Custodian) : Proc ι P Cleared := do
  match ← lstat .lock with
  | .error _ => return .kept none
  | .ok inode =>
      match ← readOwner with
      | .error _ => return .kept none
      | .ok owner =>
          if custodian.options.hostQualified && namesNoPid custodian.number owner then
            return if ← sameLock inode owner then .unrecoverable else .kept none
          match owner with
          | none => return .kept none
          | some owner => judgeLock custodian inode owner

/-- Removes the judged directory only, in a graveyard that it is moved to first. -/
def verifiedRemove (self : ι) (judged : Nat) : Proc ι P Unit := do
  match ← lstat .lock with
  | .error _ => return ()
  | .ok found =>
      if found ≠ judged then return ()
      match ← fs (.rename .lock (.graveyard self)) with
      | .error _ => return ()
      | .ok () =>
          match ← lstat (.graveyard self) with
          | .error _ => return ()
          | .ok moved =>
              if moved ≠ judged then return ()
              let _ ← rmSync (.graveyard self)
              return ()

def detach (pathToken : Nat) : Proc ι P Unit := do
  match ← fs (.rename .lock (.released pathToken)) with
  | .error _ => return ()
  | .ok () =>
      let _ ← rmSync (.released pathToken)
      return ()

def releaseByName (platform : Platform) (self : ι) (record : String) (pathToken : Nat)
    : Proc ι P Unit := do
  match ← lstat .lock with
  | .error _ => return ()
  | .ok judged =>
      match ← readOwner with
      | .error _ => return ()
      | .ok owner =>
          if owner ≠ some record then return ()
          if platform = .linux then verifiedRemove self judged else detach pathToken

/-- The code of a failure, where a lock that is there is one too. -/
def PublishFailure.code : PublishFailure → Errno
  | .present => .eexist
  | .unwritten error | .unseen error | .unpublished error => error

/-- The lock was published: it is pinned, or released again and refused. -/
def pinCustody (custodian : Custodian) (self : ι) (record : String) (pathToken : Nat)
    : Proc ι P (Except Refusal Pin) := do
  match ← pinFenceLock custodian.platform custodian.procFd record with
  | .pinned pin => return .ok (.pinned pin)
  | .unpinned =>
      if custodian.platform = .linux then abandon
      else return .ok .unpinned
  | .foreign => abandon
where
  abandon : Proc ι P (Except Refusal Pin) := do
    match ← readOwner with
    | .error _ => return .error .notPinned
    | .ok owner =>
        if owner = some record then releaseByName custodian.platform self record pathToken
        return .error .notPinned

def timedOut (note : Option StaleLockNote) : Proc ι P Refusal := do
  let owner ← readOwner
  match note with
  | some note => return .foreignHolder note
  | none => return .timeout (match owner with
      | .ok owner => owner
      | .error _ => none)

/-- A dead holder's lock is recovered and tried for again at once; any other one after a while,
unless the time is up.
-/
def retryAcquire (custodian : Custodian) (attempts : Nat)
    (again : Proc ι P (Except Refusal Pin)) : Proc ι P (Except Refusal Pin) := do
  match ← clearDeadCustodyLock custodian with
  | .unrecoverable => return .error .unrecoverable
  | .recovered => again
  | .kept note => if attempts = 0 then return .error (← timedOut note) else again

def acquireMeshCustodyLock (custodian : Custodian) (self : ι) (record : String)
    (pathToken : Nat) : Nat → Proc ι P (Except Refusal Pin)
  | 0 => return .error .waiting
  | attempts + 1 => do
      match ← fs (.mkdir (.staging self attempts)) with
      | .error error => return .error (.threw error)
      | .ok () =>
          let published ← publishOwner self attempts record
          match ← rmSync (.staging self attempts) with
          | .error error => return .error (.threw error)
          | .ok () =>
              match published with
              | .ok () => pinCustody custodian self record pathToken
              | .error failure =>
                  match failure.code with
                  | .enoent => return .error (.threw .enoent)
                  | .eio => return .error (.threw .eio)
                  | .eexist | .enotempty | .eperm | .eacces =>
                      retryAcquire custodian attempts
                        (acquireMeshCustodyLock custodian self record pathToken attempts)

inductive CustodyOutcome
  | refused (refusal : Refusal)
  | pinned (release : FenceLockRelease)
  | byName

def releaseAgain (platform : Platform) (self : ι) (record : String) (pathToken : Nat)
    : Nat → Proc ι P Unit
  | 0 => return ()
  | times + 1 => do
      releaseByName platform self record pathToken
      releaseAgain platform self record pathToken times

def holdMeshCustody (custodian : Custodian) (self : ι) (record : String)
    (pathToken attempts releases : Nat) : Proc ι P CustodyOutcome := do
  match ← acquireMeshCustodyLock custodian self record pathToken attempts with
  | .error refusal => return .refused refusal
  | .ok pin =>
      ask .enter
      ask .leave
      match pin with
      | .pinned pin => return .pinned (← releaseFenceLock record pin)
      | .unpinned | .foreign =>
          releaseAgain platform_ self record pathToken releases
          return .byName
where
  platform_ := custodian.platform

/-- The acquisitions at one lock, of processes that may each die. -/
structure CustodyParties (ι P : Type) where
  custodian : ι → Custodian
  author : ι → Author
  process : ι → P
  pathToken : ι → Nat
  attempts : ι → Nat
  releases : ι → Nat

/-- The records that are published; a process that still runs is never taken for dead. -/
def CustodyParties.system (parties : CustodyParties ι P) : System ι P where
  record self := custodyRecord (parties.custodian self).options (parties.author self)
  process := parties.process
  pathToken := parties.pathToken
  lapses _ := false

abbrev CustodyConfig (ι P : Type) : Type :=
  Config (Thread ι P) (World ι P) (Call ι P) Reply (Option CustodyOutcome)

def CustodyParties.start (parties : CustodyParties ι P) : CustodyConfig ι P where
  world := .start ι P
  threads
    | .holder self => some <$> holdMeshCustody (parties.custodian self) self
        (parties.system.record self) (parties.pathToken self) (parties.attempts self)
        (parties.releases self)
    | .recoverer _ => pure none
    | .fate process => (fun _ => none) <$> befall process [.exits]

abbrev CustodyRun [DecidableEq ι] [DecidableEq P] (parties : CustodyParties ι P) : CustodyConfig ι P → CustodyConfig ι P → Prop :=
  Run (Performs parties.system)

end PiFabric.Locks
