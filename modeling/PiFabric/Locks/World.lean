import PiFabric.Foundation.Directories
import PiFabric.Foundation.Interleaving
import PiFabric.Foundation.JsString

/-! The owner record of a lock, and the evidence on which it is judged to be of a dead process.
-/

namespace PiFabric.Locks

inductive Platform
  | linux | win32 | darwin | other
  deriving DecidableEq

inductive LockProtocol
  | one | two | three
  deriving DecidableEq

structure CustodyOptions where
  hostQualified : Bool := false
  lockProtocol : LockProtocol := .one

structure Author where
  token : String
  pid : Nat
  now : Nat
  started : Option String
  machineSlot : Option String
  bootId : Option String
  namespace_ : Option String

def custodyRecord (options : CustodyOptions) (author : Author) : String :=
  let namespace_ := author.namespace_.getD ""
  let nsLine := if options.lockProtocol = .three then s!"{namespace_}\n" else ""
  let start := s!"{author.token}\n{author.pid}\n{author.now}\n"
  let started := author.started.getD ""
  let machineSlot := author.machineSlot.getD ""
  let bootId := author.bootId.getD ""
  if options.hostQualified then s!"{start}{started}\n{machineSlot}\n{bootId}\n{nsLine}"
  else if options.lockProtocol = .three then s!"{start}{started}\n{nsLine}"
  else match author.started with
  | some started => s!"{start}{started}\n"
  | none => start

def isDigits (text : List Char) : Bool :=
  !text.isEmpty && text.all Char.isDigit

def isHexDigit (c : Char) : Bool :=
  c.isDigit || ('a' ≤ c && c ≤ 'f') || ('A' ≤ c && c ≤ 'F')

def validBootId (value : String) : Bool :=
  let groups := value.splitOn "-"
  groups.map String.length == [8, 4, 4, 4, 12] && groups.all fun group => group.all isHexDigit

def weekdays : List String :=
  ["Mon", "Tue", "Wed", "Thu", "Fri", "Sat", "Sun"]

def months : List String :=
  ["Jan", "Feb", "Mar", "Apr", "May", "Jun", "Jul", "Aug", "Sep", "Oct", "Nov", "Dec"]

/-- The start time that `ps` prints, such as Mon Jan  5 01:02:03 2026. -/
def isDarwinStart (value : String) : Bool :=
  let dayOk (day : List Char) := isDigits day && day.length ≤ 2
  let restOk (clock year : String) :=
    (clock.splitOn ":").map String.length == [2, 2, 2]
      && (clock.splitOn ":").all (fun part => isDigits part.toList)
      && year.length == 4 && isDigits year.toList
  match value.splitOn " " with
  | [weekday, month, day, clock, year] | [weekday, month, "", day, clock, year] =>
      weekdays.contains weekday && months.contains month && dayOk day.toList && restOk clock year
  | _ => false

/-- Only identities of this platform's native reader are comparable. -/
def validProcessIncarnation (platform : Platform) (value : String) : Bool :=
  match platform with
  | .linux => isDigits value.toList
  | .win32 => value.startsWith "win32:" && isDigits (value.toList.drop 6)
  | .darwin => value.startsWith "darwin:" && isDarwinStart (String.ofList (value.toList.drop 7))
  | .other => false

structure PhysicalHostIdentity where
  machineId : String
  bootId : String

inductive PidNamespaceVerdict
  | pid | foreign | unproven
  deriving DecidableEq

/-- What a recoverer reads about itself and about the process that a record names. -/
structure Evidence where
  physical : Option PhysicalHostIdentity
  machineId : Option String
  hostLabel : Option String
  /-- Of the namespace that the record names. -/
  verdict : PidNamespaceVerdict
  /-- The owner file cannot be read as a file, or is younger than the stale bound. -/
  fresh : Bool
  /-- No ESRCH for the pid. -/
  alive : Bool
  /-- The incarnation of the process that has the pid now. -/
  actual : Option String
  /-- The root is still the one the namespace was proven for. -/
  unchanged : Bool

structure StaleLockNote where
  verdict : PidNamespaceVerdict
  namespace_ : String
  token : String

inductive Judgement
  | kept
  | blocked (note : StaleLockNote)
  | dead (namespace_ token : String)

def ownerFields (owner : String) : List String :=
  owner.splitOn "\n"

section
variable (number : String → Option Rat)

def safePid (pidText : Option String) : Option Nat :=
  match pidText.bind number with
  | some value => if value.den = 1 ∧ 0 < value.num ∧ value.num < 2 ^ 53 then some value.num.toNat
      else none
  | none => none

def namesNoPid (owner : Option String) : Bool :=
  let pidText := (owner.map ownerFields).getD [] |>.drop 1 |>.head?
  pidText.all (fun text => (JsString.trim (JsString.lit text)).isEmpty)
    || (safePid number pidText).isNone

def Evidence.machine (evidence : Evidence) : Option String :=
  (evidence.physical.map PhysicalHostIdentity.machineId).or evidence.machineId

def Evidence.label (evidence : Evidence) (options : CustodyOptions) : Option String :=
  if options.hostQualified && evidence.machine.isNone then evidence.hostLabel else none

/-- The record is of this machine, or of this host where there is no machine id. -/
def Evidence.local (evidence : Evidence) (options : CustodyOptions) (fields : List String)
    : Bool :=
  (fields.length == 7 || fields.length == 8)
    && match evidence.machine with
      | some machineId => fields[4]? == some machineId
      | none => (evidence.label options).isSome && fields[4]? == evidence.label options

def Evidence.bootKnown (evidence : Evidence) (options : CustodyOptions) (fields : List String)
    : Bool :=
  options.hostQualified && evidence.physical.isSome && fields[5]?.any validBootId

def Evidence.previousBoot (evidence : Evidence) (options : CustodyOptions)
    (fields : List String) : Bool :=
  evidence.bootKnown options fields
    && fields[5]? != evidence.physical.map PhysicalHostIdentity.bootId
    && options.lockProtocol != .three

def complete (options : CustodyOptions) (fields : List String) : Bool :=
  fields[0]?.any (fun token => !token.isEmpty) && (safePid number fields[1]?).isSome
    && (fields[2]?.bind number).isSome
    && if options.hostQualified then fields.length == 7 || fields.length == 8
      else fields.length == 4 || fields.length == 5 || fields.length == 6

def recordNamespace (options : CustodyOptions) (fields : List String) : Option String :=
  if options.hostQualified then if fields.length = 8 then fields[6]? else none
  else if fields.length = 6 then fields[4]? else none

/-- Pid evidence counts only in the namespace that the record names, if it must name one. -/
def Evidence.namespaceVerdict (evidence : Evidence) (options : CustodyOptions)
    (fields : List String) : PidNamespaceVerdict :=
  match recordNamespace options fields with
  | some _ => evidence.verdict
  | none => if options.lockProtocol = .three then .unproven else .pid

def Evidence.provesDead (evidence : Evidence) (platform : Platform) (options : CustodyOptions)
    (fields : List String) : Bool :=
  let previousBoot := evidence.previousBoot options fields
  if options.hostQualified && (evidence.label options).isNone
      && !evidence.bootKnown options fields && !previousBoot then
    !evidence.fresh && !evidence.alive
  else if !previousBoot && evidence.alive then
    match fields[3]?, evidence.actual with
    | some recorded, some actual =>
        validProcessIncarnation platform recorded && actual != recorded
    | _, _ => false
  else true

def judge (platform : Platform) (options : CustodyOptions) (owner : String)
    (evidence : Evidence) : Judgement :=
  let fields := ownerFields owner
  if !owner.endsWith "\n" then .kept
  else if options.hostQualified && !evidence.local options fields then .kept
  else if !complete number options fields then .kept
  else
    let namespace_ := (recordNamespace options fields).getD ""
    let token := (fields[0]?).getD ""
    match evidence.namespaceVerdict options fields with
    | .pid => if evidence.provesDead platform options fields then .dead namespace_ token else .kept
    | verdict => .blocked ⟨verdict, namespace_, token⟩

end

/-- Evidence about a record is truthful: only a process that is gone has no pid, another
incarnation at its pid, or another boot on its machine.
-/
structure Evidence.Truthful (evidence : Evidence) (owner : String) (gone : Prop) : Prop where
  alive : evidence.alive = false → gone
  actual : ∀ {recorded actual}, (ownerFields owner)[3]? = some recorded →
    evidence.actual = some actual → actual ≠ recorded → gone
  boot : ∀ {identity}, evidence.physical = some identity →
    (ownerFields owner)[4]? = some identity.machineId →
    (ownerFields owner)[5]?.any validBootId = true →
    (ownerFields owner)[5]? ≠ some identity.bootId → gone

variable {number : String → Option Rat} {platform : Platform} {options : CustodyOptions}
  {owner : String} {evidence : Evidence} {gone : Prop}

theorem Evidence.Truthful.previousBoot (h : evidence.Truthful owner gone)
    (qualified : options.hostQualified = true → evidence.local options (ownerFields owner) = true)
    (previous : evidence.previousBoot options (ownerFields owner) = true)
    : gone := by
  simp only [Evidence.previousBoot, Evidence.bootKnown, Bool.and_eq_true, bne_iff_ne,
    Option.isSome_iff_exists] at previous
  obtain ⟨⟨⟨⟨hostQualified, identity, known⟩, valid⟩, other⟩, -⟩ := previous
  have here := qualified hostQualified
  simp only [Evidence.local, Evidence.machine, known, Option.map_some, Option.some_or,
    Bool.and_eq_true, beq_iff_eq] at here
  exact h.boot known here.2 valid (by simpa [known] using other)

theorem Evidence.Truthful.of_provesDead (h : evidence.Truthful owner gone)
    (qualified : options.hostQualified = true → evidence.local options (ownerFields owner) = true)
    (proves : evidence.provesDead platform options (ownerFields owner) = true)
    : gone := by
  simp only [Evidence.provesDead] at proves
  split at proves
  · simp only [Bool.and_eq_true, Bool.not_eq_true'] at proves
    exact h.alive proves.2
  · split at proves
    · split at proves
      · next recorded actual atThree found =>
          simp only [Bool.and_eq_true, bne_iff_ne] at proves
          exact h.actual atThree found proves.2
      · cases proves
    · next settled =>
        cases alive : evidence.alive with
        | false => exact h.alive alive
        | true => exact h.previousBoot qualified (by simpa [alive] using settled)

theorem Evidence.Truthful.of_judge (h : evidence.Truthful owner gone)
    {namespace_ token : String}
    (judged : judge number platform options owner evidence = .dead namespace_ token)
    : gone := by
  simp only [judge] at judged
  split at judged
  · cases judged
  · split at judged
    · cases judged
    · next here =>
        split at judged
        · cases judged
        · split at judged
          · split at judged
            · next proves =>
                refine h.of_provesDead (fun hostQualified => ?_) proves
                simpa [hostQualified] using here
            · cases judged
          · cases judged

end PiFabric.Locks

/-! The file system that locks are directories of, and the parties at one lock.
A process may die at any point, and then makes no more calls. It may also lapse: others then take
its lock, although it still runs.
-/

namespace PiFabric.Locks

open Directories (Errno Fault)
open Interleaving (Prog)

inductive Name (ι : Type)
  | lock
  | staging (self : ι) (attempt : Nat)
  /-- The fence of a directory and the record that was found in it. -/
  | dead (inode : Nat) (owner : Option String)
  | released (pathToken : Nat)
  | graveyard (self : ι)
  deriving DecidableEq

inductive Status
  | live | lapsed | dead
  deriving DecidableEq

structure System (ι P : Type) where
  record : ι → String
  process : ι → P
  pathToken : ι → Nat
  /-- Others may take the locks of a process that still runs. -/
  lapses : P → Bool

structure World (ι P : Type) where
  tree : Directories.Tree (Name ι) String
  /-- The last record of a directory, also once it is unlinked. -/
  latest : Nat → Option String
  status : P → Status
  /-- The holders between their acquire and their release. -/
  inside : ι → Bool
  /-- The directories and records that were judged dead. -/
  judged : List (Nat × String)

/-- Nobody has come to the lock yet. -/
def World.start (ι P : Type) : World ι P :=
  ⟨.empty, fun _ => none, fun _ => .live, fun _ => false, []⟩

inductive Thread (ι P : Type)
  | holder (self : ι)
  | recoverer (number : Nat)
  | fate (process : P)
  deriving DecidableEq

inductive Call (ι P : Type)
  | fs (call : Directories.Call (Name ι) String)
  | enter
  | leave
  /-- Reads about the process that a record names. -/
  | examine (owner : String)
  | judged (inode : Nat) (owner : String)
  /-- Renames the lock of a holder that is not live, or one that has no record, to its fence. -/
  | recover (owner : Option ι)
  | lapse (process : P)
  | exit (process : P)

def Reply {ι P : Type} : Call ι P → Type
  | .fs call => Directories.Reply call
  | .examine _ => Evidence
  | .recover _ => Except Errno Unit
  | .enter | .leave | .judged _ _ | .lapse _ | .exit _ => Unit

variable {ι P : Type} [DecidableEq ι] [DecidableEq P] (system : System ι P)

namespace World
variable (w : World ι P)

def left (tree : Directories.Tree (Name ι) String) : World ι P :=
  { w with tree := tree, latest := fun inode => (tree.owner inode).or (w.latest inode) }

def mayCall : Thread ι P → Prop
  | .holder self => w.status (system.process self) ≠ .dead
  | .recoverer _ | .fate _ => True

instance (thread : Thread ι P) : Decidable (w.mayCall system thread) := by
  cases thread <;> unfold mayCall <;> infer_instance

/-- What a holder is known by at the lock: its record, if any. -/
def ownedBy (owner : Option ι) (inode : Nat) : Prop :=
  w.tree.owner inode = owner.map system.record
    ∧ ∀ self ∈ owner, w.status (system.process self) ≠ .live

instance (owner : Option ι) (inode : Nat) : Decidable (w.ownedBy system owner inode) := by
  unfold ownedBy
  infer_instance

/-- What a call replies and leaves, where file system calls may also fail. -/
def perform (self : Thread ι P) : (call : Call ι P) → Option Fault → Option (Reply call × World ι P)
  | .fs call, fault =>
      let (reply, tree) := w.tree.respond call fault
      some (reply, w.left tree)
  | .enter, _ =>
      match self with
      | .holder self => some ((), { w with inside := Function.update w.inside self true })
      | _ => none
  | .leave, _ =>
      match self with
      | .holder self => some ((), { w with inside := Function.update w.inside self false })
      | _ => none
  | .examine _, _ => none
  | .judged inode owner, _ => some ((), { w with judged := (inode, owner) :: w.judged })
  | .recover owner, fault =>
      match self, w.tree.names .lock with
      | .recoverer _, some inode =>
          if w.ownedBy system owner inode then
            let label := owner.map system.record
            let (reply, tree) := w.tree.respond (.rename .lock (.dead inode label)) fault
            let judged := label.toList.map fun record => (inode, record)
            some (reply, { w.left tree with judged := judged ++ w.judged })
          else some (.error .eexist, w)
      | .recoverer _, none => some (.error .enoent, w)
      | _, _ => none
  | .lapse process, _ =>
      if w.status process = .live ∧ system.lapses process then
        some ((), { w with status := Function.update w.status process .lapsed })
      else some ((), w)
  | .exit process, _ => some ((), { w with status := Function.update w.status process .dead })

end World

/-- Evidence about a record is truthful about whoever wrote it. -/
def Truthful (w : World ι P) (owner : String) (evidence : Evidence) : Prop :=
  ∀ self, system.record self = owner →
    evidence.Truthful owner (w.status (system.process self) = .dead)

inductive Performs (thread : Thread ι P) (w : World ι P)
    : (call : Call ι P) → Reply call → World ι P → Prop
  | call {call : Call ι P} {fault : Option Fault} {reply : Reply call} {w' : World ι P}
      (may : w.mayCall system thread)
      (performed : w.perform system thread call fault = some (reply, w'))
      : Performs thread w call reply w'
  | examine {owner : String} {evidence : Evidence} (may : w.mayCall system thread)
      (truthful : Truthful system w owner evidence)
      : Performs thread w (.examine owner) evidence w

/-- The calls in an order of their threads, and which of them fail. -/
def decideCall (thread : Thread ι P) (w : World ι P) (call : Call ι P) (fault : Option Fault)
    : Option (Reply call × World ι P) :=
  if w.mayCall system thread then w.perform system thread call fault else none

theorem performs_of_decideCall {thread : Thread ι P} {w w' : World ι P} {call : Call ι P}
    {fault : Option Fault} {reply : Reply call}
    (h : decideCall system thread w call fault = some (reply, w'))
    : Performs system thread w call reply w' := by
  unfold decideCall at h
  split at h
  · next may => exact .call may h
  · cases h

abbrev Proc (ι P α : Type) : Type :=
  Prog (Call ι P) Reply α

section
variable {ι P : Type}

def ask (call : Call ι P) : Proc ι P (Reply call) :=
  Prog.send call

def fs (call : Directories.Call (Name ι) String) : Proc ι P (Directories.Reply call) :=
  ask (.fs call)

abbrev lstat (name : Name ι) : Proc ι P (Except Errno Nat) :=
  fs (.lstat name)

abbrev opendir (name : Name ι) : Proc ι P (Except Errno Nat) :=
  fs (.opendir name)

abbrev fstat (inode : Nat) : Proc ι P (Except Errno Nat) :=
  fs (.fstat inode)

abbrev read (name : Name ι) : Proc ι P (Except Errno String) :=
  fs (.read name)

abbrev readAt (inode : Nat) : Proc ι P (Except Errno String) :=
  fs (.readAt inode)

def forced (reply : Except Errno Unit) : Except Errno Unit :=
  match reply with
  | .error .enoent => .ok ()
  | other => other

/-- Removes a directory with what is in it, if it is there. -/
def rmSync (name : Name ι) : Proc ι P (Except Errno Unit) := do
  match forced (← fs (.unlink name)) with
  | .ok () => return forced (← fs (.rmdir name))
  | .error error => return .error error

def readOwner : Proc ι P (Except Errno (Option String)) := do
  match ← read .lock with
  | .ok owner => return .ok (some owner)
  | .error .enoent => return .ok none
  | .error error => return .error error

end

end PiFabric.Locks
