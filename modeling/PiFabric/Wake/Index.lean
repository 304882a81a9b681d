import PiFabric.Foundation.JsMap
import PiFabric.Foundation.JsonObject
import PiFabric.Foundation.LineLog
import PiFabric.Foundation.Outcome

/-! The index of resident wakes: a journal of pending and acknowledged deliveries, one watermark a
root, and the overflow file of a root that found the journal full.
-/

namespace PiFabric.Wake

open JsString LineLog
open Json (Members)

def indexMaxBytes : Nat := 128 * 1024

def indexMaxRoots : Nat := 128

def recordMaxBytes : Nat := 1024

structure WakeDelivery where
  id : JsString
  sequence : Option Int
  deferredAt : Option Int
deriving DecidableEq

inductive Op where
  | pending
  | ack
deriving DecidableEq

structure Record where
  root : JsString
  delivery : WakeDelivery
  op : Op
deriving DecidableEq

def covers (ack pending : WakeDelivery) : Bool :=
  ack.id = pending.id
    || match ack.sequence, pending.sequence with
      | some acked, some waiting => waiting ≤ acked
      | _, _ => false

def Op.name : Op → JsString
  | pending => lit "pending"
  | ack => lit "ack"

def isSafe (value : Int) : Bool :=
  value.natAbs < 2 ^ 53

def slash : UInt16 := unitOf '/'

/-- The path without its last part, back to front. -/
def parentReversed (path : JsString) : JsString :=
  (path.reverse.dropWhile (· = slash)).dropWhile (· ≠ slash)

def dirname (path : JsString) : JsString :=
  match parentReversed path with
  | [] => if path.head? = some slash then [slash] else lit "."
  | [_] => [slash]
  | [_, _] => if path.head? = some slash then [slash, slash] else path.take 1
  | _ :: rest => rest.reverse

def basename (path : JsString) : JsString :=
  ((path.reverse.dropWhile (· = slash)).takeWhile (· ≠ slash)).reverse

def rootAt (directory name : JsString) : JsString :=
  directory ++ slash :: name

/-- A name that a directory may hold. -/
def IsName (name : JsString) : Prop :=
  name ≠ [] ∧ slash ∉ name

/-- The directory that holds the roots: an absolute path that does not end in a slash. -/
def IsDirectory (directory : JsString) : Prop :=
  2 ≤ directory.length ∧ directory.getLast? ≠ some slash

section
variable {directory name : JsString}

/-- A root's path from behind: its name, which has no slash, and then the directory. -/
theorem reverse_rootAt (named : IsName name)
    : (rootAt directory name).reverse.dropWhile (· = slash)
        = name.reverse ++ slash :: directory.reverse
      ∧ ∀ unit ∈ name.reverse, unit ≠ slash := by
  have stops : ∀ unit ∈ name.reverse, unit ≠ slash := by
    rintro unit member rfl
    exact named.2 (List.mem_reverse.mp member)
  have shape : (rootAt directory name).reverse = name.reverse ++ slash :: directory.reverse := by
    simp [rootAt]
  rw [shape]
  refine ⟨?_, stops⟩
  cases reversed : name.reverse with
  | nil => exact absurd (List.reverse_eq_nil_iff.mp reversed) named.1
  | cons first rest =>
      have other : first ≠ slash := stops first (by simp [reversed])
      simp [other]

theorem parentReversed_rootAt (named : IsName name)
    : parentReversed (rootAt directory name) = slash :: directory.reverse := by
  obtain ⟨kept, stops⟩ := @reverse_rootAt directory name named
  rw [parentReversed, kept, List.dropWhile_append_of_pos (by simpa using stops)]
  simp

theorem dirname_rootAt (held : IsDirectory directory) (named : IsName name)
    : dirname (rootAt directory name) = directory := by
  unfold dirname
  rw [parentReversed_rootAt named]
  have long := held.1
  rw [← List.length_reverse] at long
  match reversed : directory.reverse with
  | [] => simp [reversed] at long
  | [_] => simp [reversed] at long
  | _ :: _ :: _ => simp [← reversed]

theorem basename_rootAt (named : IsName name) : basename (rootAt directory name) = name := by
  obtain ⟨kept, stops⟩ := @reverse_rootAt directory name named
  rw [basename, kept, List.takeWhile_append_of_pos (by simpa using stops)]
  simp

end

def WakeDelivery.json (delivery : WakeDelivery) : Json :=
  .object ([(lit "id", .string delivery.id)]
    ++ (delivery.sequence.map fun value => (lit "sequence", Json.number (.int value))).toList
    ++ (delivery.deferredAt.map fun value => (lit "deferredAt", Json.number (.int value))).toList)

def Record.json (record : Record) : Json :=
  .object [(lit "format", .number (.int 1)), (lit "op", .string record.op.name),
    (lit "root", .string record.root), (lit "delivery", record.delivery.json)]

def Record.bytes (record : Record) : Bytes :=
  Json.bytes record.json

inductive Failure where
  | unsafe_
  | invalidJson
  | invalidRecord
  | rootBound
  | recordBound
  | checkpointBound
  | overflowUnsafe
  | overflowInvalid
  | overflowBound
  | stopped
deriving DecidableEq

def Failure.message : Failure → String
  | unsafe_ => "Resident wake index is unsafe or exceeds its bounded read"
  | invalidJson => "SyntaxError"
  | invalidRecord => "Invalid resident wake index record"
  | rootBound => "Resident wake index root bound exceeded"
  | recordBound => "Resident wake index record bound exceeded"
  | checkpointBound => "Resident wake index checkpoint bound exceeded"
  | overflowUnsafe => "Resident wake overflow exceeds its bounded read or is unsafe"
  | overflowInvalid => "Invalid resident wake overflow record"
  | overflowBound => "Resident wake overflow record bound exceeded"
  | stopped => "stopped"

def integer? : Option Json → Option Int
  | some (.number (.int value)) => some value
  | _ => none

def isOptionalSafe (value : Option Json) : Bool :=
  match value with
  | none => true
  | some (.number (.int value)) => isSafe value
  | some _ => false

def readDelivery (value : Option Json) : Option WakeDelivery :=
  match value with
  | some (.object members) =>
      match Members.get? "id" members with
      | some (.string id) =>
          if isOptionalSafe (Members.get? "sequence" members) then
            some {
              id
              sequence := integer? (Members.get? "sequence" members)
              deferredAt := integer? (Members.get? "deferredAt" members)
            }
          else none
      | _ => none
  | _ => none

def readOp (value : Option Json) : Option Op :=
  match value with
  | some (.string text) =>
      if text = Op.pending.name then some .pending
      else if text = Op.ack.name then some .ack
      else none
  | _ => none

def readRecord (directory : JsString) (value : Json) : Option Record :=
  match value with
  | .object members =>
      match Members.get? "format" members, readOp (Members.get? "op" members),
        Members.get? "root" members, readDelivery (Members.get? "delivery" members) with
      | some (.number (.int 1)), some op, some (.string root), some delivery =>
          if dirname root = directory then some { root, delivery, op } else none
      | _, _, _, _ => none
  | _ => none

/-- What a journal line may hold: a root of the directory and a delivery with a safe sequence. -/
structure Valid (directory : JsString) (record : Record) : Prop where
  root : ∃ name, IsName name ∧ record.root = rootAt directory name
  sequence : ∀ value, record.delivery.sequence = some value → isSafe value = true

theorem readDelivery_json {delivery : WakeDelivery}
    (safe : ∀ value, delivery.sequence = some value → isSafe value = true)
    : readDelivery (some delivery.json) = some delivery := by
  obtain ⟨id, sequence, deferredAt⟩ := delivery
  have apart : lit "sequence" ≠ lit "id" ∧ lit "deferredAt" ≠ lit "id"
      ∧ lit "deferredAt" ≠ lit "sequence" := by decide
  cases sequence with
  | none =>
      cases deferredAt <;>
        simp [readDelivery, WakeDelivery.json, Members.get?, Json.field?, isOptionalSafe, integer?,
          apart, apart.1.symm, apart.2.1.symm]
  | some value =>
      have isSafe_ := safe value rfl
      cases deferredAt <;>
        simp [readDelivery, WakeDelivery.json, Members.get?, Json.field?, isOptionalSafe, integer?,
          apart, apart.2.1.symm, apart.2.2.symm, isSafe_]

theorem readOp_name (op : Op) : readOp (some (.string op.name)) = some op := by
  cases op <;> decide

theorem readRecord_json {directory : JsString} (held : IsDirectory directory) {record : Record}
    (valid : Valid directory record)
    : readRecord directory record.json = some record := by
  obtain ⟨root, delivery, op⟩ := record
  obtain ⟨⟨name, named, rfl⟩, safe⟩ := valid
  have delivered := readDelivery_json safe
  have operates := readOp_name op
  have apart : lit "op" ≠ lit "format" ∧ lit "root" ≠ lit "format" ∧ lit "root" ≠ lit "op"
      ∧ lit "delivery" ≠ lit "format" ∧ lit "delivery" ≠ lit "op"
      ∧ lit "delivery" ≠ lit "root" := by decide
  simp only at delivered
  simp [readRecord, Record.json, Members.get?, Json.field?, apart, delivered, operates,
    dirname_rootAt held named]

end PiFabric.Wake

/-! The journal of the wake index as each process caches it, its bounded rewrite, the overflow
files, and the two operations on them.
-/

namespace PiFabric.Wake

open JsString LineLog

abbrev Pending : Type := JsMap JsString WakeDelivery

def Record.apply (pending : Pending) (record : Record) : Pending :=
  match record.op with
  | .pending => pending.set record.root record.delivery
  | .ack =>
      match pending.get? record.root with
      | some waiting =>
          if covers record.delivery waiting then pending.delete record.root else pending
      | none => pending

def replayRecord (pending : Pending) (record : Record) : Except Failure Pending :=
  if indexMaxRoots < (record.apply pending).size then .error .rootBound
  else .ok (record.apply pending)

def readLine (directory : JsString) (line : Bytes) : Except Failure Record :=
  match Json.ofBytes line with
  | none => .error .invalidJson
  | some value =>
      match readRecord directory value with
      | none => .error .invalidRecord
      | some record => .ok record

/-- The lines of a journal that are not empty, the one after the last newline among them. -/
def linesOf (content : Bytes) : List Bytes :=
  ((split content).1 ++ [(split content).2]).filter fun line => !line.isEmpty

def replayLine (directory : JsString) (pending : Pending) (line : Bytes)
    : Except Failure Pending := do
  let record ← readLine directory line
  replayRecord pending record

def replay (directory : JsString) (content : Bytes) : Except Failure Pending :=
  if indexMaxBytes < content.length then .error .unsafe_
  else (linesOf content).foldlM (replayLine directory) JsMap.empty

/-- The journal, what `lstat` tells two of its contents apart by, and the overflow files by name.
-/
structure Disk where
  journal : Option Bytes
  stamp : Nat
  overflow : JsString → Option Bytes

/-- `WakeIndex`: the replayed journal, and the stamp it was replayed at. -/
structure Cache where
  pending : Pending
  stamp : Option Nat

def emptyCache : Cache where
  pending := JsMap.empty
  stamp := none

def Disk.write (disk : Disk) (content : Bytes) : Disk :=
  { disk with journal := some content, stamp := disk.stamp + 1 }

def Disk.append (disk : Disk) (bytes : Bytes) : Disk :=
  disk.write (disk.journal.getD [] ++ bytes)

def refresh (directory : JsString) (disk : Disk) (cache : Cache) : Except Failure Cache :=
  match disk.journal with
  | none => .ok emptyCache
  | some content =>
      if cache.stamp = some disk.stamp then .ok cache
      else (replay directory content).map fun pending => ⟨pending, some disk.stamp⟩

/-- How far an append gets: to its end, or up to a stop, after which nothing more is written. -/
inductive Fate where
  | done
  | beforeWrite
  | afterCheckpoint
  | partly (count : Nat)
deriving DecidableEq

def lineOf (record : Record) : Bytes :=
  record.bytes ++ [newline]

def watermark (root : JsString) (delivery : WakeDelivery) : Record :=
  { root, delivery, op := .pending }

def checkpointRecords (pending : Pending) : List Record :=
  pending.entries.map fun entry => watermark entry.1 entry.2

def checkpoint (pending : Pending) : Bytes :=
  join ((checkpointRecords pending).map Record.bytes)

def append (directory : JsString) (disk : Disk) (cache : Cache) (record : Record) (fate : Fate)
    : Disk × Cache × Except Failure Unit :=
  match refresh directory disk cache with
  | .error failure => (disk, cache, .error failure)
  | .ok fresh =>
      let line := lineOf record
      let size := if fresh.stamp.isSome then (disk.journal.getD []).length else 0
      let compacts := indexMaxBytes < size + line.length
      if record.op = .pending ∧ !fresh.pending.has record.root
          ∧ indexMaxRoots ≤ fresh.pending.size then (disk, fresh, .error .rootBound)
      else if recordMaxBytes < line.length then (disk, fresh, .error .recordBound)
      else if compacts ∧ indexMaxBytes < (checkpoint fresh.pending).length + line.length then
        (disk, fresh, .error .checkpointBound)
      else
        let base := if compacts then disk.write (checkpoint fresh.pending) else disk
        match fate with
        | .beforeWrite => (disk, fresh, .error .stopped)
        | .afterCheckpoint => (base, fresh, .error .stopped)
        | .partly count => (base.append (line.take count), fresh, .error .stopped)
        | .done =>
            let disk := base.append line
            match refresh directory disk { fresh with stamp := none } with
            | .error failure => (disk, { fresh with stamp := none }, .error failure)
            | .ok read => (disk, read, .ok ())

def overflowName (root : JsString) : JsString :=
  basename root ++ lit ".json"

def readOverflow (directory : JsString) (disk : Disk) (name : JsString)
    : Except Failure (Option WakeDelivery) :=
  match disk.overflow name with
  | none => .ok none
  | some bytes =>
      if recordMaxBytes < bytes.length then .error .overflowUnsafe
      else
        match (Json.ofBytes bytes).bind (readRecord directory) with
        | none => .error .overflowInvalid
        | some record =>
            if record.op = .pending ∧ overflowName record.root = name
                ∧ record.delivery.deferredAt.all isSafe then .ok (some record.delivery)
            else .error .overflowInvalid

/-- How a write of one file ends: it throws, or its process dies, having taken place or not. -/
inductive FileFate where
  | done
  | stops (took : Bool)
deriving DecidableEq

def FileFate.took : FileFate → Bool
  | done => true
  | stops took => took

def FileFate.outcome : FileFate → Except Failure Unit
  | done => .ok ()
  | stops _ => .error .stopped

def Disk.setOverflow (disk : Disk) (name : JsString) (content : Option Bytes) : Disk :=
  { disk with overflow := Function.update disk.overflow name content }

def writeOverflow (disk : Disk) (record : Record) (fate : FileFate)
    : Disk × Except Failure Unit :=
  if recordMaxBytes < record.bytes.length then (disk, .error .overflowBound)
  else
    (if fate.took then disk.setOverflow (overflowName record.root) (some record.bytes) else disk,
      fate.outcome)

structure Event where
  id : JsString
  sequence : Int
deriving DecidableEq

def Event.delivery (event : Event) : WakeDelivery where
  id := event.id
  sequence := some event.sequence
  deferredAt := none

structure RootFate where
  append : Fate := .done
  overflow : FileFate := .done

/-- What one root's delivery leaves: the files, the cache, the room left, and the outcome. -/
structure Indexed where
  disk : Disk
  cache : Cache
  available : Int
  outcome : Except Failure Unit

def indexRoot (directory : JsString) (event : Event) (disk : Disk) (cache : Cache) (available : Int)
    (root : JsString) (fate : RootFate) : Indexed :=
  match readOverflow directory disk (overflowName root) with
  | .error failure => ⟨disk, cache, available, .error failure⟩
  | .ok overflow =>
      let held := cache.pending.has root
      if ((cache.pending.get? root).or overflow).any (covers · event.delivery) then
        ⟨disk, cache, available, .ok ()⟩
      else if held || overflow.isNone && 0 < available then
        let appended := append directory disk cache (watermark root event.delivery) fate.append
        ⟨appended.1, appended.2.1, if held then available else available - 1, appended.2.2⟩
      else
        let deferredAt := (overflow.bind WakeDelivery.deferredAt).getD event.sequence
        let delivery := { event.delivery with deferredAt := some deferredAt }
        let written := writeOverflow disk (watermark root delivery) fate.overflow
        ⟨written.1, cache, available, written.2⟩

def indexRoots (directory : JsString) (event : Event)
    : List (JsString × RootFate) → Disk → Cache → Int → Disk × Cache × Except Failure Unit
  | [], disk, cache, _ => (disk, cache, .ok ())
  | (root, fate) :: rest, disk, cache, available =>
      let indexed := indexRoot directory event disk cache available root fate
      match indexed.outcome with
      | .error failure => (indexed.disk, indexed.cache, .error failure)
      | .ok () => indexRoots directory event rest indexed.disk indexed.cache indexed.available

def indexResidentDeliveries (directory : JsString) (disk : Disk) (cache : Cache) (event : Event)
    (roots : List (JsString × RootFate)) : Disk × Cache × Except Failure Unit :=
  match refresh directory disk cache with
  | .error failure => (disk, cache, .error failure)
  | .ok fresh =>
      indexRoots directory event roots disk fresh (indexMaxRoots - (fresh.pending.size : Int))

def acknowledgeOverflow (directory : JsString) (disk : Disk) (root : JsString)
    (delivery : WakeDelivery) (fate : FileFate) : Disk × Except Failure Unit :=
  match readOverflow directory disk (overflowName root) with
  | .error failure => (disk, .error failure)
  | .ok overflow =>
      if overflow.any (covers delivery) then
        (if fate.took then disk.setOverflow (overflowName root) none else disk, fate.outcome)
      else (disk, .ok ())

def acknowledgeResidentDelivery (directory : JsString) (disk : Disk) (cache : Cache)
    (root : JsString) (delivery : WakeDelivery) (fate : RootFate)
    : Disk × Cache × Except Failure Unit :=
  match refresh directory disk cache with
  | .error failure => (disk, cache, .error failure)
  | .ok fresh =>
      let appended :=
        if (fresh.pending.get? root).any (covers delivery) then
          append directory disk fresh { root, delivery, op := .ack } fate.append
        else (disk, fresh, .ok ())
      match appended.2.2 with
      | .error failure => (appended.1, appended.2.1, .error failure)
      | .ok () =>
          let removed := acknowledgeOverflow directory appended.1 root delivery fate.overflow
          (removed.1, appended.2.1, removed.2)

def residentUnacknowledgedDelivery (directory : JsString) (disk : Disk) (cache : Cache)
    (root : JsString) : Except Failure (Option WakeDelivery) := do
  let fresh ← refresh directory disk cache
  let overflow ← readOverflow directory disk (overflowName root)
  pure (overflow.or (fresh.pending.get? root))

end PiFabric.Wake
