import PiFabric.State.Snapshots

/-! Stores of any processes on one mesh root: the state file, its read signal, what each store keeps
between its operations, and a list that is answered from an older parse where the signal says that
its namespace is unchanged.
-/

namespace PiFabric.State

open JsString
open Json (Members)

/-- `state.json` as one rename published it. The identity is that of the physical file, the stamp
what `stampOf` shows of it, which another file may repeat.
-/
structure Published where
  identity : Nat
  stamp : JsString
  bytes : Bytes

structure SignalFile where
  identity : Nat
  generation : JsString
  witness : Option Nat
  stamp : JsString
  namespaces : JsMap JsString JsString

structure Commit where
  published : Published
  prepared : PreparedStateCommit

structure Cached where
  state : Document
  generation : Option JsString
  parsedAt : Nat

structure SignalIndex where
  generation : JsString
  stamp : JsString
  namespaces : JsMap JsString JsString

/-- A write between its two phases, with the identity that its snapshot was taken of. -/
structure Pending where
  request : Request
  identity : Option Nat
  prepared : Prepared

/-- `StateFile`: what a store keeps. -/
structure Store where
  limits : StoreLimits
  readCacheMs : Nat
  backgroundReadCacheMs : Nat
  writeEncodings : Option WriteEncodings
  stateCache : Option Cached
  canonicalHeader : Option (Nat × Option JsString)
  signalIndex : Option SignalIndex
  signalIdentity : Option Nat
  pending : List Pending

/-- The root, its stores, and the commits so far. The next file gets the identity `files`. -/
structure Mesh (ι : Type) where
  file : Option Published
  signal : Option SignalFile
  stores : ι → Store
  files : Nat
  commits : List Commit

/-- `STATE_HEADER` on the first bytes of the file. -/
def headerGeneration (bytes : Bytes) : Option JsString :=
  let header := (bytes.take 192).map UInt8.toUInt16
  let mark := lit "\x7b\"readGeneration\":\""
  let generation := (header.drop mark.length).take 36
  if mark.isPrefixOf header && isGeneration generation
      && (header.drop (mark.length + 36)).head? = some (unitOf '"') then
    some generation
  else none

def generationOf (state : Document) : Option JsString :=
  (Json.text? (state.fields.get? (lit "readGeneration"))).filter isGeneration

variable {ι : Type}

/-- `statStamp(this.#statePath)`. -/
def Mesh.stamp (mesh : Mesh ι) : Option JsString :=
  mesh.file.map Published.stamp

/-- `#stateWriteIdentity`; nothing for an absent file. -/
def Mesh.identity (mesh : Mesh ι) : Option Nat :=
  mesh.file.map Published.identity

def Mesh.bytes (mesh : Mesh ι) : Option Bytes :=
  mesh.file.map Published.bytes

/-- The generation that a state file's head names, or that the witness of the signal names for it.
-/
def observedGeneration (signal : Option SignalFile) (file : Published) : Option JsString :=
  match signal.filter fun signal => signal.witness = some file.identity with
  | some signal => some signal.generation
  | none => headerGeneration file.bytes

def canonicalGeneration (mesh : Mesh ι) (store : Store) : Option JsString × Store :=
  match mesh.file with
  | none => (none, store)
  | some file =>
      match store.canonicalHeader.filter fun header => header.1 = file.identity with
      | some header => (header.2, store)
      | none =>
          let generation := observedGeneration mesh.signal file
          (generation, { store with canonicalHeader := some (file.identity, generation) })

def SignalFile.index (signal : SignalFile) : SignalIndex where
  generation := signal.generation
  stamp := signal.stamp
  namespaces := signal.namespaces

def readSignalIndex (mesh : Mesh ι) (store : Store) : Option SignalIndex × Store :=
  match mesh.signal with
  | none => (none, store)
  | some signal =>
      if store.signalIdentity = some signal.identity && store.signalIndex.isSome then
        (store.signalIndex, store)
      else
        match store.signalIndex.filter fun index => index.generation = signal.generation with
        | some index => (some index, store)
        | none =>
            (some signal.index, {
              store with
              signalIndex := some signal.index
              signalIdentity := some signal.identity
            })

/-- The meshes that the reads of one `#signalledState` meet, each at its own moment. -/
structure Looks (ι : Type) where
  before : Mesh ι
  header : Mesh ι
  index : Mesh ι
  after : Mesh ι
  recheck : Mesh ι

def signalledState (digest : Digest) (store : Store) (front : JsString) (background : Bool)
    (now : Nat) (looks : Looks ι) : Option Document := do
  let cached ← store.stateCache
  let space ← keyNamespace front
  let readCacheMs := if background then store.backgroundReadCacheMs else store.readCacheMs
  guard (0 < readCacheMs ∧ readCacheMs ≤ now - cached.parsedAt)
  let before ← looks.before.stamp
  let observed := canonicalGeneration looks.header store
  let current ← observed.1
  guard (some current ≠ cached.generation)
  let indexed := readSignalIndex looks.index observed.2
  let index ← indexed.1
  guard (index.generation = current ∧ index.stamp = before)
  guard (looks.after.stamp = some before)
  guard ((canonicalGeneration looks.recheck indexed.2).1 = some current)
  let expected := (index.namespaces.get? space).getD (emptyDigest digest)
  guard (expected = namespaceDigest digest cached.state space)
  some cached.state

def entryKey (entry : Json) : JsString :=
  (Json.text? (Json.field? "key" entry)).getD []

def select (locale : JsString → JsString → Bool) (state : Document) (front : JsString)
    : List Json :=
  (((membersOf state.entries).map Prod.snd).filter fun entry =>
    front.isEmpty || front.isPrefixOf (entryKey entry)).mergeSort
      fun left right => locale (entryKey left) (entryKey right)

variable [DecidableEq ι]

def Mesh.setStore (mesh : Mesh ι) (owner : ι) (store : Store) : Mesh ι :=
  { mesh with stores := fun other => if other = owner then store else mesh.stores other }

def Mesh.publish (mesh : Mesh ι) (owner : ι) (prepared : PreparedStateCommit) (stamp : JsString)
    (now : Nat) : Mesh ι :=
  let published : Published := {
    identity := mesh.files
    stamp
    bytes := prepared.encoded.serialized
  }
  let store := mesh.stores owner
  let kept : Store := {
    store with
    writeEncodings := some {
      serialized := prepared.serializedText
      entries := prepared.encoded.entries
    }
    stateCache := some {
      state := prepared.stamped
      generation := generationOf prepared.stamped
      parsedAt := now
    }
  }
  {
    mesh.setStore owner kept with
    file := some published
    files := mesh.files + 1
    commits := mesh.commits ++ [{ published, prepared }]
  }

def Commit.signal (commit : Commit) (identity : Nat) (witnessed : Bool) : SignalFile where
  identity
  generation := commit.prepared.generation
  witness := if witnessed then some commit.published.identity else none
  stamp := commit.published.stamp
  namespaces := commit.prepared.namespaces

/-- What the stores do, one step at a time, in any order. A write is prepared from a snapshot and
commits only while the file is the one the snapshot was taken of; every commit draws a generation
that no other has. A signal follows its commit while the stamp is still the commit's, or never.
-/
inductive Step (digest : Digest) : Mesh ι → Mesh ι → Prop
  | prepare {mesh : Mesh ι} (owner : ι) (request : Request) (now : Nat) (stamp : Stamp)
      {prepared : Prepared}
      (call : prepareWrite digest (mesh.stores owner).limits (mesh.stores owner).writeEncodings
        request now stamp mesh.bytes = .ok prepared)
    : Step digest mesh (mesh.setStore owner {
        mesh.stores owner with
        pending := (mesh.stores owner).pending
          ++ [{ request, identity := mesh.identity, prepared }]
      })
  | commit {mesh : Mesh ι} (owner : ι) {pending : Pending} (now : Nat) (stamp : Stamp)
      {state : Document} {prepared : PreparedStateCommit} (fileStamp : JsString)
      (member : pending ∈ (mesh.stores owner).pending) (held : pending.identity = mesh.identity)
      (call : commitWrite digest (mesh.stores owner).limits pending.request now stamp
        pending.prepared = .ok (state, some prepared))
      (fresh : ∀ other ∈ mesh.commits, other.prepared.generation ≠ prepared.generation)
    : Step digest mesh (mesh.publish owner prepared fileStamp now)
  | unchanged {mesh : Mesh ι} (owner : ι) {pending : Pending} (now : Nat) (stamp : Stamp)
      {state : Document}
      (member : pending ∈ (mesh.stores owner).pending) (held : pending.identity = mesh.identity)
      (call : commitWrite digest (mesh.stores owner).limits pending.request now stamp
        pending.prepared = .ok (state, none))
    : Step digest mesh (mesh.setStore owner {
        mesh.stores owner with
        stateCache := some { state, generation := generationOf state, parsedAt := now }
      })
  | signal {mesh : Mesh ι} {commit : Commit} (identity : Nat) (witnessed : Bool)
      (member : commit ∈ mesh.commits) (same : mesh.stamp = some commit.published.stamp)
    : Step digest mesh { mesh with signal := some (commit.signal identity witnessed) }
  | parse {mesh : Mesh ι} (owner : ι) (now : Nat) {bytes : Bytes} {read : StateRead}
      (present : mesh.bytes = some bytes)
      (call : readState (mesh.stores owner).limits.maxStateBytes true (some bytes) = .ok read)
    : Step digest mesh (mesh.setStore owner {
        mesh.stores owner with
        stateCache := some {
          state := read.state
          generation := generationOf read.state
          parsedAt := now
        }
      })
  | header {mesh : Mesh ι} (owner : ι)
    : Step digest mesh (mesh.setStore owner (canonicalGeneration mesh (mesh.stores owner)).2)
  | index {mesh : Mesh ι} (owner : ι)
    : Step digest mesh (mesh.setStore owner (readSignalIndex mesh (mesh.stores owner)).2)
  | drop {mesh : Mesh ι} (owner : ι) (pending : List Pending)
      (rest : pending.Sublist (mesh.stores owner).pending)
    : Step digest mesh (mesh.setStore owner {
        mesh.stores owner with
        stateCache := none
        pending
      })

/-- Any number of steps. -/
inductive Steps (digest : Digest) : Mesh ι → Mesh ι → Prop
  | refl {mesh : Mesh ι} : Steps digest mesh mesh
  | step {first mesh next : Mesh ι} (steps : Steps digest first mesh)
      (step : Step digest mesh next) : Steps digest first next

/-- A root before its first commit through these stores: any state file or none, and no signal. -/
structure Untouched (mesh : Mesh ι) : Prop where
  signal : mesh.signal = none
  commits : mesh.commits = []
  identity : ∀ file, mesh.file = some file → file.identity < mesh.files
  idle : ∀ owner, (mesh.stores owner).writeEncodings = none
    ∧ (mesh.stores owner).stateCache = none ∧ (mesh.stores owner).canonicalHeader = none
    ∧ (mesh.stores owner).signalIndex = none ∧ (mesh.stores owner).signalIdentity = none
    ∧ (mesh.stores owner).pending = []

/-- The meshes that a read meets follow one another. -/
structure Looks.Follow (digest : Digest) (looks : Looks ι) (mesh : Mesh ι) : Prop where
  before : Steps digest mesh looks.before
  header : Steps digest looks.before looks.header
  index : Steps digest looks.header looks.index
  after : Steps digest looks.index looks.after
  recheck : Steps digest looks.after looks.recheck

end PiFabric.State
