import PiFabric.Memory.CacheFiles

/-! Loading the cache of a session: a fresh cache file is returned as it is, and any other one is
replaced by what the session's source gives. A digest is cut down until it fits its limit.
-/

namespace PiFabric.Memory

open JsString Json

structure SessionRef where
  file : JsString
  id : JsString
  cwd : JsString

structure MemoryIndexOptions where
  maxEntryChars : Nat
  maxColdVocabularyBytes : Option Nat := none
  maxColdCacheBytes : Option Nat := none
  maxSyncSourceBytes : Option Nat := none
  indexThinking : Option Bool := none
  indexToolOutput : Option Bool := none

def defaultMaxColdVocabularyBytes : Nat := 512 * 1024
def defaultMaxColdCacheBytes : Nat := 1024 * 1024
def defaultMaxSyncSourceBytes : Nat := 512 * 1024 * 1024

def boolText : Bool → JsString
  | true => lit "true"
  | false => lit "false"

def policyPrivacy (options : MemoryIndexOptions) : JsString :=
  lit "thinking:" ++ boolText (options.indexThinking.getD false) ++ lit ";tool-output:"
    ++ boolText (options.indexToolOutput.getD true)

def shardPolicy (options : MemoryIndexOptions) (lineage : SessionLineage) : JsString :=
  lit "entry:" ++ Json.digits options.maxEntryChars ++ lit ";branches:" ++ lineage.branches.text
    ++ lit ";lineage:" ++ lineage.fingerprint ++ lit ";" ++ policyPrivacy options

def digestPolicy (options : MemoryIndexOptions) (lineage : SessionLineage) : JsString :=
  lit "vocab:" ++ Json.digits (options.maxColdVocabularyBytes.getD defaultMaxColdVocabularyBytes)
    ++ lit ";cache:" ++ Json.digits (options.maxColdCacheBytes.getD defaultMaxColdCacheBytes)
    ++ lit ";branches:" ++ lineage.branches.text ++ lit ";lineage:" ++ lineage.fingerprint
    ++ lit ";" ++ policyPrivacy options

structure SessionHeaderInfo where
  sessionId : JsString
  cwd : JsString

/-- What `normalizeSession` reads of a source. -/
structure NormalizedSession where
  entries : List NormalizedEntry
  header : Option SessionHeaderInfo
  indexCoverage : NormalizationCoverage

/-- What one load sees: the source and its lineage before and after it is normalized, and how the
cache directory takes its calls.
-/
structure LoadView where
  state : Option SourceState
  lineage : SessionLineage
  normalized : NormalizedSession
  finalState : Option SourceState
  finalLineage : SessionLineage
  /-- A cache file can be removed. -/
  removable : Bool
  /-- A cache file can be written. -/
  writable : Bool
  /-- What a write that fails leaves. -/
  torn : Option (List UInt8)

structure LoadedCache where
  file : Option (List UInt8)
  value : Json
  wrote : Bool

def removeCacheFile (view : LoadView) (file : Option (List UInt8)) : Option (List UInt8) :=
  if view.removable then none else file

def writeCacheFile (view : LoadView) (value : Json) : LoadedCache where
  file := if view.writable then some (bytes value) else view.torn
  value := value
  wrote := view.writable

/-- The source and its lineage are after the normalization what they were before it. -/
def LoadView.unchanged (view : LoadView) (state : SourceState) : Bool :=
  (view.finalState.any fun final => final.sourceHash = state.sourceHash)
    && view.finalLineage.fingerprint = view.lineage.fingerprint

def LoadView.changeReason (view : LoadView) (state : SourceState) : JsString :=
  if (view.finalState.any fun final => final.sourceHash = state.sourceHash) then
    lit "lineage_changed_during_index"
  else lit "source_changed_during_index"

def missingShard (ref : SessionRef) (lineage : SessionLineage) (reason : JsString)
    : Cached Shard where
  content := {
    sessionFile := ref.file
    sessionId := ref.id
    mtime := .int 0
    size := 0
    sourceHash := []
    branches := lineage.branches
    lineageFingerprint := lineage.fingerprint
    policy := reason
    entries := []
    totalEntryCount := 0
    indexCoverage := { complete := false, reasons := [reason] }
    tier := some .hot
    indexReason := some reason
  }
  metrics := .zero

def indexedShard (ref : SessionRef) (options : MemoryIndexOptions) (view : LoadView)
    (state : SourceState)
    : Cached Shard where
  content := {
    sessionFile := ref.file
    sessionId := (view.normalized.header.map (·.sessionId)).getD ref.id
    mtime := state.mtime
    size := state.size
    sourceHash := state.sourceHash
    branches := view.lineage.branches
    lineageFingerprint := view.lineage.fingerprint
    policy := shardPolicy options view.lineage
    entries := view.normalized.entries
    totalEntryCount := view.normalized.entries.length
    indexCoverage := view.normalized.indexCoverage
    tier := some .hot
  }
  metrics := .zero

def shardLimit (options : MemoryIndexOptions) : Nat :=
  options.maxSyncSourceBytes.getD defaultMaxSyncSourceBytes

def freshShard (ref : SessionRef) (options : MemoryIndexOptions) (view : LoadView)
    (state : SourceState) (file : Option (List UInt8))
    : Option Json :=
  (readShardFile file (shardLimit options)).filter fun cached =>
    isCacheFresh cached state (shardPolicy options view.lineage)
      && strictEqual (cached.field? "sessionFile") (some (.string ref.file))

def loadShard (ref : SessionRef) (options : MemoryIndexOptions) (view : LoadView)
    (file : Option (List UInt8))
    : LoadedCache :=
  match view.state with
  | none => {
      file := removeCacheFile view file
      value := (missingShard ref view.lineage (lit "source_unavailable")).json
      wrote := false
    }
  | some state =>
      match freshShard ref options view state file with
      | some cached => { file, value := cached, wrote := false }
      | none =>
          if view.unchanged state then
            writeCacheFile view (applyCacheMetrics (indexedShard ref options view state)).json
          else {
            file := removeCacheFile view file
            value := (missingShard ref view.finalLineage (view.changeReason state)).json
            wrote := false
          }

/-- The rounds of `maxFittingPrefix`; the test may leave a new state behind. -/
def fittingPrefix {α σ : Type} (values : List α) (fits : σ → List α → σ × Bool) (low high : Nat)
    (state : σ)
    : σ × List α :=
  if low < high then
    let middle := (low + high + 1) / 2
    let tried := fits state (values.take middle)
    if tried.2 then fittingPrefix values fits middle high tried.1
    else fittingPrefix values fits low (middle - 1) tried.1
  else (state, values.take low)
termination_by high - low

def maxFittingPrefix {α σ : Type} (values : List α) (fits : σ → List α → σ × Bool) (state : σ)
    : σ × List α :=
  fittingPrefix values fits 0 values.length state

def Cached.withAddresses (digest : Cached DigestShard) (addresses : List DigestEntryAddress)
    : Cached DigestShard :=
  { digest with content := { digest.content with addresses } }

def Cached.withVocabulary (digest : Cached DigestShard) (vocabulary : List JsString)
    : Cached DigestShard :=
  { digest with
    content := {
      digest.content with
      vocabulary
      indexCoverage := {
        digest.content.indexCoverage with vocabularyBytes := vocabularyJsonBytes vocabulary
      }
    } }

def Cached.limited (digest : Cached DigestShard) : Cached DigestShard :=
  let coverage := digest.content.indexCoverage
  { digest with
    content := {
      digest.content with
      indexCoverage := {
        coverage with
        complete := coverageComplete coverage.complete true
        reasons :=
          if lit "max_cold_cache_bytes" ∈ coverage.reasons then coverage.reasons
          else coverage.reasons ++ [lit "max_cold_cache_bytes"]
      }
    } }

def measuredFits (maxBytes : Nat) (digest : Cached DigestShard) : Cached DigestShard × Bool :=
  let measured := applyCacheMetrics digest
  (measured, measured.metrics.cacheBytes ≤ maxBytes)

def cutAddresses (digest : Cached DigestShard) (maxBytes : Nat) : Cached DigestShard :=
  let searched := maxFittingPrefix digest.content.addresses
    (fun digest addresses => measuredFits maxBytes (digest.withAddresses addresses)) digest
  searched.1.withAddresses searched.2

def cutVocabulary (digest : Cached DigestShard) (maxBytes : Nat) : Cached DigestShard :=
  let searched := maxFittingPrefix digest.content.vocabulary
    (fun digest vocabulary => measuredFits maxBytes (digest.withVocabulary vocabulary)) digest
  searched.1.withVocabulary searched.2

def fitDigestCache (digest : Cached DigestShard) (maxBytes : Nat) : Cached DigestShard :=
  let measured := applyCacheMetrics digest
  if measured.metrics.cacheBytes ≤ maxBytes then measured
  else
    let addressed := applyCacheMetrics (cutAddresses measured.limited maxBytes)
    if addressed.metrics.cacheBytes ≤ maxBytes then addressed
    else applyCacheMetrics (cutVocabulary addressed maxBytes)

def missingDigest (ref : SessionRef) (lineage : SessionLineage) (reason : JsString)
    : Cached DigestShard where
  content := {
    sessionId := ref.id
    file := ref.file
    cwd := ref.cwd
    firstTs := none
    lastTs := none
    entryCount := 0
    filesTouched := []
    toolHistogram := []
    errorCount := 0
    vocabulary := []
    addresses := []
    indexCoverage := { complete := false, vocabularyBytes := 2, reasons := [reason] }
    mtime := .int 0
    size := 0
    sourceHash := []
    branches := lineage.branches
    lineageFingerprint := lineage.fingerprint
    policy := reason
  }
  metrics := .zero

variable (unicode : Unicode)

def indexedDigest (ref : SessionRef) (options : MemoryIndexOptions) (view : LoadView)
    (state : SourceState)
    : Cached DigestShard where
  content := {
    foldSessionDigest unicode {
      sessionId := (view.normalized.header.map (·.sessionId)).getD ref.id
      file := ref.file
      cwd := (view.normalized.header.map (·.cwd)).getD ref.cwd
      entries := view.normalized.entries
      maxVocabularyBytes :=
        some (options.maxColdVocabularyBytes.getD defaultMaxColdVocabularyBytes)
      normalizationCoverage := some view.normalized.indexCoverage
    } with
    mtime := state.mtime
    size := state.size
    sourceHash := state.sourceHash
    branches := view.lineage.branches
    lineageFingerprint := view.lineage.fingerprint
    policy := digestPolicy options view.lineage
  }
  metrics := .zero

def digestLimit (options : MemoryIndexOptions) : Nat :=
  options.maxColdCacheBytes.getD defaultMaxColdCacheBytes

def freshDigest (ref : SessionRef) (options : MemoryIndexOptions) (view : LoadView)
    (state : SourceState) (file : Option (List UInt8))
    : Option Json :=
  (readDigestFile file (digestLimit options)).filter fun cached =>
    isCacheFresh cached state (digestPolicy options view.lineage)
      && strictEqual (cached.field? "file") (some (.string ref.file))
      && serializedBytes cached ≤ digestLimit options

def loadDigest (ref : SessionRef) (options : MemoryIndexOptions) (view : LoadView)
    (file : Option (List UInt8))
    : LoadedCache :=
  match view.state with
  | none => {
      file := removeCacheFile view file
      value := (missingDigest ref view.lineage (lit "source_unavailable")).json
      wrote := false
    }
  | some state =>
      match freshDigest ref options view state file with
      | some cached => { file, value := cached, wrote := false }
      | none =>
          if view.unchanged state then
            let persisted :=
              fitDigestCache (indexedDigest unicode ref options view state) (digestLimit options)
            if persisted.metrics.cacheBytes ≤ digestLimit options then
              writeCacheFile view persisted.json
            else { file := removeCacheFile view file, value := persisted.json, wrote := false }
          else {
            file := removeCacheFile view file
            value := (missingDigest ref view.finalLineage (view.changeReason state)).json
            wrote := false
          }

end PiFabric.Memory
