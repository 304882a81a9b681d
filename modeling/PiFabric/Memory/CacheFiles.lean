import PiFabric.Foundation.JsonRoundTrip
import PiFabric.Memory.CacheMetrics
import PiFabric.Memory.Digest

/-! The two kinds of cache file, a shard with the entries of a session and a digest of it, and the
checks that a file passes when it is read. What is written is accepted as soon as the length it
records is the length of the file.
-/

namespace PiFabric.Memory

open JsString Json

inductive MemoryBranches where
  | active
  | all
  deriving DecidableEq

def MemoryBranches.text : MemoryBranches → JsString
  | active => lit "active"
  | all => lit "all"

inductive MemoryTier where
  | hot
  | cold
  deriving DecidableEq

def MemoryTier.text : MemoryTier → JsString
  | hot => lit "hot"
  | cold => lit "cold"

def memoryCacheVersion : Nat := 6

/-- The state of a session source. Its hash is the hexadecimal text of a SHA-256. -/
structure SourceState where
  mtime : JsNumber
  size : Nat
  sourceHash : JsString
  hashed : sourceHash.length = 64

/-- What the caches take from the lineage of a session. Its fingerprint is the hexadecimal text of a
SHA-256.
-/
structure SessionLineage where
  branches : MemoryBranches
  fingerprint : JsString
  printed : fingerprint.length = 64

structure Shard where
  sessionFile : JsString
  sessionId : JsString
  mtime : JsNumber
  size : Nat
  sourceHash : JsString
  branches : MemoryBranches
  lineageFingerprint : JsString
  policy : JsString
  entries : List NormalizedEntry
  totalEntryCount : Nat
  indexCoverage : NormalizationCoverage
  tier : Option MemoryTier
  indexReason : Option JsString := none

def strings (texts : List JsString) : Json :=
  .array (texts.map .string)

def NormalizationCoverage.json (coverage : NormalizationCoverage) : Json :=
  Json.literal [("complete", some (.bool coverage.complete)),
    ("reasons", some (strings coverage.reasons))]

instance : CacheRecord Shard where
  size shard := shard.size
  front shard :=
    [("cacheVersion", some (.number (.int memoryCacheVersion))),
      ("kind", some (.string (lit "shard"))),
      ("sessionFile", some (.string shard.sessionFile)),
      ("sessionId", some (.string shard.sessionId)),
      ("mtime", some (.number shard.mtime)),
      ("size", some (.number (.int shard.size))),
      ("sourceHash", some (.string shard.sourceHash)),
      ("branches", some (.string shard.branches.text)),
      ("lineageFingerprint", some (.string shard.lineageFingerprint)),
      ("policy", some (.string shard.policy))]
  back shard :=
    [("entries", some (.array (shard.entries.map NormalizedEntry.json))),
      ("totalEntryCount", some (.number (.int shard.totalEntryCount))),
      ("indexCoverage", some shard.indexCoverage.json),
      ("tier", shard.tier.map fun tier => .string tier.text),
      ("indexReason", shard.indexReason.map .string)]

structure DigestShard extends SessionDigest where
  mtime : JsNumber
  size : Nat
  sourceHash : JsString
  branches : MemoryBranches
  lineageFingerprint : JsString
  policy : JsString

def DigestEntryAddress.json (address : DigestEntryAddress) : Json :=
  .array [.number (.int address.index), nullable address.entryId,
    nullable address.operationAddress, nullable address.role, nullable address.toolName,
    nullableNumber address.timestamp, nullable address.ref, nullable address.provider,
    nullable address.action, nullable (address.outcome.map (·.text))]

def DigestIndexCoverage.json (coverage : DigestIndexCoverage) : Json :=
  Json.literal [("complete", some (.bool coverage.complete)),
    ("vocabularyBytes", some (.number (.int coverage.vocabularyBytes))),
    ("reasons", some (strings coverage.reasons))]

instance : CacheRecord DigestShard where
  size digest := digest.size
  front digest :=
    [("cacheVersion", some (.number (.int memoryCacheVersion))),
      ("kind", some (.string (lit "digest"))),
      ("sessionId", some (.string digest.sessionId)),
      ("file", some (.string digest.file)),
      ("cwd", some (.string digest.cwd)),
      ("firstTs", some (nullableNumber digest.firstTs)),
      ("lastTs", some (nullableNumber digest.lastTs)),
      ("entryCount", some (.number (.int digest.entryCount))),
      ("filesTouched", some (strings digest.filesTouched)),
      ("toolHistogram", some (.object (digest.toolHistogram.map fun tool =>
        (tool.1, .number (.int tool.2))))),
      ("errorCount", some (.number (.int digest.errorCount))),
      ("vocabulary", some (strings digest.vocabulary)),
      ("addresses", some (.array (digest.addresses.map DigestEntryAddress.json))),
      ("indexCoverage", some digest.indexCoverage.json),
      ("mtime", some (.number digest.mtime)),
      ("size", some (.number (.int digest.size))),
      ("sourceHash", some (.string digest.sourceHash)),
      ("branches", some (.string digest.branches.text)),
      ("lineageFingerprint", some (.string digest.lineageFingerprint)),
      ("policy", some (.string digest.policy))]
  back _ := []

def isNumber : Option Json → Bool
  | some (.number _) => true
  | _ => false

def isBoolean : Option Json → Bool
  | some (.bool _) => true
  | _ => false

def isText (value : Option Json) : Bool :=
  (text? value).isSome

def isHashText (value : Option Json) : Bool :=
  (text? value).any fun text => text.length = 64

def isBranches (value : Option Json) : Bool :=
  strictEqual value (some (.string (lit "active")))
    || strictEqual value (some (.string (lit "all")))

def isArrayOf (passes : Json → Bool) : Option Json → Bool
  | some (.array items) => items.all passes
  | _ => false

def isStrings : Option Json → Bool :=
  isArrayOf fun item => isText (some item)

def isCacheRecord (kind : JsString) (parsed : Json) (size : Nat) : Bool :=
  strictEqual (parsed.field? "cacheVersion") (some (.number (.int memoryCacheVersion)))
    && strictEqual (parsed.field? "kind") (some (.string kind))
    && isText (parsed.field? "sessionId")
    && isHashText (parsed.field? "sourceHash")
    && isBranches (parsed.field? "branches")
    && isHashText (parsed.field? "lineageFingerprint")
    && isText (parsed.field? "policy")
    && strictEqual (parsed.field? "cacheBytes") (some (.number (.int size)))
    && isNumber (parsed.field? "cacheSourceRatio")

def isShardFile (parsed : Json) (size : Nat) : Bool :=
  isCacheRecord (lit "shard") parsed size
    && isText (parsed.field? "sessionFile")
    && isNumber (parsed.field? "totalEntryCount")
    && (match parsed.field? "indexCoverage" with
      | some coverage => isBoolean (coverage.field? "complete")
          && isStrings (coverage.field? "reasons")
      | none => false)
    && isArrayOf isCachedEntry (parsed.field? "entries")

def isNullableText : Json → Bool
  | .null => true
  | .string _ => true
  | _ => false

def isNullableNumber : Json → Bool
  | .null => true
  | .number _ => true
  | _ => false

def isNullableOutcome : Json → Bool
  | .null => true
  | .string text =>
      text = lit "succeeded" || text = lit "failed" || text = lit "aborted"
        || text = lit "timed_out"
  | _ => false

def isCachedAddress : Json → Bool
  | .array [index, entryId, operationAddress, role, toolName, timestamp, ref, provider, action,
      outcome] =>
      isNumber (some index) && isNullableText entryId && isNullableText operationAddress
        && isNullableText role && isNullableText toolName && isNullableNumber timestamp
        && isNullableText ref && isNullableText provider && isNullableText action
        && isNullableOutcome outcome
  | _ => false

def isAscending (value : Option Json) : Bool :=
  match value with
  | some (.array items) =>
      match items.mapM fun item => text? (some item) with
      | some terms => decide (terms.IsChain (· < ·))
      | none => false
  | _ => false

def isDigestFile (parsed : Json) (size : Nat) : Bool :=
  isCacheRecord (lit "digest") parsed size
    && isText (parsed.field? "file")
    && isArrayOf (fun _ => true) (parsed.field? "filesTouched")
    && isAscending (parsed.field? "vocabulary")
    && isArrayOf isCachedAddress (parsed.field? "addresses")
    && (match parsed.field? "indexCoverage" with
      | some coverage => isBoolean (coverage.field? "complete")
          && isNumber (coverage.field? "vocabularyBytes")
          && isStrings (coverage.field? "reasons")
      | none => false)
    && isNumber (parsed.field? "mtime")
    && isNumber (parsed.field? "size")

/-- The value of a cache file within the limit that passes the checks. -/
def readCacheFile (accepts : Json → Nat → Bool) (file : Option (List UInt8)) (maxBytes : Nat)
    : Option Json :=
  file.bind fun data =>
    if maxBytes < data.length then none
    else
      (Json.ofBytes data).bind fun parsed =>
        if accepts parsed data.length then some parsed else none

def readShardFile (file : Option (List UInt8)) (maxBytes : Nat) : Option Json :=
  readCacheFile isShardFile file maxBytes

def readDigestFile (file : Option (List UInt8)) (maxBytes : Nat) : Option Json :=
  readCacheFile isDigestFile file maxBytes

def isCacheFresh (cache : Json) (state : SourceState) (policy : JsString) : Bool :=
  strictEqual (cache.field? "mtime") (some (.number state.mtime))
    && strictEqual (cache.field? "size") (some (.number (.int state.size)))
    && strictEqual (cache.field? "sourceHash") (some (.string state.sourceHash))
    && strictEqual (cache.field? "policy") (some (.string policy))

theorem readCacheFile_eq (accepts : Json → Nat → Bool) (value : Json) (maxBytes : Nat)
    : readCacheFile accepts (some (bytes value)) maxBytes
      = if maxBytes < serializedBytes value then none
        else if accepts value (serializedBytes value) then some value else none := by
  have length : (bytes value).length = serializedBytes value := rfl
  rw [readCacheFile, Option.bind_some, ofBytes_bytes, Option.bind_some, length]

/-- A value is read if and only if it is within the limit and accepted. -/
theorem readCacheFile_bytes (accepts : Json → Nat → Bool) (value : Json) (maxBytes : Nat)
    : readCacheFile accepts (some (bytes value)) maxBytes = some value
      ↔ serializedBytes value ≤ maxBytes ∧ accepts value (serializedBytes value) = true := by
  rw [readCacheFile_eq]
  constructor
  · intro read
    by_cases long : maxBytes < serializedBytes value
    · rw [if_pos long] at read
      cases read
    · rw [if_neg long] at read
      by_cases passes : accepts value (serializedBytes value) = true
      · exact ⟨Nat.le_of_not_lt long, passes⟩
      · rw [if_neg passes] at read
        cases read
  · intro accepted
    rw [if_neg (Nat.not_lt.mpr accepted.1), if_pos accepted.2]

theorem readCacheFile_refused {accepts : Json → Nat → Bool} {value : Json} {maxBytes : Nat}
    (refused : serializedBytes value ≤ maxBytes → accepts value (serializedBytes value) = false)
    : readCacheFile accepts (some (bytes value)) maxBytes = none := by
  rw [readCacheFile_eq]
  split
  · rfl
  · rename_i short
    rw [refused (Nat.le_of_not_lt short)]
    rfl

theorem strictEqual_text (text : JsString)
    : strictEqual (some (.string text)) (some (.string text)) = true :=
  decide_eq_true rfl

theorem strictEqual_number (value : JsNumber)
    : strictEqual (some (.number value)) (some (.number value)) = true :=
  decide_eq_true rfl

/-- The recorded length is the length of the file. -/
theorem strictEqual_size (bytes size : Nat)
    : strictEqual (some (.number (.int bytes))) (some (.number (.int size)))
      = decide (bytes = size) := by
  unfold strictEqual
  exact decide_eq_decide.mpr (by simp)

theorem isStrings_strings (texts : List JsString) : isStrings (some (strings texts)) = true := by
  rw [isStrings, strings, isArrayOf, List.all_map]
  exact List.all_eq_true.mpr fun text _ => rfl

theorem isBranches_text (branches : MemoryBranches)
    : isBranches (some (.string branches.text)) = true := by
  cases branches <;> decide

theorem field?_named {properties : List (String × Option Json)} {names : List String}
    (distinct : (names.map lit).Nodup) (named : properties.map Prod.fst = names) {name : String}
    {value : Option Json} (member : (name, value) ∈ properties)
    : (Json.literal properties).field? name = value := by
  refine Json.field?_literal ?_ member
  rw [← named, List.map_map] at distinct
  exact distinct

theorem coverage_fields (coverage : NormalizationCoverage)
    : coverage.json.field? "complete" = some (.bool coverage.complete)
      ∧ coverage.json.field? "reasons" = some (strings coverage.reasons) := by
  have distinct : (["complete", "reasons"].map lit).Nodup := by decide +kernel
  exact ⟨field?_named distinct rfl (.head _), field?_named distinct rfl (.tail _ (.head _))⟩

theorem digestCoverage_fields (coverage : DigestIndexCoverage)
    : coverage.json.field? "complete" = some (.bool coverage.complete)
      ∧ coverage.json.field? "vocabularyBytes" = some (.number (.int coverage.vocabularyBytes))
      ∧ coverage.json.field? "reasons" = some (strings coverage.reasons) := by
  have distinct : (["complete", "vocabularyBytes", "reasons"].map lit).Nodup := by decide +kernel
  exact ⟨field?_named distinct rfl (.head _), field?_named distinct rfl (.tail _ (.head _)),
    field?_named distinct rfl (.tail _ (.tail _ (.head _)))⟩

theorem isCachedAddress_json (address : DigestEntryAddress)
    : isCachedAddress address.json = true := by
  have text (value : Option JsString) : isNullableText (nullable value) = true := by
    cases value <;> rfl
  have number (value : Option JsNumber) : isNullableNumber (nullableNumber value) = true := by
    cases value <;> rfl
  have outcome : isNullableOutcome (nullable (address.outcome.map (·.text))) = true := by
    cases address.outcome with
    | none => rfl
    | some outcome => cases outcome <;> decide +kernel
  simp only [DigestEntryAddress.json, isCachedAddress, text, number, outcome, Bool.and_true]
  rfl

theorem isAscending_strings {terms : List JsString} (ascending : terms.Pairwise (· < ·))
    : isAscending (some (strings terms)) = true := by
  have read : (terms.map Json.string).mapM (fun item => text? (some item)) = some terms := by
    induction terms with
    | nil => rfl
    | cons term rest ih =>
      rw [List.map_cons, List.mapM_cons, ih (List.pairwise_cons.mp ascending).2]
      rfl
  unfold isAscending strings
  dsimp only
  rw [read]
  exact decide_eq_true ascending.isChain

def shardNames : List String :=
  ["cacheVersion", "kind", "sessionFile", "sessionId", "mtime", "size", "sourceHash", "branches",
    "lineageFingerprint", "policy", "cacheBytes", "cacheSourceRatio", "entries", "totalEntryCount",
    "indexCoverage", "tier", "indexReason"]

theorem shardNames_distinct : (shardNames.map lit).Nodup := by
  decide +kernel

theorem Shard.field? {value : Cached Shard} {name : String} {property : Option Json} (place : Nat)
    (there : value.properties[place]? = some (name, property))
    : value.json.field? name = property :=
  field?_named shardNames_distinct rfl (List.mem_of_getElem? there)

def digestNames : List String :=
  ["cacheVersion", "kind", "sessionId", "file", "cwd", "firstTs", "lastTs", "entryCount",
    "filesTouched", "toolHistogram", "errorCount", "vocabulary", "addresses", "indexCoverage",
    "mtime", "size", "sourceHash", "branches", "lineageFingerprint", "policy", "cacheBytes",
    "cacheSourceRatio"]

theorem digestNames_distinct : (digestNames.map lit).Nodup := by
  decide +kernel

theorem DigestShard.field? {value : Cached DigestShard} {name : String} {property : Option Json}
    (place : Nat) (there : value.properties[place]? = some (name, property))
    : value.json.field? name = property :=
  field?_named digestNames_distinct rfl (List.mem_of_getElem? there)

theorem isCacheRecord_eq {parsed : Json} {kind sessionId sourceHash fingerprint policy : JsString}
    {branches : MemoryBranches} {bytes size : Nat} {share : JsNumber}
    (version : parsed.field? "cacheVersion" = some (.number (.int memoryCacheVersion)))
    (kind_ : parsed.field? "kind" = some (.string kind))
    (session : parsed.field? "sessionId" = some (.string sessionId))
    (hash : parsed.field? "sourceHash" = some (.string sourceHash))
    (hashed : sourceHash.length = 64)
    (branched : parsed.field? "branches" = some (.string branches.text))
    (lineage : parsed.field? "lineageFingerprint" = some (.string fingerprint))
    (printed : fingerprint.length = 64)
    (policy_ : parsed.field? "policy" = some (.string policy))
    (counted : parsed.field? "cacheBytes" = some (.number (.int bytes)))
    (shared : parsed.field? "cacheSourceRatio" = some (.number share))
    : isCacheRecord kind parsed size = decide (bytes = size) := by
  have hash_ {text : JsString} (long : text.length = 64)
      : isHashText (some (.string text)) = true := by
    rw [isHashText, text?, Option.any_some, long]
    rfl
  rw [isCacheRecord, version, kind_, session, hash, branched, lineage, policy_, counted, shared,
    strictEqual_number, strictEqual_text, strictEqual_size, hash_ hashed, hash_ printed,
    isBranches_text]
  simp only [isText, text?, isNumber, Option.isSome_some, Bool.and_true, Bool.true_and]

theorem isShardFile_json {value : Cached Shard} (hashed : value.content.sourceHash.length = 64)
    (printed : value.content.lineageFingerprint.length = 64) (size : Nat)
    : isShardFile value.json size = decide (value.metrics.cacheBytes = size) := by
  have file : value.json.field? "sessionFile" = some (.string value.content.sessionFile) :=
    Shard.field? 2 rfl
  have entries : value.json.field? "entries"
      = some (.array (value.content.entries.map NormalizedEntry.json)) :=
    Shard.field? 12 rfl
  have count : value.json.field? "totalEntryCount"
      = some (.number (.int value.content.totalEntryCount)) :=
    Shard.field? 13 rfl
  have coverage : value.json.field? "indexCoverage" = some value.content.indexCoverage.json :=
    Shard.field? 14 rfl
  have cached : ((value.content.entries.map NormalizedEntry.json).all isCachedEntry) = true := by
    rw [List.all_map]
    exact List.all_eq_true.mpr fun entry _ => isCachedEntry_json entry
  have record : isCacheRecord (lit "shard") value.json size
      = decide (value.metrics.cacheBytes = size) := by
    refine isCacheRecord_eq (Shard.field? 0 rfl) (Shard.field? 1 rfl) (Shard.field? 3 rfl)
      (Shard.field? 6 rfl) hashed (Shard.field? 7 rfl) (Shard.field? 8 rfl) printed
      (Shard.field? 9 rfl) (Shard.field? 10 rfl) (Shard.field? 11 rfl)
  obtain ⟨complete, reasons⟩ := coverage_fields value.content.indexCoverage
  rw [isShardFile, record, file, entries, count, coverage]
  dsimp only
  rw [complete, reasons, isStrings_strings, isArrayOf, cached]
  simp only [isText, text?, isNumber, isBoolean, Option.isSome_some, Bool.and_true]

/-- A digest of a hashed source with ascending terms is accepted as soon as it records the length of
its file.
-/
theorem isDigestFile_json {value : Cached DigestShard}
    (hashed : value.content.sourceHash.length = 64)
    (printed : value.content.lineageFingerprint.length = 64)
    (ascending : value.content.vocabulary.Pairwise (· < ·)) (size : Nat)
    : isDigestFile value.json size = decide (value.metrics.cacheBytes = size) := by
  have file : value.json.field? "file" = some (.string value.content.file) :=
    DigestShard.field? 3 rfl
  have touched : value.json.field? "filesTouched" = some (strings value.content.filesTouched) :=
    DigestShard.field? 8 rfl
  have vocabulary : value.json.field? "vocabulary" = some (strings value.content.vocabulary) :=
    DigestShard.field? 11 rfl
  have addresses : value.json.field? "addresses"
      = some (.array (value.content.addresses.map DigestEntryAddress.json)) :=
    DigestShard.field? 12 rfl
  have coverage : value.json.field? "indexCoverage" = some value.content.indexCoverage.json :=
    DigestShard.field? 13 rfl
  have time : value.json.field? "mtime" = some (.number value.content.mtime) :=
    DigestShard.field? 14 rfl
  have length : value.json.field? "size" = some (.number (.int value.content.size)) :=
    DigestShard.field? 15 rfl
  have cached : ((value.content.addresses.map DigestEntryAddress.json).all isCachedAddress)
      = true := by
    rw [List.all_map]
    exact List.all_eq_true.mpr fun address _ => isCachedAddress_json address
  have record : isCacheRecord (lit "digest") value.json size
      = decide (value.metrics.cacheBytes = size) := by
    refine isCacheRecord_eq (DigestShard.field? 0 rfl) (DigestShard.field? 1 rfl)
      (DigestShard.field? 2 rfl) (DigestShard.field? 16 rfl) hashed (DigestShard.field? 17 rfl)
      (DigestShard.field? 18 rfl) printed (DigestShard.field? 19 rfl) (DigestShard.field? 20 rfl)
      (DigestShard.field? 21 rfl)
  obtain ⟨complete, bytes, reasons⟩ := digestCoverage_fields value.content.indexCoverage
  have any : isArrayOf (fun _ => true) (some (strings value.content.filesTouched)) = true := by
    rw [strings, isArrayOf]
    exact List.all_eq_true.mpr fun _ _ => rfl
  rw [isDigestFile, record, file, touched, vocabulary, addresses, coverage, time, length, any,
    isAscending_strings ascending]
  dsimp only
  rw [complete, bytes, reasons, isStrings_strings, isArrayOf, cached]
  simp only [isText, text?, isNumber, isBoolean, Option.isSome_some, Bool.and_true]

end PiFabric.Memory
