import PiFabric.Memory.CacheLoads

/-! A cache file that a load writes is the one the next load returns if and only if the lengths that
its metrics record settle: they are measured five times, and two lengths whose ratios have different
numbers of decimals can take turns for good.
-/

namespace PiFabric.Memory

open JsString Json

/-- What every test keeps, the search keeps, and it ends with a prefix, by the rounds of the search.
-/
theorem fittingPrefix_keeps {α σ : Type} {values : List α} {fits : σ → List α → σ × Bool}
    {keeps : σ → Prop}
    (step : ∀ state candidate, candidate <+: values → keeps state → keeps (fits state candidate).1)
    (low high : Nat) {state : σ} (start : keeps state)
    : keeps (fittingPrefix values fits low high state).1
      ∧ (fittingPrefix values fits low high state).2 <+: values := by
  induction low, high, state using fittingPrefix.induct values fits with
  | case1 low high state open_ middle tried fitted ih =>
    rw [fittingPrefix, if_pos open_, if_pos fitted]
    exact ih (step state _ (List.take_prefix _ _) start)
  | case2 low high state open_ middle tried missed ih =>
    rw [fittingPrefix, if_pos open_, if_neg missed]
    exact ih (step state _ (List.take_prefix _ _) start)
  | case3 low high state closed =>
    rw [fittingPrefix, if_neg closed]
    exact ⟨start, List.take_prefix _ _⟩

/-- A digest of the same source whose terms begin those of another one. -/
structure CutOf (whole digest : DigestShard) : Prop where
  file : digest.file = whole.file
  mtime : digest.mtime = whole.mtime
  size : digest.size = whole.size
  sourceHash : digest.sourceHash = whole.sourceHash
  lineageFingerprint : digest.lineageFingerprint = whole.lineageFingerprint
  policy : digest.policy = whole.policy
  vocabulary : digest.vocabulary <+: whole.vocabulary

theorem CutOf.refl (digest : DigestShard) : CutOf digest digest :=
  ⟨rfl, rfl, rfl, rfl, rfl, rfl, List.prefix_rfl⟩

variable {whole : DigestShard} {digest : Cached DigestShard}

/-- Only the addresses change, and the metrics. -/
theorem CutOf.withAddresses (cut : CutOf whole digest.content) (addresses : List DigestEntryAddress)
    : CutOf whole (digest.withAddresses addresses).content :=
  ⟨cut.file, cut.mtime, cut.size, cut.sourceHash, cut.lineageFingerprint, cut.policy,
    cut.vocabulary⟩

theorem CutOf.withVocabulary (cut : CutOf whole digest.content) {vocabulary : List JsString}
    (shorter : vocabulary <+: whole.vocabulary)
    : CutOf whole (digest.withVocabulary vocabulary).content :=
  ⟨cut.file, cut.mtime, cut.size, cut.sourceHash, cut.lineageFingerprint, cut.policy, shorter⟩

theorem CutOf.limited (cut : CutOf whole digest.content)
    : CutOf whole digest.limited.content :=
  ⟨cut.file, cut.mtime, cut.size, cut.sourceHash, cut.lineageFingerprint, cut.policy,
    cut.vocabulary⟩

theorem CutOf.cutAddresses (cut : CutOf whole digest.content) (maxBytes : Nat)
    : CutOf whole (cutAddresses digest maxBytes).content := by
  have searched : CutOf whole (maxFittingPrefix digest.content.addresses
      (fun digest addresses => measuredFits maxBytes (digest.withAddresses addresses))
      digest).1.content :=
    (@fittingPrefix_keeps _ _ _ _ (fun state => CutOf whole state.content)
      (fun state candidate _ kept => kept.withAddresses candidate) 0 _ digest cut).1
  exact searched.withAddresses _

theorem CutOf.cutVocabulary (cut : CutOf whole digest.content) (maxBytes : Nat)
    : CutOf whole (cutVocabulary digest maxBytes).content := by
  have searched := @fittingPrefix_keeps _ _ digest.content.vocabulary
    (fun digest vocabulary => measuredFits maxBytes (Cached.withVocabulary digest vocabulary))
    (fun state => CutOf whole state.content)
    (fun state candidate shorter kept => kept.withVocabulary (shorter.trans cut.vocabulary))
    0 digest.content.vocabulary.length digest cut
  exact searched.1.withVocabulary (searched.2.trans cut.vocabulary)

def lastMeasured (digest : Cached DigestShard) (maxBytes : Nat) : Cached DigestShard :=
  let measured := applyCacheMetrics digest
  if measured.metrics.cacheBytes ≤ maxBytes then digest
  else
    let addressed := cutAddresses measured.limited maxBytes
    if (applyCacheMetrics addressed).metrics.cacheBytes ≤ maxBytes then addressed
    else cutVocabulary (applyCacheMetrics addressed) maxBytes

theorem fitDigestCache_eq (digest : Cached DigestShard) (maxBytes : Nat)
    : fitDigestCache digest maxBytes = applyCacheMetrics (lastMeasured digest maxBytes) := by
  unfold fitDigestCache lastMeasured
  dsimp only
  split
  · rfl
  · split <;> rfl

theorem cutOf_lastMeasured (digest : Cached DigestShard) (maxBytes : Nat)
    : CutOf digest.content (lastMeasured digest maxBytes).content := by
  have measured : CutOf digest.content (applyCacheMetrics digest).content := CutOf.refl _
  have limited : CutOf digest.content (applyCacheMetrics digest).limited.content :=
    measured.limited
  have addressed := limited.cutAddresses maxBytes
  unfold lastMeasured
  dsimp only
  split
  · exact CutOf.refl _
  · split
    · exact addressed
    · have again : CutOf digest.content (applyCacheMetrics
          (cutAddresses (applyCacheMetrics digest).limited maxBytes)).content :=
        addressed
      exact again.cutVocabulary maxBytes

/-- The length that a fitted digest records is its length if and only if what is measured last
settles.
-/
theorem fitDigestCache_cacheBytes_iff (digest : Cached DigestShard) (maxBytes : Nat)
    : (fitDigestCache digest maxBytes).metrics.cacheBytes
        = serializedBytes (fitDigestCache digest maxBytes).json
      ↔ MetricsSettle (lastMeasured digest maxBytes) := by
  rw [fitDigestCache_eq]
  exact cacheBytes_eq_iff _

/-- The file that a load left is accepted, fresh, and gives the next load an equal value. -/
structure ReadsBack (read : Option (List UInt8) → Option Json) (state : SourceState)
    (policy : JsString) (next : Option (List UInt8) → LoadedCache) (first : LoadedCache)
    : Prop where
  accepted : read first.file = some first.value
  fresh : isCacheFresh first.value state policy = true
  next : next first.file = { file := first.file, value := first.value, wrote := false }

variable {state : SourceState}

theorem isCacheFresh_of_fields {cache : Json} {policy : JsString}
    (time : cache.field? "mtime" = some (.number state.mtime))
    (length : cache.field? "size" = some (.number (.int state.size)))
    (hash : cache.field? "sourceHash" = some (.string state.sourceHash))
    (policy_ : cache.field? "policy" = some (.string policy))
    : isCacheFresh cache state policy = true := by
  rw [isCacheFresh, time, length, hash, policy_, strictEqual_number, strictEqual_number,
    strictEqual_text, strictEqual_text]
  rfl

theorem isCacheFresh_indexedShard (ref : SessionRef) (options : MemoryIndexOptions)
    (view : LoadView) (state : SourceState)
    : isCacheFresh (applyCacheMetrics (indexedShard ref options view state)).json state
      (shardPolicy options view.lineage) = true :=
  isCacheFresh_of_fields (Shard.field? 4 rfl) (Shard.field? 5 rfl) (Shard.field? 6 rfl)
    (Shard.field? 9 rfl)

variable {ref : SessionRef} {options : MemoryIndexOptions} {view : LoadView}
  {file : Option (List UInt8)}

/-- Without a fresh cache file, the source that did not change is indexed and written. -/
theorem loadShard_of_stale (sourced : view.state = some state)
    (stale : freshShard ref options view state file = none) (still : view.unchanged state = true)
    : loadShard ref options view file
      = writeCacheFile view (applyCacheMetrics (indexedShard ref options view state)).json := by
  rw [loadShard, sourced]
  dsimp only
  rw [stale]
  dsimp only
  rw [if_pos still]

theorem loadShard_wrote (sourced : view.state = some state)
    (wrote : (loadShard ref options view file).wrote = true)
    : loadShard ref options view file = {
        file := some (bytes (applyCacheMetrics (indexedShard ref options view state)).json)
        value := (applyCacheMetrics (indexedShard ref options view state)).json
        wrote := true
      } := by
  cases held : freshShard ref options view state file with
  | some cached =>
    rw [loadShard, sourced] at wrote
    dsimp only at wrote
    rw [held] at wrote
    cases wrote
  | none =>
    by_cases still : view.unchanged state = true
    · rw [loadShard_of_stale sourced held still] at wrote ⊢
      have writable : view.writable = true := wrote
      rw [writeCacheFile, writable]
      rfl
    · rw [loadShard, sourced] at wrote
      dsimp only at wrote
      rw [held] at wrote
      dsimp only at wrote
      rw [if_neg still] at wrote
      cases wrote

/-- A shard is read back if and only if its metrics settle and it is within the limit. -/
theorem shard_readsBack_iff {next : LoadView} (sourced : view.state = some state)
    (still : next.state = some state) (lineage : next.lineage = view.lineage)
    (wrote : (loadShard ref options view file).wrote = true)
    : ReadsBack (readShardFile · (shardLimit options)) state (shardPolicy options view.lineage)
        (loadShard ref options next) (loadShard ref options view file)
      ↔ MetricsSettle (indexedShard ref options view state)
        ∧ serializedBytes (applyCacheMetrics (indexedShard ref options view state)).json
          ≤ shardLimit options := by
  rw [loadShard_wrote sourced wrote]
  have shape (size : Nat)
      : isShardFile (applyCacheMetrics (indexedShard ref options view state)).json size
        = decide ((applyCacheMetrics (indexedShard ref options view state)).metrics.cacheBytes
          = size) :=
    isShardFile_json state.hashed view.lineage.printed size
  rw [← cacheBytes_eq_iff]
  constructor
  · intro back
    obtain ⟨short, accepted⟩ := (readCacheFile_bytes _ _ _).mp back.accepted
    rw [shape] at accepted
    exact ⟨of_decide_eq_true accepted, short⟩
  · intro settled
    have accepted : readShardFile
        (some (bytes (applyCacheMetrics (indexedShard ref options view state)).json))
        (shardLimit options)
        = some (applyCacheMetrics (indexedShard ref options view state)).json := by
      refine (readCacheFile_bytes _ _ _).mpr ⟨settled.2, ?_⟩
      rw [shape]
      exact decide_eq_true settled.1
    have fresh := isCacheFresh_indexedShard ref options view state
    refine ⟨accepted, fresh, ?_⟩
    have file_ : (applyCacheMetrics (indexedShard ref options view state)).json.field? "sessionFile"
        = some (.string ref.file) :=
      Shard.field? 2 rfl
    unfold loadShard
    rw [still]
    dsimp only
    rw [freshShard, accepted, lineage, Option.filter_some, fresh, file_, strictEqual_text]
    rfl

variable (unicode : Unicode)

/-- A written digest is the indexed one, fitted, and it records a length within the limit. -/
theorem loadDigest_wrote (sourced : view.state = some state)
    (wrote : (loadDigest unicode ref options view file).wrote = true)
    : (fitDigestCache (indexedDigest unicode ref options view state)
          (digestLimit options)).metrics.cacheBytes ≤ digestLimit options
      ∧ loadDigest unicode ref options view file = {
        file := some (bytes (fitDigestCache (indexedDigest unicode ref options view state)
          (digestLimit options)).json)
        value := (fitDigestCache (indexedDigest unicode ref options view state)
          (digestLimit options)).json
        wrote := true
      } := by
  unfold loadDigest at wrote ⊢
  rw [sourced] at wrote ⊢
  dsimp only at wrote ⊢
  cases held : freshDigest ref options view state file with
  | some cached =>
    rw [held] at wrote
    cases wrote
  | none =>
    rw [held] at wrote
    dsimp only at wrote ⊢
    by_cases still : view.unchanged state = true
    · rw [if_pos still] at wrote ⊢
      by_cases short : (fitDigestCache (indexedDigest unicode ref options view state)
          (digestLimit options)).metrics.cacheBytes ≤ digestLimit options
      · rw [if_pos short] at wrote ⊢
        have writable : view.writable = true := wrote
        refine ⟨short, ?_⟩
        rw [writeCacheFile, writable]
        rfl
      · rw [if_neg short] at wrote
        cases wrote
    · rw [if_neg still] at wrote
      cases wrote

/-- A digest is read back if and only if the metrics of its last fit settle. -/
theorem digest_readsBack_iff {next : LoadView} (sourced : view.state = some state)
    (still : next.state = some state) (lineage : next.lineage = view.lineage)
    (wrote : (loadDigest unicode ref options view file).wrote = true)
    : ReadsBack (readDigestFile · (digestLimit options)) state (digestPolicy options view.lineage)
        (loadDigest unicode ref options next) (loadDigest unicode ref options view file)
      ↔ MetricsSettle
        (lastMeasured (indexedDigest unicode ref options view state) (digestLimit options)) := by
  obtain ⟨within, whole⟩ := loadDigest_wrote unicode sourced wrote
  rw [whole]
  have cut := cutOf_lastMeasured (indexedDigest unicode ref options view state)
    (digestLimit options)
  rw [← fitDigestCache_cacheBytes_iff]
  have content : (fitDigestCache (indexedDigest unicode ref options view state)
      (digestLimit options)).content
      = (lastMeasured (indexedDigest unicode ref options view state)
        (digestLimit options)).content := by
    rw [fitDigestCache_eq]
    rfl
  rw [← content] at cut
  revert cut within
  generalize fitDigestCache (indexedDigest unicode ref options view state) (digestLimit options)
    = fitted
  intro within cut
  have ascending : fitted.content.vocabulary.Pairwise (· < ·) :=
    (vocabulary_ascending unicode _).sublist cut.vocabulary.sublist
  have hashed : fitted.content.sourceHash.length = 64 := by
    rw [cut.sourceHash]
    exact state.hashed
  have printed : fitted.content.lineageFingerprint.length = 64 := by
    rw [cut.lineageFingerprint]
    exact view.lineage.printed
  have shape := isDigestFile_json hashed printed ascending
  constructor
  · intro back
    obtain ⟨short, accepted⟩ := (readCacheFile_bytes _ _ _).mp back.accepted
    rw [shape] at accepted
    exact of_decide_eq_true accepted
  · intro settled
    have short : serializedBytes fitted.json ≤ digestLimit options := settled ▸ within
    have accepted : readDigestFile (some (bytes fitted.json)) (digestLimit options)
        = some fitted.json := by
      refine (readCacheFile_bytes _ _ _).mpr ⟨short, ?_⟩
      rw [shape]
      exact decide_eq_true settled
    have time : fitted.json.field? "mtime" = some (.number fitted.content.mtime) :=
      DigestShard.field? 14 rfl
    have length : fitted.json.field? "size" = some (.number (.int fitted.content.size)) :=
      DigestShard.field? 15 rfl
    have hash : fitted.json.field? "sourceHash" = some (.string fitted.content.sourceHash) :=
      DigestShard.field? 16 rfl
    have policy : fitted.json.field? "policy" = some (.string fitted.content.policy) :=
      DigestShard.field? 19 rfl
    have file_ : fitted.json.field? "file" = some (.string fitted.content.file) :=
      DigestShard.field? 3 rfl
    rw [cut.mtime] at time
    rw [cut.size] at length
    rw [cut.sourceHash] at hash
    rw [cut.policy] at policy
    rw [cut.file] at file_
    have fresh : isCacheFresh fitted.json state (digestPolicy options view.lineage) = true :=
      isCacheFresh_of_fields time length hash policy
    refine ⟨accepted, fresh, ?_⟩
    unfold loadDigest
    rw [still]
    dsimp only
    rw [freshDigest, accepted, lineage, Option.filter_some, fresh, file_, decide_eq_true short]
    have same : strictEqual
        (some (.string (indexedDigest unicode ref options view state).content.file))
        (some (.string ref.file)) = true :=
      strictEqual_text ref.file
    rw [same]
    rfl

/-- A cache value records its own length if and only if the lengths that it is measured at settle,
and a cache file is read back if and only if they do for the shard, which also has to be within the
limit of its readers, or for the digest as it is measured last.
-/
theorem cache_readsBack_iff_settles {β : Type} [CacheRecord β] (value : Cached β)
    (digest : Cached DigestShard) (maxBytes : Nat) (ref : SessionRef)
    (options : MemoryIndexOptions) {view next : LoadView} {state : SourceState}
    (file : Option (List UInt8)) (sourced : view.state = some state)
    (still : next.state = some state) (lineage : next.lineage = view.lineage)
    : ((applyCacheMetrics value).metrics.cacheBytes = serializedBytes (applyCacheMetrics value).json
        ↔ MetricsSettle value)
      ∧ ((fitDigestCache digest maxBytes).metrics.cacheBytes
          = serializedBytes (fitDigestCache digest maxBytes).json
        ↔ MetricsSettle (lastMeasured digest maxBytes))
      ∧ ((loadShard ref options view file).wrote = true →
        (ReadsBack (readShardFile · (shardLimit options)) state (shardPolicy options view.lineage)
            (loadShard ref options next) (loadShard ref options view file)
          ↔ MetricsSettle (indexedShard ref options view state)
            ∧ serializedBytes (applyCacheMetrics (indexedShard ref options view state)).json
              ≤ shardLimit options))
      ∧ ((loadDigest unicode ref options view file).wrote = true →
        (ReadsBack (readDigestFile · (digestLimit options)) state
            (digestPolicy options view.lineage)
            (loadDigest unicode ref options next) (loadDigest unicode ref options view file)
          ↔ MetricsSettle (lastMeasured (indexedDigest unicode ref options view state)
            (digestLimit options)))) :=
  ⟨cacheBytes_eq_iff value, fitDigestCache_cacheBytes_iff digest maxBytes,
    shard_readsBack_iff sourced still lineage, digest_readsBack_iff unicode sourced still lineage⟩

/-- A session with nothing but its header, in a file of the given length and hash. -/
def headerState (size : Nat) (sourceHash : JsString) (hashed : sourceHash.length = 64)
    : SourceState where
  mtime := .int 1700000000000
  size := size
  sourceHash := sourceHash
  hashed := hashed

def headerLineage : SessionLineage where
  branches := .active
  fingerprint := lit "ac4b567c878934fc9b8d76ae967a962bd7c83acdc833a2b2ae87b9577f7347af"
  printed := by decide

/-- A load that finds such a session and may write its cache file. -/
def headerView (state : SourceState) : LoadView where
  state := some state
  lineage := headerLineage
  normalized := {
    entries := []
    header := some { sessionId := lit "s1", cwd := lit "/w" }
    indexCoverage := { complete := true, reasons := [] }
  }
  finalState := some state
  finalLineage := headerLineage
  removable := true
  writable := true
  torn := none

def headerRef : SessionRef where
  file := lit "/s.jsonl"
  id := lit "s1"
  cwd := lit "/w"

def headerOptions : MemoryIndexOptions where
  maxEntryChars := 4000

/-- The header line and an empty line: 41 bytes. -/
def settledState : SourceState :=
  headerState 41 (lit "89dd233038e2976a875998811811d3371cd840dcb7d5562700cb260215fc97dd")
    (by decide)

/-- The header line alone: 40 bytes. -/
def unsettledState : SourceState :=
  headerState 40 (lit "8819d37e1de839d8bad44f62e9e99ac741e608ce48645b32f62bcc972f50f0ce")
    (by decide)

/-- All but the two numbers of its shard takes 565 bytes. -/
theorem fixedBytes_settled
    : fixedBytes (indexedShard headerRef headerOptions (headerView settledState)
        settledState).content = 565 := by
  decide +kernel

theorem fixedBytes_unsettled
    : fixedBytes (indexedShard headerRef headerOptions (headerView unsettledState)
        unsettledState).content = 565 := by
  decide +kernel

theorem unchanged_header (state : SourceState) : (headerView state).unchanged state = true := by
  simp [LoadView.unchanged, headerView]

theorem wrote_header (state : SourceState)
    : (loadShard headerRef headerOptions (headerView state) none).wrote = true := by
  rw [loadShard_of_stale rfl rfl (unchanged_header state)]
  rfl

theorem cache_readsBack_iff_settles_header
    : ReadsBack (readShardFile · (shardLimit headerOptions)) settledState
      (shardPolicy headerOptions headerLineage)
      (loadShard headerRef headerOptions (headerView settledState))
      (loadShard headerRef headerOptions (headerView settledState) none) := by
  have settles : MetricsSettle
      (indexedShard headerRef headerOptions (headerView settledState) settledState) := by
    rw [MetricsSettle, serializedBytes_cached, fixedBytes_settled]
    decide +kernel
  have short : serializedBytes (applyCacheMetrics
      (indexedShard headerRef headerOptions (headerView settledState) settledState)).json
      ≤ shardLimit headerOptions := by
    rw [serializedBytes_applyCacheMetrics, serializedBytes_cached, fixedBytes_settled]
    decide +kernel
  exact ((cache_readsBack_iff_settles
      ⟨fun text => text, fun _ => false, fun text => text⟩
      (indexedShard headerRef headerOptions (headerView settledState) settledState)
      (missingDigest headerRef headerLineage (lit "source_unavailable")) 0
      headerRef headerOptions none rfl rfl rfl).2.2.1 (wrote_header _)).mpr ⟨settles, short⟩

/-- Of 40 bytes, 574 bytes at a ratio of 14.35 take 573, and 573 at 14.325 take 574: the shard
records 574 bytes in a file of 573, and the next load does not read it.
-/
theorem cache_not_read_back
    : (loadShard headerRef headerOptions (headerView unsettledState) none).wrote = true
      ∧ (applyCacheMetrics (indexedShard headerRef headerOptions (headerView unsettledState)
          unsettledState)).metrics.cacheBytes = 574
      ∧ serializedBytes (applyCacheMetrics (indexedShard headerRef headerOptions
          (headerView unsettledState) unsettledState)).json = 573
      ∧ readShardFile (loadShard headerRef headerOptions (headerView unsettledState) none).file
          (shardLimit headerOptions) = none
      ∧ (loadShard headerRef headerOptions (headerView unsettledState)
          (loadShard headerRef headerOptions (headerView unsettledState) none).file).wrote
        = true := by
  have recorded_ : (applyCacheMetrics (indexedShard headerRef headerOptions
      (headerView unsettledState) unsettledState)).metrics.cacheBytes = 574 := by
    rw [cacheBytes_applyCacheMetrics, serializedBytes_cached, fixedBytes_unsettled]
    decide +kernel
  have length : serializedBytes (applyCacheMetrics (indexedShard headerRef headerOptions
      (headerView unsettledState) unsettledState)).json = 573 := by
    rw [serializedBytes_applyCacheMetrics, serializedBytes_cached, fixedBytes_unsettled]
    decide +kernel
  have written := loadShard_wrote rfl (wrote_header unsettledState)
  have unread : readShardFile (loadShard headerRef headerOptions (headerView unsettledState)
      none).file (shardLimit headerOptions) = none := by
    rw [written]
    refine readCacheFile_refused fun _ => ?_
    rw [isShardFile_json unsettledState.hashed headerLineage.printed, recorded_, length]
    rfl
  have stale : freshShard headerRef headerOptions (headerView unsettledState) unsettledState
      (loadShard headerRef headerOptions (headerView unsettledState) none).file = none := by
    rw [freshShard, unread]
    rfl
  refine ⟨wrote_header _, recorded_, length, unread, ?_⟩
  rw [loadShard_of_stale rfl stale (unchanged_header _)]
  rfl

end PiFabric.Memory
