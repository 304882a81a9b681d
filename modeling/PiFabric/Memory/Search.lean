import PiFabric.Memory.Query

/-! Search by a regular expression, which a worker tests against the texts of the shards and the
terms of the digests. The worker is a parameter: what the expression matches, and whether it
answers.
-/

namespace PiFabric.Memory

open JsString

inductive RegexErrorCode where
  | invalidRegex
  | regexPatternTooLarge
  | regexTimeout
  | regexWorkerError
  deriving DecidableEq

def RegexErrorCode.text : RegexErrorCode → JsString
  | invalidRegex => lit "invalid_regex"
  | regexPatternTooLarge => lit "regex_pattern_too_large"
  | regexTimeout => lit "regex_timeout"
  | regexWorkerError => lit "regex_worker_error"

structure RegexExecutionError where
  code : RegexErrorCode
  message : JsString

inductive RegexExecutionResult where
  | complete (matched : List Nat)
  | failed (error : RegexExecutionError)

structure RegexWorker where
  /-- `new RegExp(pattern, "iu").test(haystack)`. -/
  test : JsString → JsString → Bool
  /-- What goes wrong in the worker or with its time. -/
  failure : JsString → List JsString → Int → Option RegexExecutionError

def tooLargeError (patternBytes : Nat) (maxPatternBytes : Int) : RegexExecutionError where
  code := .regexPatternTooLarge
  message := lit "Regex pattern is " ++ Json.digits patternBytes ++ lit " bytes; limit is "
    ++ Json.integerToken maxPatternBytes ++ lit "."

def executeBoundedRegex (worker : RegexWorker) (pattern : JsString) (haystacks : List JsString)
    (maxPatternBytes timeoutMs : Int)
    : RegexExecutionResult :=
  if maxPatternBytes < Utf8.byteLength pattern then
    .failed (tooLargeError (Utf8.byteLength pattern) maxPatternBytes)
  else
    match worker.failure pattern haystacks timeoutMs with
    | some error => .failed error
    | none =>
        .complete ((List.range haystacks.length).filter fun index =>
          haystacks[index]?.any (worker.test pattern))

/-- What a haystack stands for; a digest is known by its place. -/
inductive RegexTarget where
  | hot (shard : Shard) (entry : NormalizedEntry)
  | cold (place : Nat) (digest : DigestShard)

/-- The targets that were taken with their haystacks, and why not all were. -/
structure RegexTargets where
  taken : List (JsString × RegexTarget) := []
  bytes : Nat := 0
  reason : Option JsString := none

/-- The targets in turn, up to the first one that the limits do not leave room for. -/
def appendTargets (maxTerms maxBytes : Int) (targets : RegexTargets)
    : List (JsString × RegexTarget) → RegexTargets
  | [] => targets
  | target :: rest =>
      let nextBytes := Utf8.byteLength target.1
      if maxTerms ≤ targets.taken.length then
        { targets with reason := some (lit "regex_max_haystack_terms") }
      else if maxBytes < ((targets.bytes + nextBytes : Nat) : Int) then
        { targets with reason := some (lit "regex_max_haystack_bytes") }
      else
        appendTargets maxTerms maxBytes
          { taken := targets.taken ++ [target], bytes := targets.bytes + nextBytes } rest

def hotTargets (shards : List Shard) (filters : SearchFilters) : List (JsString × RegexTarget) :=
  shards.flatMap fun shard =>
    (shard.entries.filter fun entry => matchesFilters entry filters).map fun entry =>
      (entry.text, .hot shard entry)

def coldTargets (digests : List DigestShard) (filters : SearchFilters)
    : List (JsString × RegexTarget) :=
  (digests.zipIdx.filter fun digest => digestCanMatchFilters digest.1 filters).flatMap
    fun digest => digest.1.vocabulary.map fun term => (term, .cold digest.2 digest.1)

def collectRegexTargets (shards : List Shard) (digests : List DigestShard) (filters : SearchFilters)
    (maxTerms maxBytes : Int)
    : RegexTargets :=
  let hot := appendTargets maxTerms maxBytes {} (hotTargets shards filters)
  if hot.reason = none then appendTargets maxTerms maxBytes hot (coldTargets digests filters)
  else hot

structure QueryCoverage where
  complete : Bool
  reasons : List JsString
  error : Option RegexExecutionError := none

structure RegexSearch where
  located : List LocatedEntry
  digestHits : List DigestHit
  coverage : QueryCoverage

def hotMatches (filters : SearchFilters) (matched : List (JsString × RegexTarget))
    : List LocatedEntry :=
  matched.filterMap fun target =>
    match target.2 with
    | .hot shard entry => some {
        entry, matched := true, sessionMtime := shard.mtime
        score := lexicalProvenanceWeight entry filters
      }
    | .cold _ _ => none

def countCold (counts : JsMap Nat (DigestShard × Nat)) (target : JsString × RegexTarget)
    : JsMap Nat (DigestShard × Nat) :=
  match target.2 with
  | .hot _ _ => counts
  | .cold place digest =>
      counts.set place (digest, ((counts.get? place).map (·.2)).getD 0 + 1)

def coldMatches (matched : List (JsString × RegexTarget)) : JsMap Nat (DigestShard × Nat) :=
  matched.foldl countCold .empty

def searchRegex (worker : RegexWorker) (shards : List Shard) (digests : List DigestShard)
    (pattern : JsString) (filters : SearchFilters) (query : SearchQuery)
    : RegexSearch :=
  let limits := query.regexLimits.getD defaultRegexLimits
  let collected :=
    collectRegexTargets shards digests filters limits.maxHaystackTerms limits.maxHaystackBytes
  match executeBoundedRegex worker pattern (collected.taken.map Prod.fst) limits.maxPatternBytes
      limits.timeoutMs with
  | .failed error => {
      located := []
      digestHits := []
      coverage := { complete := false, reasons := [error.code.text], error := some error }
    }
  | .complete indexes =>
      let matched := indexes.filterMap fun index => collected.taken[index]?
      let cold := coldMatches matched
      let reasons := collected.reason.toList
        ++ if cold.entries ≠ [] ∧ hasFilters filters then
          [lit "cold_structural_filter_requires_hydration"] else []
      { located := hotMatches filters matched
        digestHits := cold.entries.map fun entry =>
          toDigestHit entry.2.1 entry.2.2 entry.2.2
            (digestStructuralMatchCount entry.2.1 filters)
        coverage := {
          complete := collected.reason.isNone && reasons.isEmpty
          reasons := JsString.sorted reasons
        } }

end PiFabric.Memory

/-! The result of a search: the sessions of the located entries cut into segments at the entries
that start a turn, and the segments and hits with the best ones first.
-/

namespace PiFabric.Memory

open JsString

structure SearchSegmentEntry where
  entry : NormalizedEntry
  matched : Bool
  /-- The marker is `>`, and a blank otherwise. -/
  marked : Bool
  score : ℚ

structure ExactEntryAddress where
  index : Nat
  entryId : Option JsString
  operationAddress : Option JsString

structure SearchSegment where
  sessionId : JsString
  sessionFile : JsString
  sourceHash : JsString
  branches : MemoryBranches
  lineageFingerprint : JsString
  sessionMtime : JsNumber
  range : JsString
  first : Nat
  last : Nat
  entries : List SearchSegmentEntry
  exactMatches : List ExactEntryAddress
  matchedCount : Nat
  score : ℚ
  tier : MemoryTier

def SearchSegment.firstIndex (segment : SearchSegment) : Nat :=
  (segment.entries.head?.map fun item => item.entry.index).getD 0

inductive SearchItem where
  | entry (segment : SearchSegment)
  | digest (hit : DigestHit)

inductive MemoryMatchMode where
  | browse
  | lexical
  | phrase
  | regex
  | structural
  | combined
  deriving DecidableEq

structure SearchResult where
  matchMode : MemoryMatchMode
  matchedCount : Nat
  totalMatches : Nat
  totalItems : Nat
  segmentCount : Nat
  segments : List SearchSegment
  digestHits : List DigestHit
  items : List SearchItem
  queryCoverage : QueryCoverage

def segmentStartRoles : List JsString :=
  [lit "user", lit "bashExecution", lit "compaction"]

def startsSegment (entry : NormalizedEntry) : Bool :=
  entry.role.any fun role => decide (role ∈ segmentStartRoles)

/-- The entries cut before each one that starts a segment; `current` is the open piece. -/
def segmentEntries (current : List NormalizedEntry) : List NormalizedEntry
    → List (List NormalizedEntry)
  | [] => if current = [] then [] else [current]
  | entry :: rest =>
      if current ≠ [] ∧ startsSegment entry then current :: segmentEntries [entry] rest
      else segmentEntries (current ++ [entry]) rest

/-- What was located of each session, in the order in which its first entry was. -/
structure LocatedSessions where
  /-- The indices of the located entries of a file. -/
  matchedBySession : JsMap JsString (List Nat) := .empty
  /-- The score of the entry of a file and an index. -/
  scores : JsMap (JsString × Nat) ℚ := .empty

def locateEntry (sessions : LocatedSessions) (item : LocatedEntry) : LocatedSessions where
  matchedBySession := sessions.matchedBySession.set item.entry.sessionFile
    (((sessions.matchedBySession.get? item.entry.sessionFile).getD []) ++ [item.entry.index])
  scores := sessions.scores.set (item.entry.sessionFile, item.entry.index) item.score

def locateEntries (located : List LocatedEntry) : LocatedSessions :=
  located.foldl locateEntry {}

def rangeText (first last : Nat) : JsString :=
  if last = first then lit "#" ++ Json.digits first
  else lit "#" ++ Json.digits first ++ lit "-#" ++ Json.digits last

def maxScore (scores : List ℚ) : ℚ :=
  scores.foldl max 0

def segmentOf (shard : Shard) (sessions : LocatedSessions) (matchedSet : List Nat)
    (markOnlyMatches : Bool) (piece : List NormalizedEntry)
    : SearchSegment :=
  let scoreOf := fun entry : NormalizedEntry =>
    (sessions.scores.get? (shard.sessionFile, entry.index)).getD 0
  let entries := piece.map fun entry =>
    { entry
      matched := decide (entry.index ∈ matchedSet)
      marked := !markOnlyMatches || decide (entry.index ∈ matchedSet)
      score := if entry.index ∈ matchedSet then scoreOf entry else 0 : SearchSegmentEntry }
  let matchedEntries := entries.filter (·.matched)
  let first := (piece.head?.map (·.index)).getD 0
  let last := (piece.getLast?.map (·.index)).getD 0
  { sessionId := shard.sessionId
    sessionFile := shard.sessionFile
    sourceHash := shard.sourceHash
    branches := shard.branches
    lineageFingerprint := shard.lineageFingerprint
    sessionMtime := shard.mtime
    range := rangeText first last
    first
    last
    entries
    exactMatches := matchedEntries.map fun item =>
      { index := item.entry.index, entryId := item.entry.entryId
        operationAddress := item.entry.operationAddress }
    matchedCount := matchedEntries.length
    score := maxScore (matchedEntries.map fun item => scoreOf item.entry)
    tier := shard.tier.getD .hot }

/-- The segments of one session, without those that have no match where only matches are marked. -/
def sessionSegments (shard : Shard) (sessions : LocatedSessions) (matchedSet : List Nat)
    (markOnlyMatches : Bool)
    : List SearchSegment :=
  ((segmentEntries [] shard.entries).map
    (segmentOf shard sessions matchedSet markOnlyMatches)).filter fun segment =>
      !(markOnlyMatches && segment.matchedCount = 0)

def shardOfFile (shards : List Shard) (file : JsString) : Option Shard :=
  shards.reverse.find? fun shard => shard.sessionFile = file

def searchSegments (shards : List Shard) (sessions : LocatedSessions) (markOnlyMatches : Bool)
    : List SearchSegment :=
  sessions.matchedBySession.entries.flatMap fun session =>
    match shardOfFile shards session.1 with
    | none => []
    | some shard => sessionSegments shard sessions session.2 markOnlyMatches

def SearchItem.score : SearchItem → ℚ
  | entry segment => segment.score
  | digest hit => hit.score

def SearchItem.sessionMtime : SearchItem → ℚ
  | entry segment => segment.sessionMtime.value
  | digest hit => hit.sessionMtime.value

def itemBefore (left right : SearchItem) : Bool :=
  if right.score ≠ left.score then right.score < left.score
  else if right.sessionMtime ≠ left.sessionMtime then right.sessionMtime < left.sessionMtime
  else
    match left, right with
    | .entry _, .digest _ => true
    | .digest _, .entry _ => false
    | .entry left, .entry right =>
        if left.firstIndex ≠ right.firstIndex then left.firstIndex < right.firstIndex
        else JsString.le left.sessionFile right.sessionFile
    | .digest left, .digest right => JsString.le left.sessionFile right.sessionFile

def SearchItem.segment? : SearchItem → Option SearchSegment
  | entry segment => some segment
  | digest _ => none

def SearchItem.digest? : SearchItem → Option DigestHit
  | entry _ => none
  | digest hit => some hit

def limitedCoverage (coverage : QueryCoverage) (exceeded : Bool) : QueryCoverage :=
  if exceeded then
    { coverage with
      complete := false
      reasons := JsString.sorted ((coverage.reasons ++ [lit "candidate_item_budget"]).eraseDups) }
  else coverage

def groupIntoResults (shards : List Shard) (located : List LocatedEntry)
    (digestHits : List DigestHit) (markOnlyMatches : Bool) (matchMode : MemoryMatchMode)
    (maxItems : Nat) (queryCoverage : QueryCoverage)
    : SearchResult :=
  if located.isEmpty && digestHits.isEmpty then
    { matchMode, matchedCount := 0, totalMatches := 0, totalItems := 0, segmentCount := 0
      segments := [], digestHits := [], items := [], queryCoverage }
  else
    let segments := searchSegments shards (locateEntries located) markOnlyMatches
    let items := (segments.map SearchItem.entry ++ digestHits.map SearchItem.digest).mergeSort
      itemBefore
    let limitedItems := items.take maxItems
    let limitedSegments := limitedItems.filterMap SearchItem.segment?
    let limitedDigests := limitedItems.filterMap SearchItem.digest?
    let matchedCount := (limitedSegments.map (·.matchedCount)).sum + limitedDigests.length
    { matchMode
      matchedCount
      totalMatches := matchedCount
      totalItems := limitedItems.length
      segmentCount := limitedSegments.length
      segments := limitedSegments
      digestHits := limitedDigests
      items := limitedItems
      queryCoverage := limitedCoverage queryCoverage (maxItems < items.length) }

end PiFabric.Memory

/-! The search over hot shards and cold digests. Each mode has its own budgets, and each reason for
which something may be missing makes the coverage of the query incomplete.
-/

namespace PiFabric.Memory

open JsString

variable (unicode : Unicode) (logarithm : Logarithm) (worker : RegexWorker)

/-- What one mode of search finds, before the results are grouped. -/
structure ModeSearch where
  located : List LocatedEntry
  digestHits : List DigestHit
  coverage : QueryCoverage := { complete := true, reasons := [] }
  /-- The reasons that the mode adds to its coverage. -/
  reasons : List JsString

def reasonIf (condition : Bool) (reason : String) : List JsString :=
  if condition then [lit reason] else []

def browseSearch (shards : List Shard) (digests : List DigestShard) (filters : SearchFilters)
    (maxEntries maxDigests : Nat)
    : ModeSearch :=
  let score : ℚ := if hasFilters filters then 1 else 0
  let eligible := digests.filter fun digest => digestCanMatchFilters digest filters
  { located := collectRecent shards filters maxEntries score
    digestHits := (eligible.take maxDigests).map fun digest =>
      toDigestHit digest score 0 (digestStructuralMatchCount digest filters)
    reasons :=
      reasonIf (maxEntries < filteredEntryCount shards filters) "candidate_entry_budget"
        ++ reasonIf (maxDigests < eligible.length) "candidate_digest_budget" }

def regexSearch (shards : List Shard) (digests : List DigestShard) (pattern : JsString)
    (filters : SearchFilters) (query : SearchQuery) (maxEntries maxDigests : Nat)
    : ModeSearch :=
  let result := searchRegex worker shards digests pattern filters query
  { located := sortLocated (result.located.take maxEntries)
    digestHits := result.digestHits.take maxDigests
    coverage := result.coverage
    reasons :=
      reasonIf (maxEntries < result.located.length) "candidate_entry_budget"
        ++ reasonIf (maxDigests < result.digestHits.length) "candidate_digest_budget" }

def phraseSearch (shards : List Shard) (digests : List DigestShard) (phrase : JsString)
    (terms : List JsString) (filters : SearchFilters) (maxEntries maxDigests : Nat)
    : ModeSearch :=
  let result := scoreDigestTerms logarithm digests terms filters maxDigests .all
  { located := collectPhraseMatches unicode shards phrase filters maxEntries
    digestHits := result.hits
    reasons :=
      reasonIf (maxEntries < filteredEntryCount shards filters) "candidate_entry_budget"
        ++ reasonIf (!result.complete) "candidate_digest_budget"
        ++ reasonIf (!result.hits.isEmpty) "cold_phrase_requires_hydration"
        ++ reasonIf (!result.hits.isEmpty && hasFilters filters)
          "cold_structural_filter_requires_hydration" }

def termSearch (shards : List Shard) (digests : List DigestShard) (terms : List JsString)
    (match_ : MemoryQueryMatch) (filters : SearchFilters) (maxEntries maxDigests : Nat)
    : ModeSearch :=
  let result := scoreDigestTerms logarithm digests terms filters maxDigests match_
  { located := collectTermMatches unicode logarithm shards terms filters maxEntries match_
    digestHits := result.hits
    reasons :=
      reasonIf (maxEntries < filteredEntryCount shards filters) "candidate_entry_budget"
        ++ reasonIf (!result.complete) "candidate_digest_budget"
        ++ reasonIf (!result.hits.isEmpty && match_ = .all && 1 < terms.length)
          "cold_all_terms_requires_hydration"
        ++ reasonIf (!result.hits.isEmpty && hasFilters filters)
          "cold_structural_filter_requires_hydration" }

def planSearch (shards : List Shard) (digests : List DigestShard) (query : SearchQuery)
    (filters : SearchFilters) (maxEntries maxDigests : Nat)
    : MemoryQueryPlan → ModeSearch
  | .browse => browseSearch shards digests filters maxEntries maxDigests
  | .regex pattern =>
      regexSearch worker shards digests pattern filters query maxEntries maxDigests
  | .phrase phrase terms =>
      phraseSearch unicode logarithm shards digests phrase terms filters maxEntries maxDigests
  | .terms terms match_ =>
      termSearch unicode logarithm shards digests terms match_ filters maxEntries maxDigests

def matchModeOf (filtered : Bool) : MemoryQueryPlan → MemoryMatchMode
  | .browse => if filtered then .structural else .browse
  | .regex _ => if filtered then .combined else .regex
  | .phrase _ _ => if filtered then .combined else .phrase
  | .terms _ _ => if filtered then .combined else .lexical

def MemoryQueryPlan.isBrowse : MemoryQueryPlan → Bool
  | browse => true
  | _ => false

def hitBefore (left right : DigestHit) : Bool :=
  if right.score ≠ left.score then right.score < left.score
  else if right.sessionMtime.value ≠ left.sessionMtime.value then
    right.sessionMtime.value < left.sessionMtime.value
  else JsString.le left.sessionFile right.sessionFile

def sortDigestHits (hits : List DigestHit) : List DigestHit :=
  hits.mergeSort hitBefore

def SearchQuery.plan (query : SearchQuery) : MemoryQueryPlan :=
  planMemoryQuery unicode query.query (query.queryMode.getD .literal) (query.queryMatch.getD .any)

def searchMemoryIndex (shards : List Shard) (digests : List DigestShard) (query : SearchQuery)
    : SearchResult :=
  let filters := query.filters.getD {}
  let plan := query.plan unicode
  let limits := query.candidateLimits.getD defaultCandidateLimits
  let found := planSearch unicode logarithm worker shards digests query filters
    (budget limits.maxEntries) (budget limits.maxDigests) plan
  let reasons := (found.reasons ++ found.coverage.reasons).eraseDups
  groupIntoResults shards found.located (sortDigestHits found.digestHits)
    (!plan.isBrowse || hasFilters filters) (matchModeOf (hasFilters filters) plan)
    (budget limits.maxItems)
    { found.coverage with
      complete := found.coverage.complete && reasons.isEmpty
      reasons := JsString.sorted reasons }

end PiFabric.Memory
