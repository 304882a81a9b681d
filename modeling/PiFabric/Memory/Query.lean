import PiFabric.Memory.CacheFiles

/-! What a search asks for: a query that is planned once, and structural filters that are compared
with the entries of a shard and with the addresses of a digest.
-/

namespace PiFabric.Memory

open JsString

inductive MemoryQueryMode where
  | literal
  | phrase
  | regex
  deriving DecidableEq

inductive MemoryQueryMatch where
  | all
  | any
  deriving DecidableEq

inductive MemoryQueryPlan where
  | browse
  | terms (terms : List JsString) (match_ : MemoryQueryMatch)
  | phrase (phrase : JsString) (terms : List JsString)
  | regex (pattern : JsString)

variable (unicode : Unicode)

def queryTerms (query : JsString) : List JsString :=
  (tokenizeLexical unicode query).eraseDups

def planMemoryQuery (query : Option JsString) (mode : MemoryQueryMode) (match_ : MemoryQueryMatch)
    : MemoryQueryPlan :=
  match query with
  | none => .browse
  | some query =>
      if trim query = [] then .browse
      else
        match mode with
        | .regex => .regex query
        | .phrase => .phrase (normalizeMemoryPhrase unicode (trim query)) (queryTerms unicode query)
        | .literal => .terms (queryTerms unicode query) match_

structure SearchFilters where
  role : Option JsString := none
  tool : Option JsString := none
  ref : Option JsString := none
  provider : Option JsString := none
  action : Option JsString := none
  outcome : Option FabricExecutionOutcome := none
  since : Option JsNumber := none
  until_ : Option JsNumber := none

def equals {α : Type} [DecidableEq α] (filter value : Option α) : Bool :=
  filter.isNone || filter = value

def SearchFilters.covers (filters : SearchFilters) (timestamp : Option JsNumber) : Bool :=
  timestamp.all fun time =>
    (filters.since.all fun since => since.value ≤ time.value)
      && filters.until_.all fun until_ => time.value ≤ until_.value

def matchesFilters (entry : NormalizedEntry) (filters : SearchFilters) : Bool :=
  equals filters.role entry.role && equals filters.tool entry.toolName
    && equals filters.ref entry.ref && equals filters.provider entry.provider
    && equals filters.action entry.action && equals filters.outcome entry.outcome
    && filters.covers entry.timestamp

def addressMatchesFilters (address : DigestEntryAddress) (filters : SearchFilters) : Bool :=
  equals filters.role address.role && equals filters.tool address.toolName
    && equals filters.ref address.ref && equals filters.provider address.provider
    && equals filters.action address.action && equals filters.outcome address.outcome
    && filters.covers address.timestamp

theorem addressMatchesFilters_addressOf (entry : NormalizedEntry) (filters : SearchFilters)
    : addressMatchesFilters (addressOf entry) filters = matchesFilters entry filters :=
  rfl

def hasFilters (filters : SearchFilters) : Bool :=
  filters.role.isSome || filters.tool.isSome || filters.ref.isSome || filters.provider.isSome
    || filters.action.isSome || filters.outcome.isSome || filters.since.isSome
    || filters.until_.isSome

def digestStructuralMatchCount (digest : DigestShard) (filters : SearchFilters) : Nat :=
  if hasFilters filters then
    (digest.addresses.filter fun address => addressMatchesFilters address filters).length
  else 0

def digestCanMatchFilters (digest : DigestShard) (filters : SearchFilters) : Bool :=
  !hasFilters filters || 0 < digestStructuralMatchCount digest filters

structure CandidateLimits where
  maxEntries : Int
  maxDigests : Int
  maxItems : Int

structure RegexLimits where
  maxPatternBytes : Int
  maxHaystackTerms : Int
  maxHaystackBytes : Int
  timeoutMs : Int

structure SearchQuery where
  query : Option JsString := none
  queryMode : Option MemoryQueryMode := none
  queryMatch : Option MemoryQueryMatch := none
  filters : Option SearchFilters := none
  candidateLimits : Option CandidateLimits := none
  regexLimits : Option RegexLimits := none

def defaultCandidateLimits : CandidateLimits where
  maxEntries := 50000
  maxDigests := 10000
  maxItems := 10000

def defaultRegexLimits : RegexLimits where
  maxPatternBytes := 1024
  maxHaystackTerms := 20000
  maxHaystackBytes := 2 * 1024 * 1024
  timeoutMs := 250

def budget (limit : Int) : Nat :=
  (max 1 limit).toNat

end PiFabric.Memory

/-! The entries that a search locates, with their scores. A score is a rational number, from a
logarithm that is a parameter; sorting by scores only changes the order of what is located.
-/

namespace PiFabric.Memory

open JsString

structure LocatedEntry where
  entry : NormalizedEntry
  matched : Bool
  sessionMtime : JsNumber
  score : ℚ

structure IndexedEntry where
  entry : NormalizedEntry
  sessionMtime : JsNumber

structure ScoredEntry extends IndexedEntry where
  score : ℚ
  matchedTerms : Nat

def filteredEntries (shards : List Shard) (filters : SearchFilters) : List IndexedEntry :=
  shards.flatMap fun shard =>
    (shard.entries.filter fun entry => matchesFilters entry filters).map fun entry =>
      { entry, sessionMtime := shard.mtime }

def filteredEntryCount (shards : List Shard) (filters : SearchFilters) : Nat :=
  (filteredEntries shards filters).length

/-- The order in which entries are listed: the newest session first, then by place, then by file. -/
def recentBefore (left right : IndexedEntry) : Bool :=
  if right.sessionMtime.value ≠ left.sessionMtime.value then
    right.sessionMtime.value < left.sessionMtime.value
  else if left.entry.index ≠ right.entry.index then left.entry.index < right.entry.index
  else JsString.le left.entry.sessionFile right.entry.sessionFile

def scoredBefore (leftScore rightScore : ℚ) (left right : IndexedEntry) : Bool :=
  if rightScore ≠ leftScore then rightScore < leftScore else recentBefore left right

def lexicalProvenanceWeight (entry : NormalizedEntry) (filters : SearchFilters) : ℚ :=
  if filters.tool.isSome || filters.ref.isSome || filters.provider.isSome || filters.action.isSome
      || filters.outcome.isSome then 1
  else if entry.toolName = none ∧ entry.role = some (lit "assistant") then 5 / 2
  else if entry.toolName = none ∧ entry.role = some (lit "user") then 9 / 4
  else if entry.toolName = none
      ∧ (entry.role = some (lit "compactionSummary") ∨ entry.role = some (lit "custom")) then 3 / 2
  else if entry.role = some (lit "toolResult")
      ∨ entry.role = some (lit "fabricOperation") then 3 / 4
  else if entry.toolName.isSome then 7 / 10
  else 1

def sortLocated (located : List LocatedEntry) : List LocatedEntry :=
  located.mergeSort fun left right =>
    scoredBefore left.score right.score ⟨left.entry, left.sessionMtime⟩
      ⟨right.entry, right.sessionMtime⟩

def recentEntries (shards : List Shard) (filters : SearchFilters) (limit : Nat)
    : List IndexedEntry :=
  ((filteredEntries shards filters).mergeSort recentBefore).take limit

def collectRecent (shards : List Shard) (filters : SearchFilters) (maxEntries : Nat) (score : ℚ)
    : List LocatedEntry :=
  (recentEntries shards filters maxEntries).map fun item =>
    { entry := item.entry, matched := true, sessionMtime := item.sessionMtime, score }

variable (unicode : Unicode)

/-- The entries among the first `maxEntries` that contain the phrase. -/
def collectPhraseMatches (shards : List Shard) (phrase : JsString) (filters : SearchFilters)
    (maxEntries : Nat)
    : List LocatedEntry :=
  sortLocated ((((filteredEntries shards filters).take maxEntries).filter fun item =>
      decide (phrase <:+: normalizeMemoryPhrase unicode item.entry.text)).map fun item =>
    { entry := item.entry, matched := true, sessionMtime := item.sessionMtime
      score := lexicalProvenanceWeight item.entry filters })

def termCount (item : IndexedEntry) (term : JsString) : Nat :=
  (tokenizeLexical unicode item.entry.text).count term

def termTotal (item : IndexedEntry) : Nat :=
  max 1 (tokenizeLexical unicode item.entry.text).length

def documentFrequency (items : List IndexedEntry) (term : JsString) : Nat :=
  items.countP fun item => 0 < termCount unicode item term

structure Logarithm where
  log : ℚ → ℚ

variable (logarithm : Logarithm)

def termScore (items : List IndexedEntry) (item : IndexedEntry) (term : JsString) : ℚ :=
  let tf : ℚ := termCount unicode item term
  let df : ℚ := documentFrequency unicode items term
  let averageLength : ℚ := (items.map (termTotal unicode)).sum / items.length
  let idf := logarithm.log ((items.length - df + 1 / 2) / (df + 1 / 2) + 1)
  idf * (tf * (6 / 5 + 1)
    / (tf + 6 / 5 * (1 - 3 / 4 + 3 / 4 * (termTotal unicode item / averageLength))))

def termsOf (item : IndexedEntry) (terms : List JsString) : List JsString :=
  terms.filter fun term => 0 < termCount unicode item term

def scoredTerms (terms : List JsString) : List JsString :=
  (terms.flatMap (tokenizeLexical unicode)).eraseDups

def bm25Score (shards : List Shard) (terms : List JsString) (filters : SearchFilters)
    (candidateLimit : Nat)
    : List ScoredEntry :=
  let queryTerms := scoredTerms unicode terms
  let matching := (filteredEntries shards filters).take candidateLimit
  let scored := matching.map fun item =>
    { toIndexedEntry := item
      score := ((termsOf unicode item queryTerms).map
        (termScore unicode logarithm matching item)).sum
      matchedTerms := (termsOf unicode item queryTerms).length : ScoredEntry }
  (scored.filter fun item => 0 < item.score).mergeSort fun left right =>
    scoredBefore left.score right.score left.toIndexedEntry right.toIndexedEntry

def collectTermMatches (shards : List Shard) (terms : List JsString) (filters : SearchFilters)
    (maxEntries : Nat) (match_ : MemoryQueryMatch)
    : List LocatedEntry :=
  let scored := bm25Score unicode logarithm shards terms filters maxEntries
  let selected :=
    if match_ = .all then scored.filter fun item => item.matchedTerms = terms.length else scored
  selected.map fun item =>
    { entry := item.entry, matched := true, sessionMtime := item.sessionMtime
      score := item.score * lexicalProvenanceWeight item.entry filters }

end PiFabric.Memory

/-! What a search finds in the digests of cold sessions: sessions whose vocabulary has the terms of
the query, or a term that a regular expression matches.
-/

namespace PiFabric.Memory

open JsString

structure DigestHit where
  sessionId : JsString
  sessionFile : JsString
  sourceHash : JsString
  branches : MemoryBranches
  lineageFingerprint : JsString
  cwd : JsString
  lastTs : Option JsNumber
  sessionMtime : JsNumber
  score : ℚ
  tier : MemoryTier
  matchedTerms : Nat
  matchedStructuralEntries : Nat

def toDigestHit (digest : DigestShard) (score : ℚ) (matchedTerms matchedStructuralEntries : Nat)
    : DigestHit where
  sessionId := digest.sessionId
  sessionFile := digest.file
  sourceHash := digest.sourceHash
  branches := digest.branches
  lineageFingerprint := digest.lineageFingerprint
  cwd := digest.cwd
  lastTs := digest.lastTs
  sessionMtime := digest.mtime
  score := score
  tier := .cold
  matchedTerms := matchedTerms
  matchedStructuralEntries := matchedStructuralEntries

structure DigestCandidate where
  digest : DigestShard
  found : List JsString
  structuralMatches : Nat

def digestCandidate (terms : List JsString) (filters : SearchFilters) (match_ : MemoryQueryMatch)
    (digest : DigestShard)
    : Option DigestCandidate :=
  let found := terms.filter fun term => decide (term ∈ digest.vocabulary)
  if !digestCanMatchFilters digest filters then none
  else if found = [] ∨ (match_ = .all ∧ found.length ≠ terms.length) then none
  else some { digest, found, structuralMatches := digestStructuralMatchCount digest filters }

variable (logarithm : Logarithm)

def candidateScore (candidates : List DigestCandidate) (candidate : DigestCandidate) : ℚ :=
  (candidate.found.map fun term =>
    let df : ℚ := (candidates.countP fun other => decide (term ∈ other.found) : Nat)
    logarithm.log ((candidates.length - df + 1 / 2) / (df + 1 / 2) + 1)).sum

structure DigestResult where
  hits : List DigestHit
  complete : Bool

def scoreDigestTerms (digests : List DigestShard) (terms : List JsString) (filters : SearchFilters)
    (maxDigests : Nat) (match_ : MemoryQueryMatch)
    : DigestResult :=
  if digests = [] ∨ terms = [] then { hits := [], complete := true }
  else
    let matching := digests.filterMap (digestCandidate terms filters match_)
    let candidates := matching.take maxDigests
    { hits := candidates.map fun candidate =>
        toDigestHit candidate.digest (candidateScore logarithm candidates candidate)
          candidate.found.length candidate.structuralMatches
      complete := matching.length ≤ maxDigests }

end PiFabric.Memory
