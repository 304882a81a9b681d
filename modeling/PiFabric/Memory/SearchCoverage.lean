import PiFabric.Foundation.Ordinals
import PiFabric.Memory.Search

/-! Grouping leaves nothing out: where the result is complete, every located entry is marked in a
segment of its session, and every hit is among the hits.
-/

namespace PiFabric.Memory

open JsString

/-- The pieces of a session are its entries, by induction over them. -/
theorem flatten_segmentEntries (current entries : List NormalizedEntry)
    : (segmentEntries current entries).flatten = current ++ entries := by
  induction entries generalizing current with
  | nil =>
    rw [segmentEntries]
    split
    · rename_i none_open
      rw [none_open]
      rfl
    · rw [List.flatten_cons, List.flatten_nil]
  | cons entry rest ih =>
    rw [segmentEntries]
    split
    · rw [List.flatten_cons, ih, List.singleton_append]
    · rw [ih, List.append_assoc, List.singleton_append]

variable {shard : Shard} {markOnlyMatches : Bool}

theorem mem_sessionSegments {sessions : LocatedSessions} {matchedSet : List Nat}
    {entry : NormalizedEntry} (member : entry ∈ shard.entries) (matched : entry.index ∈ matchedSet)
    : ∃ segment ∈ sessionSegments shard sessions matchedSet markOnlyMatches,
      ∃ item ∈ segment.entries, item.entry = entry ∧ item.matched = true := by
  have placed : entry ∈ (segmentEntries [] shard.entries).flatten := by
    rw [flatten_segmentEntries]
    exact member
  obtain ⟨piece, listed, inside⟩ := List.mem_flatten.mp placed
  let item : SearchSegmentEntry := {
    entry
    matched := decide (entry.index ∈ matchedSet)
    marked := !markOnlyMatches || decide (entry.index ∈ matchedSet)
    score := if entry.index ∈ matchedSet then
      (sessions.scores.get? (shard.sessionFile, entry.index)).getD 0 else 0
  }
  have shown : item ∈ (segmentOf shard sessions matchedSet markOnlyMatches piece).entries :=
    List.mem_map.mpr ⟨entry, inside, rfl⟩
  have marked : item.matched = true := decide_eq_true matched
  refine ⟨segmentOf shard sessions matchedSet markOnlyMatches piece, ?_, item, shown, rfl, marked⟩
  refine List.mem_filter.mpr ⟨List.mem_map_of_mem listed, ?_⟩
  have counted : 0 < (segmentOf shard sessions matchedSet markOnlyMatches piece).matchedCount :=
    List.length_pos_of_mem (List.mem_filter.mpr ⟨shown, marked⟩)
  simp only [Bool.not_eq_true', Bool.and_eq_false_iff, decide_eq_false_iff_not]
  exact .inr (Nat.ne_of_gt counted)

theorem locateEntry_keeps {sessions : LocatedSessions} (item : LocatedEntry) {file : JsString}
    {index : Nat}
    (known : ∃ matchedSet, sessions.matchedBySession.get? file = some matchedSet
      ∧ index ∈ matchedSet)
    : ∃ matchedSet, (locateEntry sessions item).matchedBySession.get? file = some matchedSet
      ∧ index ∈ matchedSet := by
  obtain ⟨matchedSet, held, inside⟩ := known
  rw [locateEntry]
  by_cases same : file = item.entry.sessionFile
  · rw [← same, JsMap.get?_set_self, held, Option.getD_some]
    exact ⟨_, rfl, List.mem_append_left _ inside⟩
  · rw [JsMap.get?_set, if_neg same]
    exact ⟨matchedSet, held, inside⟩

variable {located : List LocatedEntry}

theorem mem_locateEntries {item : LocatedEntry} (member : item ∈ located)
    : ∃ matchedSet,
      (locateEntries located).matchedBySession.get? item.entry.sessionFile = some matchedSet
        ∧ item.entry.index ∈ matchedSet := by
  have later (more : List LocatedEntry) (sessions : LocatedSessions)
      (known : ∃ matchedSet, sessions.matchedBySession.get? item.entry.sessionFile = some matchedSet
        ∧ item.entry.index ∈ matchedSet)
      : ∃ matchedSet, (more.foldl locateEntry sessions).matchedBySession.get?
          item.entry.sessionFile = some matchedSet ∧ item.entry.index ∈ matchedSet := by
    induction more generalizing sessions with
    | nil => exact known
    | cons next rest ih => exact ih _ (locateEntry_keeps next known)
  obtain ⟨before, after, rfl⟩ := List.append_of_mem member
  rw [locateEntries, List.foldl_append, List.foldl_cons]
  refine later after _ ?_
  rw [locateEntry, JsMap.get?_set_self]
  exact ⟨_, rfl, List.mem_append_right _ (List.mem_singleton_self _)⟩

theorem shardOfFile_eq {shards : List Shard} (distinct : (shards.map (·.sessionFile)).Nodup)
    (member : shard ∈ shards)
    : shardOfFile shards shard.sessionFile = some shard := by
  have found : (shards.reverse.find? fun other => other.sessionFile = shard.sessionFile).isSome
      = true :=
    List.find?_isSome.mpr ⟨shard, List.mem_reverse.mpr member, decide_eq_true rfl⟩
  obtain ⟨other, held⟩ := Option.isSome_iff_exists.mp found
  have listed := List.mem_reverse.mp (List.mem_of_find?_eq_some held)
  have passed := List.find?_some held
  have same : other.sessionFile = shard.sessionFile := of_decide_eq_true passed
  rw [shardOfFile, held, List.inj_on_of_nodup_map distinct listed member same]

theorem mem_searchSegments {shards : List Shard} (distinct : (shards.map (·.sessionFile)).Nodup)
    (member : shard ∈ shards) {item : LocatedEntry} (found : item ∈ located)
    (inside : item.entry ∈ shard.entries) (owned : item.entry.sessionFile = shard.sessionFile)
    : ∃ segment ∈ searchSegments shards (locateEntries located) markOnlyMatches,
      ∃ shown ∈ segment.entries, shown.entry = item.entry ∧ shown.matched = true := by
  obtain ⟨matchedSet, held, matched⟩ := mem_locateEntries found
  obtain ⟨segment, listed, marked⟩ := mem_sessionSegments inside matched
  refine ⟨segment, List.mem_flatMap.mpr ⟨(item.entry.sessionFile, matchedSet),
    JsMap.get?_eq_some_iff.mp held, ?_⟩, marked⟩
  rw [owned, shardOfFile_eq distinct member]
  exact listed

theorem groupIntoResults_complete {shards : List Shard} {digestHits : List DigestHit}
    {matchMode : MemoryMatchMode} {maxItems : Nat} {coverage : QueryCoverage}
    (complete : (groupIntoResults shards located digestHits markOnlyMatches matchMode maxItems
      coverage).queryCoverage.complete = true)
    : coverage.complete = true
      ∧ (∀ hit ∈ digestHits, hit ∈ (groupIntoResults shards located digestHits markOnlyMatches
          matchMode maxItems coverage).digestHits)
      ∧ ∀ item ∈ located, ∀ segment ∈ searchSegments shards (locateEntries located)
          markOnlyMatches,
        segment ∈ (groupIntoResults shards located digestHits markOnlyMatches matchMode maxItems
          coverage).segments := by
  rw [groupIntoResults] at complete ⊢
  split at complete
  · rename_i nothing
    rw [if_pos nothing]
    rw [Bool.and_eq_true, List.isEmpty_iff, List.isEmpty_iff] at nothing
    rw [nothing.1, nothing.2]
    exact ⟨complete, fun _ none_ => absurd none_ List.not_mem_nil,
      fun _ none_ => absurd none_ List.not_mem_nil⟩
  · rename_i some_
    rw [if_neg some_]
    dsimp only at complete ⊢
    rw [limitedCoverage] at complete
    split at complete
    · cases complete
    · rename_i within
      have short : (((searchSegments shards (locateEntries located) markOnlyMatches).map
          SearchItem.entry ++ digestHits.map SearchItem.digest).mergeSort itemBefore).length
          ≤ maxItems :=
        Nat.le_of_not_lt (by simpa using within)
      rw [List.take_of_length_le short]
      refine ⟨complete, fun hit member => ?_, fun _ _ segment member => ?_⟩
      · refine List.mem_filterMap.mpr ⟨.digest hit, List.mem_mergeSort.mpr ?_, rfl⟩
        exact List.mem_append_right _ (List.mem_map_of_mem member)
      · refine List.mem_filterMap.mpr ⟨.entry segment, List.mem_mergeSort.mpr ?_, rfl⟩
        exact List.mem_append_left _ (List.mem_map_of_mem member)

end PiFabric.Memory

/-! Complete coverage of a query: no entry and no session that the query asks for is missing. What
it asks of a cold session is what the session's vocabulary can tell.
-/

namespace PiFabric.Memory

open JsString

variable {shards : List Shard} {filters : SearchFilters} {entry : NormalizedEntry}

variable {shard : Shard}

theorem mem_filteredEntries (member : shard ∈ shards) (inside : entry ∈ shard.entries)
    (passes : matchesFilters entry filters = true)
    : IndexedEntry.mk entry shard.mtime ∈ filteredEntries shards filters :=
  List.mem_flatMap.mpr ⟨shard, member,
    List.mem_map.mpr ⟨entry, List.mem_filter.mpr ⟨inside, passes⟩, rfl⟩⟩

variable {maxEntries : Nat}

/-- Within the budget nothing is cut. -/
theorem take_filteredEntries (short : filteredEntryCount shards filters ≤ maxEntries)
    : (filteredEntries shards filters).take maxEntries = filteredEntries shards filters :=
  List.take_of_length_le short

theorem mem_sortLocated {located : List LocatedEntry} {item : LocatedEntry}
    : item ∈ sortLocated located ↔ item ∈ located :=
  List.mem_mergeSort

variable {item : IndexedEntry}

theorem mem_collectRecent (score : ℚ) (short : filteredEntryCount shards filters ≤ maxEntries)
    (listed : item ∈ filteredEntries shards filters)
    : ∃ found ∈ collectRecent shards filters maxEntries score, found.entry = item.entry := by
  have whole : ((filteredEntries shards filters).mergeSort recentBefore).length ≤ maxEntries := by
    rw [List.length_mergeSort]
    exact short
  refine ⟨⟨item.entry, true, item.sessionMtime, score⟩, ?_, rfl⟩
  rw [collectRecent, recentEntries, List.take_of_length_le whole]
  exact List.mem_map.mpr ⟨item, List.mem_mergeSort.mpr listed, rfl⟩

variable (unicode : Unicode)

theorem mem_collectPhraseMatches {phrase : JsString}
    (short : filteredEntryCount shards filters ≤ maxEntries)
    (listed : item ∈ filteredEntries shards filters)
    (contains : phrase <:+: normalizeMemoryPhrase unicode item.entry.text)
    : ∃ found ∈ collectPhraseMatches unicode shards phrase filters maxEntries,
      found.entry = item.entry := by
  refine ⟨⟨item.entry, true, item.sessionMtime, lexicalProvenanceWeight item.entry filters⟩, ?_,
    rfl⟩
  rw [collectPhraseMatches, mem_sortLocated, take_filteredEntries short]
  exact List.mem_map.mpr ⟨item, List.mem_filter.mpr ⟨listed, decide_eq_true contains⟩, rfl⟩

def Logarithm.Positive (logarithm : Logarithm) : Prop :=
  ∀ x : ℚ, 1 < x → 0 < logarithm.log x

variable {logarithm : Logarithm}

variable {term : JsString}

theorem termScore_pos (positive : logarithm.Positive) (items : List IndexedEntry)
    (held : 0 < termCount unicode item term)
    : 0 < termScore unicode logarithm items item term := by
  have frequency : documentFrequency unicode items term ≤ items.length := List.countP_le_length
  have frequency_ : ((documentFrequency unicode items term : Nat) : ℚ) ≤ (items.length : ℚ) :=
    Nat.cast_le.mpr frequency
  have known : (0 : ℚ) ≤ (documentFrequency unicode items term : ℚ) := Nat.cast_nonneg _
  have idf : 0 < logarithm.log (((items.length : ℚ) - documentFrequency unicode items term + 1 / 2)
      / (documentFrequency unicode items term + 1 / 2) + 1) := by
    refine positive _ ?_
    have share : 0 < ((items.length : ℚ) - documentFrequency unicode items term + 1 / 2)
        / (documentFrequency unicode items term + 1 / 2) :=
      div_pos (by linarith) (by linarith)
    linarith
  have tf : (0 : ℚ) < termCount unicode item term := Nat.cast_pos.mpr held
  have total : (0 : ℚ) ≤ termTotal unicode item := Nat.cast_nonneg _
  have average : (0 : ℚ) ≤ ((items.map (termTotal unicode)).sum : Nat) / (items.length : ℚ) :=
    div_nonneg (Nat.cast_nonneg _) (Nat.cast_nonneg _)
  have length : (0 : ℚ) ≤ termTotal unicode item
      / (((items.map (termTotal unicode)).sum : Nat) / (items.length : ℚ)) :=
    div_nonneg total average
  rw [termScore]
  refine mul_pos idf (div_pos (mul_pos tf (by norm_num)) ?_)
  have weight : (0 : ℚ) ≤ 6 / 5 * (1 - 3 / 4 + 3 / 4 * (termTotal unicode item
      / (((items.map (termTotal unicode)).sum : Nat) / (items.length : ℚ)))) := by
    refine mul_nonneg (by norm_num) ?_
    linarith
  linarith

variable {terms : List JsString}

theorem mem_bm25Score (positive : logarithm.Positive)
    (short : filteredEntryCount shards filters ≤ maxEntries)
    (listed : item ∈ filteredEntries shards filters)
    (some_ : termsOf unicode item (scoredTerms unicode terms) ≠ [])
    : ∃ scored ∈ bm25Score unicode logarithm shards terms filters maxEntries,
      scored.entry = item.entry
        ∧ scored.matchedTerms = (termsOf unicode item (scoredTerms unicode terms)).length := by
  let score := ((termsOf unicode item (scoredTerms unicode terms)).map
    (termScore unicode logarithm (filteredEntries shards filters) item)).sum
  have counted : 0 < score := by
    refine List.sum_pos _ (fun value known => ?_) (by simpa using some_)
    obtain ⟨term, held, rfl⟩ := List.mem_map.mp known
    exact termScore_pos unicode positive _
      (of_decide_eq_true (List.mem_filter.mp held).2)
  refine ⟨⟨item, score, (termsOf unicode item (scoredTerms unicode terms)).length⟩, ?_, rfl, rfl⟩
  rw [bm25Score, take_filteredEntries short]
  refine List.mem_mergeSort.mpr (List.mem_filter.mpr ⟨?_, decide_eq_true counted⟩)
  exact List.mem_map.mpr ⟨item, listed, rfl⟩

/-- Every term is its own only token. -/
def Steady (terms : List JsString) : Prop :=
  ∀ term ∈ terms, tokenizeLexical unicode term = [term]

theorem scoredTerms_of_steady (steady : Steady unicode terms) (distinct : terms.Nodup)
    : scoredTerms unicode terms = terms := by
  have tokens : terms.flatMap (tokenizeLexical unicode) = terms := by
    have each : terms.flatMap (tokenizeLexical unicode) = terms.flatMap fun term => [term] :=
      List.flatMap_congr fun term member => steady term member
    rw [each, List.flatMap_singleton']
  rw [scoredTerms, tokens]
  exact Ordinals.eraseDups_of_nodup distinct

/-- What is asked of an entry: one of the terms, or every one. -/
def hasTerms (match_ : MemoryQueryMatch) (terms : List JsString) (text : JsString) : Prop :=
  (∃ term ∈ terms, term ∈ tokenizeLexical unicode text)
    ∧ (match_ = .all → ∀ term ∈ terms, term ∈ tokenizeLexical unicode text)

variable {match_ : MemoryQueryMatch}

theorem mem_collectTermMatches (positive : logarithm.Positive)
    (short : filteredEntryCount shards filters ≤ maxEntries) (steady : Steady unicode terms)
    (distinct : terms.Nodup) (listed : item ∈ filteredEntries shards filters)
    (asked : hasTerms unicode match_ terms item.entry.text)
    : ∃ found ∈ collectTermMatches unicode logarithm shards terms filters maxEntries match_,
      found.entry = item.entry := by
  have same := scoredTerms_of_steady unicode steady distinct
  obtain ⟨⟨term, member, inside⟩, every⟩ := asked
  have held (term : JsString) (inside : term ∈ tokenizeLexical unicode item.entry.text)
      : decide (0 < termCount unicode item term) = true :=
    decide_eq_true (List.count_pos_iff.mpr inside)
  have some_ : termsOf unicode item (scoredTerms unicode terms) ≠ [] := by
    rw [same]
    exact List.ne_nil_of_mem (List.mem_filter.mpr ⟨member, held term inside⟩)
  obtain ⟨scored, found, entry, counted⟩ := mem_bm25Score unicode positive short listed some_
  refine ⟨⟨scored.entry, true, scored.sessionMtime,
    scored.score * lexicalProvenanceWeight scored.entry filters⟩, ?_, entry⟩
  rw [collectTermMatches]
  refine List.mem_map.mpr ⟨scored, ?_, rfl⟩
  split
  · rename_i all
    refine List.mem_filter.mpr ⟨found, decide_eq_true ?_⟩
    rw [counted, same, termsOf, List.filter_eq_self.mpr fun term member =>
      held term (every all term member)]
  · exact found

/-- A hit names the digest that it comes from. -/
def IsHitOf (digest : DigestShard) (hit : DigestHit) : Prop :=
  ∃ score matchedTerms structural, hit = toDigestHit digest score matchedTerms structural

variable {digest : DigestShard}

theorem digestCanMatchFilters_of_entry {input : DigestInput}
    (folded : digest.toSessionDigest = foldSessionDigest unicode input)
    (member : entry ∈ input.entries) (passes : matchesFilters entry filters = true)
    : digestCanMatchFilters digest filters = true := by
  have addresses : digest.addresses = input.entries.map addressOf :=
    congrArg SessionDigest.addresses folded
  rw [digestCanMatchFilters, digestStructuralMatchCount]
  cases filtered : hasFilters filters with
  | false => rfl
  | true =>
    rw [if_pos rfl, addresses]
    refine decide_eq_true (List.length_pos_of_mem (List.mem_filter.mpr
      ⟨List.mem_map_of_mem member, ?_⟩))
    rw [addressMatchesFilters_addressOf]
    exact passes

variable {digests : List DigestShard}

variable {maxDigests : Nat}

/-- A digest whose vocabulary has what is asked of the terms is a hit, within the budget. -/
theorem mem_scoreDigestTerms
    (complete : (scoreDigestTerms logarithm digests terms filters maxDigests match_).complete
      = true) (member : digest ∈ digests) (passes : digestCanMatchFilters digest filters = true)
    (asked : term ∈ terms) (held : term ∈ digest.vocabulary)
    (every : match_ = .all → ∀ term ∈ terms, term ∈ digest.vocabulary)
    : ∃ hit ∈ (scoreDigestTerms logarithm digests terms filters maxDigests match_).hits,
      IsHitOf digest hit := by
  have some_ : ¬(digests = [] ∨ terms = []) := by
    intro nothing
    rcases nothing with none_ | none_
    · rw [none_] at member
      cases member
    · rw [none_] at asked
      cases asked
  rw [scoreDigestTerms, if_neg some_] at complete ⊢
  have candidate : ∃ candidate, digestCandidate terms filters match_ digest = some candidate
      ∧ candidate.digest = digest := by
    rw [digestCandidate, passes, if_neg (by decide)]
    have found : ¬((terms.filter fun term => decide (term ∈ digest.vocabulary)) = []
        ∨ match_ = .all
          ∧ (terms.filter fun term => decide (term ∈ digest.vocabulary)).length
            ≠ terms.length) := by
      intro missed
      rcases missed with none_ | ⟨all, fewer⟩
      · have inside : term ∈ terms.filter fun term => decide (term ∈ digest.vocabulary) :=
          List.mem_filter.mpr ⟨asked, decide_eq_true held⟩
        rw [none_] at inside
        cases inside
      · refine fewer ?_
        rw [List.filter_eq_self.mpr fun term member => decide_eq_true (every all term member)]
    rw [if_neg found]
    exact ⟨_, rfl, rfl⟩
  obtain ⟨candidate, made, same⟩ := candidate
  have listed : candidate ∈ digests.filterMap (digestCandidate terms filters match_) :=
    List.mem_filterMap.mpr ⟨digest, member, made⟩
  dsimp only at complete ⊢
  rw [List.take_of_length_le (of_decide_eq_true complete)]
  refine ⟨_, List.mem_map_of_mem listed, ?_⟩
  rw [same]
  exact ⟨_, _, _, rfl⟩

theorem taken_appendTargets {maxTerms maxBytes : Int} (targets : RegexTargets)
    (more : List (JsString × RegexTarget))
    (whole : (appendTargets maxTerms maxBytes targets more).reason = none)
    : (appendTargets maxTerms maxBytes targets more).taken = targets.taken ++ more := by
  induction more generalizing targets with
  | nil => exact (List.append_nil _).symm
  | cons target rest ih =>
    rw [appendTargets] at whole ⊢
    split at whole
    · cases whole
    · rename_i room
      rw [if_neg room]
      split at whole
      · cases whole
      · rename_i short
        rw [if_neg short, ih _ whole, List.append_assoc, List.singleton_append]

theorem taken_collectRegexTargets {maxTerms maxBytes : Int}
    (whole : (collectRegexTargets shards digests filters maxTerms maxBytes).reason = none)
    : (collectRegexTargets shards digests filters maxTerms maxBytes).taken
      = hotTargets shards filters ++ coldTargets digests filters := by
  rw [collectRegexTargets] at whole ⊢
  split at whole
  · rename_i hot
    rw [if_pos hot, taken_appendTargets _ _ whole, taken_appendTargets _ _ hot]
    rfl
  · rename_i hot
    exact absurd whole hot

theorem mem_coldMatches {matched : List (JsString × RegexTarget)} {place : Nat}
    (member : (term, RegexTarget.cold place digest) ∈ matched)
    (placed : ∀ other ∈ matched, ∀ digest', other.2 = .cold place digest' → digest' = digest)
    : ∃ count, (coldMatches matched).get? place = some (digest, count) := by
  have later (more : List (JsString × RegexTarget))
      (placed : ∀ other ∈ more, ∀ digest', other.2 = .cold place digest' → digest' = digest)
      (counts : JsMap Nat (DigestShard × Nat))
      (known : ∃ count, counts.get? place = some (digest, count))
      : ∃ count, (more.foldl countCold counts).get? place = some (digest, count) := by
    induction more generalizing counts with
    | nil => exact known
    | cons next rest ih =>
      refine ih (fun other member => placed other (List.mem_cons_of_mem _ member)) _ ?_
      rw [countCold]
      cases target : next.2 with
      | hot shard entry => exact known
      | cold other digest' =>
        by_cases same : place = other
        · rw [← same, JsMap.get?_set_self]
          rw [← same] at target
          rw [placed next List.mem_cons_self digest' target]
          exact ⟨_, rfl⟩
        · rw [JsMap.get?_set, if_neg same]
          exact known
  obtain ⟨before, after, rfl⟩ := List.append_of_mem member
  rw [coldMatches, List.foldl_append, List.foldl_cons]
  refine later after (fun other inside => placed other
    (List.mem_append_right _ (List.mem_cons_of_mem _ inside))) _ ?_
  rw [countCold, JsMap.get?_set_self]
  exact ⟨_, rfl⟩

theorem coldTargets_placed {target : JsString × RegexTarget}
    (member : target ∈ coldTargets digests filters) {place : Nat}
    (cold : target.2 = .cold place digest)
    : digests[place]? = some digest := by
  obtain ⟨source, listed, inside⟩ := List.mem_flatMap.mp member
  obtain ⟨term, _, rfl⟩ := List.mem_map.mp inside
  cases cold
  exact List.mem_zipIdx_iff_getElem?.mp (List.mem_filter.mp listed).1

variable {worker : RegexWorker}

variable {query : SearchQuery}

variable {pattern : JsString}

theorem searchRegex_matched
    (complete : (searchRegex worker shards digests pattern filters query).coverage.complete = true)
    : ∃ matched : List (JsString × RegexTarget),
      (∀ target ∈ matched, target ∈ hotTargets shards filters ++ coldTargets digests filters)
      ∧ (∀ target ∈ hotTargets shards filters ++ coldTargets digests filters,
          worker.test pattern target.1 = true → target ∈ matched)
      ∧ (searchRegex worker shards digests pattern filters query).located
          = hotMatches filters matched
      ∧ (searchRegex worker shards digests pattern filters query).digestHits
          = (coldMatches matched).entries.map fun entry =>
            toDigestHit entry.2.1 entry.2.2 entry.2.2
              (digestStructuralMatchCount entry.2.1 filters) := by
  unfold searchRegex at complete ⊢
  dsimp only at complete ⊢
  generalize query.regexLimits.getD defaultRegexLimits = limits at complete ⊢
  cases answer : executeBoundedRegex worker pattern
      ((collectRegexTargets shards digests filters limits.maxHaystackTerms
        limits.maxHaystackBytes).taken.map Prod.fst) limits.maxPatternBytes limits.timeoutMs with
  | failed error =>
    rw [answer] at complete
    cases complete
  | complete indexes =>
    rw [answer] at complete
    dsimp only at complete ⊢
    rw [Bool.and_eq_true, Option.isNone_iff_eq_none] at complete
    have taken := taken_collectRegexTargets complete.1
    rw [taken] at answer ⊢
    have tested : indexes = (List.range ((hotTargets shards filters
        ++ coldTargets digests filters).map Prod.fst).length).filter fun index =>
        ((hotTargets shards filters ++ coldTargets digests filters).map Prod.fst)[index]?.any
          (worker.test pattern) := by
      rw [executeBoundedRegex] at answer
      split at answer
      · cases answer
      · split at answer
        · cases answer
        · exact (RegexExecutionResult.complete.inj answer).symm
    refine ⟨_, fun target member => ?_, fun target member passes => ?_, rfl, rfl⟩
    · obtain ⟨index, _, found⟩ := List.mem_filterMap.mp member
      exact List.mem_of_getElem? found
    · obtain ⟨index, found⟩ := List.mem_iff_getElem?.mp member
      refine List.mem_filterMap.mpr ⟨index, ?_, found⟩
      rw [tested]
      refine List.mem_filter.mpr ⟨?_, ?_⟩
      · rw [List.mem_range, List.length_map]
        exact (List.getElem?_eq_some_iff.mp found).1
      · rw [List.getElem?_map, found]
        exact passes

theorem mem_located_searchRegex
    (complete : (searchRegex worker shards digests pattern filters query).coverage.complete = true)
    (member : shard ∈ shards) (inside : entry ∈ shard.entries)
    (passes : matchesFilters entry filters = true)
    (matches_ : worker.test pattern entry.text = true)
    : ∃ found ∈ (searchRegex worker shards digests pattern filters query).located,
      found.entry = entry := by
  obtain ⟨matched, _, tested, located, _⟩ := searchRegex_matched complete
  have target : (entry.text, RegexTarget.hot shard entry)
      ∈ hotTargets shards filters ++ coldTargets digests filters := by
    refine List.mem_append_left _ (List.mem_flatMap.mpr ⟨shard, member, ?_⟩)
    exact List.mem_map.mpr ⟨entry, List.mem_filter.mpr ⟨inside, passes⟩, rfl⟩
  rw [located]
  exact ⟨_, List.mem_filterMap.mpr ⟨_, tested _ target matches_, rfl⟩, rfl⟩

theorem mem_digestHits_searchRegex
    (complete : (searchRegex worker shards digests pattern filters query).coverage.complete = true)
    (member : digest ∈ digests) (passes : digestCanMatchFilters digest filters = true)
    (held : term ∈ digest.vocabulary) (matches_ : worker.test pattern term = true)
    : ∃ hit ∈ (searchRegex worker shards digests pattern filters query).digestHits,
      IsHitOf digest hit := by
  obtain ⟨matched, only, tested, _, hits⟩ := searchRegex_matched complete
  obtain ⟨place, placed⟩ := List.mem_iff_getElem?.mp member
  have target : (term, RegexTarget.cold place digest)
      ∈ hotTargets shards filters ++ coldTargets digests filters := by
    refine List.mem_append_right _ (List.mem_flatMap.mpr ⟨(digest, place), ?_, ?_⟩)
    · exact List.mem_filter.mpr ⟨List.mem_zipIdx_iff_getElem?.mpr placed, passes⟩
    · exact List.mem_map_of_mem held
  have same : ∀ other ∈ matched, ∀ digest', other.2 = RegexTarget.cold place digest' →
      digest' = digest := by
    intro other inside digest' cold
    rcases List.mem_append.mp (only other inside) with hot | cold_
    · obtain ⟨shard, _, listed⟩ := List.mem_flatMap.mp hot
      obtain ⟨entry, _, rfl⟩ := List.mem_map.mp listed
      cases cold
    · have there := coldTargets_placed cold_ cold
      rw [placed] at there
      exact (Option.some.inj there).symm
  obtain ⟨count, found⟩ := mem_coldMatches (tested _ target matches_) same
  rw [hits]
  exact ⟨_, List.mem_map_of_mem (JsMap.get?_eq_some_iff.mp found), _, _, _, rfl⟩

structure ModeSearch.Whole (found : ModeSearch) : Prop where
  complete : found.coverage.complete = true
  reasons : found.reasons = []

theorem not_of_reasonIf {condition : Bool} {reason : String}
    (none_ : reasonIf condition reason = [])
    : condition = false := by
  cases condition with
  | false => rfl
  | true => cases none_

theorem le_of_reasonIf {limit count : Nat} {reason : String}
    (none_ : reasonIf (limit < count) reason = [])
    : count ≤ limit :=
  Nat.le_of_not_lt (of_decide_eq_false (not_of_reasonIf none_))

variable (worker)

def Asks : MemoryQueryPlan → NormalizedEntry → Prop
  | .browse, _ => True
  | .terms terms match_, entry => Steady unicode terms ∧ hasTerms unicode match_ terms entry.text
  | .phrase phrase _, entry => phrase <:+: normalizeMemoryPhrase unicode entry.text
  | .regex pattern, entry => worker.test pattern entry.text = true

/-- What a query asks of an entry of a cold session, of which only the terms are known. -/
def AsksCold : MemoryQueryPlan → NormalizedEntry → Prop
  | .browse, _ => True
  | .terms terms match_, entry => hasTerms unicode match_ terms entry.text
  | .phrase _ terms, entry => hasTerms unicode .all terms entry.text
  | .regex pattern, entry =>
      ∃ token ∈ tokenizeLexical unicode entry.text, worker.test pattern token = true

theorem nodup_plan (planned : query.plan unicode = .terms terms match_)
    : terms.Nodup := by
  unfold SearchQuery.plan planMemoryQuery at planned
  cases asked : query.query with
  | none =>
    rw [asked] at planned
    cases planned
  | some text =>
    rw [asked] at planned
    dsimp only at planned
    split at planned
    · cases planned
    · cases mode : query.queryMode.getD .literal with
      | regex =>
        rw [mode] at planned
        cases planned
      | phrase =>
        rw [mode] at planned
        cases planned
      | literal =>
        rw [mode] at planned
        cases planned
        exact Ordinals.nodup_eraseDups _

variable {worker}

/-- A mode without a reason locates every entry that the query asks for. -/
theorem mem_located_planSearch (positive : logarithm.Positive)
    (whole : (planSearch unicode logarithm worker shards digests query filters maxEntries maxDigests
      (query.plan unicode)).Whole) (member : shard ∈ shards) (inside : entry ∈ shard.entries)
    (passes : matchesFilters entry filters = true)
    (asks : Asks unicode worker (query.plan unicode) entry)
    : ∃ found ∈ (planSearch unicode logarithm worker shards digests query filters maxEntries
        maxDigests (query.plan unicode)).located,
      found.entry = entry := by
  have listed := mem_filteredEntries member inside passes
  cases planned : query.plan unicode with
  | browse =>
    rw [planned] at whole asks
    have short := le_of_reasonIf (List.append_eq_nil_iff.mp whole.reasons).1
    exact mem_collectRecent _ short listed
  | terms terms match_ =>
    rw [planned] at whole asks
    have first := (List.append_eq_nil_iff.mp whole.reasons).1
    have second := (List.append_eq_nil_iff.mp first).1
    have short := le_of_reasonIf (List.append_eq_nil_iff.mp second).1
    exact mem_collectTermMatches unicode positive short asks.1 (nodup_plan unicode planned) listed
      asks.2
  | phrase phrase terms =>
    rw [planned] at whole asks
    have first := (List.append_eq_nil_iff.mp whole.reasons).1
    have second := (List.append_eq_nil_iff.mp first).1
    have short := le_of_reasonIf (List.append_eq_nil_iff.mp second).1
    exact mem_collectPhraseMatches unicode short listed asks
  | regex pattern =>
    rw [planned] at whole asks
    have short := le_of_reasonIf (List.append_eq_nil_iff.mp whole.reasons).1
    obtain ⟨found, located, same⟩ :=
      mem_located_searchRegex whole.complete member inside passes asks
    refine ⟨found, ?_, same⟩
    refine mem_sortLocated.mpr ?_
    rw [List.take_of_length_le short]
    exact located

/-- A mode without a reason has a hit for every complete digest with an entry that the query asks
for.
-/
theorem mem_digestHits_planSearch
    (whole : (planSearch unicode logarithm worker shards digests query filters maxEntries maxDigests
      (query.plan unicode)).Whole) (member : digest ∈ digests) {input : DigestInput}
    (folded : digest.toSessionDigest = foldSessionDigest unicode input)
    (complete : digest.indexCoverage.complete = true) (inside : entry ∈ input.entries)
    (passes : matchesFilters entry filters = true)
    (asks : AsksCold unicode worker (query.plan unicode) entry)
    : ∃ hit ∈ (planSearch unicode logarithm worker shards digests query filters maxEntries
        maxDigests (query.plan unicode)).digestHits,
      IsHitOf digest hit := by
  have filtered := digestCanMatchFilters_of_entry unicode folded inside passes
  have vocabulary (token : JsString) (held : token ∈ tokenizeLexical unicode entry.text)
      : token ∈ digest.vocabulary := by
    have coverage : digest.indexCoverage = (foldSessionDigest unicode input).indexCoverage :=
      congrArg SessionDigest.indexCoverage folded
    have terms : digest.vocabulary = (foldSessionDigest unicode input).vocabulary :=
      congrArg SessionDigest.vocabulary folded
    rw [coverage] at complete
    rw [terms]
    exact mem_vocabulary unicode complete inside held
  cases planned : query.plan unicode with
  | browse =>
    rw [planned] at whole
    have short := le_of_reasonIf (List.append_eq_nil_iff.mp whole.reasons).2
    refine ⟨_, List.mem_map_of_mem ?_, _, _, _, rfl⟩
    rw [List.take_of_length_le short]
    exact List.mem_filter.mpr ⟨member, filtered⟩
  | terms terms match_ =>
    rw [planned] at whole asks
    obtain ⟨⟨term, asked, held⟩, every⟩ := asks
    have first := (List.append_eq_nil_iff.mp whole.reasons).1
    have second := (List.append_eq_nil_iff.mp first).1
    have budget_ := not_of_reasonIf (List.append_eq_nil_iff.mp second).2
    exact mem_scoreDigestTerms (by simpa using budget_) member filtered asked (vocabulary term held)
      fun all term member => vocabulary term (every all term member)
  | phrase phrase terms =>
    rw [planned] at whole asks
    obtain ⟨⟨term, asked, held⟩, every⟩ := asks
    have first := (List.append_eq_nil_iff.mp whole.reasons).1
    have second := (List.append_eq_nil_iff.mp first).1
    have budget_ := not_of_reasonIf (List.append_eq_nil_iff.mp second).2
    exact mem_scoreDigestTerms (by simpa using budget_) member filtered asked (vocabulary term held)
      fun all term member => vocabulary term (every all term member)
  | regex pattern =>
    rw [planned] at whole asks
    obtain ⟨token, held, matches_⟩ := asks
    have short := le_of_reasonIf (List.append_eq_nil_iff.mp whole.reasons).2
    obtain ⟨hit, listed, same⟩ := mem_digestHits_searchRegex whole.complete member filtered
      (vocabulary token held) matches_
    refine ⟨hit, ?_, same⟩
    have kept : hit ∈ (searchRegex worker shards digests pattern filters query).digestHits.take
        maxDigests := by
      rw [List.take_of_length_le short]
      exact listed
    exact kept

/-- A search that reports complete coverage has missed nothing that its plan asks for: every such
entry of a shard is marked in a segment, and every complete digest of a session with such an entry,
as far as terms can tell, is a hit.
-/
theorem complete_search_misses_nothing (positive : logarithm.Positive) {shards : List Shard}
    {digests : List DigestShard} {query : SearchQuery}
    (distinct : (shards.map (·.sessionFile)).Nodup)
    (owned : ∀ shard ∈ shards, ∀ entry ∈ shard.entries, entry.sessionFile = shard.sessionFile)
    (complete : (searchMemoryIndex unicode logarithm worker shards digests
      query).queryCoverage.complete = true)
    : (∀ shard ∈ shards, ∀ entry ∈ shard.entries,
        matchesFilters entry (query.filters.getD {}) = true →
        Asks unicode worker (query.plan unicode) entry →
        ∃ segment ∈ (searchMemoryIndex unicode logarithm worker shards digests query).segments,
          ∃ item ∈ segment.entries, item.entry = entry ∧ item.matched = true)
      ∧ ∀ digest ∈ digests, ∀ input : DigestInput,
        digest.toSessionDigest = foldSessionDigest unicode input →
        digest.indexCoverage.complete = true →
        ∀ entry ∈ input.entries, matchesFilters entry (query.filters.getD {}) = true →
        AsksCold unicode worker (query.plan unicode) entry →
        ∃ hit ∈ (searchMemoryIndex unicode logarithm worker shards digests query).digestHits,
          IsHitOf digest hit := by
  unfold searchMemoryIndex at complete ⊢
  dsimp only at complete ⊢
  obtain ⟨covered, hits, segments⟩ := groupIntoResults_complete complete
  rw [Bool.and_eq_true, List.isEmpty_iff] at covered
  have whole : (planSearch unicode logarithm worker shards digests query (query.filters.getD {})
      (budget (query.candidateLimits.getD defaultCandidateLimits).maxEntries)
      (budget (query.candidateLimits.getD defaultCandidateLimits).maxDigests)
      (query.plan unicode)).Whole := by
    refine ⟨covered.1, List.eq_nil_iff_forall_not_mem.mpr fun reason held => ?_⟩
    have listed := List.mem_eraseDups.mpr (List.mem_append_left
      (planSearch unicode logarithm worker shards digests query (query.filters.getD {})
        (budget (query.candidateLimits.getD defaultCandidateLimits).maxEntries)
        (budget (query.candidateLimits.getD defaultCandidateLimits).maxDigests)
        (query.plan unicode)).coverage.reasons held)
    rw [covered.2] at listed
    cases listed
  constructor
  · intro shard member entry inside passes asks
    obtain ⟨item, located, same⟩ := mem_located_planSearch unicode positive whole member inside
      passes asks
    have file : item.entry.sessionFile = shard.sessionFile := by
      rw [same]
      exact owned shard member entry inside
    obtain ⟨segment, listed, shown, marked, matched⟩ := mem_searchSegments distinct member located
      (by rw [same]; exact inside) file
    exact ⟨segment, segments item located segment listed, shown, marked, by
      rw [← same]
      exact matched⟩
  · intro digest member input folded indexed entry inside passes asks
    obtain ⟨hit, listed, same⟩ := mem_digestHits_planSearch unicode whole member folded indexed
      inside passes asks
    exact ⟨hit, hits hit (List.mem_mergeSort.mpr listed), same⟩

/-- Unicode for ASCII texts and for the letter U+0130, whose lower case is an i and a mark that is
no letter.
-/
def plainUnicode : Unicode where
  nfkc := fun text => text
  isLetterOrNumber := fun point =>
    48 ≤ point ∧ point ≤ 57 ∨ 65 ≤ point ∧ point ≤ 90 ∨ 97 ≤ point ∧ point ≤ 122 ∨ point = 0x130
  toLowerCase := fun text => text.flatMap fun unit =>
    if 65 ≤ unit ∧ unit ≤ 90 then [unit + 32]
    else if unit = 0x130 then [0x69, 0x307]
    else [unit]

def plainWorker : RegexWorker where
  test := fun pattern haystack => decide (pattern <:+: haystack)
  failure := fun _ _ _ => none

/-- Positive above one; the searches below do not depend on its values. -/
def plainLogarithm : Logarithm where
  log := fun x => x - 1

theorem positive_plainLogarithm : plainLogarithm.Positive := by
  intro x above
  exact sub_pos.mpr above

def plainEntry (text : JsString) : NormalizedEntry where
  sessionFile := lit "/s.jsonl"
  sessionId := lit "s1"
  index := 0
  entryId := some (lit "e1")
  parentId := none
  type := lit "message"
  role := some (lit "user")
  toolName := none
  text := text
  timestamp := none
  isError := false
  truncated := false

def plainShard (text : JsString) : Shard where
  sessionFile := lit "/s.jsonl"
  sessionId := lit "s1"
  mtime := .int 1700000000000
  size := 100
  sourceHash := List.replicate 64 (unitOf '0')
  branches := .active
  lineageFingerprint := List.replicate 64 (unitOf '0')
  policy := []
  entries := [plainEntry text]
  totalEntryCount := 1
  indexCoverage := { complete := true, reasons := [] }
  tier := some .hot

def plainInput (text : JsString) : DigestInput where
  sessionId := lit "s1"
  file := lit "/s.jsonl"
  cwd := lit "/w"
  entries := [plainEntry text]

/-- The digest of the same session. -/
def plainDigest (text : JsString) : DigestShard where
  toSessionDigest := foldSessionDigest plainUnicode (plainInput text)
  mtime := .int 1700000000000
  size := 100
  sourceHash := List.replicate 64 (unitOf '0')
  branches := .active
  lineageFingerprint := List.replicate 64 (unitOf '0')
  policy := []

theorem complete_search_misses_nothing_phrase
    : ∃ segment ∈ (searchMemoryIndex plainUnicode plainLogarithm plainWorker
        [plainShard (lit "Foo bar")] [] {
          query := some (lit "foo BAR"), queryMode := some .phrase }).segments,
      ∃ item ∈ segment.entries,
        item.entry = plainEntry (lit "Foo bar") ∧ item.matched = true := by
  have distinct : ([plainShard (lit "Foo bar")].map (·.sessionFile)).Nodup :=
    List.nodup_singleton _
  have owned : ∀ shard ∈ [plainShard (lit "Foo bar")], ∀ entry ∈ shard.entries,
      entry.sessionFile = shard.sessionFile := by
    intro shard member entry inside
    rw [List.mem_singleton.mp member] at inside ⊢
    rw [List.mem_singleton.mp inside]
    rfl
  have complete : (searchMemoryIndex plainUnicode plainLogarithm plainWorker
      [plainShard (lit "Foo bar")] [] {
        query := some (lit "foo BAR"), queryMode := some .phrase }).queryCoverage.complete
      = true := by
    decide +kernel
  have found : lit "foo bar" <:+: normalizeMemoryPhrase plainUnicode (lit "Foo bar") := by
    decide +kernel
  exact (complete_search_misses_nothing plainUnicode positive_plainLogarithm distinct owned
    complete).1 (plainShard (lit "Foo bar")) (List.mem_singleton_self _) _
    (List.mem_singleton_self _) rfl found

def missesAll (shards : List Shard) (digests : List DigestShard) (query : SearchQuery) : Bool :=
  let result := searchMemoryIndex plainUnicode plainLogarithm plainWorker shards digests query
  result.queryCoverage.complete && result.segments.isEmpty && result.digestHits.isEmpty

/-- A cold session is missed where an expression matches across its terms, and where a phrase cuts
through them. A hot entry is missed where the token of the query is cut once more, and where every
one of no tokens is asked for.
-/
theorem complete_search_misses
    : ((plainDigest (lit "foo bar")).indexCoverage.complete = true
        ∧ plainWorker.test (lit "foo bar") (lit "foo bar") = true
        ∧ missesAll [] [plainDigest (lit "foo bar")] {
          query := some (lit "foo bar"), queryMode := some .regex } = true)
      ∧ (normalizeMemoryPhrase plainUnicode (lit "oo ba")
          <:+: normalizeMemoryPhrase plainUnicode (lit "foo bar")
        ∧ missesAll [] [plainDigest (lit "foo bar")] {
          query := some (lit "oo ba"), queryMode := some .phrase } = true)
      ∧ (tokenizeLexical plainUnicode [0x130] = [[0x69, 0x307]]
        ∧ missesAll [plainShard [0x130]] [] { query := some [0x130] } = true)
      ∧ (tokenizeLexical plainUnicode (lit "--") = []
        ∧ missesAll [plainShard (lit "foo bar")] [] {
          query := some (lit "--"), queryMatch := some .all } = true) := by
  decide +kernel

end PiFabric.Memory
