import PiFabric.Compaction.Cut

/-! The gate accepts every proposal, and every proposal is a valid cut: the tail begins with an
entry that may begin it, fits the budget and takes no result from its call.
-/

namespace PiFabric.Compaction

open JsString

variable {ν : Type}

structure LiveOf (host : ContextHost) (branch : List SessionEntry) (live : List LiveEntry)
    : Prop where
  made : ∀ item ∈ live, branch[item.branchIndex]? = some item.entry
    ∧ liveEntryAt? host item.entry item.branchIndex = some item
  ordered : live.Pairwise fun first second => first.branchIndex < second.branchIndex

variable {index : Nat}

variable {host : ContextHost} {item : LiveEntry}

theorem of_liveEntryAt? {entry : SessionEntry} (made : liveEntryAt? host entry index = some item)
    : item.entry = entry ∧ item.branchIndex = index := by
  rw [liveEntryAt?] at made
  split at made
  · cases made
  · obtain rfl := Option.some.inj made
    exact ⟨rfl, rfl⟩

theorem liveOf_collectContextEntries (host : ContextHost) (branch : List SessionEntry)
    (startIndex : Nat)
    : LiveOf host branch (collectContextEntries host branch startIndex) where
  made := by
    intro item member
    obtain ⟨source, listed, made⟩ := List.mem_filterMap.mp member
    have there := List.mem_zipIdx_iff_getElem?.mp (List.mem_of_mem_drop listed)
    obtain ⟨entry, index⟩ := of_liveEntryAt? made
    rw [entry, index]
    exact ⟨there, made⟩
  ordered := by
    have indexed : branch.zipIdx.Pairwise fun first second => first.2 < second.2 := by
      have ascending : (branch.zipIdx.map Prod.snd).Pairwise (· < ·) := by
        rw [List.zipIdx_map_snd]
        exact List.pairwise_lt_range'
      exact List.pairwise_map.mp ascending
    rw [collectContextEntries, List.pairwise_filterMap]
    refine (indexed.sublist (List.drop_sublist _ _)).imp ?_
    intro first second before left leftMade right rightMade
    rw [(of_liveEntryAt? leftMade).2, (of_liveEntryAt? rightMade).2]
    exact before

theorem liveOf_collectLive (host : ContextHost) (branch : List SessionEntry)
    : LiveOf host branch (collectLive host branch) := by
  unfold collectLive
  split
  · exact liveOf_collectContextEntries host branch 0
  · split
    · exact liveOf_collectContextEntries host branch _
    · exact liveOf_collectContextEntries host branch _

variable {live : List LiveEntry}

variable {branch : List SessionEntry}

theorem LiveOf.lt (known : LiveOf host branch live) (member : item ∈ live)
    : item.branchIndex < branch.length :=
  (List.getElem?_eq_some_iff.mp (known.made item member).1).1

theorem previousCompactionIndex_lt (branch : List SessionEntry)
    : previousCompactionIndex branch < branch.length := by
  unfold previousCompactionIndex
  split
  · have := Int.natCast_nonneg branch.length
    omega
  · rename_i index firstKept found
    rw [findLastCompaction] at found
    obtain ⟨item, member, made⟩ := List.exists_of_findSome?_eq_some found
    have listed := List.mem_zipIdx_iff_getElem?.mp (List.mem_reverse.mp member)
    have within := (List.getElem?_eq_some_iff.mp listed).1
    split at made
    · cases made
      exact Int.ofNat_lt.mpr within
    · cases made

theorem keptIndex_eq (known : LiveOf host branch live) (distinct : (branch.map (·.id)).Nodup)
    (there : live[index]? = some item) (named : item.entry.id ≠ [])
    : keptIndex live item.entry.id = some index := by
  obtain ⟨within, same⟩ := List.getElem?_eq_some_iff.mp there
  rw [keptIndex, if_neg named, List.findIdx?_eq_some_iff_getElem]
  refine ⟨within, by rw [same]; exact decide_eq_true rfl, fun earlier before => ?_⟩
  have early : earlier < live.length := before.trans within
  have order := List.pairwise_iff_getElem.mp known.ordered earlier index early within before
  intro found
  have equal : live[earlier].entry.id = item.entry.id := of_decide_eq_true found
  have first := (known.made _ (List.getElem_mem early)).1
  have second := (known.made _ (List.mem_of_getElem? there)).1
  have places : live[earlier].branchIndex = item.branchIndex := by
    have firstWithin := (List.getElem?_eq_some_iff.mp first).1
    refine (List.getElem?_inj (by rw [List.length_map]; exact firstWithin) distinct).mp ?_
    rw [List.getElem?_map, List.getElem?_map, first, second, Option.map_some, Option.map_some,
      equal]
  rw [same, places] at order
  exact Nat.lt_irrefl _ order

/-- The kept tail may begin at a live index: with a cut point after the last compaction, within the
budget, and apart from no call whose result it takes.
-/
structure Admissible (branch : List SessionEntry) (live : List LiveEntry) (budget index : Nat)
    (item : LiveEntry)
    : Prop where
  there : live[index]? = some item
  afterPrevious : previousCompactionIndex branch < item.branchIndex
  cutPoint : item.cutPoint = true
  fits : suffixTokens live index ≤ budget
  closed : ClosureSafe branch item.branchIndex

/-- The continuity selector admits the indices of the admissible tails. -/
theorem admits_iff {budget : Nat}
    : admits branch live (.natural budget) index = true
      ↔ ∃ item, Admissible branch live budget index item := by
  rw [admits, Option.any_eq_true]
  constructor
  · intro held
    obtain ⟨item, there, good⟩ := held
    simp only [Bool.and_eq_true, decide_eq_true_eq] at good
    obtain ⟨⟨⟨after, point⟩, within⟩, closed⟩ := good
    have fits : ¬budget < suffixTokens live index := by
      intro beyond
      rw [exceeds, decide_eq_true beyond] at within
      cases within
    exact ⟨item, there, after, point, Nat.le_of_not_lt fits,
      (closureSafe_iff branch item.branchIndex).mp closed⟩
  · intro held
    obtain ⟨item, there, after, point, fits, closed⟩ := held
    refine ⟨item, there, ?_⟩
    have within : exceeds (suffixTokens live index) (.natural budget) = false :=
      decide_eq_false (Nat.not_lt.mpr fits)
    rw [decide_eq_true after, point, within, (closureSafe_iff branch item.branchIndex).mpr closed]
    rfl

/-- Where the tail begins: after all live entries, or at an admissible index that is not the first.
-/
def TailAt (branch : List SessionEntry) (live : List LiveEntry) (budget index : Nat) : Prop :=
  index = live.length ∨ 0 < index ∧ ∃ item, Admissible branch live budget index item

/-- The continuity selector takes the longest admissible tail. -/
theorem continuityIndex_spec (branch : List SessionEntry) (live : List LiveEntry) (budget : Nat)
    : TailAt branch live budget (continuityIndex branch live (.natural budget))
      ∧ ∀ earlier, 1 ≤ earlier → earlier < continuityIndex branch live (.natural budget) →
        ¬∃ item, Admissible branch live budget earlier item := by
  have places (index : Nat)
      : index ∈ (List.range live.length).drop 1 ↔ 1 ≤ index ∧ index < live.length := by
    rw [List.mem_drop_iff_getElem]
    constructor
    · intro held
      obtain ⟨place, within, same⟩ := held
      rw [List.length_range] at within
      rw [List.getElem_range] at same
      omega
    · intro held
      refine ⟨index - 1, by rw [List.length_range]; omega, ?_⟩
      rw [List.getElem_range]
      omega
  cases found : ((List.range live.length).drop 1).find? (admits branch live (.natural budget)) with
  | none =>
    have nothing := List.find?_eq_none.mp found
    rw [continuityIndex, found, Option.getD_none]
    refine ⟨.inl rfl, fun earlier positive before held => ?_⟩
    exact nothing earlier ((places earlier).mpr ⟨positive, before⟩) (admits_iff.mpr held)
  | some index =>
    rw [continuityIndex, found, Option.getD_some]
    have inside := (places index).mp (List.mem_of_find?_eq_some found)
    refine ⟨.inr ⟨inside.1, admits_iff.mp (List.find?_some found)⟩, ?_⟩
    intro earlier positive before held
    obtain ⟨_, first, rest, split, skipped⟩ := List.find?_eq_some_iff_append.mp found
    have member := (places earlier).mpr ⟨positive, before.trans inside.2⟩
    have ascending : ((List.range live.length).drop 1).Pairwise (· < ·) :=
      List.pairwise_lt_range.sublist (List.drop_sublist _ _)
    rw [split] at member ascending
    rcases List.mem_append.mp member with early | late
    · have refused := skipped earlier early
      rw [admits_iff.mpr held] at refused
      cases refused
    · have order := (List.pairwise_append.mp ascending).2.1
      rcases List.mem_cons.mp late with same | later
      · exact Nat.lt_irrefl _ (same ▸ before)
      · exact Nat.lt_asymm before ((List.pairwise_cons.mp order).1 earlier later)

/-- The first place of the crossing spans is the boundary only where no span crosses it. -/
theorem earliestCrossing_eq {spans : List CallResultSpan} {boundaryIndex : Nat}
    (same : earliestCrossing spans boundaryIndex = boundaryIndex)
    : spans.all (fun span => !spanCrosses span boundaryIndex) = true := by
  have lower (spans : List CallResultSpan) (earliest : Nat)
      : spans.foldl (fun earliest span =>
          if spanCrosses span boundaryIndex then min earliest span.first else earliest) earliest
        ≤ earliest
      ∧ ∀ span ∈ spans, spanCrosses span boundaryIndex = true →
        spans.foldl (fun earliest span =>
          if spanCrosses span boundaryIndex then min earliest span.first else earliest) earliest
        ≤ span.first := by
    induction spans generalizing earliest with
    | nil => exact ⟨Nat.le_refl _, fun _ member => nomatch member⟩
    | cons span rest ih =>
      rw [List.foldl_cons]
      obtain ⟨below, each⟩ := ih (if spanCrosses span boundaryIndex then min earliest span.first
        else earliest)
      constructor
      · refine below.trans ?_
        split
        · exact Nat.min_le_left _ _
        · exact Nat.le_refl _
      · intro other member crosses
        rcases List.mem_cons.mp member with rfl | later
        · refine below.trans ?_
          rw [if_pos crosses]
          exact Nat.min_le_right _ _
        · exact each other later crosses
  rw [List.all_eq_true]
  intro span member
  rw [Bool.not_eq_true']
  by_contra crossing
  have crosses := Bool.eq_true_of_not_eq_false crossing
  have bound := (lower spans boundaryIndex).2 span member crosses
  rw [earliestCrossing] at same
  rw [same] at bound
  simp only [spanCrosses, Bool.and_eq_true, decide_eq_true_eq] at crosses
  exact Nat.not_lt.mpr bound crosses.1.2

theorem turnBoundary_of_previousBoundary {branchIndex : Nat}
    (found : previousBoundaryAtOrBefore live branchIndex = some index)
    : ∃ item, live[index]? = some item ∧ item.turnBoundary = true := by
  have held := List.find?_some found
  obtain ⟨item, there, good⟩ := (Option.any_eq_true _ _).mp held
  exact ⟨item, there, (Bool.and_eq_true_iff.mp good).2⟩

theorem turnBoundary_of_lastBoundary (found : lastBoundaryIndex live = some index)
    : ∃ item, live[index]? = some item ∧ item.turnBoundary = true := by
  have held := List.find?_some found
  exact (Option.any_eq_true _ _).mp held

/-- A candidate that starts a turn is moved to the front or to the start of a turn that takes no
result from its call, by induction over the candidate.
-/
theorem closeCut_spec (branch : List SessionEntry) (live : List LiveEntry) (candidate : Nat)
    (starts : ∃ item, live[candidate]? = some item ∧ item.turnBoundary = true)
    : closeCut branch live candidate = 0
      ∨ ∃ item, live[closeCut branch live candidate]? = some item ∧ item.turnBoundary = true
        ∧ ClosureSafe branch item.branchIndex := by
  induction candidate using Nat.strongRecOn with
  | ind candidate ih =>
    obtain ⟨item, there, turn⟩ := starts
    cases candidate with
    | zero =>
      left
      rw [closeCut]
    | succ before =>
      rw [closeCut, there]
      dsimp only
      by_cases same : earliestCrossing (callResultSpans branch).values item.branchIndex
          = item.branchIndex
      · right
        rw [if_pos same]
        exact ⟨item, there, turn,
          (closureSafe_iff branch item.branchIndex).mp (earliestCrossing_eq same)⟩
      · rw [if_neg same]
        cases found : previousBoundaryAtOrBefore live
            (earliestCrossing (callResultSpans branch).values item.branchIndex) with
        | none => exact .inl rfl
        | some closed =>
          dsimp only
          by_cases back : closed < before + 1
          · rw [if_pos back]
            exact ih closed back (turnBoundary_of_previousBoundary found)
          · rw [if_neg back]
            exact .inl rfl

end PiFabric.Compaction

/-! The gate accepts a candidate whose tail begins after all live entries or at an admissible one,
for every branch that is no longer than an array can be.
-/

namespace PiFabric.Compaction

open JsString

/-- The greatest length of an array, and one more. -/
def arrayLimit : Nat := 2 ^ 32

/-- A branch index is a safe integer. -/
theorem isNatural_of_lt {index : Nat} (small : index < arrayLimit)
    : isNatural index = true := by
  have below : arrayLimit < Double.exactLimit := by decide
  exact decide_eq_true (small.trans below)

theorem index_lt_of_branchCalls {entries : List SessionEntry} {event : CallEvent}
    (member : event ∈ branchCalls entries)
    : event.index < entries.length := by
  obtain ⟨item, listed, made⟩ := List.mem_flatMap.mp member
  have there := (List.getElem?_eq_some_iff.mp (List.mem_zipIdx_iff_getElem?.mp listed)).1
  have same : event.index = item.2 := by
    rw [callEvents] at made
    split at made
    · rcases List.mem_append.mp made with call | result
      · obtain ⟨_, _, rfl⟩ := List.mem_map.mp call
        rfl
      · split at result
        · obtain ⟨_, _, rfl⟩ := List.mem_map.mp result
          rfl
        · cases result
    · cases made
  rw [same]
  exact there

theorem ends_of_callResultSpans {entries : List SessionEntry} {span : CallResultSpan}
    (member : span ∈ (callResultSpans entries).values)
    : span.first ≤ span.last ∧ span.last < entries.length := by
  obtain ⟨id, -, spec⟩ := exists_id_of_callResultSpans member
  obtain ⟨last, ended, ends⟩ := spec.last
  have order := spec.within last ended
  rw [ends] at order
  refine ⟨order.1, ?_⟩
  rw [← ends]
  exact index_lt_of_branchCalls (List.mem_of_mem_filter ended)

theorem kernelSpan_safe {span : CallResultSpan} {boundaryIndex : Nat}
    (safe : spanCrosses span boundaryIndex = false)
    : (!(kernelSpan span).paired || decide (boundaryIndex ≤ (kernelSpan span).first)
        || decide ((kernelSpan span).last < boundaryIndex)) = true := by
  rw [spanCrosses] at safe
  rw [kernelSpan]
  cases paired : span.hasCall && span.hasResult with
  | false => rfl
  | true =>
    rw [paired] at safe
    rcases Nat.lt_or_ge span.first boundaryIndex with opens | before
    · rw [decide_eq_true opens] at safe
      have ends := of_decide_eq_false safe
      rw [decide_eq_true (Nat.lt_of_not_le ends), Bool.or_true]
    · rw [decide_eq_true before]
      rfl

/-- Spans that do not cross the boundary are accepted in batches, by induction over the spans. -/
theorem acceptSpans_of_safe {candidate : CutCandidate} {budget : Nat}
    (base : cutAccepted candidate budget [] = true) (spans : List CallResultSpan)
    (batch : List KernelSpan) (before : spansSafe batch candidate.boundary = true)
    (each : ∀ span ∈ spans, span.first ≤ span.last ∧ span.last < arrayLimit
      ∧ spanCrosses span candidate.boundary = false)
    : acceptSpans candidate budget batch spans = true := by
  have accepted (batch : List KernelSpan) (safe : spansSafe batch candidate.boundary = true)
      : cutAccepted candidate budget batch = true := by
    simp only [cutAccepted, Bool.and_eq_true] at base ⊢
    exact ⟨base.1, safe⟩
  induction spans generalizing batch with
  | nil =>
    rw [acceptSpans]
    exact accepted batch before
  | cons span rest ih =>
    obtain ⟨order, small, safe⟩ := each span List.mem_cons_self
    have later := fun other member => each other (List.mem_cons_of_mem span member)
    have wider : spansSafe (batch ++ [kernelSpan span]) candidate.boundary = true := by
      rw [spansSafe] at before ⊢
      rw [List.all_append, before, List.all_cons, List.all_nil, kernelSpan_safe safe]
      rfl
    rw [acceptSpans, isNatural_of_lt (order.trans_lt small), isNatural_of_lt small,
      decide_eq_false (Nat.not_lt.mpr order)]
    rw [if_neg (show ¬(!true || !true || false) = true by decide)]
    dsimp only
    by_cases full : (batch ++ [kernelSpan span]).length = 128
    · rw [if_pos full, accepted _ wider, Bool.true_and]
      exact ih [] rfl later
    · rw [if_neg full]
      exact ih _ wider later

/-- The gate accepts a candidate that is eligible, follows the last compaction, fits the budget and
cuts no call from its result.
-/
theorem acceptCompactionCut_of_safe {branch : List SessionEntry} {candidate : CutCandidate}
    {budget : Nat} (limit : candidate.budget.natural? = some budget)
    (small : branch.length < arrayLimit) (eligible : candidate.eligible = true)
    (after : candidate.afterPrevious = true) (fits : candidate.retained ≤ budget)
    (inside : candidate.boundary ≤ branch.length)
    (safe : closureSafe (callResultSpans branch) candidate.boundary = true)
    : acceptCompactionCut candidate (callResultSpans branch).values = true := by
  have bounded : budget < Double.exactLimit := by
    cases given : candidate.budget with
    | natural n =>
      rw [given] at limit
      rw [TokenNumber.natural?] at limit
      split at limit
      · rename_i exact_
        obtain rfl := Option.some.inj limit
        exact of_decide_eq_true exact_
      · cases limit
    | real floor =>
      rw [given] at limit
      cases limit
    | infinite =>
      rw [given] at limit
      cases limit
    | notANumber =>
      rw [given] at limit
      cases limit
  have base : cutAccepted candidate budget [] = true := by
    rw [cutAccepted, eligible, after, decide_eq_true fits]
    rfl
  have retained : isNatural candidate.retained = true :=
    decide_eq_true (fits.trans_lt bounded)
  rw [acceptCompactionCut, limit]
  dsimp only
  rw [retained, isNatural_of_lt (inside.trans_lt small), base]
  refine acceptSpans_of_safe base _ [] rfl fun span member => ?_
  obtain ⟨order, within⟩ := ends_of_callResultSpans member
  have apart := List.all_eq_true.mp safe span member
  rw [Bool.not_eq_true'] at apart
  exact ⟨order, within.trans small, apart⟩

theorem closureSafe_length (branch : List SessionEntry)
    : closureSafe (callResultSpans branch) branch.length = true := by
  rw [closureSafe, List.all_eq_true]
  intro span member
  have within := (ends_of_callResultSpans member).2
  rw [Bool.not_eq_true', spanCrosses, decide_eq_false (Nat.not_le.mpr within), Bool.and_false]

theorem suffixTokens_length (live : List LiveEntry)
    : suffixTokens live live.length = 0 := by
  rw [suffixTokens, List.drop_length]
  rfl

/-- The gate accepts every tail that a selector may propose. -/
theorem acceptCompactionCut_candidateAt {host : ContextHost} {branch : List SessionEntry}
    {live : List LiveEntry} (known : LiveOf host branch live) (small : branch.length < arrayLimit)
    {budget : TokenNumber} {limit : Nat} (given : budget.natural? = some limit) {index : Nat}
    (tail : TailAt branch live limit index)
    : acceptCompactionCut (candidateAt branch live budget index) (callResultSpans branch).values
      = true := by
  rcases tail with rfl | ⟨_, item, tail⟩
  · have outside : live[live.length]? = none := List.getElem?_eq_none (Nat.le_refl _)
    refine acceptCompactionCut_of_safe given small ?_ ?_ ?_ ?_ ?_
    · rw [candidateAt, outside]
      rfl
    · rw [candidateAt, outside]
      exact decide_eq_true (previousCompactionIndex_lt branch)
    · rw [candidateAt]
      exact (suffixTokens_length live).trans_le (Nat.zero_le _)
    · rw [candidateAt, outside]
      exact Nat.le_refl _
    · rw [candidateAt, outside]
      exact closureSafe_length branch
  · have within := known.lt (List.mem_of_getElem? tail.there)
    refine acceptCompactionCut_of_safe given small ?_ ?_ ?_ ?_ ?_
    · rw [candidateAt, tail.there]
      exact tail.cutPoint
    · rw [candidateAt, tail.there]
      exact decide_eq_true tail.afterPrevious
    · exact tail.fits
    · rw [candidateAt, tail.there]
      exact within.le
    · rw [candidateAt, tail.there]
      exact (closureSafe_iff branch item.branchIndex).mpr tail.closed

end PiFabric.Compaction
