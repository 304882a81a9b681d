import PiFabric.Compaction.CutSound

/-! A branch with a live entry has a cut, and the cut is valid: what is summarized, where the kept
tail begins, and that it is the longest one where the window of a model plans it.
-/

namespace PiFabric.Compaction

open JsString

variable {ν : Type}

def tailBudget (options : Option (CutOptions ν)) (branch : List SessionEntry) : TokenNumber :=
  match options.bind (·.plan branch) with
  | some plan => plan.rawTailTokenBudget
  | none => .natural (tailLimit options)

/-- A valid cut of the live entries: a prefix of them that is not empty is summarized, and the entry
after it is kept first, if there is one.
-/
structure ValidCut (branch : List SessionEntry) (live : List LiveEntry) (budget : Nat) (cut : Cut ν)
    : Prop where
  some_ : cut.summarized ≠ []
  taken : cut.summarized = (live.take cut.summarized.length).map (·.entry)
  kept : cut.firstKeptEntryId
    = (live[cut.summarized.length]?.map (·.entry.id)).getD []
  tail : ∀ item, live[cut.summarized.length]? = some item →
    Admissible branch live budget cut.summarized.length item
  fits : suffixTokens live cut.summarized.length ≤ budget

/-- No admissible tail is longer. -/
def Longest (branch : List SessionEntry) (live : List LiveEntry) (budget : Nat) (cut : Cut ν) : Prop :=
  ∀ index, 1 ≤ index → index < cut.summarized.length →
    ¬∃ item, Admissible branch live budget index item

/-- A cut of the live entries before an index. -/
structure CutBefore (live : List LiveEntry) (index : Nat) (budget : Option (CutBudget ν))
    (cut : Cut ν)
    : Prop where
  taken : cut.summarized = (live.take index).map (·.entry)
  kept : cut.firstKeptEntryId = (live[index]?.map (·.entry.id)).getD []
  budget : cut.budget = budget

theorem boundary_spec {summarized : List SessionEntry} (some_ : summarized ≠ [])
    (firstKeptEntryId : JsString) (budget : Option (CutBudget ν))
    : ∃ cut, boundary summarized firstKeptEntryId budget = some cut ∧ cut.summarized = summarized
      ∧ cut.firstKeptEntryId = firstKeptEntryId ∧ cut.budget = budget := by
  cases summarized with
  | nil => exact absurd rfl some_
  | cons first rest => exact ⟨_, rfl, rfl, rfl, rfl⟩

variable {live : List LiveEntry}

theorem boundary_all (some_ : live ≠ []) (budget : Option (CutBudget ν))
    : ∃ cut, boundary (live.map (·.entry)) [] budget = some cut
      ∧ CutBefore live live.length budget cut := by
  obtain ⟨cut, made, taken, kept, given⟩ :=
    boundary_spec (fun nothing => some_ (List.map_eq_nil_iff.mp nothing)) [] budget
  refine ⟨cut, made, ?_, ?_, given⟩
  · rw [taken, List.take_length]
  · rw [kept, List.getElem?_eq_none (Nat.le_refl _)]
    rfl

variable {index : Nat}

/-- The cut at a place after the first live entry. -/
theorem cutAt_spec (positive : 0 < index) (within : index ≤ live.length)
    (budget : Option (CutBudget ν))
    : ∃ cut, cutAt live index budget = some cut ∧ CutBefore live index budget cut := by
  rw [cutAt]
  cases there : live[index]? with
  | none =>
    have all : index = live.length :=
      Nat.le_antisymm within (List.getElem?_eq_none_iff.mp there)
    have some_ : live ≠ [] := by
      intro nothing
      rw [nothing] at all
      exact absurd all (Nat.ne_of_gt positive)
    rw [all]
    exact boundary_all some_ budget
  | some item =>
    have some_ : (live.take index).map (·.entry) ≠ [] := by
      intro nothing
      have short := congrArg List.length nothing
      rw [List.length_map, List.length_take, List.length_nil] at short
      omega
    obtain ⟨cut, made, taken, kept, given⟩ := boundary_spec some_ item.entry.id budget
    refine ⟨cut, made, taken, ?_, given⟩
    rw [kept, there]
    rfl

variable {branch : List SessionEntry} {budget : Nat}

/-- A tail is in the live entries, after the first one where there is one. -/
theorem TailAt.bounds (tail : TailAt branch live budget index) (some_ : live ≠ [])
    : 0 < index ∧ index ≤ live.length := by
  rcases tail with rfl | ⟨positive, item, tail⟩
  · exact ⟨List.length_pos_iff.mpr some_, Nat.le_refl _⟩
  · exact ⟨positive, (List.getElem?_eq_some_iff.mp tail.there).1.le⟩

/-- A proposal: a cut before an index where a tail may begin, checked against the budget of the
branch, and before the longest tail where there is a plan.
-/
structure Proposed (options : Option (CutOptions ν)) (branch : List SessionEntry)
    (live : List LiveEntry) (budget : Nat) (cut : Cut ν) (index : Nat)
    : Prop where
  before : CutBefore live index cut.budget cut
  tail : TailAt branch live budget index
  checked : proposedBudget options cut = .natural budget
  longest : (options.bind (·.plan branch)).isSome = true →
    ∀ earlier, 1 ≤ earlier → earlier < index → ¬∃ item, Admissible branch live budget earlier item

variable {host : ContextHost}

/-- The whole-turn selector proposes a cut. -/
theorem legacyCut_spec (known : LiveOf host branch live) (some_ : live ≠ []) (limit : Nat)
    : ∃ (cut : Cut ν) (index : Nat), legacyCut branch live limit = some cut
      ∧ CutBefore live index none cut ∧ TailAt branch live limit index := by
  rw [legacyCut]
  generalize place : ((lastBoundaryIndex live).map (closeCut branch live)).getD 0 = closed
  have turn : closed = 0 ∨ ∃ item, live[closed]? = some item ∧ item.turnBoundary = true
      ∧ ClosureSafe branch item.branchIndex := by
    rw [← place]
    cases found : lastBoundaryIndex live with
    | none => exact .inl rfl
    | some last => exact closeCut_spec branch live last (turnBoundary_of_lastBoundary found)
  by_cases over_ : limit < suffixTokens live closed
  · rw [if_pos over_]
    have tail := (continuityIndex_spec branch live limit).1
    obtain ⟨positive, within⟩ := tail.bounds some_
    obtain ⟨cut, made, before⟩ := @cutAt_spec ν live _ positive within none
    exact ⟨cut, _, made, before, tail⟩
  · rw [if_neg over_]
    split
    · obtain ⟨cut, made, before⟩ := @boundary_all ν live some_ none
      exact ⟨cut, _, made, before, .inl rfl⟩
    · rename_i later
      obtain ⟨positive, after⟩ := not_or.mp later
      rcases turn with nothing | ⟨item, there, starts, safe⟩
      · exact absurd nothing positive
      · have source := known.made item (List.mem_of_getElem? there)
        have follows : previousCompactionIndex branch < item.branchIndex := by
          rw [there, Option.any_some, decide_eq_true_eq] at after
          exact Int.lt_of_not_ge after
        have tail : TailAt branch live limit closed := .inr ⟨Nat.pos_of_ne_zero positive, item,
          there, follows, cutPoint_of_turnBoundary source.2 starts, Nat.le_of_not_lt over_, safe⟩
        obtain ⟨bound, within⟩ := tail.bounds some_
        obtain ⟨cut, made, before⟩ := @cutAt_spec ν live _ bound within none
        exact ⟨cut, closed, made, before, tail⟩

theorem eq_natural_of_natural? {number : TokenNumber} {n : Nat}
    (known : number.natural? = some n)
    : number = .natural n := by
  cases number with
  | natural m =>
    rw [TokenNumber.natural?] at known
    split at known
    · rw [Option.some.inj known]
    · cases known
  | real floor => cases known
  | infinite => cases known
  | notANumber => cases known

variable {options : Option (CutOptions ν)}

theorem proposeCut_spec (limit : (tailBudget options branch).natural? = some budget)
    (some_ : collectLive host branch ≠ [])
    : ∃ cut index, proposeCut host branch options = some cut
      ∧ Proposed options branch (collectLive host branch) budget cut index := by
  have given := eq_natural_of_natural? limit
  have known := liveOf_collectLive host branch
  have filled : (collectLive host branch).isEmpty = false := by
    rw [List.isEmpty_eq_false_iff]
    exact some_
  rw [proposeCut, filled, if_neg Bool.false_ne_true]
  rw [tailBudget] at given
  cases planned : options.bind (·.plan branch) with
  | none =>
    rw [planned] at given
    obtain rfl := TokenNumber.natural.inj given
    obtain ⟨cut, index, made, before, tail⟩ :=
      @legacyCut_spec ν _ branch host known some_ (tailLimit options)
    refine ⟨cut, index, made, ?_, tail, ?_, ?_⟩
    · exact ⟨before.taken, before.kept, rfl⟩
    · rw [proposedBudget, before.budget]
      rfl
    · rw [planned]
      exact fun absent => nomatch absent
  | some plan =>
    rw [planned] at given
    dsimp only at given
    obtain ⟨tail, longest⟩ := continuityIndex_spec branch (collectLive host branch) budget
    obtain ⟨positive, within⟩ := tail.bounds some_
    dsimp only
    rw [computeContinuityCut, given]
    obtain ⟨cut, made, before⟩ := cutAt_spec positive within (some { plan with
      retainedRawTokens := suffixTokens (collectLive host branch)
        (continuityIndex branch (collectLive host branch) (.natural budget)) })
    refine ⟨cut, _, made, ?_, tail, ?_, ?_⟩
    · exact ⟨before.taken, before.kept, rfl⟩
    · rw [proposedBudget, before.budget]
      exact given
    · exact fun _ => longest

/-- The tail that a proposal names begins after all live entries or at its index. -/
theorem Proposed.keptIndex {cut : Cut ν} (proposed : Proposed options branch live budget cut index)
    (known : LiveOf host branch live) (distinct : (branch.map (·.id)).Nodup)
    : ∃ kept, keptIndex live cut.firstKeptEntryId = some kept ∧ TailAt branch live budget kept := by
  by_cases unnamed : cut.firstKeptEntryId = []
  · refine ⟨live.length, ?_, .inl rfl⟩
    rw [Compaction.keptIndex, if_pos unnamed]
  · have named := proposed.before.kept
    cases there : live[index]? with
    | none =>
      rw [there] at named
      exact absurd named unnamed
    | some item =>
      rw [there] at named
      refine ⟨index, ?_, proposed.tail⟩
      rw [named]
      rw [named] at unnamed
      exact keptIndex_eq known distinct there unnamed

/-- A proposal is a valid cut. -/
theorem Proposed.validCut {cut : Cut ν} (proposed : Proposed options branch live budget cut index)
    (some_ : live ≠ [])
    : cut.summarized.length = index ∧ ValidCut branch live budget cut := by
  obtain ⟨positive, within⟩ := proposed.tail.bounds some_
  have size : cut.summarized.length = index := by
    rw [proposed.before.taken, List.length_map, List.length_take, Nat.min_eq_left within]
  refine ⟨size, ?_, ?_, ?_, ?_, ?_⟩
  · intro nothing
    rw [nothing] at size
    exact absurd size (Nat.ne_of_lt positive)
  · rw [size]
    exact proposed.before.taken
  · rw [size]
    exact proposed.before.kept
  · rw [size]
    intro item there
    rcases proposed.tail with rfl | ⟨_, other, tail⟩
    · rw [List.getElem?_eq_none (Nat.le_refl _)] at there
      cases there
    · obtain rfl := Option.some.inj (tail.there.symm.trans there)
      exact tail
  · rw [size]
    rcases proposed.tail with rfl | ⟨_, _, tail⟩
    · exact (suffixTokens_length live).trans_le (Nat.zero_le _)
    · exact tail.fits

/-- The gate accepts the proposal of every branch whose ids are distinct. -/
theorem computeCut_spec {host : ContextHost} {entries : List SessionEntry}
    {options : Option (CutOptions ν)} {budget : Nat} (distinct : (entries.map (·.id)).Nodup)
    (small : entries.length < arrayLimit)
    (limit : (tailBudget options (applyContextEdits entries)).natural? = some budget)
    (some_ : collectLive host (applyContextEdits entries) ≠ [])
    : ∃ cut index, computeCut host entries options = some cut
      ∧ Proposed options (applyContextEdits entries) (collectLive host (applyContextEdits entries))
        budget cut index := by
  obtain ⟨cut, index, made, proposed⟩ := proposeCut_spec limit some_
  have known := liveOf_collectLive host (applyContextEdits entries)
  have apart : ((applyContextEdits entries).map (·.id)).Nodup := by
    rw [ids_applyContextEdits]
    exact distinct
  have short : (applyContextEdits entries).length < arrayLimit := by
    rw [applyContextEdits, List.length_map]
    exact small
  obtain ⟨kept, found, tail⟩ := proposed.keptIndex known apart
  have exact_ : (proposedBudget options cut).natural? = some budget := by
    rw [proposed.checked, ← eq_natural_of_natural? limit]
    exact limit
  refine ⟨cut, index, ?_, proposed⟩
  rw [computeCut]
  dsimp only
  rw [made, Option.bind_some, found, Option.bind_some,
    if_pos (acceptCompactionCut_candidateAt known short exact_ tail)]

/-- For every branch with distinct ids and every budget that is a safe natural number, there is a
cut exactly where an entry is live, it is valid, and it keeps the longest admissible tail where
there is a plan.
-/
theorem computeCut_valid (host : ContextHost) (entries : List SessionEntry)
    (options : Option (CutOptions ν)) (budget : Nat) (distinct : (entries.map (·.id)).Nodup)
    (small : entries.length < arrayLimit)
    (limit : (tailBudget options (applyContextEdits entries)).natural? = some budget)
    : ((computeCut host entries options).isSome = true
        ↔ collectLive host (applyContextEdits entries) ≠ [])
      ∧ ∀ cut, computeCut host entries options = some cut →
        ValidCut (applyContextEdits entries) (collectLive host (applyContextEdits entries)) budget cut
        ∧ ((options.bind (·.plan (applyContextEdits entries))).isSome = true →
          Longest (applyContextEdits entries) (collectLive host (applyContextEdits entries)) budget
            cut) := by
  by_cases some_ : collectLive host (applyContextEdits entries) = []
  · have nothing : computeCut host entries options = none := by
      rw [computeCut]
      dsimp only
      rw [proposeCut, some_]
      rfl
    rw [nothing]
    refine ⟨⟨fun absent => ?_, fun live => absurd some_ live⟩, fun cut absent => ?_⟩
    · cases absent
    · cases absent
  · obtain ⟨cut, index, made, proposed⟩ := @computeCut_spec ν host entries options budget distinct
      small limit some_
    obtain ⟨size, valid⟩ := proposed.validCut some_
    rw [made]
    refine ⟨⟨fun _ => some_, fun _ => rfl⟩, fun other same => ?_⟩
    obtain rfl := Option.some.inj same
    refine ⟨valid, fun planned => ?_⟩
    have longest := proposed.longest planned
    rw [← size] at longest
    exact longest

/-- Four characters a token. -/
def shortHost : ContextHost where
  estimateTokens := fun message => if (toolCallsOf message).isEmpty then 1 else 2
  getTime := fun _ => .null

def messageEntry (id : String) (members : List (String × Json)) : SessionEntry where
  id := lit id
  parentId := none
  timestamp := []
  body := .message (members.map fun member => (lit member.1, member.2))

def answeredTurn (callId : String) : List SessionEntry := [
  messageEntry "a" [("role", .string (lit "user")), ("content", .string (lit "go"))],
  messageEntry "b" [("role", .string (lit "assistant")),
    ("content", .array [Json.literal [("type", some (.string (lit "toolCall"))),
      ("id", some (.string (lit callId))), ("name", some (.string (lit "bash"))),
      ("arguments", some (Json.literal []))]])],
  messageEntry "c" [("role", .string (lit "assistant")),
    ("content", .array [Json.literal [("type", some (.string (lit "text"))),
      ("text", some (.string (lit "ok")))]])],
  messageEntry "d" [("role", .string (lit "toolResult")), ("toolCallId", .string (lit callId)),
    ("content", .array [Json.literal [("type", some (.string (lit "text"))),
      ("text", some (.string (lit "done")))]])]]

def keepTwo : Option (CutOptions Unit) :=
  some { plan := fun _ => none, keepRecentTokens := some (.natural 2) }

theorem computeCut_valid_turn
    : ((computeCut shortHost (answeredTurn "t") keepTwo).isSome = true
        ↔ collectLive shortHost (applyContextEdits (answeredTurn "t")) ≠ [])
      ∧ ∀ cut, computeCut shortHost (answeredTurn "t") keepTwo = some cut →
        ValidCut (applyContextEdits (answeredTurn "t"))
          (collectLive shortHost (applyContextEdits (answeredTurn "t"))) 2 cut
        ∧ ((keepTwo.bind (·.plan (applyContextEdits (answeredTurn "t")))).isSome = true →
          Longest (applyContextEdits (answeredTurn "t"))
            (collectLive shortHost (applyContextEdits (answeredTurn "t"))) 2 cut) :=
  computeCut_valid shortHost (answeredTurn "t") keepTwo 2 (by decide +kernel) (by decide +kernel)
    (by decide +kernel)

/-- Options whose plan keeps more tokens than a safe integer counts. -/
def keepEveryToken : Option (CutOptions Unit) :=
  some {
    plan := fun _ => some {
      contextWindow := (), targetContextRatio := (), targetContextTokens := (), reserveTokens := ()
      keepRecentTokens := (), rawTokensBefore := (), tokenScale := (), fixedOverheadTokens := ()
      continuityTargetTokens := (), occupancyCeilingTokens := (), safeCeilingTokens := ()
      reductionCeilingTokens := (), rawTailTokenBudget := .natural (2 ^ 53)
      bindingConstraint := .continuity }
    keepRecentTokens := none }

/-- A call with the empty id is cut from its result, and a plan that keeps more tokens than a safe
integer counts has no cut.
-/
theorem computeCut_splits_and_misses
    : (((computeCut shortHost (answeredTurn "") keepTwo).map (·.firstKeptEntryId) = some (lit "c")
        ∧ Occurs (answeredTurn "") [] 1 true ∧ Occurs (answeredTurn "") [] 3 false)
      ∧ (computeCut shortHost (answeredTurn "t") keepEveryToken).isNone = true)
      ∧ ((answeredTurn "").map (·.id)).Nodup ∧ ((answeredTurn "t").map (·.id)).Nodup
      ∧ collectLive shortHost (applyContextEdits (answeredTurn "t")) ≠ [] := by
  refine ⟨⟨⟨by decide +kernel, ?_, ?_⟩, by decide +kernel⟩, by decide +kernel, by decide +kernel, ?_⟩
  · rw [Occurs]
    decide +kernel
  · rw [Occurs]
    decide +kernel
  · intro nothing
    have count := congrArg List.length nothing
    revert count
    decide +kernel

end PiFabric.Compaction
