import PiFabric.Compaction.Context
import PiFabric.Foundation.NumberValue

/-! The span of each tool call in a branch, from the first entry that calls or answers it to the
last. A span crosses a boundary when it has a call and a result and begins before the boundary and
ends at or after it.
-/

namespace PiFabric.Compaction

open JsString

structure CallResultSpan where
  first : Nat
  last : Nat
  hasCall : Bool
  hasResult : Bool
  deriving DecidableEq

structure CallEvent where
  id : JsString
  index : Nat
  isCall : Bool
  deriving DecidableEq

def toolCallIdsOf (message : Message) : List JsString :=
  (toolCallsOf message).map (·.id)

def callEvents (entry : SessionEntry) (index : Nat) : List CallEvent :=
  match entry.body with
  | .message message =>
      (toolCallIdsOf (.object message)).map (fun id => { id, index, isCall := true })
        ++ if isToolResult (.object message) then
          (toolCallId (.object message)).toList.map fun id => { id, index, isCall := false }
        else []
  | _ => []

def branchCalls (entries : List SessionEntry) : List CallEvent :=
  entries.zipIdx.flatMap fun item => callEvents item.1 item.2

def recordSpan (span : Option CallResultSpan) (event : CallEvent) : CallResultSpan :=
  let span := span.getD {
    first := event.index, last := event.index, hasCall := false, hasResult := false
  }
  { first := min span.first event.index
    last := max span.last event.index
    hasCall := span.hasCall || event.isCall
    hasResult := span.hasResult || !event.isCall }

/-- One call or result; an empty id is passed over. -/
def recordCall (spans : JsMap JsString CallResultSpan) (event : CallEvent)
    : JsMap JsString CallResultSpan :=
  if event.id = [] then spans else spans.set event.id (recordSpan (spans.get? event.id) event)

def callResultSpans (entries : List SessionEntry) : JsMap JsString CallResultSpan :=
  (branchCalls entries).foldl recordCall .empty

def spanCrosses (span : CallResultSpan) (boundaryIndex : Nat) : Bool :=
  span.hasCall && span.hasResult && decide (span.first < boundaryIndex)
    && decide (boundaryIndex ≤ span.last)

def closureSafe (spans : JsMap JsString CallResultSpan) (boundaryIndex : Nat) : Bool :=
  spans.values.all fun span => !spanCrosses span boundaryIndex

def spanOf (span : Option CallResultSpan) (events : List CallEvent) : Option CallResultSpan :=
  events.foldl (fun span event => some (recordSpan span event)) span

theorem get?_foldl_recordCall {id : JsString} (named : id ≠ []) (events : List CallEvent)
    (spans : JsMap JsString CallResultSpan)
    : (events.foldl recordCall spans).get? id
      = spanOf (spans.get? id) (events.filter fun event => event.id = id) := by
  induction events generalizing spans with
  | nil => rfl
  | cons event rest ih =>
    rw [List.foldl_cons, ih, recordCall]
    by_cases same : event.id = id
    · have here : ¬event.id = [] := by
        rw [same]
        exact named
      have own : (event :: rest).filter (fun event => decide (event.id = id))
          = event :: rest.filter fun event => decide (event.id = id) :=
        List.filter_cons_of_pos (decide_eq_true same)
      rw [own, if_neg here, same, JsMap.get?_set_self]
      rfl
    · have other : (event :: rest).filter (fun event => decide (event.id = id))
          = rest.filter fun event => decide (event.id = id) :=
        List.filter_cons_of_neg fun held => same (of_decide_eq_true held)
      rw [other]
      split
      · rfl
      · rw [JsMap.get?_set, if_neg fun back => same back.symm]

/-- A span of some events: its ends are the least and the greatest of their indices, and it has a
call or a result where one of them is.
-/
structure SpanOf (events : List CallEvent) (span : CallResultSpan) : Prop where
  within : ∀ event ∈ events, span.first ≤ event.index ∧ event.index ≤ span.last
  first : ∃ event ∈ events, event.index = span.first
  last : ∃ event ∈ events, event.index = span.last
  hasCall : span.hasCall = true ↔ ∃ event ∈ events, event.isCall = true
  hasResult : span.hasResult = true ↔ ∃ event ∈ events, event.isCall = false

theorem spanOf_single (event : CallEvent) : SpanOf [event] (recordSpan none event) where
  within := by
    intro other member
    rw [List.mem_singleton.mp member]
    simp [recordSpan]
  first := ⟨event, List.mem_singleton_self _, by simp [recordSpan]⟩
  last := ⟨event, List.mem_singleton_self _, by simp [recordSpan]⟩
  hasCall := by simp [recordSpan]
  hasResult := by simp [recordSpan]

theorem SpanOf.record {events : List CallEvent} {span : CallResultSpan} (known : SpanOf events span)
    (event : CallEvent)
    : SpanOf (events ++ [event]) (recordSpan (some span) event) where
  within := by
    intro other member
    rw [recordSpan, Option.getD_some]
    rcases List.mem_append.mp member with old | new
    · have inside := known.within other old
      exact ⟨(Nat.min_le_left _ _).trans inside.1, inside.2.trans (Nat.le_max_left _ _)⟩
    · rw [List.mem_singleton.mp new]
      exact ⟨Nat.min_le_right _ _, Nat.le_max_right _ _⟩
  first := by
    rw [recordSpan, Option.getD_some]
    rcases Nat.le_total span.first event.index with before | after
    · obtain ⟨other, member, same⟩ := known.first
      exact ⟨other, List.mem_append_left _ member, by rw [Nat.min_eq_left before, same]⟩
    · exact ⟨event, List.mem_append_right _ (List.mem_singleton_self _),
        (Nat.min_eq_right after).symm⟩
  last := by
    rw [recordSpan, Option.getD_some]
    rcases Nat.le_total event.index span.last with before | after
    · obtain ⟨other, member, same⟩ := known.last
      exact ⟨other, List.mem_append_left _ member, by rw [Nat.max_eq_left before, same]⟩
    · exact ⟨event, List.mem_append_right _ (List.mem_singleton_self _),
        (Nat.max_eq_right after).symm⟩
  hasCall := by
    rw [recordSpan, Option.getD_some, Bool.or_eq_true, known.hasCall]
    simp only [List.mem_append, List.mem_singleton, or_and_right, exists_or, exists_eq_left]
  hasResult := by
    rw [recordSpan, Option.getD_some, Bool.or_eq_true, known.hasResult, Bool.not_eq_true']
    simp only [List.mem_append, List.mem_singleton, or_and_right, exists_or, exists_eq_left]

theorem spanOf_spec (events : List CallEvent)
    : (events = [] ∧ spanOf none events = none)
      ∨ ∃ span, spanOf none events = some span ∧ SpanOf events span := by
  induction events using List.reverseRecOn with
  | nil => exact .inl ⟨rfl, rfl⟩
  | append_singleton before event ih =>
    right
    rw [spanOf, List.foldl_append, List.foldl_cons, List.foldl_nil]
    rcases ih with ⟨none_, nothing⟩ | ⟨span, held, known⟩
    · rw [none_]
      exact ⟨_, rfl, spanOf_single event⟩
    · rw [spanOf] at held
      rw [held]
      exact ⟨_, rfl, known.record event⟩

def Occurs (entries : List SessionEntry) (id : JsString) (index : Nat) (isCall : Bool) : Prop :=
  CallEvent.mk id index isCall ∈ branchCalls entries

/-- No id that is called and answered occurs both before the boundary and at or after it. -/
def ClosureSafe (entries : List SessionEntry) (boundaryIndex : Nat) : Prop :=
  ∀ id, id ≠ [] → (∃ i, Occurs entries id i true) → (∃ i, Occurs entries id i false) →
    ∀ i a j b, Occurs entries id i a → Occurs entries id j b →
      i < boundaryIndex → j < boundaryIndex

theorem get?_callResultSpans (entries : List SessionEntry) {id : JsString} (named : id ≠ [])
    : (callResultSpans entries).get? id
      = spanOf none ((branchCalls entries).filter fun event => event.id = id) := by
  rw [callResultSpans, get?_foldl_recordCall named, JsMap.get?_empty]

/-- The empty id has no span, by induction over the calls and results. -/
theorem get?_callResultSpans_nil (entries : List SessionEntry)
    : (callResultSpans entries).get? [] = none := by
  rw [callResultSpans]
  generalize branchCalls entries = events
  have start : (JsMap.empty : JsMap JsString CallResultSpan).get? [] = none := rfl
  revert start
  generalize (JsMap.empty : JsMap JsString CallResultSpan) = spans
  intro start
  induction events generalizing spans with
  | nil => exact start
  | cons event rest ih =>
    refine ih _ ?_
    rw [recordCall]
    split
    · exact start
    · rename_i other
      rw [JsMap.get?_set, if_neg fun same => other same.symm]
      exact start

theorem mem_filter_branchCalls {entries : List SessionEntry} {id : JsString} {event : CallEvent}
    : event ∈ (branchCalls entries).filter (fun event => event.id = id)
      ↔ event.id = id ∧ Occurs entries id event.index event.isCall := by
  rw [List.mem_filter, decide_eq_true_eq]
  constructor
  · intro held
    obtain ⟨member, rfl⟩ := held
    exact ⟨rfl, member⟩
  · intro held
    obtain ⟨rfl, member⟩ := held
    exact ⟨member, rfl⟩

theorem exists_id_of_callResultSpans {entries : List SessionEntry} {span : CallResultSpan}
    (member : span ∈ (callResultSpans entries).values)
    : ∃ id, id ≠ [] ∧ SpanOf ((branchCalls entries).filter fun event => event.id = id) span := by
  obtain ⟨entry, listed, same⟩ := List.mem_map.mp member
  have held : (callResultSpans entries).get? entry.1 = some span := by
    rw [← same]
    exact JsMap.get?_eq_some_iff.mpr listed
  have named : entry.1 ≠ [] := by
    intro nothing
    rw [nothing, get?_callResultSpans_nil] at held
    cases held
  rw [get?_callResultSpans entries named] at held
  rcases spanOf_spec ((branchCalls entries).filter fun event => event.id = entry.1) with
    ⟨_, nothing⟩ | ⟨other, known, spec⟩
  · rw [nothing] at held
    cases held
  · rw [known] at held
    exact ⟨entry.1, named, Option.some.inj held ▸ spec⟩

/-- The spans of a branch tell whether a boundary cuts a call from its result. -/
theorem closureSafe_iff (entries : List SessionEntry) (boundaryIndex : Nat)
    : closureSafe (callResultSpans entries) boundaryIndex = true
      ↔ ClosureSafe entries boundaryIndex := by
  rw [closureSafe, List.all_eq_true]
  constructor
  · intro safe id named called answered i a j b first last before
    have own (index : Nat) (isCall : Bool) (occurs : Occurs entries id index isCall)
        : CallEvent.mk id index isCall ∈ (branchCalls entries).filter fun event => event.id = id :=
      mem_filter_branchCalls.mpr ⟨rfl, occurs⟩
    have held := get?_callResultSpans entries named
    rcases spanOf_spec ((branchCalls entries).filter fun event => event.id = id) with
      ⟨none_, _⟩ | ⟨span, known, spec⟩
    · have inside := own i a first
      rw [none_] at inside
      cases inside
    · rw [known] at held
      have kept := safe span (List.mem_map.mpr ⟨_, JsMap.get?_eq_some_iff.mp held, rfl⟩)
      have calls : span.hasCall = true := by
        obtain ⟨index, occurs⟩ := called
        exact spec.hasCall.mpr ⟨_, own index true occurs, rfl⟩
      have answers : span.hasResult = true := by
        obtain ⟨index, occurs⟩ := answered
        exact spec.hasResult.mpr ⟨_, own index false occurs, rfl⟩
      have opens : span.first < boundaryIndex :=
        (spec.within _ (own i a first)).1.trans_lt before
      have closes := (spec.within _ (own j b last)).2
      rw [Bool.not_eq_true', spanCrosses, calls, answers, decide_eq_true opens] at kept
      have ends : ¬boundaryIndex ≤ span.last := of_decide_eq_false kept
      exact closes.trans_lt (Nat.lt_of_not_le ends)
  · intro safe span member
    obtain ⟨id, named, spec⟩ := exists_id_of_callResultSpans member
    rw [Bool.not_eq_true']
    by_contra crossing
    have crosses := Bool.eq_true_of_not_eq_false crossing
    simp only [spanCrosses, Bool.and_eq_true, decide_eq_true_eq] at crosses
    obtain ⟨⟨⟨calls, answers⟩, opens⟩, closes⟩ := crosses
    obtain ⟨call, called, isCall⟩ := spec.hasCall.mp calls
    obtain ⟨result, answered, isResult⟩ := spec.hasResult.mp answers
    obtain ⟨first, begun, begins⟩ := spec.first
    obtain ⟨last, ended, ends⟩ := spec.last
    have called_ := (mem_filter_branchCalls.mp called).2
    have answered_ := (mem_filter_branchCalls.mp answered).2
    rw [isCall] at called_
    rw [isResult] at answered_
    have late := safe id named ⟨_, called_⟩ ⟨_, answered_⟩ _ _ _ _
      (mem_filter_branchCalls.mp begun).2 (mem_filter_branchCalls.mp ended).2
      (by rw [begins]; exact opens)
    rw [ends] at late
    exact Nat.not_le.mpr late closes

end PiFabric.Compaction

/-! Where a compaction cuts the live entries of a branch: one of three selectors proposes a cut,
and a gate with its own indices accepts it.
-/

namespace PiFabric.Compaction

open JsString

inductive TokenNumber where
  | natural (n : Nat)
  /-- Another finite number, by its floor. -/
  | real (floor : Int)
  | infinite
  | notANumber

/-- `tokens > budget`. -/
def exceeds (tokens : Nat) : TokenNumber → Bool
  | .natural n => decide (n < tokens)
  | .real floor => decide (floor < tokens)
  | .infinite => false
  | .notANumber => false

def isNatural (n : Nat) : Bool :=
  decide (n < Double.exactLimit)

def TokenNumber.natural? : TokenNumber → Option Nat
  | .natural n => if isNatural n then some n else none
  | _ => none

def defaultKeepRecentTokens : Nat := 20000

def continuityTailLimit (value : Option TokenNumber) : Nat :=
  (value.bind TokenNumber.natural?).getD defaultKeepRecentTokens

inductive BindingConstraint where
  | continuity
  | occupancy
  | reserve
  | reduction

/-- The plan of a model's window; its other numbers are carried as they are. -/
structure ContinuityCutPlan (ν : Type) where
  contextWindow : ν
  targetContextRatio : ν
  targetContextTokens : ν
  reserveTokens : ν
  keepRecentTokens : ν
  rawTokensBefore : ν
  tokenScale : ν
  fixedOverheadTokens : ν
  continuityTargetTokens : ν
  occupancyCeilingTokens : ν
  safeCeilingTokens : ν
  reductionCeilingTokens : ν
  rawTailTokenBudget : TokenNumber
  bindingConstraint : BindingConstraint

structure CutBudget (ν : Type) extends ContinuityCutPlan ν where
  retainedRawTokens : Nat

structure Cut (ν : Type) where
  summarized : List SessionEntry
  firstKeptEntryId : JsString
  firstSummarizedEntryId : JsString
  lastSummarizedEntryId : JsString
  lastTimestamp : JsString
  budget : Option (CutBudget ν)

variable {ν : Type}

/-- The cut after the given entries; `none` is the reason "empty". -/
def boundary (summarized : List SessionEntry) (firstKeptEntryId : JsString)
    (budget : Option (CutBudget ν))
    : Option (Cut ν) :=
  match summarized with
  | [] => none
  | first :: rest =>
      let last := rest.getLast?.getD first
      some {
        summarized := first :: rest
        firstKeptEntryId
        firstSummarizedEntryId := first.id
        lastSummarizedEntryId := last.id
        lastTimestamp := last.timestamp
        budget
      }

def suffixTokens (live : List LiveEntry) (index : Nat) : Nat :=
  ((live.drop index).map (·.estimatedTokens)).sum

def admits (branch : List SessionEntry) (live : List LiveEntry) (budget : TokenNumber) (index : Nat)
    : Bool :=
  live[index]?.any fun item =>
    decide (previousCompactionIndex branch < item.branchIndex) && item.cutPoint
      && !exceeds (suffixTokens live index) budget
      && closureSafe (callResultSpans branch) item.branchIndex

/-- The first live entry after the first one that the tail may begin with; all of them are
summarized where there is none.
-/
def continuityIndex (branch : List SessionEntry) (live : List LiveEntry) (budget : TokenNumber)
    : Nat :=
  (((List.range live.length).drop 1).find? (admits branch live budget)).getD live.length

def cutAt (live : List LiveEntry) (index : Nat) (budget : Option (CutBudget ν)) : Option (Cut ν) :=
  match live[index]? with
  | none => boundary (live.map (·.entry)) [] budget
  | some item => boundary ((live.take index).map (·.entry)) item.entry.id budget

def computeContinuityCut (branch : List SessionEntry) (live : List LiveEntry)
    (plan : Option (ContinuityCutPlan ν)) (budget : TokenNumber)
    : Option (Cut ν) :=
  let index := continuityIndex branch live budget
  cutAt live index (plan.map fun plan =>
    { plan with retainedRawTokens := suffixTokens live index })

/-- The last live entry that starts a turn, at or before a place in the branch. -/
def previousBoundaryAtOrBefore (live : List LiveEntry) (branchIndex : Nat) : Option Nat :=
  (List.range live.length).reverse.find? fun index =>
    live[index]?.any fun item => decide (item.branchIndex ≤ branchIndex) && item.turnBoundary

def lastBoundaryIndex (live : List LiveEntry) : Option Nat :=
  (List.range live.length).reverse.find? fun index =>
    live[index]?.any fun item => item.turnBoundary

/-- The first place of a span that crosses the boundary, or the boundary. -/
def earliestCrossing (spans : List CallResultSpan) (boundaryIndex : Nat) : Nat :=
  spans.foldl (fun earliest span =>
    if spanCrosses span boundaryIndex then min earliest span.first else earliest) boundaryIndex

/-- The candidate moved back to the start of a turn, until no call is cut from its result. -/
def closeCut (branch : List SessionEntry) (live : List LiveEntry) (candidate : Nat) : Nat :=
  match candidate with
  | 0 => 0
  | liveIndex + 1 =>
      match live[liveIndex + 1]? with
      | none => 0
      | some item =>
          let earliest := earliestCrossing (callResultSpans branch).values item.branchIndex
          if earliest = item.branchIndex then liveIndex + 1
          else
            match previousBoundaryAtOrBefore live earliest with
            | none => 0
            | some closed =>
                if closed < liveIndex + 1 then closeCut branch live closed else 0
termination_by candidate

/-- The window and the budget that a caller gives: the plan that follows for a branch, if any, and
the tokens to keep.
-/
structure CutOptions (ν : Type) where
  plan : List SessionEntry → Option (ContinuityCutPlan ν)
  keepRecentTokens : Option TokenNumber

def tailLimit (options : Option (CutOptions ν)) : Nat :=
  continuityTailLimit (options.bind (·.keepRecentTokens))

/-- The whole-turn selector: the last turn that fits the limit, closed over calls and results. -/
def legacyCut (branch : List SessionEntry) (live : List LiveEntry) (limit : Nat) : Option (Cut ν) :=
  let closed := ((lastBoundaryIndex live).map (closeCut branch live)).getD 0
  if limit < suffixTokens live closed then
    computeContinuityCut branch live none (.natural limit)
  else if closed = 0
      ∨ (live[closed]?.any fun item =>
        decide (item.branchIndex ≤ previousCompactionIndex branch)) then
    boundary (live.map (·.entry)) [] none
  else cutAt live closed none

def proposeCut (host : ContextHost) (branch : List SessionEntry)
    (options : Option (CutOptions ν))
    : Option (Cut ν) :=
  let live := collectLive host branch
  if live.isEmpty then none
  else
    match options.bind (·.plan branch) with
    | some plan => computeContinuityCut branch live (some plan) plan.rawTailTokenBudget
    | none => legacyCut branch live (tailLimit options)

structure KernelSpan where
  first : Nat
  last : Nat
  paired : Bool

def spansSafe (spans : List KernelSpan) (boundary : Nat) : Bool :=
  spans.all fun span =>
    !span.paired || decide (boundary ≤ span.first) || decide (span.last < boundary)

structure CutCandidate where
  eligible : Bool
  afterPrevious : Bool
  retained : Nat
  budget : TokenNumber
  boundary : Nat

def cutAccepted (candidate : CutCandidate) (budget : Nat) (spans : List KernelSpan) : Bool :=
  candidate.eligible && candidate.afterPrevious && decide (candidate.retained ≤ budget)
    && spansSafe spans candidate.boundary

def kernelSpan (span : CallResultSpan) : KernelSpan where
  first := span.first
  last := span.last
  paired := span.hasCall && span.hasResult

def acceptSpans (candidate : CutCandidate) (budget : Nat) (batch : List KernelSpan)
    : List CallResultSpan → Bool
  | [] => cutAccepted candidate budget batch
  | span :: rest =>
      if !isNatural span.first || !isNatural span.last || decide (span.last < span.first) then false
      else
        let batch := batch ++ [kernelSpan span]
        if batch.length = 128 then
          cutAccepted candidate budget batch && acceptSpans candidate budget [] rest
        else acceptSpans candidate budget batch rest

def acceptCompactionCut (candidate : CutCandidate) (spans : List CallResultSpan) : Bool :=
  match candidate.budget.natural? with
  | none => false
  | some budget =>
      isNatural candidate.retained && isNatural candidate.boundary
        && cutAccepted candidate budget [] && acceptSpans candidate budget [] spans

/-- What the gate is asked about a proposal whose tail begins at a live index. -/
def candidateAt (branch : List SessionEntry) (live : List LiveEntry) (budget : TokenNumber)
    (kept : Nat)
    : CutCandidate :=
  let boundaryIndex := (live[kept]?.map (·.branchIndex)).getD branch.length
  { eligible := live[kept]?.all (·.cutPoint)
    afterPrevious := decide (previousCompactionIndex branch < boundaryIndex)
    retained := suffixTokens live kept
    budget
    boundary := boundaryIndex }

def keptIndex (live : List LiveEntry) (firstKeptEntryId : JsString) : Option Nat :=
  if firstKeptEntryId = [] then some live.length
  else live.findIdx? fun item => item.entry.id = firstKeptEntryId

def proposedBudget (options : Option (CutOptions ν)) (proposed : Cut ν) : TokenNumber :=
  (proposed.budget.map (·.rawTailTokenBudget)).getD (.natural (tailLimit options))

def computeCut (host : ContextHost) (entries : List SessionEntry) (options : Option (CutOptions ν))
    : Option (Cut ν) :=
  let branch := applyContextEdits entries
  (proposeCut host branch options).bind fun proposed =>
    let live := collectLive host branch
    (keptIndex live proposed.firstKeptEntryId).bind fun kept =>
      if acceptCompactionCut (candidateAt branch live (proposedBudget options proposed) kept)
          (callResultSpans branch).values then some proposed
      else none

end PiFabric.Compaction
