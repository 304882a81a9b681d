import PiFabric.Records.Page

/-! The inbox of one consumer. Any number of `next` calls run at once; each await is a step, and
between the steps records are appended, the names change and batches reach the session or are
lost.
-/

namespace PiFabric.Records

open JsString HashChain

structure Pending where
  through : Nat
  ids : List JsString
  deriving DecidableEq

structure Consumer where
  after : Nat
  pending : Option Pending
  deriving DecidableEq

def Consumer.save (consumer : Consumer) (after : Nat) (pending : Option Pending) : Consumer where
  after := max consumer.after after
  pending := pending

def namesOf (consumer : JsString) (aliases : List JsString) : List JsString :=
  (((consumer :: aliases).map trim).filter fun name => !name.isEmpty).eraseDups

/-- One page that a call read: the names it asked for and the span it passed over. -/
structure Span where
  names : List JsString
  after : Nat
  next : Nat
  deriving DecidableEq

/-- Where a call of `next` stands. -/
inductive Call where
  | idle
  | opened (state : Consumer)
  /-- The session does not hold the pending batch. -/
  | replaying (pending : Pending)
  /-- It holds it, and the cursor moves past it. -/
  | clearing (after : Nat)
  | reading (after : Nat)
  /-- The page is empty, and the cursor moves past it. -/
  | skipping (span : Span)
  | delivering (span : Span) (records : List Row)
  deriving DecidableEq

/-- What follows `openConsumer`, where the session holds the pending batch or not. -/
def Call.afterOpen (state : Consumer) (held : Bool) : Call :=
  match state.pending with
  | none => .reading state.after
  | some pending =>
      if held then .clearing (max state.after pending.through) else .replaying pending

def Call.afterPage (span : Span) (records : List Row) : Call :=
  if records = [] then if span.after < span.next then .skipping span else .idle
  else .delivering span records

structure Inbox (C : Type) where
  table : Table
  consumer : Option Consumer
  /-- The ids of each message that the session's entries hold. -/
  session : List (List JsString)
  call : C → Call
  /-- Where the cursor started. -/
  start : Nat
  /-- The batches that calls returned. -/
  returned : List (List JsString)
  spans : List Span
  /-- The spans whose result was saved. -/
  saved : List Span

namespace Inbox

variable {C : Type} [DecidableEq C]

def initial : Inbox C where
  table := emptyTable
  consumer := none
  session := []
  call := fun _ => .idle
  start := 0
  returned := []
  spans := []
  saved := []

def move (inbox : Inbox C) (caller : C) (call : Call) : Inbox C :=
  { inbox with call := Function.update inbox.call caller call }

def save (inbox : Inbox C) (after : Nat) (pending : Option Pending) : Inbox C :=
  { inbox with consumer := inbox.consumer.map fun consumer => consumer.save after pending }

def skip (inbox : Inbox C) (caller : C) (span : Span) : Inbox C :=
  { (inbox.save span.next none).move caller .idle with saved := span :: inbox.saved }

def deliver (inbox : Inbox C) (caller : C) (span : Span) (records : List Row) : Inbox C :=
  let pending : Pending := { through := span.next, ids := records.map Row.id }
  {
    (inbox.save span.after (some pending)).move caller .idle with
    saved := span :: inbox.saved
    returned := pending.ids :: inbox.returned
  }

/-- `holdsBatch` may answer yes only where one message of the session has all the ids. -/
def Holds (inbox : Inbox C) (ids : List JsString) : Prop :=
  ∃ message ∈ inbox.session, ∀ id ∈ ids, id ∈ message

end Inbox

def pageArgs (origin consumer : JsString) (aliases : List JsString) (after limit : Nat)
    : PageArgs where
  after := after
  limit := limit
  origin := origin
  ref := none
  kind := none
  «to» := some (namesOf consumer aliases)
  exceptAuthor := some consumer

section

variable {C : Type} [DecidableEq C] (reading : Reading) (org origin consumer : JsString)

inductive Inbox.Step : Inbox C → Inbox C → Prop
  /-- `consumer_open` where the consumer has no row. -/
  | first {inbox : Inbox C} {caller : C} (idle : inbox.call caller = .idle)
      (absent : inbox.consumer = none)
      : Step inbox
        {
          inbox.move caller (.opened { after := topSeq origin inbox.table, pending := none }) with
          consumer := some { after := topSeq origin inbox.table, pending := none }
          start := topSeq origin inbox.table
        }
  | reopen {inbox : Inbox C} {caller : C} {state : Consumer} (idle : inbox.call caller = .idle)
      (present : inbox.consumer = some state)
      : Step inbox (inbox.move caller (.opened state))
  | resume {inbox : Inbox C} {caller : C} {state : Consumer} {held : Bool}
      (opened : inbox.call caller = .opened state)
      (holds : held = true → ∀ pending, state.pending = some pending → inbox.Holds pending.ids)
      : Step inbox (inbox.move caller (.afterOpen state held))
  | replay {inbox : Inbox C} {caller : C} {pending : Pending} {records : List Row}
      (replaying : inbox.call caller = .replaying pending)
      (answered : byIds reading org origin pending.ids inbox.table = some records)
      : Step inbox
        { inbox.move caller .idle with returned := records.map Row.id :: inbox.returned }
  | clear {inbox : Inbox C} {caller : C} {after : Nat} (clearing : inbox.call caller = .clearing after)
      : Step inbox ((inbox.save after none).move caller (.reading after))
  | page {inbox : Inbox C} {caller : C} {after limit : Nat} {aliases : List JsString}
      {result : Page} (reads : inbox.call caller = .reading after)
      (answered : page reading org origin (pageArgs origin consumer aliases after limit) inbox.table
        = some result)
      : Step inbox
        {
          inbox.move caller (.afterPage
            { names := namesOf consumer aliases, after, next := result.next } result.records) with
          spans :=
            { names := namesOf consumer aliases, after, next := result.next } :: inbox.spans
        }
  | skip {inbox : Inbox C} {caller : C} {span : Span} (skipping : inbox.call caller = .skipping span)
      : Step inbox (inbox.skip caller span)
  | deliver {inbox : Inbox C} {caller : C} {span : Span} {records : List Row}
      (delivering : inbox.call caller = .delivering span records)
      : Step inbox (inbox.deliver caller span records)
  /-- The call fails, or its process dies, at any await. -/
  | die {inbox : Inbox C} {caller : C} : Step inbox (inbox.move caller .idle)
  /-- A returned batch reaches the session's entries; one that never does is lost. -/
  | record {inbox : Inbox C} {ids : List JsString} (returned : ids ∈ inbox.returned)
      : Step inbox { inbox with session := ids :: inbox.session }
  | append {inbox : Inbox C} {draft : Draft} {row : Row} {table : Table}
      (decided : decideAppend org origin inbox.table draft = .insert row)
      (rows : table.rows = inbox.table.rows ++ [row])
      : Step inbox { inbox with table }

/-- An inbox reached from the empty database. -/
def Inbox.Reachable (inbox : Inbox C) : Prop :=
  Relation.ReflTransGen (Inbox.Step reading org origin consumer) Inbox.initial inbox

end

/-- A record for the consumer under these names, that it did not write. -/
def Addressed (reading : Reading) (consumer : JsString) (names : List JsString) (row : Row)
    : Prop :=
  (∃ name ∈ names, reading.to row = some name) ∧ row.author ≠ consumer

namespace Span

def Passes (span : Span) (row : Row) : Prop :=
  span.after < row.seq ∧ row.seq ≤ span.next

end Span

namespace Inbox

variable {C : Type} [DecidableEq C] (reading : Reading) (consumer : JsString)

/-- Every row from the start through a cursor was passed over by a page whose result was saved,
and if it was addressed under that page's names, then the session holds it or the ids name it.
-/
structure Settled (inbox : Inbox C) (through : Nat) (ids : List JsString) : Prop where
  bound : through ≤ inbox.table.rows.length
  passed : ∀ row ∈ inbox.table.rows, inbox.start < row.seq → row.seq ≤ through →
    ∃ span ∈ inbox.saved, span.Passes row
      ∧ (Addressed reading consumer span.names row → inbox.Holds [row.id] ∨ row.id ∈ ids)

/-- The ids are those of rows that fit one page. -/
def Batch (inbox : Inbox C) (ids : List JsString) : Prop :=
  ∃ batch : List Row, ids = batch.map Row.id ∧ (∀ row ∈ batch, row ∈ inbox.table.rows)
    ∧ (batch.Pairwise fun a b => a.seq < b.seq)
    ∧ withinBudget reading.bytes responseBudgetBytes batch = batch

/-- A state of the consumer that may be stored, or that a call may have read. -/
structure SettledState (inbox : Inbox C) (state : Consumer) : Prop where
  cursor : inbox.Settled reading consumer state.after []
  pending : ∀ pending, state.pending = some pending →
    inbox.Settled reading consumer pending.through pending.ids
      ∧ inbox.Batch reading pending.ids

/-- A page that a call read and has not saved. -/
structure Unsaved (inbox : Inbox C) (span : Span) (records : List Row) : Prop where
  cursor : inbox.Settled reading consumer span.after []
  bound : span.next ≤ max span.after inbox.table.rows.length
  complete : ∀ row ∈ inbox.table.rows, span.Passes row → Addressed reading consumer span.names row →
    row ∈ records
  batch : inbox.Batch reading (records.map Row.id)

/-- What a call may hold where it stands. -/
def SettledCall (inbox : Inbox C) : Call → Prop
  | .idle => True
  | .opened state => inbox.SettledState reading consumer state
  | .replaying _ => True
  | .clearing after => inbox.Settled reading consumer after []
  | .reading after => inbox.Settled reading consumer after []
  | .skipping span => inbox.Unsaved reading consumer span []
  | .delivering span records => inbox.Unsaved reading consumer span records

/-- The table only grows at its end, and nothing of the history is forgotten. -/
structure Extends (inbox next : Inbox C) : Prop where
  start : next.start = inbox.start
  rows : inbox.table.rows <+: next.table.rows
  saved : inbox.saved ⊆ next.saved
  session : inbox.session ⊆ next.session

structure Sound (org origin : JsString) (inbox : Inbox C) : Prop where
  own : Own org origin inbox.table.rows
  chained : Chained inbox.table.rows
  unopened : inbox.consumer = none → ∀ caller, inbox.call caller = .idle
  state : ∀ state, inbox.consumer = some state → inbox.SettledState reading consumer state
  calls : ∀ caller, inbox.SettledCall reading consumer (inbox.call caller)

variable {reading consumer} {org origin : JsString} {inbox next : Inbox C}

omit [DecidableEq C] in
/-- A row that was appended since lies above every row from before. -/
theorem Extends.fresh (grows : inbox.Extends next) (chained : Chained next.table.rows) {row : Row}
    (inside : row ∈ next.table.rows)
    : row ∈ inbox.table.rows ∨ inbox.table.rows.length < row.seq := by
  obtain ⟨added, split⟩ := grows.rows
  rw [← split] at inside chained
  rcases List.mem_append.mp inside with old | new
  · exact .inl old
  · have bounds := Linked.bounds (linked_append.mp chained).2 new
    exact .inr (by omega)

variable {ids : List JsString}

omit [DecidableEq C] in
theorem Holds.mono (h : inbox.Holds ids) (grows : inbox.Extends next)
    : next.Holds ids := by
  obtain ⟨message, held, all⟩ := h
  exact ⟨message, grows.session held, all⟩

omit [DecidableEq C] in
theorem Settled.mono {through : Nat} (h : inbox.Settled reading consumer through ids)
    (grows : inbox.Extends next) (chained : Chained next.table.rows)
    : next.Settled reading consumer through ids where
  bound := h.bound.trans grows.rows.length_le
  passed := by
    intro row inside started below
    rw [grows.start] at started
    rcases grows.fresh chained inside with old | new
    · obtain ⟨span, kept, passes, addressed⟩ := h.passed row old started below
      exact ⟨span, grows.saved kept, passes, fun named => (addressed named).imp_left (·.mono grows)⟩
    · have bound := h.bound
      omega

omit [DecidableEq C] in
theorem Batch.mono (h : inbox.Batch reading ids) (grows : inbox.Extends next)
    : next.Batch reading ids := by
  obtain ⟨batch, same, inside, sorted, fits⟩ := h
  exact ⟨batch, same, fun row member => grows.rows.subset (inside row member), sorted, fits⟩

omit [DecidableEq C] in
theorem SettledState.mono {state : Consumer} (h : inbox.SettledState reading consumer state)
    (grows : inbox.Extends next) (chained : Chained next.table.rows)
    : next.SettledState reading consumer state where
  cursor := h.cursor.mono grows chained
  pending := by
    intro pending stored
    obtain ⟨settled, batch⟩ := h.pending pending stored
    exact ⟨settled.mono grows chained, batch.mono grows⟩

omit [DecidableEq C] in
theorem Unsaved.mono {span : Span} {records : List Row}
    (h : inbox.Unsaved reading consumer span records) (grows : inbox.Extends next)
    (chained : Chained next.table.rows)
    : next.Unsaved reading consumer span records where
  cursor := h.cursor.mono grows chained
  bound := h.bound.trans (max_le_max_left _ grows.rows.length_le)
  complete := by
    intro row inside passes addressed
    rcases grows.fresh chained inside with old | new
    · exact h.complete row old passes addressed
    · -- the span ended below the rows that came later
      have bound := h.bound
      have cursor := h.cursor.bound
      obtain ⟨above, below⟩ := passes
      omega
  batch := h.batch.mono grows

variable {call : Call}

omit [DecidableEq C] in
/-- What a call holds stays settled, by where it stands. -/
theorem SettledCall.mono (h : inbox.SettledCall reading consumer call) (grows : inbox.Extends next)
    (chained : Chained next.table.rows)
    : next.SettledCall reading consumer call := by
  cases call with
  | idle => trivial
  | opened state => exact SettledState.mono h grows chained
  | replaying pending => trivial
  | clearing after => exact Settled.mono h grows chained
  | reading after => exact Settled.mono h grows chained
  | skipping span => exact Unsaved.mono h grows chained
  | delivering span records => exact Unsaved.mono h grows chained

omit [DecidableEq C] in
/-- A cursor may move past a batch that the session holds. -/
theorem Settled.held {through : Nat} (h : inbox.Settled reading consumer through ids)
    (holds : inbox.Holds ids)
    : inbox.Settled reading consumer through [] where
  bound := h.bound
  passed := by
    intro row inside started below
    obtain ⟨span, kept, passes, addressed⟩ := h.passed row inside started below
    refine ⟨span, kept, passes, fun named => .inl ?_⟩
    rcases addressed named with already | pending
    · exact already
    · obtain ⟨message, held, all⟩ := holds
      exact ⟨message, held, fun id one => List.mem_singleton.mp one ▸ all row.id pending⟩

omit [DecidableEq C] in
theorem Settled.max {first second : Nat} (hf : inbox.Settled reading consumer first ids)
    (hs : inbox.Settled reading consumer second ids)
    : inbox.Settled reading consumer (max first second) ids := by
  rcases le_total first second with below | above
  · rwa [max_eq_right below]
  · rwa [max_eq_left above]

omit [DecidableEq C] in
theorem Unsaved.settled {span : Span} {records : List Row}
    (h : inbox.Unsaved reading consumer span records) (kept : span ∈ inbox.saved)
    : inbox.Settled reading consumer span.next (records.map Row.id) where
  bound := by
    have bound := h.bound
    have cursor := h.cursor.bound
    omega
  passed := by
    intro row inside started below
    rcases Nat.lt_or_ge span.after row.seq with above | before
    · refine ⟨span, kept, ⟨above, below⟩, fun named => .inr ?_⟩
      exact List.mem_map_of_mem (h.complete row inside ⟨above, below⟩ named)
    · obtain ⟨earlier, kept, passes, addressed⟩ := h.cursor.passed row inside started before
      refine ⟨earlier, kept, passes, fun named => ?_⟩
      rcases addressed named with already | impossible
      · exact .inl already
      · exact absurd impossible (by simp)

variable {after : Nat}

omit [DecidableEq C] in
theorem SettledState.save {state : Consumer} (h : inbox.SettledState reading consumer state)
    (cursor : inbox.Settled reading consumer after []) {pending : Option Pending}
    (batch : ∀ held, pending = some held →
      inbox.Settled reading consumer held.through held.ids ∧ inbox.Batch reading held.ids)
    : inbox.SettledState reading consumer (state.save after pending) where
  cursor := h.cursor.max cursor
  pending := batch

omit [DecidableEq C] in
theorem Extends.of_eq (start : next.start = inbox.start) (table : next.table = inbox.table)
    (saved : inbox.saved ⊆ next.saved) (session : inbox.session ⊆ next.session)
    : inbox.Extends next :=
  ⟨start, table ▸ List.prefix_refl _, saved, session⟩

theorem selected_of_addressed {aliases : List JsString} {limit : Nat} {row : Row}
    (own : row.org = org ∧ row.origin = origin)
    (addressed : Addressed reading consumer (namesOf consumer aliases) row)
    : selected reading org (pageArgs origin consumer aliases after limit) row = true := by
  obtain ⟨⟨name, listed, named⟩, author⟩ := addressed
  have other : (given (some consumer)).all (fun author => row.author ≠ author) = true := by
    by_cases empty : consumer.isEmpty = true
    · simp [given, empty]
    · simpa [given, empty] using author
  simp only [selected, pageArgs, own, named, listed, decide_true, Bool.true_and,
    Bool.and_true, Option.all_some, Option.any_some, given, Option.filter_none, Option.all_none]
  exact other

omit [DecidableEq C] in
theorem Sound.unsaved (h : inbox.Sound reading consumer org origin) {aliases : List JsString}
    {limit : Nat} {result : Page}
    (answered : page reading org origin (pageArgs origin consumer aliases after limit) inbox.table
      = some result) (cursor : inbox.Settled reading consumer after [])
    : inbox.Unsaved reading consumer
        { names := namesOf consumer aliases, after, next := result.next } result.records := by
  have covers := @page_covers _ _ _ _ (pageArgs origin consumer aliases after limit) _ rfl
    h.chained answered
  constructor
  · exact cursor
  · exact covers.bound
  · intro row inside passes addressed
    exact covers.complete row inside (selected_of_addressed (h.own row inside) addressed)
      passes.1 passes.2
  · exact ⟨result.records, rfl, covers.inside, covers.sorted, covers.fits⟩

theorem Sound.advance (h : inbox.Sound reading consumer org origin) (grows : inbox.Extends next)
    (table : next.table = inbox.table) {caller : C}
    (calls : next.call = Function.update inbox.call caller call)
    (settled : next.SettledCall reading consumer call)
    (present : next.consumer = none → inbox.consumer = none ∧ call = .idle)
    (state : ∀ state, next.consumer = some state → next.SettledState reading consumer state)
    : next.Sound reading consumer org origin where
  own := table ▸ h.own
  chained := table ▸ h.chained
  unopened := by
    intro absent other
    obtain ⟨before, idle⟩ := present absent
    rw [calls, Function.update_apply]
    split
    · exact idle
    · exact h.unopened before other
  state := state
  calls := by
    intro other
    rw [calls, Function.update_apply]
    split
    · exact settled
    · exact (h.calls other).mono grows (table ▸ h.chained)

omit [DecidableEq C] in
theorem Sound.present (h : inbox.Sound reading consumer org origin) {caller : C}
    (busy : inbox.call caller = call) (apart : call ≠ .idle)
    : inbox.consumer ≠ none :=
  fun absent => apart (busy.symm.trans (h.unopened absent caller))

omit [DecidableEq C] in
theorem Sound.saved (h : inbox.Sound reading consumer org origin) (grows : inbox.Extends next)
    (chained : Chained next.table.rows) {pending : Option Pending}
    (cursor : next.Settled reading consumer after []) (batch : ∀ held, pending = some held →
      next.Settled reading consumer held.through held.ids ∧ next.Batch reading held.ids)
    : ∀ state, inbox.consumer.map (fun consumer => consumer.save after pending) = some state →
        next.SettledState reading consumer state := by
  intro state stored
  obtain ⟨before, at_, rfl⟩ := Option.map_eq_some_iff.mp stored
  exact ((h.state before at_).mono grows chained).save cursor batch

theorem Step.sound (step : Step reading org origin consumer inbox next)
    (h : inbox.Sound reading consumer org origin)
    : next.Sound reading consumer org origin := by
  cases step with
  | @first caller idle absent =>
      -- nothing is above the cursor yet, and no other call has begun
      have bottom : topSeq origin inbox.table = inbox.table.rows.length :=
        topSeq_of_chained h.own h.chained
      have settled (state : Inbox C) (table : state.table = inbox.table)
          (start : state.start = topSeq origin inbox.table)
          : state.SettledState reading consumer
              { after := topSeq origin inbox.table, pending := none } := by
        refine ⟨⟨?_, ?_⟩, fun _ stored => absurd stored (by simp)⟩
        · rw [table, bottom]
        · intro row _ started below
          rw [start] at started
          exact absurd below (Nat.not_le.mpr started)
      refine ⟨h.own, h.chained, fun none => absurd none (by simp), ?_, ?_⟩
      · intro state stored
        obtain rfl := Option.some.inj stored
        exact settled _ rfl rfl
      · intro other
        simp only [move, Function.update_apply]
        split
        · exact settled _ rfl rfl
        · rw [h.unopened absent other]
          trivial
  | @reopen caller state idle present =>
      have grows : inbox.Extends (inbox.move caller (.opened state)) :=
        .of_eq rfl rfl (List.Subset.refl _) (List.Subset.refl _)
      refine h.advance grows rfl rfl ?_ (fun none => absurd (present.symm.trans none) (by simp)) ?_
      · exact (h.state state present).mono grows h.chained
      · exact fun state stored => (h.state state stored).mono grows h.chained
  | @resume caller state held opened holds =>
      have grows : inbox.Extends (inbox.move caller (.afterOpen state held)) :=
        .of_eq rfl rfl (List.Subset.refl _) (List.Subset.refl _)
      have read : inbox.SettledState reading consumer state := by
        have settled := h.calls caller
        rwa [opened] at settled
      have call : inbox.SettledCall reading consumer (.afterOpen state held) := by
        unfold Call.afterOpen
        split
        · exact read.cursor
        · next pending stored =>
            split
            · next yes =>
                have batch := (read.pending pending stored).1.held (holds yes pending stored)
                exact read.cursor.max batch
            · trivial
      refine h.advance grows rfl rfl (call.mono grows h.chained)
        (fun none => absurd none (h.present opened (by simp))) ?_
      · exact fun state stored => (h.state state stored).mono grows h.chained
  | @replay caller pending records replaying answered =>
      refine h.advance (.of_eq rfl rfl (List.Subset.refl _) (List.Subset.refl _)) rfl rfl trivial
        (fun none => ⟨none, rfl⟩) ?_
      exact fun state stored => (h.state state stored).mono
        (.of_eq rfl rfl (List.Subset.refl _) (List.Subset.refl _)) h.chained
  | @clear caller after clearing =>
      have grows : inbox.Extends ((inbox.save after none).move caller (.reading after)) :=
        .of_eq rfl rfl (List.Subset.refl _) (List.Subset.refl _)
      have cursor : inbox.Settled reading consumer after [] := by
        have settled := h.calls caller
        rwa [clearing] at settled
      refine h.advance grows rfl rfl (cursor.mono grows h.chained) ?_
        (h.saved grows h.chained (cursor.mono grows h.chained) (by simp))
      exact fun none => absurd (Option.map_eq_none_iff.mp none) (h.present clearing (by simp))
  | @page caller after limit aliases result reads answered =>
      have cursor : inbox.Settled reading consumer after [] := by
        have settled := h.calls caller
        rwa [reads] at settled
      have unsaved := h.unsaved answered cursor
      have call : inbox.SettledCall reading consumer (.afterPage
          { names := namesOf consumer aliases, after, next := result.next } result.records) := by
        unfold Call.afterPage
        split
        · next empty =>
            rw [empty] at unsaved
            split
            · exact unsaved
            · trivial
        · exact unsaved
      refine h.advance (.of_eq rfl rfl (List.Subset.refl _) (List.Subset.refl _)) rfl rfl
        (call.mono (.of_eq rfl rfl (List.Subset.refl _) (List.Subset.refl _)) h.chained)
        (fun none => absurd none (h.present reads (by simp))) ?_
      · exact fun state stored => (h.state state stored).mono
          (.of_eq rfl rfl (List.Subset.refl _) (List.Subset.refl _)) h.chained
  | @skip caller span skipping =>
      have grows : inbox.Extends (inbox.skip caller span) :=
        .of_eq rfl rfl (List.subset_cons_self ..) (List.Subset.refl _)
      have unsaved : inbox.Unsaved reading consumer span [] := by
        have settled := h.calls caller
        rwa [skipping] at settled
      refine h.advance grows rfl rfl trivial ?_ ?_
      · exact fun none => absurd (Option.map_eq_none_iff.mp none) (h.present skipping (by simp))
      · exact h.saved grows h.chained
          ((unsaved.mono grows h.chained).settled (List.mem_cons_self ..)) (by simp)
  | @deliver caller span records delivering =>
      have unsaved : inbox.Unsaved reading consumer span records := by
        have settled := h.calls caller
        rwa [delivering] at settled
      have grows : inbox.Extends (inbox.deliver caller span records) :=
        .of_eq rfl rfl (List.subset_cons_self ..) (List.Subset.refl _)
      have grown := unsaved.mono grows h.chained
      refine h.advance grows rfl rfl trivial ?_ ?_
      · exact fun none => absurd (Option.map_eq_none_iff.mp none) (h.present delivering (by simp))
      · refine h.saved grows h.chained grown.cursor ?_
        intro held stored
        obtain rfl := Option.some.inj stored
        exact ⟨grown.settled (List.mem_cons_self ..), grown.batch⟩
  | @die caller =>
      have grows : inbox.Extends (inbox.move caller .idle) :=
        .of_eq rfl rfl (List.Subset.refl _) (List.Subset.refl _)
      exact h.advance grows rfl rfl trivial (fun none => ⟨none, rfl⟩)
        fun state stored => (h.state state stored).mono grows h.chained
  | @record ids returned =>
      have grows : inbox.Extends { inbox with session := ids :: inbox.session } :=
        .of_eq rfl rfl (List.Subset.refl _) (List.subset_cons_self ..)
      exact ⟨h.own, h.chained, h.unopened,
        fun state stored => (h.state state stored).mono grows h.chained,
        fun caller => (h.calls caller).mono grows h.chained⟩
  | @append draft row table decided rows =>
      obtain ⟨own, chained⟩ := insert_chained decided h.chained
      rw [← rows] at own chained
      have grows : inbox.Extends { inbox with table } :=
        ⟨rfl, ⟨[row], rows.symm⟩, List.Subset.refl _, List.Subset.refl _⟩
      exact ⟨own, chained, h.unopened,
        fun state stored => (h.state state stored).mono grows chained,
        fun caller => (h.calls caller).mono grows chained⟩

end Inbox

end PiFabric.Records
