import PiFabric.Records.Kinds
import PiFabric.Records.Pages

/-! The history of a ref: `get` gives the first page of it beside the fold state, in what the state
leaves of the response budget, and `get` with a cursor gives the pages after it.
-/

namespace PiFabric.Records

open JsString Paging

variable {reading : Reading} {org origin ref : JsString} {table : Table}

def maxPage : Nat := 500

structure GetArgs where
  ref : JsString
  after : Option Nat
  limit : Option Nat

def ofRef (org ref : JsString) (table : Table) : List Row :=
  table.rows.filter fun row => row.ref = ref && row.org = org

/-- `historyPage`: the records that fit the room, and the next cursor where records are left. A
record takes at least one byte of room, so a room below 0 is as one of 0.
-/
def historyPage (reading : Reading) (org ref : JsString) (after limit room : Nat) (table : Table)
    : List Row × Option Nat :=
  let history := (Paging.after (ofRef org ref table) Row.seq after).take (limit + 1)
  let page := history.take limit
  let rows := withinRest reading.bytes room 0 page
  (rows,
    if limit < history.length ∨ rows.length < page.length then
      some (rows.getLast?.elim after fun row => Double.ofNat row.seq)
    else none)

/-- `RecordStore.get` on a snapshot, where `stateBytes` is the length of the fold state's JSON. It
throws for a malformed call and on a row of another org or origin.
-/
def get (reading : Reading) (org origin : JsString) (stateBytes : Nat) (args : GetArgs)
    (table : Table) : Option (List Row × Option Nat) :=
  if (Kinds.matchRef args.ref).isSome && args.after.all (· < Double.exactLimit)
      && args.limit.all (fun limit => 1 ≤ limit && limit ≤ maxPage) && member org origin table then
    let limit := args.limit.getD 50
    some <| match args.after with
      | some after => historyPage reading org args.ref after limit responseBudgetBytes table
      | none => historyPage reading org args.ref 0 limit (responseBudgetBytes - stateBytes) table
  else none

theorem ofRef_nodup (numbered : Numbered table) (allowed : member org origin table = true)
    : ((ofRef org ref table).map Row.seq).Nodup :=
  nodup_seq_of_origin numbered List.filter_sublist fun row inside =>
    (own_of_member allowed row (List.mem_filter.mp inside).1).2

/-- A page of history ends at its last record, or where nothing fitted at its own cursor, or it
holds all that is left.
-/
theorem historyPage_ends {after limit room : Nat} (numbered : Numbered table)
    : (historyPage reading org ref after limit room table).1
        <+: Paging.after (ofRef org ref table) Row.seq after
      ∧ ((∃ last, (historyPage reading org ref after limit room table).1.getLast? = some last
          ∧ (historyPage reading org ref after limit room table).2 = some last.seq)
        ∨ (historyPage reading org ref after limit room table) = ([], some after)
        ∨ historyPage reading org ref after limit room table
          = (Paging.after (ofRef org ref table) Row.seq after, none)) := by
  have front : withinRest reading.bytes room 0 (((Paging.after (ofRef org ref table) Row.seq after).take
      (limit + 1)).take limit) <+: Paging.after (ofRef org ref table) Row.seq after :=
    withinRest_prefix.trans ((List.take_prefix ..).trans (List.take_prefix ..))
  refine ⟨front, ?_⟩
  simp only [historyPage]
  split
  · cases final : (withinRest reading.bytes room 0 (((Paging.after (ofRef org ref table) Row.seq
        after).take (limit + 1)).take limit)).getLast? with
    | some last =>
        have inside := (mem_after.mp (front.subset (List.mem_of_getLast? final))).1
        have seq := ofNat_seq_of_numbered numbered (List.mem_filter.mp inside).1
        exact Or.inl ⟨last, rfl, by rw [Option.elim_some, seq]⟩
    | none => exact Or.inr (Or.inl (by rw [List.getLast?_eq_none_iff.mp final]; rfl))
  · next whole =>
      -- No record is left behind the limit, and the room cut none of them.
      simp only [not_or, not_lt, List.length_take] at whole
      have short : (Paging.after (ofRef org ref table) Row.seq after).length ≤ limit := by omega
      have all : ((Paging.after (ofRef org ref table) Row.seq after).take (limit + 1)).take limit
          = Paging.after (ofRef org ref table) Row.seq after := by
        rw [List.take_of_length_le (by rw [List.length_take]; omega),
          List.take_of_length_le (by omega)]
      rw [all] at whole front ⊢
      rw [front.eq_of_length (Nat.le_antisymm front.length_le (by omega))]
      exact Or.inr (Or.inr rfl)

/-- The records of the ref fit a whole response. -/
def Fits (reading : Reading) (org ref : JsString) (table : Table) : Prop :=
  ∀ row ∈ ofRef org ref table, reading.bytes row + 1 ≤ responseBudgetBytes

/-- A page with the whole budget holds a record while one is left. -/
theorem historyPage_progress {after limit : Nat} (fits : Fits reading org ref table)
    (some_ : 0 < limit) {row : Row} (inside : row ∈ ofRef org ref table) (fresh : after < row.seq)
    : (historyPage reading org ref after limit responseBudgetBytes table).1 ≠ [] := by
  have left : Paging.after (ofRef org ref table) Row.seq after ≠ [] :=
    List.ne_nil_of_mem (mem_after.mpr ⟨inside, fresh⟩)
  obtain ⟨first, rest, all⟩ := List.exists_cons_of_ne_nil left
  have held := fits first (mem_after.mp (all ▸ List.mem_cons_self)).1
  obtain ⟨limit, rfl⟩ := Nat.exists_eq_succ_of_ne_zero some_.ne'
  simp only [historyPage, all, List.take_succ_cons, withinRest]
  rw [if_neg (by omega)]
  exact List.cons_ne_nil _ _

/-- Where a reader of a history stands: before its first call, before the call with a cursor, or at
the end.
-/
inductive Position where
  | start
  | more (after : Nat)
  | done

def Position.after : Position → Option Nat
  | more after => some after
  | _ => none

def Position.ofNext (next : Option Nat) : Position :=
  next.elim done more

structure RefReader where
  table : Table
  position : Position
  read : List Row

/-- The next call of `get`, over a fold state of any length. -/
inductive NextGet (reading : Reading) (org origin ref : JsString) (limit : Option Nat)
    : RefReader → RefReader → Prop where
  | next {reader : RefReader} {stateBytes : Nat} {rows : List Row} {next : Option Nat}
      (live : reader.position ≠ .done)
      (answered : get reading org origin stateBytes ⟨ref, reader.position.after, limit⟩ reader.table
        = some (rows, next))
    : NextGet reading org origin ref limit reader {
        reader with
        position := .ofNext next
        read := reader.read ++ rows }

/-- The calls of `get` for the history of a ref, with records appended between them. -/
inductive Gets (reading : Reading) (org origin ref : JsString) : RefReader → Prop where
  | start {table : Table} (numbered : Numbered table)
    : Gets reading org origin ref ⟨table, .start, []⟩
  | append {reader later} (before : Gets reading org origin ref reader)
      (live : reader.position ≠ .done) (appended : Appended reader.table later)
      (numbered : Numbered later)
    : Gets reading org origin ref { reader with table := later }
  | next {reader later limit} (before : Gets reading org origin ref reader)
      (called : NextGet reading org origin ref limit reader later)
    : Gets reading org origin ref later

def Position.cursor (position : Position) : Nat :=
  position.after.getD 0

/-- What holds of a reader between its calls. -/
structure RefReads (org origin ref : JsString) (reader : RefReader) : Prop where
  numbered : Numbered reader.table
  sofar : reader.position ≠ .done →
    ReadTo (ofRef org ref reader.table) Row.seq reader.position.cursor reader.read
  within : reader.position.cursor ≤ topSeq origin reader.table
  whole : reader.position = .done → reader.read.Pairwise (fun a b => a.seq < b.seq)
    ∧ ∀ row, row ∈ reader.read ↔ row ∈ ofRef org ref reader.table

variable {limit : Option Nat}

theorem get_eq_some {stateBytes : Nat} {after : Option Nat} {rows : List Row} {next : Option Nat}
    (answered : get reading org origin stateBytes ⟨ref, after, limit⟩ table = some (rows, next))
    : member org origin table = true ∧ 1 ≤ limit.getD 50
      ∧ ∃ room ≤ responseBudgetBytes, (after.isSome → room = responseBudgetBytes)
        ∧ historyPage reading org ref (after.getD 0) (limit.getD 50) room table = (rows, next) := by
  simp only [get] at answered
  split at answered
  · next checked =>
      simp only [Bool.and_eq_true] at checked
      obtain ⟨⟨_, limits⟩, allowed⟩ := checked
      refine ⟨allowed, ?_, ?_⟩
      · cases limit with
        | none => decide
        | some limit =>
            simp only [Option.all_some, Bool.and_eq_true, decide_eq_true_eq] at limits
            exact limits.1
      · cases after with
        | none => exact ⟨_, Nat.sub_le _ _, by simp, Option.some.inj answered⟩
        | some after => exact ⟨_, le_rfl, fun _ => rfl, Option.some.inj answered⟩
  · cases answered

variable {reader : RefReader}

theorem RefReads.next {later : RefReader} (reads : RefReads org origin ref reader)
    (called : NextGet reading org origin ref limit reader later)
    : RefReads org origin ref later := by
  obtain ⟨live, answered⟩ := called
  next stateBytes rows next =>
  obtain ⟨allowed, _, room, _, _, answer⟩ := get_eq_some answered
  have distinct := @ofRef_nodup _ _ ref _ reads.numbered allowed
  obtain ⟨front, ends⟩ := @historyPage_ends reading org ref reader.table reader.position.cursor
    (limit.getD 50) room reads.numbered
  have sofar := reads.sofar live
  change historyPage reading org ref reader.position.cursor (limit.getD 50) room reader.table = _
    at answer
  rw [answer] at front ends
  rcases ends with ⟨last, final, rfl⟩ | same | same
  · have read := sofar.cut distinct front final
    have inside := (mem_after.mp (front.subset (List.mem_of_getLast? final))).1
    have inside := (List.mem_filter.mp inside).1
    exact {
      numbered := reads.numbered
      sofar := fun _ => read
      within := seq_le_topSeq inside (own_of_member allowed last inside).2
      whole := fun done => by cases done }
  · obtain ⟨rfl, rfl⟩ := Prod.mk.inj same
    exact {
      numbered := reads.numbered
      sofar := fun _ => by rw [List.append_nil]; exact sofar
      within := reads.within
      whole := fun done => by cases done }
  · obtain ⟨rfl, rfl⟩ := Prod.mk.inj same
    have highest : ∀ row ∈ ofRef org ref reader.table, row.seq ≤ topSeq origin reader.table := by
      intro row inside
      have inside := (List.mem_filter.mp inside).1
      exact seq_le_topSeq inside (own_of_member allowed row inside).2
    have read := sofar.rest distinct reads.within highest
    exact {
      numbered := reads.numbered
      sofar := fun live => absurd rfl live
      within := Nat.zero_le _
      whole := fun _ => ⟨read.sorted, fun row => (read.same row).trans
        ⟨fun h => h.1, fun inside => ⟨inside, highest row inside⟩⟩⟩ }

theorem Gets.reads (gets : Gets reading org origin ref reader)
    : RefReads org origin ref reader := by
  induction gets with
  | @start table numbered =>
      refine ⟨numbered, fun _ => readTo_nil fun row inside => ?_, Nat.zero_le _, fun done => ?_⟩
      · exact table.positive row (List.mem_filter.mp inside).1
      · cases done
  | @append reader later before live appended numbered ih =>
      refine ⟨numbered, fun _ => ?_, ih.within.trans (topSeq_mono appended),
        fun done => absurd done live⟩
      obtain ⟨more, rows, order⟩ := appended
      simp only [ofRef, rows, List.filter_append]
      refine (ih.sofar live).append fun row inside => ?_
      exact ih.within.trans_lt (topSeq_lt_of_added rows order (List.mem_filter.mp inside).1)
  | next before called ih => exact ih.next called

/-- A limit that `get` takes. -/
def LimitFits (limit : Option Nat) : Prop :=
  limit.all (fun limit => 1 ≤ limit && limit ≤ maxPage) = true

/-- A well-formed call over the store's own table is answered. -/
theorem get_answers (reads : RefReads org origin ref reader)
    (named : (Kinds.matchRef ref).isSome = true) (limits : LimitFits limit)
    (allowed : member org origin reader.table = true) (stateBytes : Nat)
    : ∃ rows next, get reading org origin stateBytes ⟨ref, reader.position.after, limit⟩ reader.table
      = some (rows, next) := by
  have safe : reader.position.after.all (fun after => decide (after < Double.exactLimit)) = true := by
    cases same : reader.position.after with
    | none => rfl
    | some after =>
        have within := reads.within
        rw [Position.cursor, same, Option.getD_some] at within
        exact decide_eq_true (within.trans_lt (topSeq_lt reads.numbered))
  have checked : ((Kinds.matchRef ref).isSome
      && reader.position.after.all (fun after => decide (after < Double.exactLimit))
      && limit.all (fun limit => 1 ≤ limit && limit ≤ maxPage) && member org origin reader.table)
      = true := by
    rw [named, safe, show limit.all (fun limit => 1 ≤ limit && limit ≤ maxPage) = true from limits,
      allowed]
    rfl
  rw [get, if_pos checked]
  exact ⟨_, _, rfl⟩

/-- A call with a cursor makes progress: it is the last one, or its cursor passes a record. -/
theorem get_progress {after : Nat} {next : Option Nat} {stateBytes : Nat} {rows : List Row}
    (numbered : Numbered table) (fits : Fits reading org ref table)
    (answered : get reading org origin stateBytes ⟨ref, some after, limit⟩ table = some (rows, next))
    : next = none
      ∨ ∃ last ∈ Paging.after (ofRef org ref table) Row.seq after, rows.getLast? = some last
        ∧ next = some last.seq := by
  obtain ⟨_, limits, room, _, whole, answer⟩ := get_eq_some answered
  obtain rfl := whole rfl
  obtain ⟨front, ends⟩ := @historyPage_ends reading org ref table after (limit.getD 50)
    responseBudgetBytes numbered
  rw [Option.getD_some] at answer
  by_cases left : ∃ row ∈ ofRef org ref table, after < row.seq
  · obtain ⟨row, inside, fresh⟩ := left
    have some_ := historyPage_progress fits (Nat.lt_of_lt_of_le Nat.zero_lt_one limits) inside fresh
    rw [answer] at front ends some_
    rcases ends with ⟨last, final, same⟩ | same | same
    · exact Or.inr ⟨last, front.subset (List.mem_of_getLast? final), final, same⟩
    · exact absurd (Prod.mk.inj same).1 some_
    · exact Or.inl (Prod.mk.inj same).2
  · have empty : Paging.after (ofRef org ref table) Row.seq after = [] := by
      refine List.eq_nil_iff_forall_not_mem.mpr fun row inside => ?_
      exact left ⟨row, mem_after.mp inside⟩
    left
    rw [historyPage, empty] at answer
    exact ((Prod.mk.inj answer).2.symm.trans (by simp [withinRest]))

/-- Calls with a cursor come to an end, by induction over the records that are left. -/
theorem RefReads.ends_after (reads : RefReads org origin ref reader)
    (named : (Kinds.matchRef ref).isSome = true) (limits : LimitFits limit)
    (allowed : member org origin reader.table = true) (fits : Fits reading org ref reader.table)
    {after : Nat} (more : reader.position = .more after)
    : ∃ later, Relation.ReflTransGen (NextGet reading org origin ref limit) reader later
      ∧ later.position = .done := by
  induction left : (Paging.after (ofRef org ref reader.table) Row.seq after).length
    using Nat.strongRecOn generalizing reader after with
  | ind count ih =>
      obtain ⟨rows, next, answered⟩ := @get_answers reading _ _ _ limit _ reads named limits allowed 0
      have step := NextGet.next (by rw [more]; exact fun same => by cases same) answered
      have reads := reads.next step
      rw [more] at answered
      rcases get_progress reads.numbered fits answered with rfl | ⟨last, inside, _, rfl⟩
      · exact ⟨_, .single step, rfl⟩
      · obtain ⟨later, calls, done⟩ := ih _ (left ▸ length_after_lt inside) reads allowed fits rfl rfl
        exact ⟨later, .head step calls, done⟩

theorem RefReads.ends (reads : RefReads org origin ref reader)
    (named : (Kinds.matchRef ref).isSome = true) (limits : LimitFits limit)
    (allowed : member org origin reader.table = true) (fits : Fits reading org ref reader.table)
    : ∃ later, Relation.ReflTransGen (NextGet reading org origin ref limit) reader later
      ∧ later.position = .done := by
  cases place : reader.position with
  | start =>
      obtain ⟨rows, next, answered⟩ := @get_answers reading _ _ _ limit _ reads named limits allowed 0
      have step := NextGet.next (by rw [place]; exact fun same => by cases same) answered
      cases next with
      | none => exact ⟨_, .single step, rfl⟩
      | some after =>
          obtain ⟨later, calls, done⟩ :=
            (reads.next step).ends_after named limits allowed fits rfl
          exact ⟨later, .head step calls, done⟩
  | more after => exact reads.ends_after named limits allowed fits place
  | done => exact ⟨reader, .refl, place⟩

/-- Pages are lossless and free of duplicates, every page makes progress while matching records are
left, and where no more are appended some page is the last.
-/
structure PagesLossless (reading : Reading) (org origin : JsString) (args : PageArgs)
    (reader : Reader) : Prop where
  once : reader.read.Pairwise fun a b => a.seq < b.seq
  whole : ∀ result, reader.last = some result → result.next = result.frontier →
    ∀ row, row ∈ reader.read
      ↔ row ∈ matching reading org args reader.table ∧ row.seq ≤ result.frontier
  progress : ∀ result, page reading org origin (reader.call args) reader.table = some result →
    (∃ row ∈ matching reading org args reader.table, reader.after < row.seq) →
    result.records ≠ [] ∧ reader.after < result.next
  ends : member org origin reader.table = true →
    ∃ later result, Relation.ReflTransGen (NextPage reading org origin args) reader later
      ∧ later.last = some result ∧ result.next = result.frontier

/-- The calls for a history are lossless and free of duplicates. Where every record is shorter than
the response budget, each call with a cursor is the last or moves on, and one is the last.
-/
structure HistoryLossless (reading : Reading) (org origin ref : JsString) (reader : RefReader)
    : Prop where
  once : reader.position = .done → reader.read.Pairwise fun a b => a.seq < b.seq
  whole : reader.position = .done → ∀ row, row ∈ reader.read ↔ row ∈ ofRef org ref reader.table
  progress : ∀ after limit stateBytes rows next, reader.position = .more after →
    Fits reading org ref reader.table →
    get reading org origin stateBytes ⟨ref, some after, limit⟩ reader.table = some (rows, next) →
    next = none ∨ ∃ cursor, next = some cursor ∧ after < cursor ∧ rows ≠ []
  ends : ∀ limit, LimitFits limit → member org origin reader.table = true →
    Fits reading org ref reader.table →
    ∃ later, Relation.ReflTransGen (NextGet reading org origin ref limit) reader later
      ∧ later.position = .done

/-- Records are paged without loss or duplicates, whatever their sizes and the filters, while more
are appended; and so is the history of a ref whose records are shorter than the response budget.
-/
theorem record_paging_lossless (reading : Reading) (org origin : JsString)
    : (∀ args reader, 1 ≤ args.limit → args.limit ≤ maxPage →
        Pages reading org origin args reader → PagesLossless reading org origin args reader)
      ∧ ∀ ref reader, (Kinds.matchRef ref).isSome = true → Gets reading org origin ref reader →
        HistoryLossless reading org origin ref reader := by
  constructor
  · intro args reader some_ _ pages
    have reads := pages.reads
    refine ⟨reads.sofar.sorted, fun result last done row => ?_, fun result answered left => ?_,
      reads.ends some_⟩
    · rw [reads.sofar.same, ← reads.cursor result last, done]
    · exact (@page_progress _ _ _ (reader.call args) _ _ reads.numbered some_ answered).1 left
  · intro ref reader named gets
    have reads := gets.reads
    refine ⟨fun done => (reads.whole done).1, fun done => (reads.whole done).2, ?_,
      fun limit limits allowed fits => reads.ends named limits allowed fits⟩
    intro after limit stateBytes rows next more fits answered
    rcases get_progress reads.numbered fits answered with last | ⟨last, inside, final, next⟩
    · exact Or.inl last
    · refine Or.inr ⟨last.seq, next, (mem_after.mp inside).2, fun empty => ?_⟩
      rw [empty] at final
      cases final

def commentRow (seq : Nat) : Row where
  id := Json.digits seq
  org := lit "org"
  origin := lit "node"
  seq
  ref := lit "owner/repo#1"
  kind := lit "comment"
  author := lit "agent"
  authorName := none
  createdAt := lit "1767225600.000000"
  text := some (lit "text")
  data := lit "\x7b\x7d"
  supersedes := none
  key := Json.digits seq
  payloadHash := lit "payload"
  prevHash := none

def oneComment : Table where
  rows := [commentRow 1]
  ids := List.nodup_singleton _
  positive := by simp [commentRow]
  few := by decide

theorem oneComment_numbered : Numbered oneComment :=
  ⟨List.nodup_singleton _, by decide⟩

def shortReading : Reading where
  «to» _ := none
  bytes _ := 300

def commentPages : PageArgs where
  after := 0
  limit := 1
  origin := lit "node"
  ref := none
  kind := some (lit "comment")
  «to» := none
  exceptAuthor := none

/-- The comment is read by a first page, and its ref's history from the start. -/
theorem record_paging_lossless_one
    : ∃ reader result, reader.last = some result
      ∧ PagesLossless shortReading (lit "org") (lit "node") commentPages reader
      ∧ HistoryLossless shortReading (lit "org") (lit "node") (lit "owner/repo#1")
        ⟨oneComment, .start, []⟩ := by
  obtain ⟨result, answered⟩ := @page_answers shortReading (lit "org") (lit "node") commentPages
    oneComment (by decide) (by decide)
  have first := @NextPage.next shortReading (lit "org") (lit "node") commentPages
    ⟨oneComment, 0, [], none⟩ result answered
  have lossless := record_paging_lossless shortReading (lit "org") (lit "node")
  exact ⟨_, result, rfl, lossless.1 _ _ (by decide) (by decide)
    (.next (.start oneComment_numbered) first), lossless.2 _ _ (by decide)
    (.start oneComment_numbered)⟩

/-- A reading in which every record's JSON is as long as the response budget. -/
def fullReading : Reading where
  «to» _ := none
  bytes _ := responseBudgetBytes

/-- A record of just the budget fits no page of a history: its calls stay where they are. -/
theorem full_record_stalls_history
    : Gets fullReading (lit "org") (lit "node") (lit "owner/repo#1") ⟨oneComment, .start, []⟩
      ∧ (∀ row ∈ oneComment.rows, fullReading.bytes row ≤ responseBudgetBytes)
      ∧ (ofRef (lit "org") (lit "owner/repo#1") oneComment) = [commentRow 1]
      ∧ ∀ later, Relation.ReflTransGen
          (NextGet fullReading (lit "org") (lit "node") (lit "owner/repo#1") none)
          ⟨oneComment, .start, []⟩ later →
        later.position ≠ .done ∧ later.read = [] := by
  have all : ofRef (lit "org") (lit "owner/repo#1") oneComment = [commentRow 1] := by decide
  have left : Paging.after [commentRow 1] Row.seq 0 = [commentRow 1] := by
    simp [Paging.after, commentRow]
  refine ⟨.start oneComment_numbered, fun _ _ => le_rfl, all, fun later calls => ?_⟩
  have stays : later.table = oneComment ∧ later.read = [] ∧ later.position.cursor = 0
      ∧ later.position ≠ .done := by
    induction calls with
    | refl => exact ⟨rfl, rfl, rfl, fun same => by cases same⟩
    | tail _ call ih =>
        obtain ⟨sameTable, none_, zero, live⟩ := ih
        obtain ⟨unfinished, answered⟩ := call
        next stateBytes rows next =>
        obtain ⟨_, _, room, low, _, answer⟩ := get_eq_some answered
        rw [sameTable] at answer
        rw [Position.cursor] at zero
        rw [zero, historyPage, all, left] at answer
        have cut : withinRest fullReading.bytes room 0 [commentRow 1] = [] := by
          have size : fullReading.bytes (commentRow 1) = responseBudgetBytes := rfl
          rw [withinRest, if_pos (by rw [size]; omega)]
        obtain ⟨rfl, rfl⟩ : rows = [] ∧ next = some 0 := by
          simpa [cut, eq_comm] using answer
        exact ⟨sameTable, by simp [none_], rfl, fun same => by cases same⟩
  exact ⟨stays.2.2.2, stays.2.1⟩

end PiFabric.Records
