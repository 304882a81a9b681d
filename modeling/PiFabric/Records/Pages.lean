import PiFabric.Records.Page

/-! Reading a records table page by page while records are appended: the pages together hold the
matching records up to the cursor, each once and in the order of their sequences.
-/

namespace PiFabric.Records

open JsString Paging

/-- `UNIQUE (origin, seq)`, and sequences that JavaScript takes for safe integers. -/
structure Numbered (table : Table) : Prop where
  unique : (table.rows.map fun row => (row.origin, row.seq)).Nodup
  safe : ∀ row ∈ table.rows, row.seq < Double.exactLimit

/-- Records are appended in the order of their sequences. -/
def Appended (earlier later : Table) : Prop :=
  ∃ more, later.rows = earlier.rows ++ more
    ∧ ∀ row ∈ more, ∀ old ∈ earlier.rows, old.seq < row.seq

def matching (reading : Reading) (org : JsString) (args : PageArgs) (table : Table) : List Row :=
  table.rows.filter (selected reading org args)

variable {reading : Reading} {org origin : JsString} {args : PageArgs} {table : Table}

variable {row : Row}

theorem ofNat_seq_of_numbered (numbered : Numbered table) (inside : row ∈ table.rows)
    : Double.ofNat row.seq = row.seq :=
  Double.ofNat_of_le (numbered.safe row inside).le

theorem nodup_seq_of_origin {rows : List Row} (numbered : Numbered table)
    (part : rows.Sublist table.rows) (own : ∀ row ∈ rows, row.origin = origin)
    : (rows.map Row.seq).Nodup := by
  have pairs := (part.map fun row => (row.origin, row.seq)).nodup numbered.unique
  refine (List.nodup_map_iff_inj_on (List.Nodup.of_map _ pairs)).mpr ?_
  intro first inside second other same
  exact List.inj_on_of_nodup_map pairs inside other
    (Prod.ext ((own first inside).trans (own second other).symm) same)

theorem origin_of_selected (passes : selected reading org args row = true)
    : row.origin = args.origin := by
  simp only [selected, Bool.and_eq_true, decide_eq_true_eq] at passes
  exact passes.1.1.1.1.1

theorem matching_nodup (numbered : Numbered table)
    : ((matching reading org args table).map Row.seq).Nodup :=
  nodup_seq_of_origin numbered List.filter_sublist fun _ inside =>
    origin_of_selected (List.mem_filter.mp inside).2

theorem le_foldl_max {numbers : List Nat} {start : Nat}
    : start ≤ numbers.foldl max start ∧ ∀ number ∈ numbers, number ≤ numbers.foldl max start := by
  induction numbers generalizing start with
  | nil => simp
  | cons first rest ih =>
      obtain ⟨low, every⟩ := @ih (max start first)
      refine ⟨(le_max_left _ _).trans low, fun number inside => ?_⟩
      rcases List.mem_cons.mp inside with rfl | inside
      · exact (le_max_right _ _).trans low
      · exact every number inside

theorem foldl_max_mem {numbers : List Nat} {start : Nat}
    : numbers.foldl max start = start ∨ numbers.foldl max start ∈ numbers := by
  induction numbers generalizing start with
  | nil => simp
  | cons first rest ih =>
      rcases @ih (max start first) with same | inside
      · rw [List.foldl_cons, same]
        rcases max_choice start first with kept | taken
        · exact Or.inl kept
        · exact Or.inr (by simp [taken])
      · exact Or.inr (List.mem_cons_of_mem _ inside)

/-- The frontier is not below any record of its origin. -/
theorem seq_le_topSeq (inside : row ∈ table.rows) (own : row.origin = origin)
    : row.seq ≤ topSeq origin table :=
  le_foldl_max.2 row.seq
    (List.mem_map_of_mem (List.mem_filter.mpr ⟨inside, decide_eq_true own⟩))

theorem topSeq_lt (numbered : Numbered table) : topSeq origin table < Double.exactLimit := by
  rcases @foldl_max_mem ((table.rows.filter fun row => row.origin = origin).map Row.seq) 0
    with none_ | inside
  · rw [topSeq, none_]
    decide
  · obtain ⟨row, member, same⟩ := List.mem_map.mp inside
    rw [topSeq, ← same]
    exact numbered.safe row (List.mem_filter.mp member).1

/-- An appended record is above the frontier. -/
theorem topSeq_lt_of_added {later : Table} {more : List Row}
    (rows : later.rows = table.rows ++ more)
    (order : ∀ row ∈ more, ∀ old ∈ table.rows, old.seq < row.seq) (added : row ∈ more)
    : topSeq origin table < row.seq := by
  rcases @foldl_max_mem ((table.rows.filter fun row => row.origin = origin).map Row.seq) 0
    with none_ | inside
  · rw [topSeq, none_]
    exact later.positive row (by rw [rows]; exact List.mem_append_right _ added)
  · obtain ⟨old, member, same⟩ := List.mem_map.mp inside
    rw [topSeq, ← same]
    exact order row added old (List.mem_filter.mp member).1

theorem topSeq_mono {later : Table} (appended : Appended table later)
    : topSeq origin table ≤ topSeq origin later := by
  obtain ⟨more, rows, _⟩ := appended
  rcases @foldl_max_mem ((table.rows.filter fun row => row.origin = origin).map Row.seq) 0
    with none_ | inside
  · rw [topSeq, none_]
    exact Nat.zero_le _
  · obtain ⟨row, member, same⟩ := List.mem_map.mp inside
    obtain ⟨inside, own⟩ := List.mem_filter.mp member
    rw [topSeq, ← same]
    exact seq_le_topSeq (by rw [rows]; exact List.mem_append_left _ inside) (of_decide_eq_true own)

theorem records_prefix
    : withinBudget reading.bytes responseBudgetBytes (queried reading org args table)
      <+: after (matching reading org args table) Row.seq args.after :=
  withinBudget_front.trans (List.take_prefix ..)

variable {result : Page}

/-- What a page says about its cursor, by the two ways in which it can end. -/
theorem page_ends (numbered : Numbered table)
    (answered : page reading org origin args table = some result)
    : result.frontier = topSeq args.origin table
      ∧ result.records <+: after (matching reading org args table) Row.seq args.after
      ∧ ((∃ last, result.records.getLast? = some last ∧ result.next = last.seq)
        ∨ result.records = after (matching reading org args table) Row.seq args.after
          ∧ result.next = max args.after (topSeq args.origin table)) := by
  simp only [page] at answered
  split at answered
  swap
  · cases answered
  obtain ⟨next, ends, rfl⟩ := Option.map_eq_some_iff.mp answered
  have top : Double.ofNat (topSeq args.origin table) = topSeq args.origin table :=
    Double.ofNat_of_le (topSeq_lt numbered).le
  refine ⟨top, records_prefix, ?_⟩
  split at ends
  · obtain ⟨last, final, rfl⟩ := Option.map_eq_some_iff.mp ends
    have inside := (mem_queried (withinBudget_front.subset (List.mem_of_getLast? final))).1
    exact Or.inl ⟨last, final, ofNat_seq_of_numbered numbered inside⟩
  · next short =>
      -- The query had no more rows, and the budget cut none of them.
      simp only [not_or, not_lt] at short
      obtain rfl := Option.some.inj ends
      have kept := (@withinBudget_front _ reading.bytes responseBudgetBytes
        (queried reading org args table)).eq_of_length
          (Nat.le_antisymm withinBudget_front.length_le short.1)
      have all : queried reading org args table
          = after (matching reading org args table) Row.seq args.after := by
        refine List.take_of_length_le ?_
        have count := short.2
        rw [queried, List.length_take] at count
        change (after (table.rows.filter (selected reading org args)) Row.seq args.after).length
          ≤ args.limit
        omega
      exact Or.inr ⟨kept.trans all, by rw [top]⟩

theorem page_reads {read : List Row} (numbered : Numbered table)
    (answered : page reading org origin args table = some result)
    (sofar : ReadTo (matching reading org args table) Row.seq args.after read)
    : ReadTo (matching reading org args table) Row.seq result.next (read ++ result.records) := by
  obtain ⟨_, front, ends⟩ := page_ends numbered answered
  have distinct := @matching_nodup reading org args table numbered
  rcases ends with ⟨last, final, next⟩ | ⟨all, next⟩
  · rw [next]
    exact sofar.cut distinct front final
  · rw [all, next]
    refine sofar.rest distinct (le_max_left _ _) fun row inside => ?_
    obtain ⟨inside, passes⟩ := List.mem_filter.mp inside
    exact (seq_le_topSeq inside (origin_of_selected passes)).trans (le_max_right _ _)

theorem page_answers (allowed : member org origin table = true) (some_ : 0 < args.limit)
    : ∃ result, page reading org origin args table = some result := by
  simp only [page, if_pos allowed]
  split
  · next cut =>
      cases final : (withinBudget reading.bytes responseBudgetBytes
          (queried reading org args table)).getLast? with
      | some last => exact ⟨_, rfl⟩
      | none =>
          have empty := withinBudget_eq_nil.mp (List.getLast?_eq_none_iff.mp final)
          rw [empty] at cut
          simp [withinBudget] at cut
          omega
  · exact ⟨_, rfl⟩

/-- A page makes progress while matching records are left, and ends at the frontier otherwise. -/
theorem page_progress (numbered : Numbered table) (some_ : 0 < args.limit)
    (answered : page reading org origin args table = some result)
    : ((∃ row ∈ matching reading org args table, args.after < row.seq) →
        result.records ≠ [] ∧ args.after < result.next)
      ∧ ((∀ row ∈ matching reading org args table, row.seq ≤ args.after) →
        result.records = [] ∧ result.next = max args.after result.frontier) := by
  obtain ⟨frontier, front, ends⟩ := page_ends numbered answered
  have records : result.records
      = withinBudget reading.bytes responseBudgetBytes (queried reading org args table) := by
    simp only [page] at answered
    split at answered
    · obtain ⟨next, _, rfl⟩ := Option.map_eq_some_iff.mp answered
      rfl
    · cases answered
  constructor
  · rintro ⟨row, inside, fresh⟩
    have read := mem_after.mpr ⟨inside, fresh⟩
    have some_ : result.records ≠ [] := by
      rw [records, Ne, withinBudget_eq_nil, queried, List.take_eq_nil_iff, not_or]
      exact ⟨by omega, List.ne_nil_of_mem read⟩
    refine ⟨some_, ?_⟩
    rcases ends with ⟨last, final, next⟩ | ⟨_, next⟩
    · rw [next]
      exact (mem_after.mp (front.subset (List.mem_of_getLast? final))).2
    · obtain ⟨inside, passes⟩ := List.mem_filter.mp inside
      have low := seq_le_topSeq inside (origin_of_selected passes)
      rw [next]
      exact fresh.trans_le (low.trans (le_max_right _ _))
  · intro done
    have empty : after (matching reading org args table) Row.seq args.after = [] := by
      refine List.eq_nil_iff_forall_not_mem.mpr fun row inside => ?_
      obtain ⟨inside, fresh⟩ := mem_after.mp inside
      exact absurd (done row inside) (not_le.mpr fresh)
    rw [empty, List.prefix_nil] at front
    refine ⟨front, ?_⟩
    rcases ends with ⟨last, final, _⟩ | ⟨_, next⟩
    · rw [front] at final
      cases final
    · rw [next, frontier]

/-- A reader between two pages: the table, its cursor, what it has read and the last page. -/
structure Reader where
  table : Table
  after : Nat
  read : List Row
  last : Option Page

def Reader.call (reader : Reader) (args : PageArgs) : PageArgs :=
  { args with after := reader.after }

inductive NextPage (reading : Reading) (org origin : JsString) (args : PageArgs)
    : Reader → Reader → Prop where
  | next {reader : Reader} {result : Page}
      (answered : page reading org origin (reader.call args) reader.table = some result)
    : NextPage reading org origin args reader {
        reader with
        after := result.next
        read := reader.read ++ result.records
        last := some result }

/-- Pages from the cursor 0, with records appended between them. -/
inductive Pages (reading : Reading) (org origin : JsString) (args : PageArgs) : Reader → Prop where
  | start {table : Table} (numbered : Numbered table) : Pages reading org origin args ⟨table, 0, [], none⟩
  | append {reader later} (before : Pages reading org origin args reader)
      (appended : Appended reader.table later) (numbered : Numbered later)
    : Pages reading org origin args { reader with table := later }
  | next {reader later} (before : Pages reading org origin args reader)
      (page : NextPage reading org origin args reader later) : Pages reading org origin args later

/-- What holds of a reader between its pages. -/
structure Reads (reading : Reading) (org : JsString) (args : PageArgs) (reader : Reader) : Prop where
  numbered : Numbered reader.table
  sofar : ReadTo (matching reading org args reader.table) Row.seq reader.after reader.read
  within : reader.after ≤ topSeq args.origin reader.table
  cursor : ∀ page, reader.last = some page → page.next = reader.after

/-- A page and its cursor do not pass the frontier. -/
theorem next_le_topSeq (numbered : Numbered table)
    (answered : page reading org origin args table = some result)
    (within : args.after ≤ topSeq args.origin table)
    : result.next ≤ topSeq args.origin table := by
  obtain ⟨_, front, ends⟩ := page_ends numbered answered
  rcases ends with ⟨last, final, next⟩ | ⟨_, next⟩
  · have inside := (mem_after.mp (front.subset (List.mem_of_getLast? final))).1
    obtain ⟨inside, passes⟩ := List.mem_filter.mp inside
    rw [next]
    exact seq_le_topSeq inside (origin_of_selected passes)
  · omega

variable {reader : Reader}

theorem Reads.next {later : Reader} (reads : Reads reading org args reader)
    (page : NextPage reading org origin args reader later)
    : Reads reading org args later := by
  obtain ⟨answered⟩ := page
  exact {
    numbered := reads.numbered
    sofar := @page_reads _ _ _ (reader.call args) _ _ _ reads.numbered answered reads.sofar
    within := @next_le_topSeq _ _ _ (reader.call args) _ _ reads.numbered answered reads.within
    cursor := fun page last => by rw [← Option.some.inj last] }

theorem Pages.reads (pages : Pages reading org origin args reader)
    : Reads reading org args reader := by
  induction pages with
  | @start table numbered =>
      refine ⟨numbered, readTo_nil fun row inside => ?_, Nat.zero_le _, by simp⟩
      exact table.positive row (List.mem_filter.mp inside).1
  | append before appended numbered ih =>
      refine ⟨numbered, ?_, ih.within.trans (topSeq_mono appended), ih.cursor⟩
      obtain ⟨more, rows, order⟩ := appended
      simp only [matching, rows, List.filter_append]
      refine ih.sofar.append fun row inside => ?_
      have added := (List.mem_filter.mp inside).1
      exact ih.within.trans_lt (topSeq_lt_of_added rows order added)
  | next before page ih => exact ih.next page

/-- Once no matching record is left the next page ends at the frontier; by induction over the
records that are left, some page does.
-/
theorem Reads.ends (reads : Reads reading org args reader) (some_ : 0 < args.limit)
    (allowed : member org origin reader.table = true)
    : ∃ later page, Relation.ReflTransGen (NextPage reading org origin args) reader later
      ∧ later.last = some page ∧ page.next = page.frontier := by
  induction left : (after (matching reading org args reader.table) Row.seq reader.after).length
    using Nat.strongRecOn generalizing reader with
  | ind count ih =>
      obtain ⟨result, answered⟩ := @page_answers reading _ _ (reader.call args) _ allowed some_
      have step := NextPage.next answered
      obtain ⟨forward, stops⟩ := @page_progress _ _ _ (reader.call args) _ _ reads.numbered some_
        answered
      by_cases more : ∃ row ∈ matching reading org args reader.table, reader.after < row.seq
      · have fewer : (after (matching reading org args reader.table) Row.seq result.next).length
            < count := by
          obtain ⟨row, inside⟩ := List.exists_mem_of_ne_nil _ (forward more).1
          have read := @page_reads _ _ _ (reader.call args) _ _ _ reads.numbered answered
            reads.sofar
          have passed := ((read.same row).mp (List.mem_append_right _ inside)).2
          rw [← left]
          exact length_after_lt_of_le ((page_ends reads.numbered answered).2.1.subset inside) passed
        obtain ⟨later, page, pages, done⟩ := ih _ fewer (reads.next step) allowed rfl
        exact ⟨later, page, .head step pages, done⟩
      · obtain ⟨_, next⟩ := stops fun row inside => not_lt.mp fun fresh => more ⟨row, inside, fresh⟩
        refine ⟨_, result, .single step, rfl, next.trans (max_eq_right ?_)⟩
        rw [(page_ends reads.numbered answered).1]
        exact reads.within

end PiFabric.Records
