import PiFabric.Records.Append

/-! Pages of records: the rows after a cursor that pass the filters of a call, cut at its limit
and near the response budget, with the cursor that the next page starts from.
-/

namespace PiFabric.Records

open JsString HashChain

def responseBudgetBytes : Nat := 768 * 1024

section

variable {α : Type} (bytes : α → Nat)

def withinRest (budget used : Nat) : List α → List α
  | [] => []
  | item :: rest =>
      let size := bytes item + 1
      if budget < used + size then []
      else item :: withinRest budget (used + size) rest

/-- `withinBudget`: the longest prefix that fits the budget, never fewer than one item. -/
def withinBudget (budget : Nat) : List α → List α
  | [] => []
  | item :: rest => item :: withinRest bytes budget (bytes item + 1) rest

variable {bytes}

variable {budget : Nat} {items : List α}

theorem withinRest_prefix {used : Nat}
    : withinRest bytes budget used items <+: items := by
  induction items generalizing used with
  | nil => exact List.prefix_refl _
  | cons item rest ih =>
      simp only [withinRest]
      split
      · exact List.nil_prefix
      · exact List.cons_prefix_cons.mpr ⟨rfl, ih⟩

theorem withinBudget_front
    : withinBudget bytes budget items <+: items := by
  cases items with
  | nil => exact List.prefix_refl _
  | cons item rest => exact List.cons_prefix_cons.mpr ⟨rfl, withinRest_prefix⟩

/-- Cutting again cuts nothing more, by induction over the items. -/
theorem withinRest_idem {used : Nat}
    : withinRest bytes budget used (withinRest bytes budget used items)
      = withinRest bytes budget used items := by
  induction items generalizing used with
  | nil => rfl
  | cons item rest ih =>
      simp only [withinRest]
      split
      · rfl
      · next fits => simp only [withinRest, if_neg fits, ih]

/-- A list that was cut to the budget fits the same budget. -/
theorem withinBudget_idem
    : withinBudget bytes budget (withinBudget bytes budget items)
      = withinBudget bytes budget items := by
  cases items with
  | nil => rfl
  | cons item rest => simp only [withinBudget, withinRest_idem]

theorem withinBudget_eq_nil
    : withinBudget bytes budget items = [] ↔ items = [] := by
  cases items <;> simp [withinBudget]

end

/-- What PostgreSQL and the driver read off a row: the text of `data->>'to'`, and the length of
its envelope's JSON in bytes.
-/
structure Reading where
  «to» : Row → Option JsString
  bytes : Row → Nat

structure PageArgs where
  after : Nat
  limit : Nat
  origin : JsString
  ref : Option JsString
  kind : Option JsString
  «to» : Option (List JsString)
  exceptAuthor : Option JsString

def given (value : Option JsString) : Option JsString :=
  value.filter fun text => !text.isEmpty

def selected (reading : Reading) (org : JsString) (args : PageArgs) (row : Row) : Bool :=
  row.origin = args.origin && row.org = org
    && (given args.ref).all (fun ref => row.ref = ref)
    && (given args.kind).all (fun kind => row.kind = kind)
    && args.to.all (fun names => (reading.to row).any fun name => name ∈ names)
    && (given args.exceptAuthor).all (fun author => row.author ≠ author)

structure Page where
  records : List Row
  next : Nat
  frontier : Nat
  origin : JsString
  deriving DecidableEq

def topSeq (origin : JsString) (table : Table) : Nat :=
  ((table.rows.filter fun row => row.origin = origin).map Row.seq).foldl max 0

def queried (reading : Reading) (org : JsString) (args : PageArgs) (table : Table) : List Row :=
  (Paging.after (table.rows.filter (selected reading org args)) Row.seq args.after).take args.limit

/-- `RecordStore.page` on a snapshot. It throws on a row of another org or origin, and where a
limit of 0 leaves no last record to end at.
-/
def page (reading : Reading) (org origin : JsString) (args : PageArgs) (table : Table)
    : Option Page :=
  let all := queried reading org args table
  let records := withinBudget reading.bytes responseBudgetBytes all
  let top := Double.ofNat (topSeq args.origin table)
  let next : Option Nat :=
    if records.length < all.length ∨ all.length = args.limit then
      records.getLast?.map fun row => Double.ofNat row.seq
    else some (max args.after top)
  if member org origin table then
    next.map fun next => { records, next, frontier := top, origin := args.origin }
  else none

/-- `RecordStore.byIds` on a snapshot. -/
def byIds (reading : Reading) (org origin : JsString) (ids : List JsString) (table : Table)
    : Option (List Row) :=
  if ids = [] then some []
  else if member org origin table then
    some (withinBudget reading.bytes responseBudgetBytes
      ((table.rows.filter fun row => row.id ∈ ids ∧ row.org = org ∧ row.origin = origin).mergeSort
        fun a b => a.seq ≤ b.seq))
  else none

variable {reading : Reading} {org origin : JsString}

variable {table : Table}

theorem seqs_nodup (chained : Chained table.rows)
    : (table.rows.map Row.seq).Nodup := by
  rw [Linked.seqs chained]
  exact List.nodup_range'

variable {row : Row}

theorem seq_le_length (chained : Chained table.rows) (inside : row ∈ table.rows)
    : row.seq ≤ table.rows.length := by
  have bounds := Linked.bounds chained inside
  omega

theorem ofNat_seq (chained : Chained table.rows) (inside : row ∈ table.rows)
    : Double.ofNat row.seq = row.seq := by
  have bound := seq_le_length chained inside
  have few := table.few
  exact Double.ofNat_of_le (by omega)

theorem topSeq_of_chained (own : Own org origin table.rows) (chained : Chained table.rows)
    : topSeq origin table = table.rows.length := by
  have next : nextSeq origin table = topSeq origin table + 1 := rfl
  have count := nextSeq_of_chained own chained
  omega

variable {args : PageArgs}

theorem mem_queried (h : row ∈ queried reading org args table)
    : row ∈ table.rows ∧ selected reading org args row = true ∧ args.after < row.seq := by
  have read := Paging.mem_after.mp (List.mem_of_mem_take h)
  obtain ⟨inside, passes⟩ := List.mem_filter.mp read.1
  exact ⟨inside, passes, read.2⟩

theorem selected_nodup (chained : Chained table.rows) (args : PageArgs)
    : ((table.rows.filter (selected reading org args)).map Row.seq).Nodup :=
  (List.filter_sublist.map Row.seq).nodup (seqs_nodup chained)

theorem queried_sorted (chained : Chained table.rows)
    : (queried reading org args table).Pairwise fun a b => a.seq < b.seq :=
  (Paging.pairwise_after (selected_nodup chained args) args.after).sublist (List.take_sublist ..)

/-- A prefix of a list in strict order holds whatever is not above its last item. -/
theorem mem_of_le_last {rows cut : List Row} {last : Row}
    (sorted : rows.Pairwise fun a b => a.seq < b.seq) (front : cut <+: rows)
    (final : cut.getLast? = some last) (inside : row ∈ rows) (below : row.seq ≤ last.seq)
    : row ∈ cut := by
  obtain ⟨rest, rfl⟩ := front
  rcases List.mem_append.mp inside with kept | behind
  · exact kept
  · have apart := (List.pairwise_append.mp sorted).2.2 last (List.mem_of_getLast? final) row behind
    omega

/-- What a page says about the rows it passes over. -/
structure Covers (reading : Reading) (org : JsString) (args : PageArgs) (table : Table)
    (result : Page) : Prop where
  /-- A page holds rows of the query, in order, within the budget. -/
  inside : ∀ row ∈ result.records, row ∈ table.rows
  sorted : result.records.Pairwise fun a b => a.seq < b.seq
  fits : withinBudget reading.bytes responseBudgetBytes result.records = result.records
  /-- No row that passes the filters is left out below the next cursor. -/
  complete : ∀ row ∈ table.rows, selected reading org args row = true →
    args.after < row.seq → row.seq ≤ result.next → row ∈ result.records
  bound : result.next ≤ max args.after table.rows.length

theorem page_covers {result : Page} (same : args.origin = origin) (chained : Chained table.rows)
    (answered : page reading org origin args table = some result)
    : Covers reading org args table result := by
  simp only [page] at answered
  split at answered
  swap
  · exact absurd answered (by simp)
  next allowed =>
  have own := own_of_member allowed
  obtain ⟨next, ends, rfl⟩ := Option.map_eq_some_iff.mp answered
  have sorted := @queried_sorted reading org table args chained
  have front : withinBudget reading.bytes responseBudgetBytes (queried reading org args table)
      <+: queried reading org args table := withinBudget_front
  have few := table.few
  have top : Double.ofNat (topSeq args.origin table) = table.rows.length := by
    rw [same, topSeq_of_chained own chained, Double.ofNat_of_le (by omega)]
  have final (last : Row) (at_ : (withinBudget reading.bytes responseBudgetBytes
      (queried reading org args table)).getLast? = some last)
      : last ∈ table.rows ∧ Double.ofNat last.seq = last.seq := by
    have inside := (mem_queried (front.subset (List.mem_of_getLast? at_))).1
    exact ⟨inside, ofNat_seq chained inside⟩
  constructor
  · intro row inside
    exact (mem_queried (front.subset inside)).1
  · exact sorted.sublist front.sublist
  · exact withinBudget_idem
  · intro row inside passes above below
    have read : row
        ∈ Paging.after (table.rows.filter (selected reading org args)) Row.seq args.after :=
      Paging.mem_after.mpr ⟨List.mem_filter.mpr ⟨inside, passes⟩, above⟩
    split at ends
    · obtain ⟨last, at_, rfl⟩ := Option.map_eq_some_iff.mp ends
      have whole := Paging.pairwise_after (@selected_nodup reading org table chained args)
        args.after
      exact mem_of_le_last whole (front.trans (List.take_prefix ..)) at_ read
        ((final last at_).2 ▸ below)
    · next short =>
        -- the query had no more rows, and the budget cut none of them
        simp only [not_or, not_lt] at short
        have kept := front.eq_of_length (Nat.le_antisymm front.length_le short.1)
        have all : queried reading org args table
            = Paging.after (table.rows.filter (selected reading org args)) Row.seq args.after := by
          refine List.take_of_length_le ?_
          have count := short.2
          rw [queried, List.length_take] at count
          omega
        show row ∈ withinBudget reading.bytes responseBudgetBytes (queried reading org args table)
        rw [kept, all]
        exact read
  · split at ends
    · obtain ⟨last, at_, rfl⟩ := Option.map_eq_some_iff.mp ends
      obtain ⟨inside, exact_⟩ := final last at_
      rw [exact_]
      exact (seq_le_length chained inside).trans (le_max_right _ _)
    · obtain rfl := Option.some.inj ends
      rw [top]

/-- A batch that was cut to the budget is found again by its ids, whatever was appended. -/
theorem byIds_batch {batch records : List Row} (own : Own org origin table.rows)
    (chained : Chained table.rows) (inside : ∀ row ∈ batch, row ∈ table.rows)
    (sorted : batch.Pairwise fun a b => a.seq < b.seq)
    (fits : withinBudget reading.bytes responseBudgetBytes batch = batch)
    (answered : byIds reading org origin (batch.map Row.id) table = some records)
    : records = batch := by
  unfold byIds at answered
  split at answered
  · next none =>
      rw [List.map_eq_nil_iff.mp none]
      exact (Option.some.inj answered).symm
  · split at answered
    swap
    · exact absurd answered (by simp)
    obtain rfl := Option.some.inj answered
    have distinct : ((table.rows.filter fun row => row.id ∈ batch.map Row.id ∧ row.org = org
        ∧ row.origin = origin).map Row.seq).Nodup :=
      (List.filter_sublist.map Row.seq).nodup (seqs_nodup chained)
    rw [Paging.eq_of_mem_iff (Paging.pairwise_mergeSort_lt distinct) sorted, fits]
    intro row
    rw [List.mem_mergeSort, List.mem_filter, decide_eq_true_eq]
    constructor
    · rintro ⟨held, named, -⟩
      obtain ⟨other, member, same⟩ := List.mem_map.mp named
      exact List.inj_on_of_nodup_map table.ids (inside other member) held same ▸ member
    · intro member
      exact ⟨inside row member, List.mem_map_of_mem member, own row (inside row member)⟩

end PiFabric.Records
