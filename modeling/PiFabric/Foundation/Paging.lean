import Mathlib

/-! Reading a table in pages: each query takes the first rows after a cursor, in key order, and
the last row of a full page becomes the next cursor. The pages together are the rows after the
first cursor.
-/

namespace PiFabric.Paging

universe u v w

variable {α : Type u} {κ : Type v} [LinearOrder κ] (rows : List α) (key : α → κ)

/-- `SELECT … WHERE key > cursor ORDER BY key`. -/
def after (cursor : κ) : List α :=
  (rows.filter fun row => cursor < key row).mergeSort fun a b => key a ≤ key b

variable {rows key}

theorem mem_after {cursor : κ} {row : α}
    : row ∈ after rows key cursor ↔ row ∈ rows ∧ cursor < key row := by
  simp [after]

/-- Rows with distinct keys are in strict order once they are sorted. -/
theorem pairwise_mergeSort_lt {rows : List α} (distinct : (rows.map key).Nodup)
    : (rows.mergeSort fun a b => key a ≤ key b).Pairwise fun a b => key a < key b := by
  have sorted : (rows.mergeSort fun a b => key a ≤ key b).Pairwise fun a b => key a ≤ key b := by
    refine (List.pairwise_mergeSort ?_ ?_ _).imp fun h => of_decide_eq_true h
    · intro a b c first second
      simp only [decide_eq_true_eq] at *
      exact first.trans second
    · intro a b
      simpa using le_total (key a) (key b)
  have apart : (rows.mergeSort fun a b => key a ≤ key b).Pairwise fun a b => key a ≠ key b := by
    rw [← List.pairwise_map]
    exact ((List.mergeSort_perm _ _).map key).nodup_iff.mpr distinct
  exact (sorted.and apart).imp fun h => lt_of_le_of_ne h.1 h.2

theorem pairwise_after (distinct : (rows.map key).Nodup) (cursor : κ)
    : (after rows key cursor).Pairwise fun a b => key a < key b := by
  have kept : (rows.filter fun row => cursor < key row).Sublist rows := List.filter_sublist
  exact pairwise_mergeSort_lt ((kept.map key).nodup distinct)

/-- Two lists in strict key order with the same rows are the same. -/
theorem eq_of_mem_iff {left right : List α} (hl : left.Pairwise fun a b => key a < key b)
    (hr : right.Pairwise fun a b => key a < key b) (same : ∀ row, row ∈ left ↔ row ∈ right)
    : left = right := by
  have nodup {rows : List α} (h : rows.Pairwise fun a b => key a < key b) : rows.Nodup :=
    h.imp fun before same => absurd (same ▸ before) (lt_irrefl _)
  refine ((List.perm_ext_iff_of_nodup (nodup hl) (nodup hr)).mpr same).eq_of_pairwise ?_ hl hr
  intro a b _ _ before after
  exact absurd (before.trans after) (lt_irrefl _)

/-- After the last row of a page come the rows that the page left out. -/
theorem after_last (distinct : (rows.map key).Nodup) {cursor : κ} {page others : List α}
    {last : α} (split : after rows key cursor = page ++ last :: others)
    : after rows key (key last) = others := by
  have sorted := pairwise_after distinct cursor
  rw [split, List.pairwise_append, List.pairwise_cons] at sorted
  obtain ⟨-, ⟨fromLast, ordered⟩, across⟩ := sorted
  refine eq_of_mem_iff (pairwise_after distinct _) ordered ?_
  intro row
  rw [mem_after]
  constructor
  · intro h
    obtain ⟨inside, later⟩ := h
    have lastLater : cursor < key last := by
      have member : last ∈ after rows key cursor := by simp [split]
      exact (mem_after.mp member).2
    have read : row ∈ after rows key cursor := mem_after.mpr ⟨inside, lastLater.trans later⟩
    rw [split, List.mem_append, List.mem_cons] at read
    rcases read with before | rfl | behind
    · exact absurd (later.trans (across row before last (List.mem_cons_self ..))) (lt_irrefl _)
    · exact absurd later (lt_irrefl _)
    · exact behind
  · intro member
    have read : row ∈ after rows key cursor := by simp [split, member]
    exact ⟨(mem_after.mp read).1, fromLast row member⟩

/-- A cursor that has passed a row leaves fewer rows. -/
theorem length_after_lt_of_le {cursor next : κ} {row : α} (member : row ∈ after rows key cursor)
    (passed : key row ≤ next)
    : (after rows key next).length < (after rows key cursor).length := by
  obtain ⟨inside, later⟩ := mem_after.mp member
  simp only [after, List.length_mergeSort]
  have kept : rows.filter (fun row => next < key row)
      = (rows.filter fun row => cursor < key row).filter fun row => next < key row := by
    rw [List.filter_filter]
    apply List.filter_congr
    intro row _
    by_cases further : next < key row
    · simp [further, (later.trans_le passed).trans further]
    · simp [further]
  rw [kept]
  apply List.length_filter_lt_length_iff_exists.mpr
  exact ⟨row, List.mem_filter.mpr ⟨inside, by simpa using later⟩, by simpa using passed⟩

/-- A cursor further on leaves fewer rows. -/
theorem length_after_lt {cursor : κ} {last : α} (member : last ∈ after rows key cursor)
    : (after rows key (key last)).length < (after rows key cursor).length :=
  length_after_lt_of_le member le_rfl

variable (rows key)

/-- Folds over the rows after a cursor, a page at a time, until a page is not full. -/
def readPages {σ : Type w} (limit : Nat) (step : σ → α → σ) (cursor : κ) (state : σ) : σ :=
  let page := (after rows key cursor).take limit
  let next := page.foldl step state
  if page.length < limit then next
  else
    match _last : page.getLast? with
    | some last => readPages limit step (key last) next
    | none => next
termination_by (after rows key cursor).length
decreasing_by
  exact length_after_lt (List.mem_of_mem_take (List.mem_of_getLast? _last))

variable {rows key}

/-- Reading in pages reads every row after the cursor once, in key order, by induction over the
rows left.
-/
theorem readPages_eq_foldl {σ : Type w} (distinct : (rows.map key).Nodup) {limit : Nat}
    (positive : 0 < limit) (step : σ → α → σ) (cursor : κ) (state : σ)
    : readPages rows key limit step cursor state
      = (after rows key cursor).foldl step state := by
  induction left : (after rows key cursor).length using Nat.strongRecOn
    generalizing cursor state with
  | ind count ih =>
      rw [readPages]
      split
      · next short =>
          rw [List.length_take] at short
          rw [List.take_of_length_le (by omega)]
      · next full =>
          split
          · next last found =>
              have member := List.mem_of_mem_take (List.mem_of_getLast? found)
              rw [ih _ (left ▸ length_after_lt member) _ _ rfl]
              obtain ⟨page, split⟩ := List.getLast?_eq_some_iff.mp found
              have whole : after rows key cursor
                  = page ++ last :: (after rows key cursor).drop limit := by
                conv => lhs; rw [← List.take_append_drop limit (after rows key cursor), split]
                simp
              rw [after_last distinct whole, ← List.foldl_append, List.take_append_drop]
          · next absent =>
              rw [List.getLast?_eq_none_iff] at absent
              rw [absent] at full
              exact absurd positive (by simpa using full)

/-- Of a table exactly the rows up to a cursor have been read, each once and in key order. -/
structure ReadTo (rows : List α) (key : α → κ) (cursor : κ) (read : List α) : Prop where
  sorted : read.Pairwise fun a b => key a < key b
  same : ∀ row, row ∈ read ↔ row ∈ rows ∧ key row ≤ cursor

/-- Rows that are added behind the cursor change nothing. -/
theorem ReadTo.append {cursor : κ} {read more : List α} (h : ReadTo rows key cursor read)
    (behind : ∀ row ∈ more, cursor < key row)
    : ReadTo (rows ++ more) key cursor read where
  sorted := h.sorted
  same := by
    intro row
    rw [h.same, List.mem_append]
    constructor
    · exact fun ⟨inside, before⟩ => ⟨Or.inl inside, before⟩
    · rintro ⟨inside | added, before⟩
      · exact ⟨inside, before⟩
      · exact absurd (behind row added) (not_lt.mpr before)

/-- A page adds the next rows in key order, up to its cursor. -/
theorem ReadTo.page {cursor next : κ} {read page : List α} (h : ReadTo rows key cursor read)
    (distinct : (rows.map key).Nodup) (front : page <+: after rows key cursor)
    (forward : cursor ≤ next) (within : ∀ row ∈ page, key row ≤ next)
    (complete : ∀ row ∈ rows, cursor < key row → key row ≤ next → row ∈ page)
    : ReadTo rows key next (read ++ page) where
  sorted := by
    refine List.pairwise_append.mpr ⟨h.sorted, (pairwise_after distinct cursor).sublist
      front.sublist, fun earlier before later behind => ?_⟩
    exact ((h.same earlier).mp before).2.trans_lt (mem_after.mp (front.subset behind)).2
  same := by
    intro row
    rw [List.mem_append, h.same]
    constructor
    · rintro (⟨inside, before⟩ | member)
      · exact ⟨inside, before.trans forward⟩
      · exact ⟨(mem_after.mp (front.subset member)).1, within row member⟩
    · rintro ⟨inside, before⟩
      rcases le_or_gt (key row) cursor with known | fresh
      · exact Or.inl ⟨inside, known⟩
      · exact Or.inr (complete row inside fresh before)

/-- A page that is cut ends at its last row. -/
theorem ReadTo.cut {cursor : κ} {read page : List α} {last : α} (h : ReadTo rows key cursor read)
    (distinct : (rows.map key).Nodup) (front : page <+: after rows key cursor)
    (final : page.getLast? = some last)
    : ReadTo rows key (key last) (read ++ page) := by
  obtain ⟨before, rfl⟩ := List.getLast?_eq_some_iff.mp final
  obtain ⟨rest, whole⟩ := front
  have sorted := pairwise_after distinct cursor
  rw [← whole] at sorted
  obtain ⟨ordered, _, apart⟩ := List.pairwise_append.mp sorted
  have member : last ∈ after rows key cursor := by rw [← whole]; simp
  refine h.page distinct ⟨rest, whole⟩ (mem_after.mp member).2.le (fun row inside => ?_)
    fun row inside fresh low => ?_
  · rcases List.mem_append.mp inside with inside | same
    · exact ((List.pairwise_append.mp ordered).2.2 row inside last (List.mem_singleton_self _)).le
    · rw [List.mem_singleton.mp same]
  · have read := mem_after.mpr ⟨inside, fresh⟩
    rw [← whole] at read
    rcases List.mem_append.mp read with read | behind
    · exact read
    · exact absurd low (not_le.mpr (apart last (by simp) row behind))

/-- A page that holds all rows behind the cursor may end anywhere behind them. -/
theorem ReadTo.rest {cursor next : κ} {read : List α} (h : ReadTo rows key cursor read)
    (distinct : (rows.map key).Nodup) (forward : cursor ≤ next)
    (highest : ∀ row ∈ rows, key row ≤ next)
    : ReadTo rows key next (read ++ after rows key cursor) :=
  h.page distinct (List.prefix_refl _) forward
    (fun row inside => highest row (mem_after.mp inside).1)
    fun _ inside fresh _ => mem_after.mpr ⟨inside, fresh⟩

/-- Nothing is read before the first key. -/
theorem readTo_nil {cursor : κ} (first : ∀ row ∈ rows, cursor < key row)
    : ReadTo rows key cursor [] where
  sorted := List.Pairwise.nil
  same row := by simpa using fun inside => first row inside

end PiFabric.Paging
