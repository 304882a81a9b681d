import Mathlib

/-! Rows in rising order of an ordinal: a cut at one row's ordinal is a cut of the list, and the
sort that a query makes of them is the list or its reverse.
-/

namespace PiFabric.Ordinals

variable {ρ : Type*} {ord : ρ → Nat} {rows : List ρ}

/-- The rows are in strictly rising order. -/
def Rising (ord : ρ → Nat) (rows : List ρ) : Prop :=
  rows.Pairwise fun a b => ord a < ord b

/-- The rows above the ordinal of one of them are those after it, by induction over the rows. -/
theorem filter_above {cut : Nat} {row : ρ} (rising : Rising ord rows) (at_ : rows[cut]? = some row)
    : (rows.filter fun other => !(ord other ≤ ord row : Bool)) = rows.drop (cut + 1) := by
  induction rows generalizing cut with
  | nil => simp at at_
  | cons first rest ih =>
      obtain ⟨below, rising⟩ := List.pairwise_cons.mp rising
      cases cut with
      | zero =>
          obtain rfl := Option.some.inj at_
          rw [List.filter_cons_of_neg (by simp), List.drop_succ_cons, List.drop_zero,
            List.filter_eq_self]
          intro other member
          have above := below other member
          simp only [Bool.not_eq_eq_eq_not, Bool.not_true, decide_eq_false_iff_not]
          omega
      | succ cut =>
          have inside : rest[cut]? = some row := at_
          have above := below row (List.mem_of_getElem? inside)
          rw [List.filter_cons_of_neg (by
            simp only [Bool.not_eq_true', decide_eq_false_iff_not]
            omega), List.drop_succ_cons]
          exact ih rising inside

theorem Rising.drop (rising : Rising ord rows) (count : Nat) : Rising ord (rows.drop count) :=
  rising.sublist (List.drop_sublist count rows)

/-- Rows that are in order are what sorting by the ordinal makes of them. -/
theorem mergeSort_rising (rising : Rising ord rows)
    : (rows.mergeSort fun a b => ord a ≤ ord b) = rows :=
  List.mergeSort_of_pairwise (rising.imp fun below => by simpa using below.le)

/-- Their ordinals in descending order are the reverse. -/
theorem mergeSort_descending (rising : Rising ord rows)
    : ((rows.map ord).mergeSort fun a b => b ≤ a) = (rows.map ord).reverse := by
  have descending : (rows.map ord).reverse.Pairwise fun a b => decide (b ≤ a) = true := by
    rw [List.pairwise_reverse, List.pairwise_map]
    exact rising.imp fun below => by simpa using below.le
  have sorted := @List.pairwise_mergeSort Nat (fun a b => decide (b ≤ a))
    (fun a b c first second => by
      simp only [decide_eq_true_eq] at first second ⊢
      omega)
    (fun a b => by simpa using Nat.le_total b a) (rows.map ord)
  refine List.Perm.eq_of_pairwise ?_ sorted descending
    ((List.mergeSort_perm ..).trans (List.reverse_perm _).symm)
  intro a b _ _ first second
  simp only [decide_eq_true_eq] at first second
  omega

/-- A list without repetitions is its own deduplication, by induction over it. -/
theorem eraseDups_of_nodup {α : Type*} [BEq α] [LawfulBEq α] {items : List α}
    (distinct : items.Nodup)
    : items.eraseDups = items := by
  induction items with
  | nil => rfl
  | cons item rest ih =>
      obtain ⟨absent, distinct⟩ := List.nodup_cons.mp distinct
      have others : (rest.filter fun other => !other == item) = rest := by
        refine List.filter_eq_self.mpr fun other member => ?_
        have apart : other ≠ item := fun same => absent (same ▸ member)
        simpa using apart
      rw [List.eraseDups_cons, others, ih distinct]

section Dups

variable {α : Type*} [BEq α] [LawfulBEq α]

theorem nodup_eraseDups (items : List α) : items.eraseDups.Nodup := by
  induction hn : items.length using Nat.strong_induction_on generalizing items with
  | _ n ih =>
      cases items with
      | nil => exact List.nodup_nil
      | cons item rest =>
          rw [List.eraseDups_cons, List.nodup_cons]
          refine ⟨fun member => ?_, ih _ ?_ _ rfl⟩
          · simpa using (List.mem_filter.mp (List.mem_eraseDups.mp member)).2
          · subst hn
            exact Nat.lt_succ_of_le (List.length_filter_le _ _)

/-- Nothing is dropped exactly where nothing repeats. -/
theorem length_eraseDups_eq_iff [DecidableEq α] {items : List α}
    : items.eraseDups.length = items.length ↔ items.Nodup := by
  have perm : items.eraseDups.Perm items.dedup :=
    (List.perm_ext_iff_of_nodup (nodup_eraseDups items) items.nodup_dedup).mpr fun item =>
      List.mem_eraseDups.trans List.mem_dedup.symm
  rw [perm.length_eq]
  constructor
  · intro same
    rw [← (List.dedup_sublist items).eq_of_length same]
    exact items.nodup_dedup
  · intro distinct
    rw [distinct.dedup]

/-- A list without repetitions, cut down to one that it holds in order, is that one. -/
theorem filter_mem_of_sublist [DecidableEq α] {part items : List α} (held : part.Sublist items)
    (distinct : items.Nodup)
    : items.filter (· ∈ part) = part := by
  induction held with
  | slnil => rfl
  | cons item held ih =>
      rw [List.nodup_cons] at distinct
      have away : item ∉ _ := fun member => distinct.1 (held.subset member)
      rw [List.filter_cons_of_neg (by simpa using away), ih distinct.2]
  | @cons_cons part items item held ih =>
      rw [List.nodup_cons] at distinct
      rw [List.filter_cons_of_pos (by simp)]
      have same : items.filter (· ∈ item :: part) = items.filter (· ∈ part) := by
        refine List.filter_congr fun other member => ?_
        have apart : other ≠ item := fun equal => distinct.1 (equal ▸ member)
        simp [apart]
      rw [same, ih distinct.2]

/-- Deduplication keeps a test, by induction on the length. -/
theorem eraseDups_filter (test : α → Bool) (items : List α)
    : (items.filter test).eraseDups = items.eraseDups.filter test := by
  induction hn : items.length using Nat.strong_induction_on generalizing items with
  | _ n ih =>
      cases items with
      | nil => rfl
      | cons item rest =>
          have shorter : (rest.filter fun other => !other == item).length < n := by
            subst hn
            exact Nat.lt_succ_of_le (List.length_filter_le _ _)
          have others := ih _ shorter (rest.filter fun other => !other == item) rfl
          rw [List.eraseDups_cons, List.filter_cons, List.filter_cons, ← others]
          split
          · rw [List.eraseDups_cons, List.filter_filter, List.filter_filter]
            simp only [Bool.and_comm]
          · next fails =>
              rw [List.filter_filter]
              congr 1
              refine List.filter_congr fun other _ => ?_
              by_cases same : other = item
              · rw [same]
                simp [fails]
              · simp [same]

end Dups

end PiFabric.Ordinals
