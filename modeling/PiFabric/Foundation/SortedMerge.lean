import Mathlib.Data.List.Nodup
import Mathlib.Data.List.Perm.Basic

/-! Inserting sorted items into a sorted list, each at the place that a binary search finds from the
last one on. The order is that of a comparison of keys, which needs to be total only on the keys
that occur.
-/

namespace PiFabric.SortedMerge

variable {α κ : Type*}

/-- The first index between two where the items do not come before. -/
def lowerBound (before : α → Bool) (items : List α) (low high : Nat) : Nat :=
  if low < high then
    if items[(low + high) / 2]?.any before then lowerBound before items ((low + high) / 2 + 1) high
    else lowerBound before items low ((low + high) / 2)
  else low
termination_by high - low

/-- The kept items from an index on, and the inserted ones in their places. -/
def mergeFrom (before : α → α → Bool) (kept : List α) (start : Nat) : List α → List α
  | [] => kept.drop start
  | item :: rest =>
      let place := lowerBound (before · item) kept start kept.length
      (kept.drop start).take (place - start) ++ item :: mergeFrom before kept place rest

theorem lowerBound_bounds (before : α → Bool) (items : List α) {low high : Nat}
    (ordered : low ≤ high)
    : low ≤ lowerBound before items low high ∧ lowerBound before items low high ≤ high := by
  induction low, high using lowerBound.induct before items with
  | case1 low high more less ih =>
      rw [lowerBound, if_pos more, if_pos less]
      have bounds := ih (by omega)
      omega
  | case2 low high more less ih =>
      rw [lowerBound, if_pos more, if_neg less]
      have bounds := ih (by omega)
      omega
  | case3 low high done =>
      rw [lowerBound, if_neg done]
      exact ⟨Nat.le_refl low, ordered⟩

/-- Items come before up to the place that is found and not from it on, if those that do are at the
front.
-/
theorem lowerBound_spec {before : α → Bool} {items : List α}
    (front : items.Pairwise fun left right => before right = true → before left = true)
    {low high : Nat} (within : high ≤ items.length) {index : Nat} {item : α}
    (at_ : items[index]? = some item) (from_ : low ≤ index)
    : (index < lowerBound before items low high → before item = true)
      ∧ (lowerBound before items low high ≤ index → index < high → before item = false) := by
  have monotone {left right : Nat} {first second : α} (order : left < right)
      (one : items[left]? = some first) (two : items[right]? = some second)
      (later : before second = true)
      : before first = true := by
    obtain ⟨_, rfl⟩ := List.getElem?_eq_some_iff.mp one
    obtain ⟨_, rfl⟩ := List.getElem?_eq_some_iff.mp two
    exact List.pairwise_iff_getElem.mp front left right _ _ order later
  induction low, high using lowerBound.induct before items with
  | case1 low high more less ih =>
      rw [lowerBound, if_pos more, if_pos less]
      obtain ⟨other, found, comes⟩ := (Option.any_eq_true _ _).mp less
      have bounds := @lowerBound_bounds _ before items ((low + high) / 2 + 1) high (by omega)
      rcases Nat.lt_trichotomy index ((low + high) / 2) with under | here | above
      · exact ⟨fun _ => monotone under at_ found comes, fun past _ => by omega⟩
      · rw [here] at at_
        obtain rfl := Option.some.inj (at_.symm.trans found)
        exact ⟨fun _ => comes, fun past _ => by omega⟩
      · exact ih within (by omega)
  | case2 low high more less ih =>
      rw [lowerBound, if_pos more, if_neg less]
      have bounds := @lowerBound_bounds _ before items low ((low + high) / 2) (by omega)
      refine ⟨(ih (by omega) from_).1, fun past _ => ?_⟩
      by_cases under : index < (low + high) / 2
      · exact (ih (by omega) from_).2 past under
      · obtain ⟨other, found⟩ : ∃ other, items[(low + high) / 2]? = some other :=
          ⟨_, List.getElem?_eq_getElem (by omega)⟩
        rw [found, Option.any_some, Bool.not_eq_true] at less
        rcases Nat.eq_or_lt_of_le (Nat.not_lt.mp under) with here | above
        · rw [← here] at at_
          obtain rfl := Option.some.inj (at_.symm.trans found)
          exact less
        · by_contra comes
          rw [Bool.not_eq_false] at comes
          rw [monotone above found at_ comes] at less
          cases less
  | case3 low high done =>
      rw [lowerBound, if_neg done]
      omega

/-- A merge holds the kept items and the inserted ones, by induction over these. -/
theorem mem_mergeFrom {before : α → α → Bool} {kept : List α} {start : Nat} {inserted : List α}
    (within : start ≤ kept.length) {item : α}
    : item ∈ mergeFrom before kept start inserted ↔ item ∈ kept.drop start ∨ item ∈ inserted := by
  induction inserted generalizing start with
  | nil => simp [mergeFrom]
  | cons first rest ih =>
      obtain ⟨later, inside⟩ := lowerBound_bounds (before · first) kept within
      have parts : kept.drop start
          = (kept.drop start).take (lowerBound (before · first) kept start kept.length - start)
            ++ kept.drop (lowerBound (before · first) kept start kept.length) := by
        conv => lhs; rw [← List.take_append_drop
          (lowerBound (before · first) kept start kept.length - start) (kept.drop start)]
        rw [List.drop_drop, Nat.add_sub_cancel' later]
      rw [mergeFrom]
      conv => rhs; rw [parts]
      simp only [List.mem_append, List.mem_cons, ih inside]
      tauto

/-- A comparison is a strict total order on some keys. -/
structure TotalOn (compare : κ → κ → Ordering) (inside : κ → Prop) : Prop where
  eq_iff : ∀ {left right}, inside left → inside right → (compare left right = .eq ↔ left = right)
  swap : ∀ {left right}, inside left → inside right →
    compare right left = (compare left right).swap
  trans : ∀ {left middle right}, inside left → inside middle → inside right →
    compare left middle = .lt → compare middle right = .lt → compare left right = .lt

/-- A first comparison, and a second one where the first finds no difference. -/
theorem TotalOn.lex {ι : Type*} {first : ι → ι → Ordering} {second : κ → κ → Ordering}
    {inside : κ → Prop} (hf : TotalOn first fun _ => True) (hs : TotalOn second inside)
    : TotalOn (fun left right : ι × κ => (first left.1 right.1).then (second left.2 right.2))
        fun key => inside key.2 := by
  refine ⟨fun {left right} hl hr => ?_, fun {left right} hl hr => ?_,
    fun {left middle right} hl hm hr one two => ?_⟩
  · rw [Ordering.then_eq_eq, hf.eq_iff trivial trivial, hs.eq_iff hl hr, Prod.ext_iff]
  · rw [Ordering.swap_then, ← hf.swap trivial trivial, ← hs.swap hl hr]
  · rw [Ordering.then_eq_lt] at one two ⊢
    rcases one with one | ⟨one, one'⟩
    · rcases two with two | ⟨two, -⟩
      · exact Or.inl (hf.trans trivial trivial trivial one two)
      · exact Or.inl ((hf.eq_iff trivial trivial).mp two ▸ one)
    · rw [(hf.eq_iff trivial trivial).mp one]
      exact two.imp_right fun both => ⟨both.1, hs.trans hl hm hr one' both.2⟩

theorem totalOn_int : TotalOn (compare : Int → Int → Ordering) fun _ => True where
  eq_iff := fun _ _ => Std.LawfulEqCmp.compare_eq_iff_eq
  swap := fun _ _ => Std.OrientedCmp.eq_swap
  trans := fun _ _ _ one two => Std.TransCmp.lt_trans one two

variable {compare : κ → κ → Ordering} {inside : κ → Prop} {key : α → κ}

theorem TotalOn.irrefl (order : TotalOn compare inside) {only : κ} (member : inside only)
    : compare only only ≠ .lt := by
  rw [(order.eq_iff member member).mpr rfl]
  decide

/-- Of two different keys, one comes before. -/
theorem TotalOn.lt_of_not_lt (order : TotalOn compare inside) {left right : κ} (hl : inside left)
    (hr : inside right) (other : left ≠ right) (not_ : compare left right ≠ .lt)
    : compare right left = .lt := by
  have apart := mt (order.eq_iff hl hr).mp other
  rw [order.swap hl hr]
  cases found : compare left right with
  | lt => exact absurd found not_
  | eq => exact absurd found apart
  | gt => rfl

theorem TotalOn.not_gt_trans (order : TotalOn compare inside) {left middle right : κ}
    (hl : inside left) (hm : inside middle) (hr : inside right)
    (one : compare left middle ≠ .gt) (two : compare middle right ≠ .gt)
    : compare left right ≠ .gt := by
  cases first : compare left middle with
  | gt => exact absurd first one
  | eq =>
      rw [(order.eq_iff hl hm).mp first]
      exact two
  | lt =>
      cases second : compare middle right with
      | gt => exact absurd second two
      | eq =>
          rw [← (order.eq_iff hm hr).mp second, first]
          decide
      | lt =>
          rw [order.trans hl hm hr first second]
          decide

/-- Items in the strict order of their keys. -/
def Strict (compare : κ → κ → Ordering) (key : α → κ) (items : List α) : Prop :=
  items.Pairwise fun left right => compare (key left) (key right) = .lt

/-- Items with distinct keys are in strict order once they are sorted. -/
theorem strict_mergeSort (order : TotalOn compare inside) {items : List α}
    (occur : ∀ item ∈ items, inside (key item)) (distinct : (items.map key).Nodup)
    : Strict compare key
      (items.mergeSort fun left right => compare (key left) (key right) != .gt) := by
  -- the order is total on the items with their proofs
  have sorted : (items.mergeSort fun left right => compare (key left) (key right) != .gt).Pairwise
      fun left right => compare (key left) (key right) ≠ .gt := by
    have whole := List.attachWith_map_subtype_val occur
    have moved := @List.map_mergeSort _ _
      (fun left right : { item // inside (key item) } => compare (key left.1) (key right.1) != .gt)
      (fun left right => compare (key left) (key right) != .gt) Subtype.val
      (items.attachWith _ occur) fun _ _ _ _ => rfl
    rw [whole] at moved
    rw [← moved, List.pairwise_map]
    refine (List.pairwise_mergeSort ?_ ?_ _).imp fun h => bne_iff_ne.mp h
    · intro first second third one two
      exact bne_iff_ne.mpr (order.not_gt_trans first.2 second.2 third.2 (bne_iff_ne.mp one)
        (bne_iff_ne.mp two))
    · intro first second
      rw [order.swap first.2 second.2]
      cases compare (key first.1) (key second.1) <;> rfl
  have apart : (items.mergeSort fun left right => compare (key left) (key right) != .gt).Pairwise
      fun left right => key left ≠ key right := by
    rw [← List.pairwise_map]
    exact ((List.mergeSort_perm _ _).map key).nodup_iff.mpr distinct
  refine List.Pairwise.imp_of_mem ?_ (sorted.and apart)
  intro left right hl hr both
  have insideLeft := occur left (List.mem_mergeSort.mp hl)
  have insideRight := occur right (List.mem_mergeSort.mp hr)
  cases found : compare (key left) (key right) with
  | lt => rfl
  | eq => exact absurd ((order.eq_iff insideLeft insideRight).mp found) both.2
  | gt => exact absurd found both.1

/-- Two lists in strict order with the same items are the same. -/
theorem Strict.eq_of_mem_iff (order : TotalOn compare inside) {left right : List α}
    (hl : Strict compare key left) (hr : Strict compare key right)
    (occur : ∀ item ∈ right, inside (key item)) (same : ∀ item, item ∈ left ↔ item ∈ right)
    : left = right := by
  have nodup {items : List α} (within : ∀ item ∈ items, inside (key item))
      (h : Strict compare key items) : items.Nodup := by
    refine List.Pairwise.imp_of_mem ?_ h
    intro first second one _ before same
    rw [← same] at before
    exact order.irrefl (within first one) before
  refine ((List.perm_ext_iff_of_nodup (nodup (fun item member => occur item ((same item).mp member))
    hl) (nodup occur hr)).mpr same).eq_of_pairwise ?_ hl hr
  intro first second member other before after
  have one := occur first ((same first).mp member)
  have two := occur second other
  exact absurd (order.trans one two one before after) (order.irrefl one)

/-- A merge of two lists in strict order without a common key is in strict order, by induction over
the inserted items: what is kept before a place comes before its item, and the rest after it.
-/
theorem Strict.mergeFrom (order : TotalOn compare inside) {kept inserted : List α}
    (hk : Strict compare key kept) (hi : Strict compare key inserted)
    (keptOccur : ∀ item ∈ kept, inside (key item))
    (insertedOccur : ∀ item ∈ inserted, inside (key item))
    (apart : ∀ one ∈ kept, ∀ two ∈ inserted, key one ≠ key two) {start : Nat}
    (within : start ≤ kept.length)
    : Strict compare key (SortedMerge.mergeFrom
      (fun left right => compare (key left) (key right) == .lt) kept start inserted) := by
  induction inserted generalizing start with
  | nil => exact hk.sublist (List.drop_sublist _ _)
  | cons item rest ih =>
      obtain ⟨after, later⟩ := List.pairwise_cons.mp hi
      have here := insertedOccur item List.mem_cons_self
      have front : kept.Pairwise fun left right =>
          (compare (key right) (key item) == .lt) = true →
            (compare (key left) (key item) == .lt) = true := by
        refine List.Pairwise.imp_of_mem ?_ hk
        intro left right one two before found
        rw [beq_iff_eq] at found ⊢
        exact order.trans (keptOccur left one) (keptOccur right two) here before found
      have bounds := lowerBound_bounds (fun other => compare (key other) (key item) == .lt) kept
        within
      have spec {index : Nat} {other : α} (at_ : kept[index]? = some other) (from_ : start ≤ index) :=
        @lowerBound_spec _ (fun other => compare (key other) (key item) == .lt) kept front start
          kept.length (Nat.le_refl _) index other at_ from_
      rw [SortedMerge.mergeFrom]
      generalize lowerBound (fun other => compare (key other) (key item) == .lt) kept start
        kept.length = place at bounds spec ⊢
      have merged := ih later (fun other member => insertedOccur other (List.mem_cons_of_mem _ member))
        (fun one member two other => apart one member two (List.mem_cons_of_mem _ other)) bounds.2
      have early : ∀ one ∈ (kept.drop start).take (place - start),
          inside (key one) ∧ compare (key one) (key item) = .lt := by
        intro one member
        obtain ⟨index, at_⟩ := List.mem_iff_getElem?.mp member
        rw [List.getElem?_take, List.getElem?_drop] at at_
        split at at_
        · have found := (spec at_ (by omega)).1 (by omega)
          exact ⟨keptOccur one (List.mem_of_getElem? at_), beq_iff_eq.mp found⟩
        · cases at_
      have late : ∀ two ∈ SortedMerge.mergeFrom
          (fun left right => compare (key left) (key right) == .lt) kept place rest,
          inside (key two) ∧ compare (key item) (key two) = .lt := by
        intro two member
        rcases (mem_mergeFrom bounds.2).mp member with behind | other
        · obtain ⟨index, at_⟩ := List.mem_iff_getElem?.mp behind
          rw [List.getElem?_drop] at at_
          have held := List.mem_of_getElem? at_
          have short := (List.getElem?_eq_some_iff.mp at_).1
          have found := (spec at_ (by omega)).2 (by omega) short
          refine ⟨keptOccur two held, order.lt_of_not_lt (keptOccur two held) here
            (apart two held item List.mem_cons_self) fun less => ?_⟩
          rw [less] at found
          cases found
        · exact ⟨insertedOccur two (List.mem_cons_of_mem _ other), after two other⟩
      refine List.pairwise_append.mpr ⟨?_, List.pairwise_cons.mpr
        ⟨fun two member => (late two member).2, merged⟩, ?_⟩
      · exact hk.sublist ((List.take_sublist _ _).trans (List.drop_sublist _ _))
      · intro one member two other
        obtain ⟨insideOne, before⟩ := early one member
        rcases List.mem_cons.mp other with rfl | behind
        · exact before
        · obtain ⟨insideTwo, past⟩ := late two behind
          exact order.trans insideOne here insideTwo before past

end PiFabric.SortedMerge
