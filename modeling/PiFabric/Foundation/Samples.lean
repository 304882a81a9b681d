import Mathlib

/-! A bounded ring of timed positions. A position is kept with the earliest time it was seen at;
a full ring merges its two oldest samples, so that it never forgets how old its oldest position is.
-/

namespace PiFabric

/-- A position and a time it was seen at, or a later position and an earlier time. -/
structure Sample (τ π : Type*) where
  seenAt : τ
  position : π
deriving DecidableEq, Repr

namespace Samples

variable {τ π : Type*} [LinearOrder τ] [LinearOrder π]

/-- Positions rise strictly, and times with them. -/
def Rising (samples : List (Sample τ π)) : Prop :=
  samples.Pairwise fun older newer =>
    older.position < newer.position ∧ older.seenAt ≤ newer.seenAt

/-- Some sample stands for the position `p` seen at `a`: it is as high and as old. -/
def Dominated (samples : List (Sample τ π)) (a : τ) (p : π) : Prop :=
  ∃ sample ∈ samples, p ≤ sample.position ∧ sample.seenAt ≤ a

/-- A ring over its limit merges its two oldest samples, the older time with the newer position. -/
def mergeOldest (limit : Nat) (samples : List (Sample τ π)) : List (Sample τ π) :=
  if limit < samples.length then
    match samples with
    | oldest :: next :: rest => { next with seenAt := oldest.seenAt } :: rest
    | short => short.drop 1
  else samples

/-- A new sample, unless it goes backwards in position or in time. -/
def push (limit : Nat) (samples : List (Sample τ π)) (fresh : Sample τ π)
    : List (Sample τ π) :=
  match samples.getLast? with
  | some newest =>
      if fresh.position ≤ newest.position ∨ fresh.seenAt < newest.seenAt then samples
      else mergeOldest limit (samples ++ [fresh])
  | none => mergeOldest limit (samples ++ [fresh])

variable {samples : List (Sample τ π)} {limit : Nat}

/-- Merging keeps the order. -/
theorem mergeOldest_rising (rising : Rising samples) : Rising (mergeOldest limit samples) := by
  simp only [mergeOldest]
  split
  · match samples, rising with
    | [], _ => exact List.Pairwise.nil
    | [_], _ => exact List.Pairwise.nil
    | oldest :: next :: rest, rising =>
        obtain ⟨above, rising⟩ := List.pairwise_cons.mp rising
        obtain ⟨higher, rising⟩ := List.pairwise_cons.mp rising
        refine List.pairwise_cons.mpr ⟨?_, rising⟩
        intro newer member
        exact ⟨(higher newer member).1, (above newer (List.mem_cons_of_mem _ member)).2⟩
  · exact rising

variable {a : τ} {p : π}

/-- What a sample stands for is stood for after merging: the merged pair takes the later position
and the earlier time.
-/
theorem Dominated.mergeOldest (rising : Rising samples) (some_ : 0 < limit)
    (dominated : Dominated samples a p)
    : Dominated (mergeOldest limit samples) a p := by
  simp only [Samples.mergeOldest]
  split
  · next full =>
      match samples, rising, dominated, full with
      | [_], _, _, full =>
          simp only [List.length_cons, List.length_nil] at full
          omega
      | oldest :: next :: rest, rising, dominated, _ =>
          obtain ⟨sample, member, high, old⟩ := dominated
          have above := (List.pairwise_cons.mp rising).1 next List.mem_cons_self
          rcases List.mem_cons.mp member with rfl | member
          · exact ⟨_, List.mem_cons_self, high.trans above.1.le, old⟩
          · rcases List.mem_cons.mp member with rfl | member
            · exact ⟨_, List.mem_cons_self, high, above.2.trans old⟩
            · exact ⟨sample, List.mem_cons_of_mem _ member, high, old⟩
  · exact dominated

omit [LinearOrder τ] [LinearOrder π] in
/-- Merging invents no time: every time in the ring is one that was there. -/
theorem seenAt_of_mem_mergeOldest {sample : Sample τ π}
    (member : sample ∈ mergeOldest limit samples)
    : ∃ before ∈ samples, before.seenAt = sample.seenAt := by
  simp only [mergeOldest] at member
  split at member
  · match samples, member with
    | oldest :: next :: rest, member =>
        rcases List.mem_cons.mp member with rfl | member
        · exact ⟨oldest, List.mem_cons_self, rfl⟩
        · exact ⟨sample, List.mem_cons_of_mem _ (List.mem_cons_of_mem _ member), rfl⟩
  · exact ⟨sample, member, rfl⟩

variable {fresh : Sample τ π}

/-- A sample beyond the newest one extends the order. -/
theorem append_rising {newest : Sample τ π} (rising : Rising samples)
    (last : samples.getLast? = some newest)
    (forward : ¬(fresh.position ≤ newest.position ∨ fresh.seenAt < newest.seenAt))
    : Rising (samples ++ [fresh]) := by
  obtain ⟨earlier, rfl⟩ := List.getLast?_eq_some_iff.mp last
  simp only [not_or, not_le, not_lt] at forward
  refine List.pairwise_append.mpr ⟨rising, List.pairwise_singleton _ _, ?_⟩
  intro older member newer single
  obtain rfl := List.mem_singleton.mp single
  rcases List.mem_append.mp member with member | member
  · have below := (List.pairwise_append.mp rising).2.2 older member newest
      (List.mem_singleton_self _)
    exact ⟨below.1.trans forward.1, below.2.trans forward.2⟩
  · obtain rfl := List.mem_singleton.mp member
    exact forward

/-- A push keeps the order. -/
theorem push_rising (rising : Rising samples)
    : Rising (push limit samples fresh) := by
  simp only [push]
  split
  · next newest last =>
      split
      · exact rising
      · next forward => exact mergeOldest_rising (append_rising rising last forward)
  · next none_ =>
      obtain rfl := List.getLast?_eq_none_iff.mp none_
      exact mergeOldest_rising (List.pairwise_singleton _ _)

/-- A push stands for all that the ring stood for. -/
theorem Dominated.push (rising : Rising samples) (some_ : 0 < limit)
    (dominated : Dominated samples a p)
    : Dominated (push limit samples fresh) a p := by
  obtain ⟨sample, member, stands⟩ := dominated
  have more : Dominated (samples ++ [fresh]) a p :=
    ⟨sample, List.mem_append_left _ member, stands⟩
  simp only [Samples.push]
  split
  · next newest last =>
      split
      · exact ⟨sample, member, stands⟩
      · next forward => exact more.mergeOldest (append_rising rising last forward) some_
  · next none_ =>
      obtain rfl := List.getLast?_eq_none_iff.mp none_
      exact absurd member List.not_mem_nil

/-- A push stands for the pushed position, where no sample is from a later time: a position that
goes backwards is below the newest one, which was seen before.
-/
theorem push_dominates (rising : Rising samples) (some_ : 0 < limit)
    (past : ∀ sample ∈ samples, sample.seenAt ≤ fresh.seenAt)
    : Dominated (push limit samples fresh) fresh.seenAt fresh.position := by
  have last_ : Dominated (samples ++ [fresh]) fresh.seenAt fresh.position :=
    ⟨fresh, List.mem_append_right _ (List.mem_singleton_self _), le_rfl, le_rfl⟩
  simp only [push]
  split
  · next newest last =>
      have member := List.mem_of_getLast? last
      split
      · next backwards =>
          rcases backwards with low | early
          · exact ⟨newest, member, low, past newest member⟩
          · exact absurd (past newest member) early.not_ge
      · next forward => exact last_.mergeOldest (append_rising rising last forward) some_
  · next none_ =>
      obtain rfl := List.getLast?_eq_none_iff.mp none_
      exact last_.mergeOldest (List.pairwise_singleton _ _) some_

/-- A push leaves no sample from a later time than its own. -/
theorem push_past (past : ∀ sample ∈ samples, sample.seenAt ≤ fresh.seenAt)
    : ∀ sample ∈ push limit samples fresh, sample.seenAt ≤ fresh.seenAt := by
  have grown : ∀ sample ∈ mergeOldest limit (samples ++ [fresh]),
      sample.seenAt ≤ fresh.seenAt := by
    intro sample member
    obtain ⟨before, member, same⟩ := seenAt_of_mem_mergeOldest member
    rw [← same]
    rcases List.mem_append.mp member with member | member
    · exact past before member
    · rw [List.mem_singleton.mp member]
  simp only [push]
  split
  · split
    · exact past
    · exact grown
  · exact grown

/-- A ring cut to the samples above a position still stands for every position above it. -/
theorem Dominated.above {cut : π} (higher : cut < p) (dominated : Dominated samples a p)
    : Dominated (samples.filter fun sample => cut < sample.position) a p := by
  obtain ⟨sample, member, high, old⟩ := dominated
  exact ⟨sample, List.mem_filter.mpr ⟨member, by simpa using higher.trans_le high⟩, high, old⟩

/-- The first sample is the oldest. -/
theorem Dominated.head (rising : Rising samples) (dominated : Dominated samples a p)
    : ∃ oldest, samples.head? = some oldest ∧ oldest.seenAt ≤ a := by
  obtain ⟨sample, member, _, old⟩ := dominated
  match samples, rising, member with
  | oldest :: rest, rising, member =>
      rcases List.mem_cons.mp member with rfl | member
      · exact ⟨sample, rfl, old⟩
      · exact ⟨oldest, rfl, ((List.pairwise_cons.mp rising).1 sample member).2.trans old⟩

end Samples

end PiFabric
