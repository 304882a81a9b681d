import Mathlib

/-! Patterns over paths of segments: a stem, followed by nothing, by one segment, or by one or
more.
-/

namespace PiFabric

inductive Tail where
  | none
  | one
  | any
  deriving DecidableEq

namespace Tail

def admits : Tail → Nat → Bool
  | none, more => more = 0
  | one, more => more = 1
  | any, more => 1 ≤ more

/-- Whether what `inner` admits after `extra` more segments is admitted by `outer`. -/
def covers (outer inner : Tail) (extra : Nat) : Bool :=
  match outer with
  | none => inner = none && extra = 0
  | one => if inner = none then extra = 1 else inner = one && extra = 0
  | any => if inner = none then decide (1 ≤ extra) else true

theorem covers_self (tail : Tail) : covers tail tail 0 = true := by
  cases tail <;> rfl

/-- Tails chain, by their kinds. -/
theorem covers_add {outer middle inner : Tail} {first second : Nat}
    (h₁ : covers outer middle first = true) (h₂ : covers middle inner second = true)
    : covers outer inner (first + second) = true := by
  cases outer <;> cases middle <;> cases inner <;> simp [covers] at h₁ h₂ ⊢ <;> omega

theorem admits_add {outer inner : Tail} {extra more : Nat}
    (covered : covers outer inner extra = true) (h : admits inner more = true)
    : admits outer (extra + more) = true := by
  cases outer <;> cases inner <;> simp [covers, admits] at covered h ⊢ <;> omega

theorem covers_none (outer : Tail) (extra : Nat)
    : covers outer none extra = admits outer extra := by
  cases outer <;> simp [covers, admits]

/-- One more segment shows a wildcard not to be covered, but for `any` under `one`. -/
theorem not_admits_succ {outer inner : Tail} {extra : Nat} (wild : inner ≠ none)
    (uncovered : covers outer inner extra = false)
    (apart : ¬(outer = one ∧ inner = any ∧ extra = 0))
    : admits outer (extra + 1) = false := by
  cases outer <;> cases inner <;> simp_all [covers, admits]

end Tail

structure PathPattern (α : Type*) where
  stem : List α
  tail : Tail
  deriving DecidableEq

namespace PathPattern

variable {α : Type*}

/-- The paths a pattern stands for. -/
def Matches (pattern : PathPattern α) (path : List α) : Prop :=
  ∃ more, path = pattern.stem ++ more ∧ pattern.tail.admits more.length = true

/-- Two patterns that differ only in how many segments their wildcards admit. -/
structure OneWithinAny (outer inner : PathPattern α) : Prop where
  stem : outer.stem = inner.stem
  one : outer.tail = .one
  any : inner.tail = .any

theorem matches_append (pattern : PathPattern α) (more : List α)
    : pattern.Matches (pattern.stem ++ more) ↔ pattern.tail.admits more.length = true := by
  constructor
  · intro h
    obtain ⟨other, same, admitted⟩ := h
    rwa [List.append_cancel_left same]
  · intro h
    exact ⟨more, rfl, h⟩

/-- The path of a pattern without a tail is its stem. -/
theorem matches_stem {pattern : PathPattern α} (exact : pattern.tail = .none)
    : pattern.Matches pattern.stem := by
  have h := (matches_append pattern []).mpr (by rw [exact]; rfl)
  rwa [List.append_nil] at h

/-- A segment after the stem satisfies either wildcard. -/
theorem matches_segment (pattern : PathPattern α) (wild : pattern.tail ≠ .none)
    (segment : α)
    : pattern.Matches (pattern.stem ++ [segment]) := by
  apply (matches_append pattern [segment]).mpr
  cases same : pattern.tail with
  | none => exact absurd same wild
  | one => rfl
  | any => rfl

/-- A path that a pattern matches without its stem being a prefix of `stem`. -/
theorem Matches.stem_eq {pattern : PathPattern α} {stem : List α} {segment : α}
    (h : pattern.Matches (stem ++ [segment])) (outside : ¬pattern.stem <+: stem)
    : pattern.stem = stem ++ [segment] := by
  obtain ⟨more, same, -⟩ := h
  rcases List.eq_nil_or_concat more with empty | ⟨front, last, rfl⟩
  · rw [same, empty, List.append_nil]
  · rw [List.concat_eq_append, ← List.append_assoc] at same
    exact absurd ⟨front, (List.append_inj_left' same rfl).symm⟩ outside

variable [DecidableEq α]

/-- Coverage: `inner` extends the stem of `outer` by segments its tail admits. -/
def covers (outer inner : PathPattern α) : Bool :=
  outer.stem.isPrefixOf inner.stem
    && outer.tail.covers inner.tail (inner.stem.length - outer.stem.length)

variable {outer inner : PathPattern α}

theorem covers_of_prefix (h : outer.stem <+: inner.stem)
    : covers outer inner
      = outer.tail.covers inner.tail (inner.stem.length - outer.stem.length) := by
  rw [covers, List.isPrefixOf_iff_prefix.mpr h, Bool.true_and]

theorem covers_of_not_prefix (h : ¬outer.stem <+: inner.stem)
    : covers outer inner = false := by
  rw [Bool.eq_false_iff, covers]
  intro both
  exact h (List.isPrefixOf_iff_prefix.mp (Bool.and_eq_true_iff.mp both).1)

/-- Coverage in terms of the segments that extend the outer stem. -/
theorem covers_iff_extends
    : covers outer inner = true
      ↔ ∃ extra, inner.stem = outer.stem ++ extra
        ∧ outer.tail.covers inner.tail extra.length = true := by
  simp only [covers, Bool.and_eq_true, List.isPrefixOf_iff_prefix]
  constructor
  · intro h
    obtain ⟨⟨extra, same⟩, tail⟩ := h
    refine ⟨extra, same.symm, ?_⟩
    simpa [← same] using tail
  · intro h
    obtain ⟨extra, same, tail⟩ := h
    exact ⟨⟨extra, same.symm⟩, by simpa [same] using tail⟩

theorem covers_refl (pattern : PathPattern α) : covers pattern pattern = true :=
  covers_iff_extends.mpr ⟨[], by simp, pattern.tail.covers_self⟩

/-- Coverage chains: the extensions of the two stems follow one another. -/
theorem covers_trans {middle : PathPattern α} (h₁ : covers outer middle = true)
    (h₂ : covers middle inner = true)
    : covers outer inner = true := by
  obtain ⟨first, same₁, tail₁⟩ := covers_iff_extends.mp h₁
  obtain ⟨second, same₂, tail₂⟩ := covers_iff_extends.mp h₂
  refine covers_iff_extends.mpr ⟨first ++ second, by simp [same₁, same₂], ?_⟩
  rw [List.length_append]
  exact Tail.covers_add tail₁ tail₂

/-- A covered pattern matches no path that the covering one does not. -/
theorem Matches.of_covers {path : List α} (covered : covers outer inner = true)
    (h : inner.Matches path)
    : outer.Matches path := by
  obtain ⟨extra, same, tail⟩ := covers_iff_extends.mp covered
  obtain ⟨more, split, admitted⟩ := h
  refine ⟨extra ++ more, by simp [split, same], ?_⟩
  rw [List.length_append]
  exact Tail.admits_add tail admitted

/-- A path is matched exactly where the pattern of that path alone is covered. -/
theorem matches_iff_covers (outer inner : PathPattern α) (exact : inner.tail = .none)
    : outer.Matches inner.stem ↔ covers outer inner = true := by
  constructor
  · intro h
    obtain ⟨more, same, admitted⟩ := h
    refine covers_iff_extends.mpr ⟨more, same, ?_⟩
    rw [exact, Tail.covers_none]
    exact admitted
  · intro h
    exact Matches.of_covers h (matches_stem exact)

/-- A wildcard that is not covered matches its stem and one segment where the other pattern
does not; of any two segments one will do. By whether the stems extend one another.
-/
theorem exists_uncovered {a b : α} (differ : a ≠ b) (wild : inner.tail ≠ .none)
    (uncovered : covers outer inner = false) (apart : ¬OneWithinAny outer inner)
    : ∃ segment, (segment = a ∨ segment = b) ∧ ¬outer.Matches (inner.stem ++ [segment]) := by
  by_cases extends_ : outer.stem <+: inner.stem
  · obtain ⟨extra, same⟩ := extends_
    have tail : outer.tail.covers inner.tail extra.length = false := by
      rw [Bool.eq_false_iff]
      intro covered
      rw [covers_iff_extends.mpr ⟨extra, same.symm, covered⟩] at uncovered
      exact Bool.noConfusion uncovered
    have excluded := Tail.not_admits_succ wild tail (fun h => apart
      { stem := by simpa [List.length_eq_zero_iff.mp h.2.2] using same
        one := h.1
        any := h.2.1 })
    refine ⟨a, .inl rfl, ?_⟩
    intro matched
    rw [← same, List.append_assoc, matches_append, List.length_append, List.length_singleton,
      excluded] at matched
    exact Bool.noConfusion matched
  · -- a path that leaves the stem can agree with it for one segment only
    by_cases first : outer.Matches (inner.stem ++ [a])
    · refine ⟨b, .inr rfl, ?_⟩
      intro second
      have same := (first.stem_eq extends_).symm.trans (second.stem_eq extends_)
      exact differ (List.cons.inj (List.append_cancel_left same)).1
    · exact ⟨a, .inl rfl, first⟩

end PathPattern

end PiFabric
