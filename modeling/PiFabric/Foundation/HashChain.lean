import Mathlib

/-! Hash chains over rows of any kind. Each row carries its number and the hash of the row
before it, so the hash of the last row commits to all of them.
-/

namespace PiFabric.HashChain

universe u v

variable {α : Type u} {η : Type v} (seqOf : α → Nat) (prevOf : α → Option η) (hash : α → η)

/-- The rows continue a chain whose last row has the number `seq` and the hash `link`. -/
def Linked : Nat → Option η → List α → Prop
  | _, _, [] => True
  | seq, link, row :: rest =>
      seqOf row = seq + 1 ∧ prevOf row = link ∧ Linked (seq + 1) (some (hash row)) rest

def lastLink (link : Option η) (rows : List α) : Option η :=
  rows.foldl (fun _ row => some (hash row)) link

@[simp] theorem lastLink_nil (link : Option η) : lastLink hash link ([] : List α) = link := rfl

@[simp] theorem lastLink_snoc (link : Option η) (rows : List α) (row : α)
    : lastLink hash link (rows ++ [row]) = some (hash row) := by
  simp [lastLink]

variable {seqOf prevOf hash}

variable {seq : Nat} {link : Option η}

/-- A chain splits anywhere, by induction over its first part. -/
theorem linked_append {first second : List α}
    : Linked seqOf prevOf hash seq link (first ++ second)
      ↔ Linked seqOf prevOf hash seq link first
        ∧ Linked seqOf prevOf hash (seq + first.length) (lastLink hash link first) second := by
  induction first generalizing seq link with
  | nil => simp [Linked]
  | cons row rest ih =>
      have length : seq + 1 + rest.length = seq + (row :: rest).length := by
        simp only [List.length_cons]
        omega
      simp only [List.cons_append, Linked, ih, length, lastLink, List.foldl_cons, and_assoc]

variable {rows : List α}

/-- The numbers of a chain are consecutive, by induction over it. -/
theorem Linked.seqs (h : Linked seqOf prevOf hash seq link rows)
    : rows.map seqOf = List.range' (seq + 1) rows.length := by
  induction rows generalizing seq link with
  | nil => rfl
  | cons row rest ih =>
      obtain ⟨number, -, others⟩ := h
      rw [List.map_cons, ih others, number, List.length_cons, List.range'_succ]

theorem Linked.bounds (h : Linked seqOf prevOf hash seq link rows) {row : α} (member : row ∈ rows)
    : seq < seqOf row ∧ seqOf row ≤ seq + rows.length := by
  have inside : seqOf row ∈ rows.map seqOf := List.mem_map_of_mem member
  rw [h.seqs, List.mem_range'_1] at inside
  omega

/-- The rows of a chain up to a number are its first ones, by induction over the chain. -/
theorem Linked.filter_le (h : Linked seqOf prevOf hash seq link rows) (bound : Nat)
    : rows.filter (fun row => seqOf row ≤ bound) = rows.take (bound - seq) := by
  induction rows generalizing seq link with
  | nil => simp
  | cons row rest ih =>
      obtain ⟨number, -, others⟩ := h
      by_cases within : seqOf row ≤ bound
      · have succ : bound - seq = bound - (seq + 1) + 1 := by omega
        rw [List.filter_cons_of_pos (by simpa using within), ih others, succ,
          List.take_succ_cons]
      · have none : bound - seq = 0 := by omega
        have later : rest.filter (fun row => seqOf row ≤ bound) = [] := by
          rw [ih others, show bound - (seq + 1) = 0 by omega, List.take_zero]
        rw [List.filter_cons_of_neg (by simpa using within), later, none, List.take_zero]

/-- Two chains of one length with the same last hash are the same where no two of their rows
collide, by induction from their ends.
-/
theorem eq_of_lastLink {seq' : Nat} {link' : Option η} {left right : List α}
    (hl : Linked seqOf prevOf hash seq link left) (hr : Linked seqOf prevOf hash seq' link' right)
    (lengths : left.length = right.length)
    (collisionFree : ∀ a ∈ left, ∀ b ∈ right, hash a = hash b → a = b)
    (last : lastLink hash link left = lastLink hash link' right)
    : left = right := by
  induction left using List.reverseRecOn generalizing right with
  | nil => exact (List.eq_nil_of_length_eq_zero lengths.symm).symm
  | append_singleton rest row ih =>
      rcases List.eq_nil_or_concat' right with rfl | ⟨others, other, rfl⟩
      · simp at lengths
      · rw [lastLink_snoc, lastLink_snoc] at last
        obtain rfl := collisionFree row (by simp) other (by simp) (Option.some.inj last)
        obtain ⟨restLinked, -, prev, -⟩ := linked_append.mp hl
        obtain ⟨othersLinked, -, prev', -⟩ := linked_append.mp hr
        have same := ih restLinked othersLinked (by simpa using lengths)
          (fun a member b member' => collisionFree a (List.mem_append_left _ member) b
            (List.mem_append_left _ member'))
          (prev.symm.trans prev')
        rw [same]

end PiFabric.HashChain
