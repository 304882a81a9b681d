import Mathlib

/-! Files of newline-terminated records. An append that a crash cuts short leaves either no
newline of its own or the whole record, so the complete lines are those that were appended.
-/

namespace PiFabric.LineLog

abbrev Bytes := List UInt8

def newline : UInt8 := 0x0A

/-- The complete lines of a file, and what follows its last newline. -/
def split : Bytes → List Bytes × Bytes
  | [] => ([], [])
  | byte :: rest =>
      if byte = newline then ([] :: (split rest).1, (split rest).2)
      else
        match (split rest).1 with
        | [] => ([], byte :: (split rest).2)
        | line :: more => ((byte :: line) :: more, (split rest).2)

def join (lines : List Bytes) : Bytes :=
  lines.flatMap (· ++ [newline])

@[simp] theorem join_nil : join [] = [] := rfl

@[simp] theorem join_cons (line : Bytes) (lines : List Bytes)
    : join (line :: lines) = line ++ newline :: join lines := by
  simp [join]

theorem join_append (first second : List Bytes)
    : join (first ++ second) = join first ++ join second := by
  simp [join]

/-- Bytes without a newline are a tail, by induction over them. -/
theorem split_of_not_mem {tail : Bytes} (h : newline ∉ tail) : split tail = ([], tail) := by
  induction tail with
  | nil => rfl
  | cons byte rest ih =>
      simp only [List.mem_cons, not_or] at h
      have other : ¬byte = newline := fun same => h.1 same.symm
      simp only [split, ih h.2, if_neg other]

/-- A line is split off at its newline, by induction over its bytes. -/
theorem split_line {line : Bytes} (h : newline ∉ line) (rest : Bytes)
    : split (line ++ newline :: rest) = (line :: (split rest).1, (split rest).2) := by
  induction line with
  | nil => simp [split]
  | cons byte more ih =>
      simp only [List.mem_cons, not_or] at h
      have other : ¬byte = newline := fun same => h.1 same.symm
      simp only [List.cons_append, split, ih h.2, if_neg other]

/-- The lines that were joined come back, by induction over them. -/
theorem split_join {lines : List Bytes} (h : ∀ line ∈ lines, newline ∉ line) (rest : Bytes)
    : split (join lines ++ rest) = (lines ++ (split rest).1, (split rest).2) := by
  induction lines with
  | nil => simp
  | cons line more ih =>
      have others := ih fun other member => h other (List.mem_cons_of_mem _ member)
      rw [join_cons, List.append_assoc, List.cons_append,
        split_line (h line (List.mem_cons_self ..)), others]
      rfl

/-- Splitting loses nothing, by induction over the bytes. -/
theorem join_split (bytes : Bytes) : join (split bytes).1 ++ (split bytes).2 = bytes := by
  induction bytes with
  | nil => rfl
  | cons byte rest ih =>
      by_cases line : byte = newline
      · simp [split, line, ih]
      · cases lines : (split rest).1 with
        | nil =>
            rw [lines] at ih
            simpa [split, line, lines] using ih
        | cons first more =>
            rw [lines] at ih
            simpa [split, line, lines] using ih

/-- No line holds a newline and neither does the tail, by induction over the bytes. -/
theorem newline_not_mem_split (bytes : Bytes)
    : (∀ line ∈ (split bytes).1, newline ∉ line) ∧ newline ∉ (split bytes).2 := by
  induction bytes with
  | nil => simp [split]
  | cons byte rest ih =>
      by_cases line : byte = newline
      · simpa [split, line] using ih
      · have other : ¬newline = byte := fun same => line same.symm
        cases lines : (split rest).1 with
        | nil => simpa [split, line, lines, other] using ih.2
        | cons first more =>
            rw [lines] at ih
            simp only [List.mem_cons, forall_eq_or_imp] at ih
            simp only [split, if_neg line, lines, List.mem_cons, forall_eq_or_imp, other,
              false_or]
            exact ⟨⟨by simpa [other] using ih.1.1, ih.1.2⟩, ih.2⟩

theorem length_split (bytes : Bytes)
    : (join (split bytes).1).length + (split bytes).2.length = bytes.length := by
  conv_rhs => rw [← join_split bytes, List.length_append]

/-- Bytes that are added go on with the tail, by induction over the bytes before them. -/
theorem split_append (first second : Bytes)
    : split (first ++ second)
      = match (split second).1 with
        | [] => ((split first).1, (split first).2 ++ (split second).2)
        | line :: more =>
            ((split first).1 ++ ((split first).2 ++ line) :: more, (split second).2) := by
  have plain := (newline_not_mem_split first).2
  conv_lhs => rw [← join_split first, List.append_assoc]
  rw [split_join (newline_not_mem_split first).1]
  cases lines : (split second).1 with
  | nil =>
      have rest : second = (split second).2 := by
        conv_lhs => rw [← join_split second, lines]
        rfl
      have clean : newline ∉ (split first).2 ++ second := by
        rw [rest, List.mem_append]
        exact not_or.mpr ⟨plain, (newline_not_mem_split second).2⟩
      rw [split_of_not_mem clean, List.append_nil]
      change ((split first).1, (split first).2 ++ second) = ((split first).1, _)
      rw [← rest]
  | cons line more =>
      have rest : second = line ++ newline :: (join more ++ (split second).2) := by
        conv_lhs => rw [← join_split second, lines]
        simp
      have clean : newline ∉ (split first).2 ++ line := by
        rw [List.mem_append]
        refine not_or.mpr ⟨plain, (newline_not_mem_split second).1 line ?_⟩
        rw [lines]
        exact List.mem_cons_self
      have others : ∀ other ∈ more, newline ∉ other := fun other member =>
        (newline_not_mem_split second).1 other (lines ▸ List.mem_cons_of_mem _ member)
      have tail := split_of_not_mem (newline_not_mem_split second).2
      conv_lhs => rw [rest, ← List.append_assoc]
      rw [split_line clean, split_join others, tail]
      simp

/-- The complete lines of a file stay when bytes are added to it. -/
theorem split_append_front (first second : Bytes)
    : (split first).1 <+: (split (first ++ second)).1 := by
  rw [split_append]
  split
  · exact List.prefix_refl _
  · exact List.prefix_append _ _

/-- What follows the first newline; nothing where there is none. -/
def afterNewline (bytes : Bytes) : Bytes :=
  (bytes.dropWhile fun byte => byte ≠ newline).drop 1

theorem afterNewline_line {line : Bytes} (h : newline ∉ line) (rest : Bytes)
    : afterNewline (line ++ newline :: rest) = rest := by
  have plain : ∀ byte ∈ line, (decide (byte ≠ newline)) = true := fun byte member =>
    decide_eq_true fun same => h (same ▸ member)
  rw [afterNewline, List.dropWhile_append_of_pos plain, List.dropWhile_cons_of_neg (by simp),
    List.drop_one, List.tail_cons]

theorem length_join_cons (line : Bytes) (lines : List Bytes)
    : (join (line :: lines)).length = line.length + 1 + (join lines).length := by
  simp only [join_cons, List.length_append, List.length_cons]
  omega

/-- Cut at the first newline from byte `position` on, a file of complete lines loses the lines that
start at or before that byte, by induction over the lines.
-/
theorem afterNewline_drop_join {lines : List Bytes} (clean : ∀ line ∈ lines, newline ∉ line)
    {position : Nat} (inside : position < (join lines).length)
    : ∃ dropped, dropped < lines.length
      ∧ afterNewline ((join lines).drop position) = join (lines.drop (dropped + 1))
      ∧ (join (lines.take dropped)).length ≤ position
      ∧ position < (join (lines.take (dropped + 1))).length := by
  induction lines generalizing position with
  | nil => simp at inside
  | cons line rest ih =>
      have here := clean line List.mem_cons_self
      rw [length_join_cons] at inside
      by_cases first : position ≤ line.length
      · refine ⟨0, by simp, ?_, by simp, ?_⟩
        · have plain : newline ∉ line.drop position := fun member => here (List.mem_of_mem_drop member)
          rw [join_cons, List.drop_append_of_le_length first, afterNewline_line plain]
          rfl
        · rw [List.take_succ_cons, length_join_cons]
          omega
      · obtain ⟨dropped, bound, cut, low, high⟩ := ih (fun other member =>
          clean other (List.mem_cons_of_mem _ member)) (show position - (line.length + 1) < _ by omega)
        refine ⟨dropped + 1, by simpa using bound, ?_, ?_, ?_⟩
        · have past : (join (line :: rest)).drop position
              = (join rest).drop (position - (line.length + 1)) := by
            rw [join_cons, List.append_cons, List.drop_append, List.drop_of_length_le,
              List.nil_append, List.length_append, List.length_singleton]
            simp only [List.length_append, List.length_singleton]
            omega
          rw [past, cut]
          rfl
        · rw [List.take_succ_cons, length_join_cons]
          omega
        · rw [List.take_succ_cons, length_join_cons]
          omega

end PiFabric.LineLog
