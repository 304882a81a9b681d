import Mathlib

/-! Computations that may throw, as `Except`: taking a run apart, and running a test that
does not throw over a list.
-/

namespace PiFabric.Outcome

universe u v

variable {ε : Type v} {α β : Type u}

variable {result : β}

/-- A sequence returns exactly where both of its parts do. -/
theorem bind_eq_ok {first : Except ε α} {next : α → Except ε β}
    : first >>= next = .ok result ↔ ∃ value, first = .ok value ∧ next value = .ok result := by
  cases first with
  | error reason => simp [bind, Except.bind]
  | ok value => simp [bind, Except.bind]

/-- A check and what follows it return exactly where the check passes and the rest returns. -/
theorem check_then_eq_ok {check : Except ε PUnit} {next : Except ε β}
    : (check >>= fun _ => next) = .ok result ↔ check = .ok ⟨⟩ ∧ next = .ok result := by
  rw [bind_eq_ok]
  exact ⟨fun ⟨_, passed, returned⟩ => ⟨passed, returned⟩, fun h => ⟨⟨⟩, h⟩⟩

theorem map_eq_ok {first : Except ε α} {next : α → β}
    : first.map next = .ok result ↔ ∃ value, first = .ok value ∧ next value = result := by
  cases first with
  | error reason => simp [Except.map]
  | ok value => simp [Except.map]

variable {γ : Type}

variable {items : List γ}

/-- `some` over a test that does not throw, by induction over the list. -/
theorem anyM_eq_ok {test : γ → Except ε Bool} {pure_ : γ → Bool}
    (total : ∀ item ∈ items, test item = .ok (pure_ item))
    : items.anyM test = .ok (items.any pure_) := by
  induction items with
  | nil => rfl
  | cons item rest ih =>
      have first := total item (List.mem_cons_self ..)
      have others := ih fun other member => total other (List.mem_cons_of_mem _ member)
      cases result : pure_ item <;>
        simp [List.anyM, first, result, others, bind, Except.bind, pure, Except.pure]

/-- `every` over a test that does not throw, by induction over the list. -/
theorem allM_eq_ok {test : γ → Except ε Bool} {pure_ : γ → Bool}
    (total : ∀ item ∈ items, test item = .ok (pure_ item))
    : items.allM test = .ok (items.all pure_) := by
  induction items with
  | nil => rfl
  | cons item rest ih =>
      have first := total item (List.mem_cons_self ..)
      have others := ih fun other member => total other (List.mem_cons_of_mem _ member)
      cases result : pure_ item <;>
        simp [List.allM, first, result, others, bind, Except.bind, pure, Except.pure]

/-- A loop that checks every item returns exactly where every check does, by induction over
the list.
-/
theorem forM_eq_ok {check : γ → Except ε PUnit}
    : items.forM check = .ok ⟨⟩ ↔ ∀ item ∈ items, check item = .ok ⟨⟩ := by
  induction items with
  | nil => simp [pure, Except.pure]
  | cons item rest ih =>
      rw [List.forM, bind_eq_ok]
      constructor
      · intro h
        obtain ⟨⟨⟩, first, others⟩ := h
        intro other member
        rcases List.mem_cons.mp member with rfl | inside
        · exact first
        · exact ih.mp others other inside
      · intro h
        exact ⟨⟨⟩, h item (List.mem_cons_self ..),
          ih.mpr fun other member => h other (List.mem_cons_of_mem _ member)⟩

variable {call : γ → Except ε α}

/-- A traversal returns exactly where every call does, by induction over the list. -/
theorem mapM_eq_ok {results : List α}
    : items.mapM call = .ok results
      ↔ List.Forall₂ (fun item result => call item = .ok result) items results := by
  induction items generalizing results with
  | nil => simp [pure, Except.pure, eq_comm]
  | cons item rest ih =>
      rw [List.mapM_cons, bind_eq_ok]
      constructor
      · intro h
        obtain ⟨first, called, h⟩ := h
        obtain ⟨others, all, h⟩ := bind_eq_ok.mp h
        rw [← Except.ok.inj h]
        exact .cons called (ih.mp all)
      · intro h
        cases h with
        | @cons _ first _ others called all =>
            exact ⟨first, called, bind_eq_ok.mpr ⟨others, ih.mpr all, rfl⟩⟩

/-- Each item of a traversal that returned was called. -/
theorem exists_of_mapM_eq_ok {results : List α} (h : items.mapM call = .ok results) {item : γ}
    (member : item ∈ items)
    : ∃ result ∈ results, call item = .ok result := by
  induction mapM_eq_ok.mp h with
  | nil => exact absurd member List.not_mem_nil
  | @cons first result rest others called all ih =>
      rcases List.mem_cons.mp member with rfl | inside
      · exact ⟨result, List.mem_cons_self .., called⟩
      · obtain ⟨other, listed, called⟩ := ih (mapM_eq_ok.mpr all) inside
        exact ⟨other, List.mem_cons_of_mem _ listed, called⟩

/-- A traversal depends on the calls for its items only, by induction over the list. -/
theorem mapM_congr_mem {call' : γ → Except ε α} (same : ∀ item ∈ items, call item = call' item)
    : items.mapM call = items.mapM call' := by
  induction items with
  | nil => rfl
  | cons item rest ih =>
      rw [List.mapM_cons, List.mapM_cons, same item (List.mem_cons_self ..),
        ih fun other member => same other (List.mem_cons_of_mem _ member)]

section
variable {σ τ σ' τ' : Type u}

theorem ok_bind (value : α) (next : α → Except ε β) : (Except.ok value >>= next) = next value :=
  rfl

/-- Both throw the same, or both return the same value with related states. -/
def Alike (related : σ → τ → Prop) : Except ε (α × σ) → Except ε (α × τ) → Prop
  | .ok left, .ok right => left.1 = right.1 ∧ related left.2 right.2
  | .error left, .error right => left = right
  | _, _ => False

variable {related : σ → τ → Prop} {related' : σ' → τ' → Prop}

variable {left : Except ε (α × σ)} {right : Except ε (α × τ)}

theorem Alike.bind {next : α × σ → Except ε (β × σ')} {next' : α × τ → Except ε (β × τ')}
    (h : Alike related left right) (after : ∀ value state state', related state state' →
      Alike related' (next (value, state)) (next' (value, state')))
    : Alike related' (left >>= next) (right >>= next') := by
  cases left with
  | error reason =>
      cases right with
      | error other => exact h
      | ok value => cases h
  | ok value =>
      cases right with
      | error other => cases h
      | ok other =>
          obtain ⟨result, state⟩ := value
          obtain ⟨result', state'⟩ := other
          obtain ⟨rfl, together⟩ := h
          exact after result state state' together

/-- Continuations of one computation do alike where they do so on what it returns. -/
theorem Alike.bind_ok {first : Except ε α} {next : α → Except ε (β × σ)}
    {next' : α → Except ε (β × τ)}
    (after : ∀ value, first = .ok value → Alike related (next value) (next' value))
    : Alike related (first >>= next) (first >>= next') := by
  cases first with
  | error reason => rfl
  | ok value => exact after value rfl

/-- What is alike, with the result on the left. -/
theorem Alike.with_left (h : Alike related left right)
    : Alike (fun state state' => related state state' ∧ ∃ value, left = .ok (value, state)) left
        right := by
  cases left with
  | error reason =>
      cases right with
      | error other => exact h
      | ok value => cases h
  | ok value =>
      cases right with
      | error other => cases h
      | ok other => exact ⟨h.1, h.2, value.1, rfl⟩

theorem Alike.ok_left (h : Alike related left right) {value : α} {state : σ}
    (returned : left = .ok (value, state))
    : ∃ state', right = .ok (value, state') ∧ related state state' := by
  rw [returned] at h
  cases right with
  | error reason => cases h
  | ok other =>
      obtain ⟨value', state'⟩ := other
      obtain ⟨rfl, together⟩ := h
      exact ⟨state', rfl, together⟩

theorem Alike.ok_right (h : Alike related left right) {value : α} {state' : τ}
    (returned : right = .ok (value, state'))
    : ∃ state, left = .ok (value, state) ∧ related state state' := by
  rw [returned] at h
  cases left with
  | error reason => cases h
  | ok other =>
      obtain ⟨value', state⟩ := other
      obtain ⟨rfl, together⟩ := h
      exact ⟨state, rfl, together⟩

/-- What is alike is so in every respect that follows. -/
theorem Alike.imp {weaker : σ → τ → Prop} (h : Alike related left right)
    (implies : ∀ state state', related state state' → weaker state state')
    : Alike weaker left right := by
  cases left with
  | error reason =>
      cases right with
      | error other => exact h
      | ok value => cases h
  | ok value =>
      cases right with
      | error other => cases h
      | ok other => exact ⟨h.1, implies _ _ h.2⟩

theorem Alike.bind_same {first : Except ε α} {next : α → Except ε (β × σ)}
    {next' : α → Except ε (β × τ)}
    (after : ∀ value, Alike related (next value) (next' value))
    : Alike related (first >>= next) (first >>= next') :=
  Alike.bind_ok fun value _ => after value

end

end PiFabric.Outcome
