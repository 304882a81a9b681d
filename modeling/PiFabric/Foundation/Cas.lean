import Mathlib

/-! A store of versioned values under compare-and-set. -/

namespace PiFabric.Cas

variable {κ ν : Type}

/-- The live values, the version of every key (kept when its value is deleted), and the log of what
every version was.
-/
structure Store (κ ν : Type) where
  rows : κ → Option ν
  version : κ → Nat
  clock : Nat
  log : κ → Nat → Option ν

def empty : Store κ ν where
  rows := fun _ => none
  version := fun _ => 0
  clock := 0
  log := fun _ _ => none

namespace Store

def get (s : Store κ ν) (key : κ) : Option (ν × Nat) :=
  (s.rows key).map fun value => (value, s.version key)

/-- Whether a condition on the version holds; there may be none. -/
def accepts (s : Store κ ν) (key : κ) (ifVersion : Option Nat) : Bool :=
  ifVersion.all fun version => s.version key = version

def issue (s : Store κ ν) (key : κ) : Nat :=
  if (s.rows key).isSome then s.version key + 1 else s.clock + 1

theorem issue_ne_zero (s : Store κ ν) (key : κ) : s.issue key ≠ 0 := by
  unfold issue
  split <;> omega

variable [DecidableEq κ]

/-- The store with one more write: a value, or none for a deletion. -/
def write (s : Store κ ν) (key : κ) (value : Option ν) : Store κ ν where
  rows := Function.update s.rows key value
  version := Function.update s.version key (s.issue key)
  clock := s.clock + 1
  log := fun other version =>
    if other = key ∧ version = s.issue key then value else s.log other version

def put (s : Store κ ν) (key : κ) (value : ν) (ifVersion : Option Nat) : Option (Store κ ν) :=
  if s.accepts key ifVersion then some (s.write key (some value)) else none

def delete (s : Store κ ν) (key : κ) (ifVersion : Option Nat) : Option (Store κ ν) :=
  if (s.rows key).isSome && s.accepts key ifVersion then some (s.write key none) else none

/-- Live values are the last versions of their keys, and no version is ahead of its key. -/
structure Sound (s : Store κ ν) : Prop where
  versions : ∀ key, s.version key ≤ s.clock
  live : ∀ key, s.rows key = s.log key (s.version key)
  logged : ∀ key version value, s.log key version = some value →
    0 < version ∧ version ≤ s.version key

omit [DecidableEq κ] in
theorem sound_empty : (empty : Store κ ν).Sound where
  versions := fun _ => le_rfl
  live := fun _ => rfl
  logged := by simp [empty]

variable {s s' : Store κ ν} {key : κ}

omit [DecidableEq κ] in
/-- A write moves its key past its version, and not past the clock. -/
theorem Sound.issue_bounds (h : s.Sound)
    : s.version key < s.issue key ∧ s.issue key ≤ s.clock + 1 := by
  have bound := h.versions key
  unfold issue
  split <;> omega

theorem Sound.write (h : s.Sound) (value : Option ν) : (s.write key value).Sound := by
  constructor
  · intro other
    by_cases same : other = key
    · subst same
      simpa [Store.write] using h.issue_bounds.2
    · simpa [Store.write, Function.update_of_ne same] using (h.versions other).trans (by omega)
  · intro other
    by_cases same : other = key
    · simp [Store.write, same]
    · simpa [Store.write, Function.update_of_ne same, same] using h.live other
  · intro other version found logged
    by_cases same : other = key
    · subst same
      simp only [Store.write, true_and, Function.update_self] at logged ⊢
      have issued := @Sound.issue_bounds _ _ _ other h
      split at logged
      · omega
      · have bounds := h.logged _ _ _ logged
        omega
    · simp only [Store.write, same, false_and, if_false, Function.update_of_ne same] at logged ⊢
      exact h.logged _ _ _ logged

variable {value : ν}

theorem put_eq_some {ifVersion : Option Nat} (h : s.put key value ifVersion = some s')
    : s.accepts key ifVersion = true ∧ s' = s.write key (some value) := by
  unfold put at h
  split at h
  · next accepted => exact ⟨accepted, (Option.some.inj h).symm⟩
  · exact absurd h (by simp)

theorem delete_eq_some {ifVersion : Option Nat} (h : s.delete key ifVersion = some s')
    : s.accepts key ifVersion = true ∧ s' = s.write key none := by
  unfold delete at h
  split at h
  · next accepted =>
      rw [Bool.and_eq_true] at accepted
      exact ⟨accepted.2, (Option.some.inj h).symm⟩
  · exact absurd h (by simp)

variable {version : Nat}

omit [DecidableEq κ] in
theorem version_of_accepts (h : s.accepts key (some version) = true)
    : s.version key = version := by
  simpa [accepts] using h

omit [DecidableEq κ] in
/-- What a version was is live for as long as the key has that version. -/
theorem Sound.live_of_version (h : s.Sound) (read : s.log key version = some value)
    (current : s.version key = version)
    : s.rows key = some value := by
  rw [h.live, current, read]

omit [DecidableEq κ] in
theorem Sound.read (h : s.Sound) (found : s.get key = some (value, version))
    : s.log key version = some value ∧ s.version key = version := by
  obtain ⟨live, at_, same⟩ := Option.map_eq_some_iff.mp found
  obtain ⟨rfl, rfl⟩ := Prod.mk.inj same
  exact ⟨(h.live key).symm.trans at_, rfl⟩

@[simp] theorem rows_write_self (value : Option ν) : (s.write key value).rows key = value :=
  Function.update_self ..

variable {other : κ}

theorem rows_write_of_ne (apart : other ≠ key) (value : Option ν)
    : (s.write key value).rows other = s.rows other :=
  Function.update_of_ne apart ..

@[simp] theorem version_write_self (value : Option ν)
    : (s.write key value).version key = s.issue key :=
  Function.update_self ..

theorem version_write_of_ne (apart : other ≠ key) (value : Option ν)
    : (s.write key value).version other = s.version other :=
  Function.update_of_ne apart ..

theorem log_write_self (value : Option ν) : (s.write key value).log key (s.issue key) = value := by
  simp [write]

/-- The log only grows, beyond the version of each key, and versions only rise. -/
structure Extends (s s' : Store κ ν) : Prop where
  log : ∀ key version value, s.log key version = some value → s'.log key version = some value
  version : ∀ key, s.version key ≤ s'.version key
  frozen : ∀ key version, version ≤ s.version key → s'.log key version = s.log key version

omit [DecidableEq κ] in
theorem Extends.refl (s : Store κ ν) : s.Extends s :=
  ⟨fun _ _ _ => id, fun _ => le_rfl, fun _ _ _ => rfl⟩

omit [DecidableEq κ] in
theorem Extends.trans {third : Store κ ν} (hf : s.Extends s') (hs : s'.Extends third)
    : s.Extends third :=
  ⟨fun _ _ _ read => hs.log _ _ _ (hf.log _ _ _ read),
    fun key => (hf.version key).trans (hs.version key),
    fun key version old => (hs.frozen key version (old.trans (hf.version key))).trans
      (hf.frozen key version old)⟩

theorem Sound.log_write_of_le (h : s.Sound) (value : Option ν) (old : version ≤ s.version other)
    : (s.write key value).log other version = s.log other version := by
  have apart : ¬(other = key ∧ version = s.issue key) := by
    rintro ⟨rfl, rfl⟩
    exact absurd old (not_le.mpr h.issue_bounds.1)
  simp only [Store.write, apart, if_false]

theorem Sound.extends_write (h : s.Sound) (value : Option ν) : s.Extends (s.write key value) := by
  constructor
  · intro other version found logged
    exact (h.log_write_of_le value (h.logged _ _ _ logged).2).trans logged
  · intro other
    by_cases same : other = key
    · subst same
      rw [version_write_self]
      exact h.issue_bounds.1.le
    · exact (version_write_of_ne same value).ge
  · exact fun _ _ old => h.log_write_of_le value old

/-- A write moves its key past every version before it. -/
theorem Sound.version_lt_write (h : s.Sound) (value : Option ν)
    : s.version key < (s.write key value).version key := by
  rw [version_write_self]
  exact h.issue_bounds.1

end Store

end PiFabric.Cas
