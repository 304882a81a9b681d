import PiFabric.Foundation.Cas
import PiFabric.State.Mirror

/-! The compare-and-set store that a state file stands for: its puts, deletes and batches are writes
of the store. What a file may forget is the version of a deleted key, which it then takes to be 0.
-/

namespace PiFabric.State

open JsString Outcome

abbrev Cells : Type :=
  Cas.Store JsString Json

/-- The store of a file as it was found: its entries, their versions, and its clock. -/
def StateFile.cells (state : StateFile) : Cells where
  rows := state.entries.get?
  version := state.versionOf
  clock := state.clock
  log := fun key version => if version = state.versionOf key then state.entries.get? key else none

/-- A version that a key is taken to have: its own, or none where the key is deleted. -/
def Found (cells : Cells) (key : JsString) (version : Nat) : Prop :=
  version = cells.version key ∨ cells.rows key = none ∧ version = 0

structure Stands (state : StateFile) (cells : Cells) : Prop where
  rows : ∀ key, state.entries.get? key = cells.rows key
  versions : ∀ key, Found cells key (state.versionOf key)
  clock : state.clock = cells.clock

/-- A write that was told no version, or the one that its key is taken to have. -/
structure Applied (cells : Cells) (event : Event) (value : Option Json) (next : Cells) : Prop where
  fenced : ∀ expected, event.expected = some expected →
    ∃ version, expected = number version ∧ Found cells event.key version
  issued : event.version = cells.issue event.key
  written : next = cells.write event.key value

/-- Writes one after another. -/
inductive Wrote : Cells → List Event → Cells → Prop
  | nil {cells : Cells} : Wrote cells [] cells
  | cons {cells next last : Cells} {event : Event} {value : Option Json} {rest : List Event}
      (first : Applied cells event value next) (others : Wrote next rest last)
    : Wrote cells (event :: rest) last

variable {state next : StateFile} {cells middle last : Cells} {limits : Limits} {key : JsString}
  {event : Event} {first others : List Event}

theorem Wrote.append (hf : Wrote cells first middle) (hs : Wrote middle others last)
    : Wrote cells (first ++ others) last := by
  induction hf with
  | nil => exact hs
  | cons applied _ ih => exact .cons applied (ih hs)

theorem stands_cells (state : StateFile) : Stands state state.cells :=
  ⟨fun _ => rfl, fun _ => .inl rfl, rfl⟩

theorem StateFile.retained_le_clock (state : StateFile) {revision : Json}
    (found : state.retained.get? key = some revision)
    : revisionOf (some revision) ≤ state.clock := by
  refine (le_foldl_max (.inr (List.mem_append_left _ ?_))).trans (le_max_right ..)
  exact List.mem_map.mpr
    ⟨revision, List.mem_map_of_mem (JsMap.get?_eq_some_iff.mp found), rfl⟩

/-- What a write has done before anything is forgotten. -/
def Moves (cells : Cells) (event : Event) (next : StateFile) : Prop :=
  ∃ value after, Applied cells event value after ∧ Stands next after
    ∧ next.recorded = next.clock

/-- A write of the file is a write of the store it stands for, and its mark is the clock. -/
theorem Stands.moves (h : Stands state cells) (change : Changed state event next)
    (retained : ∀ other, next.retained.get? other
      = if other = event.key then some (number event.version) else state.retained.get? other)
    : Moves cells event next := by
  have issued : event.version = cells.issue event.key := by
    rw [change.issued, has_eq_isSome, h.rows, Cas.Store.issue, h.clock]
    rcases h.versions event.key with same | ⟨none_, -⟩
    · rw [same]
      split <;> rfl
    · simp [none_]
  have below : event.version ≤ state.clock + 1 := by
    rw [change.issued]
    have versions := state.versionOf_le_clock event.key
    split <;> omega
  have clock : next.clock = state.clock + 1 := by
    refine le_antisymm (StateFile.clock_le change.recorded.le (fun other revision found => ?_)
      fun other entry found => ?_) (change.recorded.ge.trans next.recorded_le_clock)
    · rw [retained] at found
      split at found
      · obtain rfl := Option.some.inj found
        exact below
      · exact (state.retained_le_clock found).trans (Nat.le_succ _)
    · rw [← StateFile.versionOf_present found]
      by_cases same : other = event.key
      · exact (same ▸ change.self).le.trans below
      · rw [(change.others other same).1]
        exact (state.versionOf_le_clock other).trans (Nat.le_succ _)
  refine ⟨next.entries.get? event.key, _,
    ⟨fun expected told => ⟨_, change.fenced expected told, h.versions _⟩, issued, rfl⟩,
    ⟨fun key => ?_, fun key => ?_, clock.trans (congrArg (· + 1) h.clock)⟩,
    change.recorded.trans clock.symm⟩
  all_goals by_cases same : key = event.key
  · rw [same, Cas.Store.rows_write_self]
  · rw [(change.others key same).2, h.rows, Cas.Store.rows_write_of_ne same]
  · rw [same, change.self, issued]
    exact .inl (Cas.Store.version_write_self _).symm
  · rw [(change.others key same).1, Found, Cas.Store.rows_write_of_ne same,
      Cas.Store.version_write_of_ne same]
    exact h.versions key

/-- Forgetting tombstones after a write leaves what the file stands for. -/
theorem Stands.compact (h : Stands state cells) (marked : state.recorded = state.clock)
    (maxTombstones : Nat) (order : Option (List JsString))
    : Stands (compactStateTombstones maxTombstones { state with tombstoneOrder := order })
        cells := by
  refine ⟨h.rows, fun key => ?_, le_antisymm (StateFile.clock_le (marked.trans h.clock).le
    (fun key revision found => ?_) fun key entry found => ?_) ?_⟩
  · rcases compact_versionOf maxTombstones { state with tombstoneOrder := order } key
      with same | ⟨none_, zero⟩
    · exact same ▸ h.versions key
    · exact .inr ⟨(h.rows key).symm.trans none_, zero⟩
  · rw [compact_retained] at found
    exact h.clock ▸ state.retained_le_clock (Option.filter_eq_some_iff.mp found).1
  · have live : state.versionOf key = _ := StateFile.versionOf_present found
    exact h.clock ▸ live ▸ state.versionOf_le_clock key
  · rw [← h.clock, ← marked]
    exact (compactStateTombstones maxTombstones
      { state with tombstoneOrder := order }).recorded_le_clock

/-- An operation of a batch is one write, or none. -/
theorem Stands.applyOp {now : Nat} {op : BatchOp} {working later : Working} {result : BatchResult}
    (h : Stands working.state cells)
    (done : State.applyOp limits now op working = .ok (result, later))
    : result.applied = false ∧ later = working
      ∨ result.applied = true ∧ Moves cells ⟨op.key, op.ifVersion, result.version⟩ later.state := by
  obtain ⟨slot, read, done⟩ := bind_eq_ok.mp done
  obtain ⟨allowed, -, done⟩ := bind_eq_ok.mp done
  split at done
  · split at done
    · obtain ⟨policy, -, done⟩ := bind_eq_ok.mp done
      cases policy with
      | abort => cases done
      | skip =>
          obtain ⟨rfl, rfl⟩ := Prod.mk.inj (Except.ok.inj done)
          exact .inl ⟨rfl, rfl⟩
    · obtain ⟨⟨expected, change⟩, captured, done⟩ := bind_eq_ok.mp done
      obtain ⟨moved, transitioned, done⟩ := bind_eq_ok.mp done
      have told := capture_version captured
      cases moved with
      | unchanged =>
          obtain ⟨rfl, rfl⟩ := Prod.mk.inj (Except.ok.inj done)
          exact .inl ⟨rfl, rfl⟩
      | delete version highWater =>
          obtain ⟨rfl, rfl⟩ := Prod.mk.inj (Except.ok.inj done)
          exact .inr ⟨rfl, h.moves (.bury read told transitioned)
            fun _ => StateFile.retained_bury ..⟩
      | put value identity version highWater =>
          obtain ⟨rfl, rfl⟩ := Prod.mk.inj (Except.ok.inj done)
          exact .inr ⟨rfl, h.moves (.store read told transitioned)
            fun _ => StateFile.retained_store ..⟩
  · obtain ⟨rfl, rfl⟩ := Prod.mk.inj (Except.ok.inj done)
    exact .inl ⟨rfl, rfl⟩

/-- A batch is its operations one after another, by induction over them. -/
theorem Stands.applyOps {now : Nat} {ops : List BatchOp} {working final : Working}
    {results : List BatchResult} (h : Stands working.state cells)
    (done : State.applyOps limits now ops working = .ok (results, final))
    : ∃ after, Wrote cells (batchEvents ops results) after ∧ Stands final.state after
      ∧ (results.any BatchResult.applied = false ∧ final = working
        ∨ final.state.recorded = final.state.clock) := by
  induction ops generalizing working cells results with
  | nil =>
      obtain ⟨rfl, rfl⟩ := Prod.mk.inj (Except.ok.inj done)
      exact ⟨cells, .nil, h, .inl ⟨rfl, rfl⟩⟩
  | cons op rest ih =>
      obtain ⟨⟨result, later⟩, one, done⟩ := bind_eq_ok.mp done
      obtain ⟨⟨others, final⟩, all, done⟩ := bind_eq_ok.mp done
      obtain ⟨rfl, rfl⟩ := Prod.mk.inj (Except.ok.inj done)
      rw [batchEvents_cons]
      rcases h.applyOp one with ⟨skipped, rfl⟩ | ⟨applied, value, middle, first, stands, marked⟩
      · obtain ⟨after, wrote, final, settled⟩ := ih h all
        exact ⟨after, by simpa [skipped] using wrote, final, by simpa [skipped] using settled⟩
      · obtain ⟨after, wrote, final, ⟨-, rfl⟩ | settled⟩ := ih stands all
        · exact ⟨after, by simpa [applied] using .cons first wrote, final, .inr marked⟩
        · exact ⟨after, by simpa [applied] using .cons first wrote, final, .inr settled⟩

/-- A write that commits is its events, each a write of the store, by cases on the write. -/
theorem Stands.write {events : List Event} (h : Stands state cells)
    (write : Write limits state events next)
    : ∃ after, Wrote cells events after ∧ Stands next after := by
  cases write with
  | put done =>
      obtain ⟨-, -, done⟩ := bind_eq_ok.mp done
      obtain ⟨⟨expected, change⟩, captured, done⟩ := bind_eq_ok.mp done
      obtain ⟨slot, read, done⟩ := bind_eq_ok.mp done
      obtain ⟨moved, transitioned, done⟩ := bind_eq_ok.mp done
      cases moved with
      | put value identity version highWater =>
          obtain ⟨-, rfl, rfl⟩ := by simpa using Except.ok.inj done
          obtain ⟨value, after, applied, stands, marked⟩ := h.moves
            (.store read (capturePut_version captured) transitioned)
            fun _ => StateFile.retained_store ..
          exact ⟨after, .cons applied .nil, stands.compact marked _ _⟩
      | delete version highWater => cases done
      | unchanged => cases done
  | delete done =>
      obtain ⟨-, -, done⟩ := bind_eq_ok.mp done
      obtain ⟨⟨expected, change⟩, captured, done⟩ := bind_eq_ok.mp done
      obtain ⟨slot, read, done⟩ := bind_eq_ok.mp done
      obtain ⟨moved, transitioned, done⟩ := bind_eq_ok.mp done
      cases moved with
      | put value identity version highWater => cases done
      | unchanged => cases done
      | delete version highWater =>
          obtain ⟨rfl, rfl⟩ := by simpa using Except.ok.inj done
          obtain ⟨value, after, applied, stands, marked⟩ := h.moves
            (.bury read (captureDelete_version captured) transitioned)
            fun _ => StateFile.retained_bury ..
          exact ⟨after, .cons applied .nil, stands.compact marked _ _⟩
  | batch done =>
      obtain ⟨-, -, done⟩ := bind_eq_ok.mp done
      obtain ⟨prepared, -, done⟩ := bind_eq_ok.mp done
      obtain ⟨-, -, done⟩ := bind_eq_ok.mp done
      obtain ⟨⟨results, final⟩, applied, done⟩ := bind_eq_ok.mp done
      simp only at done
      split at done
      · next some_ =>
          obtain ⟨rfl, rfl, rfl⟩ := by simpa using Except.ok.inj done
          have start : Stands (Working.mk state state.order.eraseDups).state cells := h
          obtain ⟨after, wrote, stands, ⟨none_, -⟩ | marked⟩ := start.applyOps applied
          · exact absurd some_ (by simp [none_])
          · exact ⟨after, wrote, stands.compact marked _ _⟩
      · cases done

/-- After any run of puts, deletes and batches on any state file there is a compare-and-set store
that the file stands for: each write that committed was one of the store, under the version that it
gave its key, and so will be whatever is written next.
-/
theorem state_file_implements_store {first state : StateFile} {log : List Event}
    (run : Run first log state)
    : ∃ cells, Wrote first.cells log cells ∧ Stands state cells
      ∧ ∀ limits events next, Write limits state events next →
        ∃ after, Wrote cells events after ∧ Stands next after := by
  have reached : ∃ cells, Wrote first.cells log cells ∧ Stands state cells := by
    induction run with
    | refl => exact ⟨_, .nil, stands_cells first⟩
    | write _ write ih =>
        obtain ⟨cells, wrote, stands⟩ := ih
        obtain ⟨after, more, next⟩ := stands.write write
        exact ⟨after, wrote.append more, next⟩
  obtain ⟨cells, wrote, stands⟩ := reached
  exact ⟨cells, wrote, stands, fun _ _ _ write => stands.write write⟩

/-- A note is put and then deleted by its version. -/
theorem state_file_implements_store_note
    : ∃ cells, Wrote emptyState.cells
        ([⟨noteKey, none, 1⟩] ++ [⟨noteKey, some (number 1), 2⟩]) cells ∧ Stands noteGone cells := by
  obtain ⟨cells, wrote, stands, -⟩ := state_file_implements_store
    ((Run.refl.write (.put put_note)).write (.delete delete_note))
  exact ⟨cells, wrote, stands⟩

end PiFabric.State
