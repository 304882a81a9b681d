import PiFabric.Delta.Changes

/-! Histories of a state database after a commit: while it stays live in its epoch, its feed tells
every key that changed since, or all its rows are too late for that.
-/

namespace PiFabric.Delta

open JsString
open State.Sqlite (Database Tx StateChange)

def keysAfter (commit : Nat) (rows : List ChangeRow) : List JsString :=
  (rows.filter fun row => decide (commit < row.commit)).map (·.key)

/-- The rows after a commit tell what has changed since, or there were later commits and no row is
left of the first of them.
-/
def Since (base tables : Database) (rows : List ChangeRow) : Prop :=
  (base.commit < tables.commit ∧ ∀ row ∈ rows, base.commit + 1 < row.commit)
  ∨ Changed base tables (keysAfter base.commit rows)

/-- Trimming whole commits keeps the rows after a commit, or it drops those of the next one. -/
theorem Since.trim {base tables : Database} {rows : List ChangeRow} (since : Since base tables rows)
    (later : base.commit < tables.commit) (last : Nat)
    : Since base tables (rows.filter fun row => decide (last < row.commit)) := by
  by_cases early : last ≤ base.commit
  · rcases since with outrun | changed
    · exact Or.inl ⟨later, fun row member => outrun.2 row (List.mem_of_mem_filter member)⟩
    · right
      have same : keysAfter base.commit (rows.filter fun row => decide (last < row.commit))
          = keysAfter base.commit rows := by
        rw [keysAfter, List.filter_filter]
        congr 2
        funext row
        rw [← Bool.decide_and]
        congr 1
        rw [eq_iff_iff]
        omega
      rw [same]
      exact changed
  · refine Or.inl ⟨later, fun row member => ?_⟩
    have kept := of_decide_eq_true (List.mem_filter.mp member).2
    omega

theorem Since.insert {base before tables : Database} {rows new : List ChangeRow}
    {changes : List StateChange} (since : Since base before rows)
    (later : base.commit ≤ before.commit) (number : tables.commit = before.commit + 1)
    (commits : ∀ row ∈ new, row.commit = tables.commit)
    (keys : new.map (·.key) = changes.map (·.key))
    (changed : Changed base before (keysAfter base.commit rows) →
      Changed base tables (keysAfter base.commit rows ++ changes.map (·.key)))
    : Since base tables (rows ++ new) := by
  rcases since with outrun | known
  · refine Or.inl ⟨by omega, fun row member => ?_⟩
    rcases List.mem_append.mp member with old | fresh
    · exact outrun.2 row old
    · rw [commits row fresh]
      omega
  · right
    have all : new.filter (fun row => decide (base.commit < row.commit)) = new := by
      refine List.filter_eq_self.mpr fun row member => decide_eq_true ?_
      rw [commits row member]
      omega
    rw [keysAfter, List.filter_append, all, List.map_append, keys]
    exact changed known

/-- The database is still live in its epoch, and its feed accounts for what has changed. -/
structure Follows (base now : StateDatabase) : Prop where
  live : now.backend = lit "sqlite"
  epoch : now.epoch = base.epoch
  later : base.tables.commit ≤ now.tables.commit
  still : now.tables.commit = base.tables.commit →
    now.tables.kv = base.tables.kv ∧ now.tables.tombstones = base.tables.tombstones
  since : Since base.tables now.tables now.changes

theorem WellFormed.keysAfter_eq_nil {db : StateDatabase} (formed : WellFormed db)
    : keysAfter db.tables.commit db.changes = [] := by
  rw [keysAfter, List.map_eq_nil_iff, List.filter_eq_nil_iff]
  intro row member
  have bound := formed.commits row member
  rw [decide_eq_true_eq]
  omega

theorem Follows.refl {db : StateDatabase} (live : db.backend = lit "sqlite")
    (formed : WellFormed db)
    : Follows db db := by
  refine ⟨live, rfl, Nat.le_refl _, fun _ => ⟨rfl, rfl⟩, Or.inr ?_⟩
  rw [formed.keysAfter_eq_nil]
  exact Changed.refl db.tables

variable {store : SqliteStateStore} {base now next : StateDatabase} {tx : Tx}

theorem Follows.commit (follows : Follows base now) (same : tx.db.commit = now.tables.commit)
    (changed : Changed base.tables now.tables (keysAfter base.tables.commit now.changes) →
      Changed base.tables tx.db
        (keysAfter base.tables.commit now.changes ++ tx.changes.map (·.key)))
    : Follows base
      { now with
        tables := State.Sqlite.finish store.maxTombstones tx
        changes := feed store (tx.db.commit + 1) now.changes tx.changes } := by
  have number := State.finish_commit store.maxTombstones tx
  have later := follows.later
  refine ⟨follows.live, follows.epoch, ?_, fun equal => ?_, ?_⟩
  · dsimp only
    omega
  · dsimp only at equal
    omega
  · obtain ⟨new, keys, commits, rows⟩ := feed_rows store (tx.db.commit + 1) now.changes tx.changes
    have inserted : Since base.tables (State.Sqlite.finish store.maxTombstones tx)
        (now.changes ++ new) :=
      follows.since.insert later (number.trans (congrArg (· + 1) same))
        (fun row member => (commits row member).trans number.symm) keys
        fun known => (fewer_finish store.maxTombstones tx).changed (changed known)
    rcases rows with whole | ⟨last, trimmed⟩
    · dsimp only
      rw [whole]
      exact inserted
    · dsimp only
      rw [trimmed]
      exact inserted.trim (by omega) last

theorem WellFormed.commit (formed : WellFormed now) (same : tx.db.commit = now.tables.commit)
    (sound : Sound tx.db)
    : WellFormed
      { now with
        tables := State.Sqlite.finish store.maxTombstones tx
        changes := feed store (tx.db.commit + 1) now.changes tx.changes } := by
  refine ⟨(fewer_finish store.maxTombstones tx).sound sound, ?_⟩
  obtain ⟨new, _, commits, rows⟩ := feed_rows store (tx.db.commit + 1) now.changes tx.changes
  have all : ∀ row ∈ now.changes ++ new,
      row.commit ≤ (State.Sqlite.finish store.maxTombstones tx).commit := by
    intro row member
    rw [State.finish_commit, same]
    rcases List.mem_append.mp member with old | fresh
    · exact Nat.le_succ_of_le (formed.commits row old)
    · rw [commits row fresh, same]
  intro row member
  dsimp only at member ⊢
  rcases rows with whole | ⟨last, trimmed⟩
  · exact all row (whole ▸ member)
  · rw [trimmed] at member
    exact all row (List.mem_of_mem_filter member)

/-- A body that changed nothing leaves the database as it is. -/
theorem commitWrite_nil (spec : BodySpec now.tables tx) (none_ : tx.changes = [])
    : commitWrite store now tx false = now := by
  rw [commitWrite, if_pos ⟨none_, rfl⟩, spec.same none_]

theorem commitWrite_eq {finishes : Bool} (some_ : ¬(tx.changes = [] ∧ finishes = false))
    : commitWrite store now tx finishes
      = { now with
          tables := State.Sqlite.finish store.maxTombstones tx
          changes := feed store (tx.db.commit + 1) now.changes tx.changes } :=
  if_neg some_

/-- A step keeps a database in order. -/
theorem WellFormed.step (formed : WellFormed now) (step : Step now next)
    : WellFormed next := by
  cases step with
  | @write store tx live body =>
      have spec := body.spec formed.sound
      by_cases none_ : tx.changes = []
      · rw [commitWrite_nil spec none_]
        exact formed
      · rw [commitWrite_eq fun both => none_ both.1]
        exact formed.commit spec.commit spec.sound
  | import_ live never body =>
      have imported := imported_of_importBody body
      rw [commitWrite_eq (by simp)]
      exact formed.commit (imported.commit.trans never.2.2.symm) imported.spec.1
  | bind_ live never =>
      rw [commitWrite_eq (by simp)]
      exact formed.commit rfl formed.sound
  | retire live => exact ⟨formed.sound, formed.commits⟩
  | renew same formed later => exact formed

theorem Follows.step (follows : Follows base now) (formed : WellFormed now) (step : Step now next)
    : Follows base next ∨ base.epoch < next.epoch := by
  cases step with
  | @write store tx live body =>
      left
      have spec := body.spec formed.sound
      by_cases none_ : tx.changes = []
      · rw [commitWrite_nil spec none_]
        exact follows
      · rw [commitWrite_eq fun both => none_ both.1]
        exact follows.commit spec.commit fun known => known.trans spec.changed spec.kept
  | @import_ store state tx live never body =>
      left
      have imported := imported_of_importBody body
      rw [commitWrite_eq (by simp)]
      refine follows.commit (imported.commit.trans never.2.2.symm) fun _ => ?_
      have first : now.tables.commit = base.tables.commit := by
        have later := follows.later
        have zero := never.2.2
        omega
      obtain ⟨kv, tombstones⟩ := follows.still first
      rw [← first, formed.keysAfter_eq_nil, List.nil_append]
      exact imported.spec.2 base.tables (kv ▸ never.1) (tombstones ▸ never.2.1)
  | bind_ live never =>
      left
      rw [commitWrite_eq (by simp)]
      exact follows.commit rfl fun known => (List.append_nil _).symm ▸ known
  | retire live =>
      right
      have same := live.2
      have epoch := follows.epoch
      dsimp only
      omega
  | renew same formed later =>
      right
      have epoch := follows.epoch
      rcases later with greater | ⟨other, _⟩
      · omega
      · exact absurd follows.live other

theorem Step.frame (step : Step now next) : next.storeId = now.storeId ∧ now.epoch ≤ next.epoch := by
  cases step with
  | @write store tx live body =>
      rw [commitWrite]
      split <;> exact ⟨rfl, Nat.le_refl _⟩
  | @import_ store state tx live never body =>
      rw [commitWrite_eq (by simp)]
      exact ⟨rfl, Nat.le_refl _⟩
  | bind_ live never =>
      rw [commitWrite_eq (by simp)]
      exact ⟨rfl, Nat.le_refl _⟩
  | @retire store live =>
      have same := live.2
      exact ⟨rfl, by dsimp only; omega⟩
  | renew same formed later =>
      refine ⟨same, ?_⟩
      rcases later with greater | ⟨_, equal⟩ <;> omega

/-- After any history a database is in order, by induction over the steps. -/
theorem History.formed (history : History base now) (formed : WellFormed base)
    : WellFormed now ∧ now.storeId = base.storeId := by
  induction history with
  | refl => exact ⟨formed, rfl⟩
  | step before step ih => exact ⟨ih.1.step step, step.frame.1.trans ih.2⟩

/-- After any history a database accounts for what has changed, or it has left its epoch, by
induction over the steps.
-/
theorem History.follows (history : History base now) (live : base.backend = lit "sqlite")
    (formed : WellFormed base)
    : Follows base now ∨ base.epoch < now.epoch := by
  induction history with
  | refl => exact Or.inl (.refl live formed)
  | step before step ih =>
      rcases ih with follows | greater
      · exact follows.step (before.formed formed).1 step
      · have later := step.frame.2
        exact Or.inr (by omega)

end PiFabric.Delta
