import PiFabric.Foundation.ChangeFeed
import PiFabric.Foundation.Ordinals
import PiFabric.Projector.TombstoneSync

/-! The changes feed names every write: the rows of a commit are those of the keys whose entry row
or tombstone row differs, and a trimmed feed has lost whole commits only.
-/

namespace PiFabric.Projector

open JsString

def Database.contents (db : Database) (key : JsString) : Option Row × Option Tomb :=
  (db.kv.get? key, db.tombs.get? key)

/-- Some writes touch exactly the keys whose rows they change, among some keys. -/
structure Tracks (before : Writes) (keys : List JsString) (after : Writes) : Prop where
  names : ∀ key, key ∈ after.touched
    ↔ key ∈ before.touched ∨ before.kv.get? key ≠ after.kv.get? key
  frame : ∀ key, key ∉ keys → before.kv.get? key = after.kv.get? key

theorem Tracks.refl (writes : Writes) (keys : List JsString) : Tracks writes keys writes :=
  ⟨by simp, fun _ _ => rfl⟩

theorem Tracks.trans {first middle last : Writes} {keys others : List JsString}
    (before : Tracks first keys middle) (after : Tracks middle others last)
    (apart : ∀ key ∈ keys, key ∉ others)
    : Tracks first (keys ++ others) last := by
  refine ⟨?_, ?_⟩
  · intro key
    rw [after.names, before.names, or_assoc]
    refine or_congr_right ?_
    by_cases own : key ∈ keys
    · have same := after.frame key (apart key own)
      rw [← same]
      simp
    · have same := before.frame key own
      rw [same]
      simp
  · intro key away
    rw [List.mem_append, not_or] at away
    exact (before.frame key away.1).trans (after.frame key away.2)

theorem Tracks.put (writes : Writes) (key : JsString) (row : Row)
    : Tracks writes [key] (writes.put key (writes.kv.get? key) row) := by
  unfold Writes.put
  split
  · exact .refl writes [key]
  · rename_i differs
    refine ⟨?_, ?_⟩
    · intro other
      rw [mem_add, JsMap.get?_set]
      refine or_congr_right ?_
      split
      · rename_i same
        subst same
        simpa using differs
      · rename_i other_key
        simpa [eq_comm] using other_key
    · intro other away
      rw [JsMap.get?_set, if_neg (by simpa using away)]

variable {writes : Writes} {key : JsString}

theorem Tracks.delete (present : writes.kv.has key = true)
    : Tracks writes [key] (writes.delete key) := by
  have there : writes.kv.get? key ≠ none := by
    rw [Ne, JsMap.get?_eq_none_iff, not_not]
    exact JsMap.has_iff.mp present
  refine ⟨?_, ?_⟩
  · intro other
    unfold Writes.delete
    rw [mem_add, JsMap.get?_delete]
    refine or_congr_right ?_
    split
    · rename_i same
      subst same
      simpa using there
    · rename_i other_key
      simpa [eq_comm] using other_key
  · intro other away
    unfold Writes.delete
    rw [JsMap.get?_delete, if_neg (by simpa using away)]

variable {candidates touched : List JsString}

variable {db next : Database}

/-- Rows that a transaction adds to the feed: one for each key whose contents it changes, under the
number of the commit, with the key's final version and deleted flag. What the feed keeps of the old
and the new rows is whole commits.
-/
structure Feeds (db : Database) (rows : List ChangeRow) (next : Database) : Prop where
  names : ChangeFeed.Names db.contents (rows.map ChangeRow.key) next.contents
  once : (rows.map ChangeRow.key).Nodup
  numbered : ∀ row ∈ rows, row.commit = next.commitNo
  final : ∀ row ∈ rows, row.version = (next.slot row.key).version
    ∧ row.deleted = (next.slot row.key).deleted
  counts : next.commitNo = if rows = [] then db.commitNo else db.commitNo + 1
  feed : next.changes.Sublist (db.changes ++ rows)
  whole : ∀ row ∈ db.changes ++ rows, ∀ other ∈ db.changes ++ rows, row.commit = other.commit →
    (row ∈ next.changes ↔ other ∈ next.changes)

variable {projector : StateProjector}

variable {progress : Progress}

/-- Transactions one after the other, with all the rows that they add to the feed. -/
inductive Runs (projector : StateProjector) : Database → List ChangeRow → Database → Prop
  | done (db : Database) : Runs projector db [] db
  | step {first middle last : Database} {earlier rows : List ChangeRow}
      (before : Runs projector first earlier middle) (transaction : Transaction)
      (applied : project projector middle transaction = .ok last) (fed : Feeds middle rows last)
      : Runs projector first (earlier ++ rows) last

variable {rows : List ChangeRow}

theorem Feeds.commit_le (fed : Feeds db rows next)
    : db.commitNo ≤ next.commitNo := by
  rw [fed.counts]
  split <;> omega

theorem Runs.commit_le (run : Runs projector db rows next)
    : db.commitNo ≤ next.commitNo := by
  induction run with
  | done => exact le_rfl
  | step _ _ _ fed ih => exact ih.trans fed.commit_le

theorem Runs.later (run : Runs projector db rows next) {row : ChangeRow} (member : row ∈ rows)
    : db.commitNo < row.commit := by
  induction run with
  | done => cases member
  | step before _ _ fed ih =>
      rcases List.mem_append.mp member with member | member
      · exact ih member
      · have start := before.commit_le
        have counted := fed.counts
        rw [if_neg (List.ne_nil_of_mem member)] at counted
        rw [fed.numbered row member, counted]
        omega

theorem Runs.steps (run : Runs projector db rows next)
    : ChangeFeed.Steps db.contents (rows.map ChangeRow.key) next.contents := by
  induction run with
  | done => exact .done _
  | step _ _ _ fed ih =>
      rw [List.map_append]
      exact .step ih fed.names

/-- Tables that the projector has brought to that snapshot's identity, without its entry. -/
def behind : Database where
  backend := some (lit "sqlite")
  leaseOwner := some (lit "p")
  progress := some { emptyProgress with identity := some (lit "1:2") }
  kv := .empty
  tombs := { rows := [], distinct := List.nodup_nil, ordered := .nil }
  changes := []
  commitNo := 0
  highWater := 0
  stateBytes := 0
  tombstoneOrd := 0

end PiFabric.Projector
