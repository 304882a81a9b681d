import PiFabric.Foundation.JsMap
import PiFabric.Foundation.Json
import PiFabric.Foundation.NumberValue
import PiFabric.Foundation.Utf8

/-! The SQLite tables that the projector keeps in step with the file store, and the statements it
runs on them.
-/

namespace PiFabric.Projector

open JsString

structure Row where
  value : JsString
  version : Int
  updatedAt : ℚ
  updatedBy : JsString
  bytes : Int
deriving DecidableEq

/-- A row of `tombstones`. -/
structure Tomb where
  key : JsString
  version : Int
  ord : Int
deriving DecidableEq

structure ChangeRow where
  seq : Int
  commit : Int
  key : JsString
  version : Int
  deleted : Bool
deriving DecidableEq

/-- The tombstones in the order of their ordinals, which are unique as the keys are. -/
structure TombTable where
  rows : List Tomb
  distinct : (rows.map Tomb.key).Nodup
  ordered : rows.Pairwise fun first second => first.ord < second.ord

structure JournalCursor where
  inode : JsString
  offset : Nat
deriving DecidableEq

structure Progress where
  generation : Option JsString
  hash : Option JsString
  identity : Option JsString
  cursor : Option JournalCursor
  commit : Int
  appliedAt : Int
deriving DecidableEq

/-- The tables, and the rows of `meta` by name; the seeded counters are always there. -/
structure Database where
  backend : Option JsString
  leaseOwner : Option JsString
  progress : Option Progress
  kv : JsMap JsString Row
  tombs : TombTable
  changes : List ChangeRow
  commitNo : Int
  highWater : Int
  stateBytes : Int
  tombstoneOrd : Int

namespace TombTable

def keys (table : TombTable) : List JsString :=
  table.rows.map Tomb.key

def get? (table : TombTable) (key : JsString) : Option Tomb :=
  table.rows.find? fun row => row.key = key

def deleteAll (table : TombTable) (keys : List JsString) : TombTable where
  rows := table.rows.filter fun row => row.key ∉ keys
  distinct := table.distinct.sublist (List.filter_sublist.map Tomb.key)
  ordered := table.ordered.sublist List.filter_sublist

def setVersion (table : TombTable) (key : JsString) (version : Int) : TombTable where
  rows := table.rows.map fun row => if row.key = key then { row with version } else row
  distinct := by
    have same : (fun row : Tomb => (if row.key = key then { row with version } else row).key)
        = Tomb.key := by
      funext row
      split <;> rfl
    simpa [Function.comp_def, same] using table.distinct
  ordered := by
    rw [List.pairwise_map]
    refine table.ordered.imp ?_
    intro first second below
    split <;> split <;> exact below

def insertRow (row : Tomb) (rows : List Tomb) : List Tomb :=
  rows.takeWhile (·.ord < row.ord) ++ row :: rows.dropWhile (·.ord < row.ord)

theorem insertRow_perm (row : Tomb) (rows : List Tomb)
    : (insertRow row rows).Perm (row :: rows) := by
  have whole : rows.takeWhile (·.ord < row.ord) ++ rows.dropWhile (·.ord < row.ord) = rows :=
    List.takeWhile_append_dropWhile
  refine List.perm_middle.trans ?_
  rw [whole]

theorem insertRow_ordered {row : Tomb} {rows : List Tomb} (fresh : row.ord ∉ rows.map Tomb.ord)
    (ordered : rows.Pairwise fun first second => first.ord < second.ord)
    : (insertRow row rows).Pairwise fun first second => first.ord < second.ord := by
  induction rows with
  | nil => simp [insertRow]
  | cons first rest ih =>
      simp only [List.map_cons, List.mem_cons, not_or] at fresh
      rw [List.pairwise_cons] at ordered
      by_cases below : first.ord < row.ord
      · have step : insertRow row (first :: rest) = first :: insertRow row rest := by
          simp [insertRow, below]
        rw [step, List.pairwise_cons]
        refine ⟨?_, ih fresh.2 ordered.2⟩
        intro other member
        rcases List.mem_cons.mp ((insertRow_perm row rest).mem_iff.mp member) with rfl | member
        · exact below
        · exact ordered.1 other member
      · have step : insertRow row (first :: rest) = row :: first :: rest := by
          simp [insertRow, below]
        have above : row.ord < first.ord := by
          have other := fresh.1
          omega
        rw [step, List.pairwise_cons, List.pairwise_cons]
        refine ⟨?_, ordered⟩
        intro other member
        rcases List.mem_cons.mp member with rfl | member
        · exact above
        · exact above.trans (ordered.1 other member)

/-- `tombInsert`, none where a unique column has the value already. -/
def insert? (table : TombTable) (row : Tomb) : Option TombTable :=
  if h : row.key ∉ table.keys ∧ row.ord ∉ table.rows.map Tomb.ord then
    some {
      rows := insertRow row table.rows
      distinct := ((insertRow_perm row table.rows).map Tomb.key).nodup_iff.mpr
        (List.nodup_cons.mpr ⟨h.1, table.distinct⟩)
      ordered := insertRow_ordered h.2 table.ordered
    }
  else none

theorem get?_eq_some_iff {table : TombTable} {key : JsString} {row : Tomb}
    : table.get? key = some row ↔ row ∈ table.rows ∧ row.key = key := by
  constructor
  · intro h
    exact ⟨List.mem_of_find?_eq_some h, by simpa using List.find?_some h⟩
  · rintro ⟨member, rfl⟩
    cases found : table.get? row.key with
    | none =>
        have absent := List.find?_eq_none.mp found row member
        simp at absent
    | some other =>
        have same : other.key = row.key := by simpa using List.find?_some found
        exact congrArg some
          (List.inj_on_of_nodup_map table.distinct (List.mem_of_find?_eq_some found) member same)

theorem get?_eq_none_iff {table : TombTable} {key : JsString}
    : table.get? key = none ↔ key ∉ table.keys := by
  simp [get?, keys]

end TombTable

def utf8 (text : JsString) : Int :=
  (Utf8.encode text).length

def entryBytes (key value updatedBy : JsString) : Int :=
  utf8 value + utf8 updatedBy + 3 * utf8 key + 96

def tombBytes (key : JsString) : Int :=
  2 * utf8 key + 32

inductive Slot where
  | live (version : Int)
  | tomb (version : Int)
  | none
deriving DecidableEq

def Slot.version : Slot → Int
  | live version => version
  | tomb version => version
  | none => 0

def Slot.deleted : Slot → Bool
  | live _ => false
  | _ => true

def Database.slot (db : Database) (key : JsString) : Slot :=
  match db.kv.get? key with
  | some row => .live row.version
  | none =>
      match db.tombs.get? key with
      | some tomb => .tomb tomb.version
      | none => .none

end PiFabric.Projector
