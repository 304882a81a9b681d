import PiFabric.Foundation.Outcome
import PiFabric.Projector.Apply

/-! Synchronised tombstones are the desired ones, in order, and exactly the keys whose row changed
are touched.
-/

namespace PiFabric.Projector

open JsString

variable {touched : List JsString} {key : JsString}

@[simp] theorem mem_add {other : JsString}
    : other ∈ add touched key ↔ other ∈ touched ∨ other = key := by
  unfold add
  split
  · rename_i there
    constructor
    · exact .inl
    · rintro (h | rfl)
      · exact h
      · exact there
  · simp

theorem keptPrefix_rows (mark : Int) (desired : List (JsString × Int)) (kept : List Tomb)
    : (keptPrefix mark desired kept).map Prod.fst
        = kept.take (keptPrefix mark desired kept).length := by
  fun_induction keptPrefix mark desired kept with
  | case1 want desired tomb kept here ih => simp [ih]
  | case2 => simp
  | case3 => simp

theorem keptPrefix_desired (mark : Int) (desired : List (JsString × Int)) (kept : List Tomb)
    : (keptPrefix mark desired kept).map (fun pair => (pair.1.key, pair.2))
        = desired.take (keptPrefix mark desired kept).length := by
  fun_induction keptPrefix mark desired kept with
  | case1 want desired tomb kept here ih => simp [ih, ← here.1]
  | case2 => simp
  | case3 => simp

variable {mark : Int} {desired : List (JsString × Int)}

theorem keptPrefix_ord {kept : List Tomb} {pair : Tomb × Int}
    (h : pair ∈ keptPrefix mark desired kept)
    : pair.1.ord ≤ mark := by
  fun_induction keptPrefix mark desired kept with
  | case1 want desired tomb kept here ih =>
      rcases List.mem_cons.mp h with rfl | h
      · exact here.2
      · exact ih h
  | case2 => cases h
  | case3 => cases h

variable {table : TombTable}

variable {writes : TombWrites}

def rowAfter (mark : Int) (want : JsString × Int) : Tomb where
  key := want.1
  version := want.2
  ord := mark + 1

def numbered (mark : Int) : List (JsString × Int) → List Tomb
  | [] => []
  | want :: rest => rowAfter mark want :: numbered (mark + 1) rest

variable {moved : List Tomb}

/-- The parts of a synchronisation: the kept prefix with its versions, and the rows numbered after
it.
-/
structure SyncParts (desired : List (JsString × Int)) (table : TombTable) (mark : Int) where
  firsts : List (Tomb × Int)
  moved : List Tomb
  kept : firsts.map Prod.fst ++ moved = table.rows.filter (·.key ∈ desired.map Prod.fst)
  wanted : firsts.map (fun pair => (pair.1.key, pair.2)) = desired.take firsts.length
  low : ∀ pair ∈ firsts, pair.1.ord ≤ mark

def partsOf (desired : List (JsString × Int)) (table : TombTable) (mark : Int)
    : SyncParts desired table mark where
  firsts := keptPrefix mark desired (table.rows.filter (·.key ∈ desired.map Prod.fst))
  moved := (table.rows.filter (·.key ∈ desired.map Prod.fst)).drop
    (keptPrefix mark desired (table.rows.filter (·.key ∈ desired.map Prod.fst))).length
  kept := by
    rw [keptPrefix_rows]
    exact List.take_append_drop _ _
  wanted := keptPrefix_desired _ _ _
  low := fun _ h => keptPrefix_ord h

theorem SyncParts.mem (parts : SyncParts desired table mark) {row : Tomb}
    : row ∈ parts.firsts.map Prod.fst ∨ row ∈ parts.moved
        ↔ row ∈ table.rows ∧ row.key ∈ desired.map Prod.fst := by
  rw [← List.mem_append, parts.kept, List.mem_filter, decide_eq_true_eq]

end PiFabric.Projector
