import PiFabric.State.Refinement

/-! A batch and the single writes of its operations. -/

namespace PiFabric.State

open JsString Outcome Ordinals

def BatchResult.written (result : BatchResult) : Option Nat :=
  if result.applied then some result.version else none

/-- Whether an operation is let through: its condition holds, and it expects the version that is
there.
-/
def BatchOp.proceeds (state : StateFile) (op : BatchOp) : Except StateError Bool := do
  let slot ← stateSlot state op.key
  if ← op.allowed state then
    .ok (op.ifVersion.all fun version =>
      Json.strictEqual (some version) (some (number slot.version)))
  else .ok false

/-- The `put` or `delete` that an operation stands for, at the time of the batch. -/
def BatchOp.call (limits : Limits) (now : Nat) (state : StateFile)
    : BatchOp → Except StateError (Option Nat × StateFile)
  | put key value identity ifVersion _ => do
      let value ← value.eval now
      let (_, version, next) ← State.put limits key value identity ifVersion now state
      .ok (some version, next)
  | delete key ifVersion _ _ => do
      match ← State.delete limits key ifVersion state with
      | some (version, next) => .ok (some version, next)
      | none => .ok (none, state)

/-- An operation by itself; one that conflicts is left out. -/
def applyAlone (limits : Limits) (now : Nat) (op : BatchOp) (state : StateFile)
    : Except StateError (Option Nat × StateFile) := do
  let _ ← checkKey op.key
  if ← op.proceeds state then op.call limits now state else .ok (none, state)

/-- The operations one after the other. A commit may refuse a file, for its size. -/
def applyEach (limits : Limits) (now : Nat) (accepts : StateFile → Except StateError Unit)
    : List BatchOp → StateFile → Except StateError (List (Option Nat) × StateFile)
  | [], state => .ok ([], state)
  | op :: rest, state => do
      let (written, next) ← applyAlone limits now op state
      let _ ← if written.isSome then accepts next else .ok ()
      let (others, last) ← applyEach limits now accepts rest next
      .ok (written :: others, last)

def commitBatch (limits : Limits) (now : Nat) (accepts : StateFile → Except StateError Unit)
    (ops : List BatchOp) (prepare : StateFile → Except StateError (List BatchOp))
    (file : StateFile) : Except StateError (List BatchResult) × StateFile :=
  match writeBatch limits now ops prepare file with
  | .error reason => (.error reason, file)
  | .ok (_, results, none) => (.ok results, file)
  | .ok (_, results, some next) =>
      match accepts next with
      | .error reason => (.error reason, file)
      | .ok () => (.ok results, next)

def acceptAll (_ : StateFile) : Except StateError Unit :=
  .ok ()

/-- The tombstones of a file: the keys that it retains a revision of without an entry. -/
def tombstones (state : StateFile) : List JsString :=
  state.retained.keys.filter fun key => !state.entries.has key

/-- No operation of the batch leaves more tombstones than are kept. -/
def Roomy (limits : Limits) (now : Nat) : List BatchOp → Working → Prop
  | [], working => (tombstones working.state).length ≤ limits.maxStateTombstones
  | op :: rest, working =>
      (tombstones working.state).length ≤ limits.maxStateTombstones
        ∧ ∀ result next, applyOp limits now op working = .ok (result, next) →
          Roomy limits now rest next

instance decidableRoomy (limits : Limits) (now : Nat)
    : (ops : List BatchOp) → (working : Working) → Decidable (Roomy limits now ops working)
  | [], working =>
      inferInstanceAs (Decidable ((tombstones working.state).length ≤ limits.maxStateTombstones))
  | op :: rest, working =>
      match applied : applyOp limits now op working with
      | .error _ =>
          decidable_of_iff ((tombstones working.state).length ≤ limits.maxStateTombstones)
            ⟨fun h => ⟨h, fun _ _ ok => by cases applied.symm.trans ok⟩, fun h => h.1⟩
      | .ok (result, next) =>
          have := decidableRoomy limits now rest next
          decidable_of_iff ((tombstones working.state).length ≤ limits.maxStateTombstones
              ∧ Roomy limits now rest next)
            ⟨fun h => ⟨h.1, fun _ _ ok => by cases applied.symm.trans ok; exact h.2⟩,
              fun h => ⟨h.1, h.2 result next applied⟩⟩

def begin (state : StateFile) : Working where
  state
  tombstones := state.order.eraseDups

/-- Every tombstone is in the recorded order, as each write leaves it. -/
def Listed (state : StateFile) : Prop :=
  ∀ key ∈ tombstones state, key ∈ state.order

def buried (state : StateFile) (key : JsString) : Bool :=
  !state.entries.has key && state.retained.has key

variable {state : StateFile} {key : JsString} {maxTombstones : Nat}

theorem mem_tombstones : key ∈ tombstones state ↔ buried state key = true := by
  rw [tombstones, List.mem_filter, buried, Bool.and_eq_true, JsMap.has_iff, and_comm]

theorem perm_objectKeys {ν : Type} (map : JsMap JsString ν) : (objectKeys map).Perm map.keys :=
  perm_enumerated id map.keys

theorem perm_orderedTombstones (state : StateFile)
    : (orderedTombstones state).Perm (tombstones state) := by
  have distinct : (tombstones state).Nodup := state.retained.distinct.filter _
  have recorded : ∀ key, key ∈ (state.order.filter fun key =>
      !state.entries.has key && state.retained.has key).eraseDups → buried state key = true :=
    fun key member => (List.mem_filter.mp (List.mem_eraseDups.mp member)).2
  have ordered : (orderedTombstones state).Nodup := by
    refine List.nodup_append.mpr ⟨nodup_eraseDups _,
      ((perm_objectKeys state.retained).nodup_iff.mpr state.retained.distinct).filter _, ?_⟩
    rintro key inside _ outside rfl
    have apart := (List.mem_filter.mp outside).2
    simp only [Bool.and_eq_true, Bool.not_eq_true', List.contains_eq_mem,
      decide_eq_false_iff_not] at apart
    exact apart.2 inside
  refine (List.perm_ext_iff_of_nodup ordered distinct).mpr fun key => ?_
  rw [mem_tombstones]
  constructor
  · intro member
    rcases List.mem_append.mp member with first | second
    · exact recorded key first
    · obtain ⟨kept, dead⟩ := List.mem_filter.mp second
      rw [Bool.and_eq_true] at dead
      rw [buried, Bool.and_eq_true]
      exact ⟨dead.1, JsMap.has_iff.mpr (mem_of_mem_objectKeys kept)⟩
  · intro dead
    by_cases inside : key ∈ (state.order.filter fun key =>
        !state.entries.has key && state.retained.has key).eraseDups
    · exact List.mem_append_left _ inside
    · refine List.mem_append_right _ (List.mem_filter.mpr ⟨?_, ?_⟩)
      · rw [(perm_objectKeys state.retained).mem_iff]
        exact JsMap.has_iff.mp (Bool.and_eq_true_iff.mp dead).2
      · rw [Bool.and_eq_true]
        refine ⟨(Bool.and_eq_true_iff.mp dead).1, ?_⟩
        simp only [Bool.not_eq_true', List.contains_eq_mem, decide_eq_false_iff_not]
        exact inside

/-- Compaction only orders the tombstones where there is room for them. -/
theorem compact_of_room (room : (tombstones state).length ≤ maxTombstones)
    : compactStateTombstones maxTombstones state
      = {
          state with
          versions := some state.retained
          tombstoneOrder := some (orderedTombstones state)
        } := by
  have all : sliceLast maxTombstones (orderedTombstones state) = orderedTombstones state := by
    unfold sliceLast
    split
    · rfl
    · rw [(perm_orderedTombstones state).length_eq, Nat.sub_eq_zero_of_le room, List.drop_zero]
  have kept : (state.retained.filter fun key _ =>
      state.entries.has key || (orderedTombstones state).contains key) = state.retained := by
    refine JsMap.ext (List.filter_eq_self.mpr fun entry member => ?_)
    rw [Bool.or_eq_true]
    by_cases live : state.entries.has entry.1 = true
    · exact Or.inl live
    · refine Or.inr (List.elem_eq_true_of_mem ?_)
      rw [(perm_orderedTombstones state).mem_iff, mem_tombstones, buried, Bool.and_eq_true]
      exact ⟨by simpa using live, JsMap.has_iff.mpr (List.mem_map.mpr ⟨entry, member, rfl⟩)⟩
  unfold compactStateTombstones
  dsimp only
  rw [all, kept]

/-- The recorded order is kept where every tombstone is in it. -/
theorem orderedTombstones_of_listed
    (listed : ∀ key, buried state key = true → key ∈ state.order)
    : orderedTombstones state = (state.order.filter (buried state)).eraseDups := by
  have others : ((objectKeys state.retained).filter fun key => !state.entries.has key
      && !((state.order.filter fun key =>
        !state.entries.has key && state.retained.has key).eraseDups).contains key) = [] := by
    refine List.filter_eq_nil_iff.mpr fun key member => ?_
    simp only [Bool.and_eq_true, Bool.not_eq_true', List.contains_eq_mem, decide_eq_false_iff_not,
      not_and, not_not]
    intro dead
    have gone : buried state key = true := by
      rw [buried, dead, JsMap.has_iff.mpr (mem_of_mem_objectKeys member)]
      rfl
    exact List.mem_eraseDups.mpr (List.mem_filter.mpr ⟨listed key gone, gone⟩)
  unfold orderedTombstones
  dsimp only
  rw [others, List.append_nil]
  rfl

variable {limits : Limits} {now : Nat} {op : BatchOp}

variable {expected : Option Nat} {moved : Transition}

variable {present : Bool} {actual clock : Nat}

theorem transition_put {value identity : Json}
    (h : transition key expected (.put value identity) present actual clock = .ok moved)
    : ∃ version highWater, moved = .put value identity version highWater := by
  rw [transition_eq] at h
  split at h
  · cases h
  · split at h
    · dsimp only at h
      split at h
      · exact ⟨_, _, (Except.ok.inj h).symm⟩
      · cases h
    · cases h

theorem transition_delete (h : transition key expected .delete present actual clock = .ok moved)
    : moved = .unchanged ∨ ∃ version highWater, moved = .delete version highWater := by
  rw [transition_eq] at h
  split at h
  · cases h
  · split at h
    · dsimp only at h
      split at h
      · split at h
        · exact Or.inr ⟨_, _, (Except.ok.inj h).symm⟩
        · cases h
      · exact Or.inl (Except.ok.inj h).symm
    · cases h

variable {change : Change}

theorem captureStoragePut_change {value : Option Json} {identity : Json} {ifVersion : Option Json}
    (h : captureStoragePut limits value identity ifVersion = .ok (expected, change))
    : ∃ value', change = .put value' identity := by
  obtain ⟨version, -, h⟩ := bind_eq_ok.mp h
  cases value with
  | none => cases h
  | some value =>
      dsimp only at h
      split at h
      · cases h
      · exact ⟨value, (Prod.mk.inj (Except.ok.inj h)).2.symm⟩

def StateFile.settle (limits : Limits) (now : Nat) (key : JsString) (state : StateFile)
    : Transition → Option Nat × StateFile
  | .unchanged => (none, state)
  | .delete version highWater =>
      (some version, compactStateTombstones limits.maxStateTombstones {
        state.bury key version highWater with
        tombstoneOrder := some (state.order.filter (· ≠ key) ++ [key])
      })
  | .put value identity version highWater =>
      (some version, compactStateTombstones limits.maxStateTombstones {
        state.store key value identity version highWater now with
        tombstoneOrder := some (state.order.filter (· ≠ key))
      })

def Working.settle (now : Nat) (key : JsString) (working : Working)
    : Transition → Option Nat × Working
  | .unchanged => (none, working)
  | .delete version highWater =>
      (some version, {
        state := working.state.bury key version highWater
        tombstones := working.tombstones.filter (· ≠ key) ++ [key]
      })
  | .put value identity version highWater =>
      (some version, {
        state := working.state.store key value identity version highWater now
        tombstones := working.tombstones.filter (· ≠ key)
      })

/-- A write by itself decides as one of a batch does. -/
theorem applyAlone_eq (valid : validKey op.key = true) (state : StateFile)
    : applyAlone limits now op state = (do
        let slot ← stateSlot state op.key
        if ← op.allowed state then
          if op.ifVersion.all fun version =>
              Json.strictEqual (some version) (some (number slot.version)) then do
            let (expected, change) ← op.capture limits now
            let moved ← transition op.key expected change slot.present slot.version slot.highWater
            .ok (state.settle limits now op.key moved)
          else .ok (none, state)
        else .ok (none, state)) := by
  unfold applyAlone BatchOp.proceeds checkKey
  rw [if_pos valid]
  cases read : stateSlot state op.key with
  | error reason => rfl
  | ok slot =>
      simp only [bind, Except.bind]
      cases op.allowed state with
      | error reason => rfl
      | ok allowed =>
          cases allowed with
          | false => rfl
          | true =>
              simp only [if_true]
              split
              swap
              · rfl
              cases op with
              | put key value identity ifVersion onConflict =>
                  simp only [BatchOp.call, BatchOp.capture, BatchOp.key, State.put, checkKey] at *
                  rw [if_pos valid, read]
                  simp only [bind, Except.bind]
                  cases value.eval now with
                  | error reason => rfl
                  | ok value =>
                      simp only
                      cases captured : captureStoragePut limits value identity ifVersion with
                      | error reason => rfl
                      | ok request =>
                          obtain ⟨expected, change⟩ := request
                          obtain ⟨value', rfl⟩ := captureStoragePut_change captured
                          simp only
                          cases moves : transition key expected (.put value' identity) slot.present
                              slot.version slot.highWater with
                          | error reason => rfl
                          | ok moved =>
                              obtain ⟨version, highWater, rfl⟩ := transition_put moves
                              rfl
              | delete key ifVersion onConflict condition =>
                  simp only [BatchOp.call, BatchOp.capture, BatchOp.key, State.delete, checkKey] at *
                  rw [if_pos valid, read]
                  simp only [bind, Except.bind, captureStorageDelete]
                  cases captureVersion ifVersion with
                  | error reason => rfl
                  | ok expected =>
                      simp only
                      cases moves : transition key expected .delete slot.present
                          slot.version slot.highWater with
                      | error reason => rfl
                      | ok moved =>
                          rcases transition_delete moves with rfl | ⟨version, highWater, rfl⟩
                          · rfl
                          · rfl

/-- An operation of a batch that skips conflicts, with the version that it wrote. -/
theorem applyOp_written {working : Working} (skips : op.onConflict = .fixed .skip)
    : (applyOp limits now op working).map (fun done => (done.1.written, done.2)) = (do
        let slot ← stateSlot working.state op.key
        if ← op.allowed working.state then
          if op.ifVersion.all fun version =>
              Json.strictEqual (some version) (some (number slot.version)) then do
            let (expected, change) ← op.capture limits now
            let moved ← transition op.key expected change slot.present slot.version slot.highWater
            .ok (working.settle now op.key moved)
          else .ok (none, working)
        else .ok (none, working)) := by
  unfold applyOp
  cases stateSlot working.state op.key with
  | error reason => rfl
  | ok slot =>
      simp only [bind, Except.bind]
      cases op.allowed working.state with
      | error reason => rfl
      | ok allowed =>
          cases allowed with
          | false => rfl
          | true =>
              simp only [if_true, skips]
              have matching : (op.ifVersion.all fun version =>
                  Json.strictEqual (some version) (some (number slot.version)))
                  = (op.ifVersion.filter fun version =>
                    !Json.strictEqual (some version) (some (number slot.version))).isNone := by
                cases op.ifVersion with
                | none => rfl
                | some version =>
                    rw [Option.all_some, Option.filter_some]
                    cases Json.strictEqual (some version) (some (number slot.version)) <;> rfl
              rw [matching]
              cases op.ifVersion.filter fun version =>
                  !Json.strictEqual (some version) (some (number slot.version)) with
              | some expected => rfl
              | none =>
                  simp only [Option.isNone_none, if_true]
                  cases op.capture limits now with
                  | error reason => rfl
                  | ok request =>
                      simp only
                      cases transition op.key request.1 request.2 slot.present slot.version
                          slot.highWater with
                      | error reason => rfl
                      | ok moved => cases moved <;> rfl

theorem buried_store (state : StateFile) (key : JsString) (value identity : Json)
    (version highWater now : Nat) (other : JsString)
    : buried (state.store key value identity version highWater now) other
      = (decide (other ≠ key) && buried state other) := by
  simp only [buried, has_eq_isSome, StateFile.entries_store, StateFile.retained_store]
  by_cases same : other = key <;> simp [same]

theorem buried_bury (state : StateFile) (key : JsString) (version highWater : Nat)
    (other : JsString)
    : buried (state.bury key version highWater) other
      = (decide (other = key) || buried state other) := by
  simp only [buried, has_eq_isSome, StateFile.entries_bury, StateFile.retained_bury]
  by_cases same : other = key <;> simp [same]

/-- The order of a file lists the tombstones of a snapshot as the snapshot does. -/
structure InOrder (working : Working) (order : List JsString) : Prop where
  distinct : working.tombstones.Nodup
  listed : ∀ key, buried working.state key = true → key ∈ working.tombstones
  same : (order.filter (buried working.state)).eraseDups
    = working.tombstones.filter (buried working.state)

variable {working : Working} {order : List JsString}

theorem InOrder.start (listed : Listed state) : InOrder (begin state) state.order where
  distinct := nodup_eraseDups _
  listed := fun key dead => List.mem_eraseDups.mpr (listed key (mem_tombstones.mpr dead))
  same := eraseDups_filter _ _

/-- The order that the snapshot itself has. -/
theorem InOrder.self (h : InOrder working order)
    : InOrder working (working.tombstones.filter (buried working.state)) where
  distinct := h.distinct
  listed := h.listed
  same := by
    rw [List.filter_filter]
    simp only [Bool.and_self]
    exact eraseDups_of_nodup (h.distinct.filter _)

theorem InOrder.ordered (h : InOrder working order)
    : orderedTombstones { working.state with tombstoneOrder := some order }
      = working.tombstones.filter (buried working.state) := by
  refine (orderedTombstones_of_listed fun key dead => ?_).trans h.same
  have member : key ∈ working.tombstones.filter (buried working.state) :=
    List.mem_filter.mpr ⟨h.listed key dead, dead⟩
  rw [← h.same] at member
  exact (List.mem_filter.mp (List.mem_eraseDups.mp member)).1

theorem InOrder.store (h : InOrder working order) (key : JsString) (value identity : Json)
    (version highWater now : Nat)
    : InOrder (working.settle now key (.put value identity version highWater)).2
        (order.filter (· ≠ key)) := by
  have dead : buried (working.state.store key value identity version highWater now)
      = fun other => decide (other ≠ key) && buried working.state other :=
    funext fun other => buried_store ..
  have split (items : List JsString) : (items.filter (· ≠ key)).filter (fun other =>
      decide (other ≠ key) && buried working.state other)
      = (items.filter (buried working.state)).filter (· ≠ key) := by
    rw [List.filter_filter, List.filter_filter]
    refine List.filter_congr fun other _ => ?_
    cases decide (other ≠ key) <;> simp
  refine ⟨h.distinct.filter _, fun other gone => ?_, ?_⟩
  · rw [Working.settle, dead, Bool.and_eq_true] at gone
    exact List.mem_filter.mpr ⟨h.listed other gone.2, gone.1⟩
  · rw [Working.settle, dead, split, split, eraseDups_filter, h.same]

theorem InOrder.bury (h : InOrder working order) (key : JsString) (version highWater : Nat)
    : InOrder (working.settle now key (.delete version highWater)).2
        (order.filter (· ≠ key) ++ [key]) := by
  have dead : buried (working.state.bury key version highWater)
      = fun other => decide (other = key) || buried working.state other :=
    funext fun other => buried_bury ..
  have split (items : List JsString) : (items.filter (· ≠ key) ++ [key]).filter (fun other =>
      decide (other = key) || buried working.state other)
      = (items.filter (buried working.state)).filter (· ≠ key) ++ [key] := by
    rw [List.filter_append, List.filter_filter, List.filter_filter]
    congr 1
    · refine List.filter_congr fun other _ => ?_
      by_cases same : other = key <;> simp [same]
    · simp
  have absent (items : List JsString) : key ∉ items.filter (· ≠ key) := by
    simp
  refine ⟨?_, fun other gone => ?_, ?_⟩
  · refine List.nodup_append.mpr ⟨h.distinct.filter _, List.nodup_singleton _, ?_⟩
    rintro other inside _ last rfl
    rw [List.mem_singleton.mp last] at inside
    exact absent _ inside
  · rw [Working.settle, dead, Bool.or_eq_true, decide_eq_true_eq] at gone
    by_cases same : other = key
    · rw [same]
      exact List.mem_append_right _ (List.mem_singleton_self key)
    · exact List.mem_append_left _ (List.mem_filter.mpr
        ⟨h.listed other (gone.resolve_left same), decide_eq_true same⟩)
  · rw [Working.settle, dead, split, split, List.eraseDups_append, eraseDups_filter, h.same]
    have last : [key].removeAll ((order.filter (buried working.state)).filter (· ≠ key))
        = [key] := by
      rw [List.removeAll, List.filter_eq_self]
      rintro other member
      obtain rfl := List.mem_singleton.mp member
      simp
    rw [last]
    rfl

/-- A file after single writes beside the snapshot of the batch: the same but for the order of the
tombstones, and the same order where the first file lists them all.
-/
structure Level (first : StateFile) (working : Working) (state : StateFile) : Prop where
  same : state = { working.state with tombstoneOrder := state.tombstoneOrder }
  order : Listed first → InOrder working state.order
  touched : working.state = first ∧ state = first
    ∨ first.recorded < working.state.recorded
      ∧ working.state.versions = some working.state.retained
      ∧ (Listed first →
        state.tombstoneOrder = some (working.tombstones.filter (buried working.state)))

theorem Level.start (state : StateFile) : Level state (begin state) state :=
  ⟨rfl, InOrder.start, Or.inl ⟨rfl, rfl⟩⟩

variable {first : StateFile}

theorem Level.recorded_le (h : Level first working state)
    : first.recorded ≤ working.state.recorded := by
  rcases h.touched with ⟨same, -⟩ | ⟨later, -⟩
  · rw [same]
  · exact later.le

/-- A change of the snapshot, and the same change of the file with its compaction. -/
theorem Level.compact {next : Working}
    (changed : next.state.versions = some next.state.retained)
    (later : first.recorded < next.state.recorded)
    (room : (tombstones next.state).length ≤ limits.maxStateTombstones)
    (ordered : Listed first → InOrder next order)
    : Level first next (compactStateTombstones limits.maxStateTombstones
        { next.state with tombstoneOrder := some order }) := by
  have compacted := @compact_of_room { next.state with tombstoneOrder := some order }
    limits.maxStateTombstones room
  have versions : some next.state.retained = next.state.versions := changed.symm
  have kept (listed : Listed first) := (ordered listed).ordered
  rw [compacted]
  refine ⟨?_, fun listed => ?_, Or.inr ⟨later, changed, fun listed => ?_⟩⟩
  · change StateFile.mk _ _ _ (some next.state.retained) _ _ = _
    rw [versions]
  · change InOrder next (orderedTombstones { next.state with tombstoneOrder := some order })
    rw [kept listed]
    exact (ordered listed).self
  · exact congrArg some (kept listed)

variable {slot : Slot}

/-- An operation does the same to both. -/
theorem Level.settle (h : Level first working state) (read : stateSlot working.state key = .ok slot)
    (moves : transition key expected change slot.present slot.version slot.highWater = .ok moved)
    (room : (tombstones (working.settle now key moved).2.state).length
      ≤ limits.maxStateTombstones)
    : (working.settle now key moved).1 = (state.settle limits now key moved).1
      ∧ Level first (working.settle now key moved).2 (state.settle limits now key moved).2 := by
  have clock := (stateSlot_eq read).2.2
  have takes := (transition_ok moves).2
  have floor := h.recorded_le.trans working.state.recorded_le_clock
  obtain ⟨file, same⟩ : ∃ order, state = { working.state with tombstoneOrder := order } :=
    ⟨_, h.same⟩
  cases moved with
  | unchanged => exact ⟨rfl, h⟩
  | delete version highWater =>
      refine ⟨rfl, ?_⟩
      have later : first.recorded < (working.state.bury key version highWater).recorded := by
        change first.recorded < highWater
        obtain ⟨-, -, rfl⟩ := takes
        omega
      have level : Level first (working.settle now key (.delete version highWater)).2
          (compactStateTombstones limits.maxStateTombstones {
            working.state.bury key version highWater with
            tombstoneOrder := some (state.order.filter (· ≠ key) ++ [key])
          }) :=
        .compact rfl later room fun listed => (h.order listed).bury key version highWater
      rw [same] at level ⊢
      exact level
  | put value identity version highWater =>
      refine ⟨rfl, ?_⟩
      have later : first.recorded
          < (working.state.store key value identity version highWater now).recorded := by
        change first.recorded < highWater
        obtain ⟨-, rfl⟩ := takes
        omega
      have level : Level first (working.settle now key (.put value identity version highWater)).2
          (compactStateTombstones limits.maxStateTombstones {
            working.state.store key value identity version highWater now with
            tombstoneOrder := some (state.order.filter (· ≠ key))
          }) :=
        .compact rfl later room fun listed =>
          (h.order listed).store key value identity version highWater now
      rw [same] at level ⊢
      exact level

/-- One operation of a batch, and the single write. -/
theorem applyOp_level (h : Level first working state) (valid : validKey op.key = true)
    (skips : op.onConflict = .fixed .skip)
    (room : ∀ result next, applyOp limits now op working = .ok (result, next) →
      (tombstones next.state).length ≤ limits.maxStateTombstones)
    : Alike (Level first)
        ((applyOp limits now op working).map fun done => (done.1.written, done.2))
        (applyAlone limits now op state) := by
  have slots : stateSlot state op.key = stateSlot working.state op.key := by
    rw [h.same]
    rfl
  have permits : op.allowed state = op.allowed working.state := by
    rw [h.same]
    cases op <;> rfl
  have written := @applyOp_written limits now op working skips
  rw [written, applyAlone_eq valid, slots, permits]
  refine Alike.bind_ok fun slot read => Alike.bind_ok fun allowed isAllowed => ?_
  cases allowed with
  | false => exact ⟨rfl, h⟩
  | true =>
      simp only [if_true]
      split
      swap
      · exact ⟨rfl, h⟩
      next matching =>
      refine Alike.bind_ok fun request captured => Alike.bind_ok fun moved moves => ?_
      have done : (applyOp limits now op working).map (fun done => (done.1.written, done.2))
          = .ok (working.settle now op.key moved) := by
        rw [written, read, isAllowed]
        simp only [bind, Except.bind, if_true, matching, captured, moves]
      obtain ⟨⟨result, next⟩, applied, same⟩ := map_eq_ok.mp done
      refine h.settle read moves ?_
      rw [← same]
      exact room result next applied

theorem applyOps_written_cons (op : BatchOp) (rest : List BatchOp)
    : (applyOps limits now (op :: rest) working).map
        (fun done => (done.1.map BatchResult.written, done.2))
      = ((applyOp limits now op working).map fun done => (done.1.written, done.2)) >>= fun done =>
          ((applyOps limits now rest done.2).map fun done =>
            (done.1.map BatchResult.written, done.2)) >>= fun others =>
          .ok (done.1 :: others.1, others.2) := by
  conv_lhs => unfold applyOps
  cases applyOp limits now op working with
  | error reason => rfl
  | ok done =>
      obtain ⟨result, next⟩ := done
      simp only [bind, Except.bind, Except.map]
      cases applyOps limits now rest next <;> rfl

theorem applyEach_cons (op : BatchOp) (rest : List BatchOp)
    : applyEach limits now acceptAll (op :: rest) state
      = applyAlone limits now op state >>= fun done =>
          applyEach limits now acceptAll rest done.2 >>= fun others =>
          .ok (done.1 :: others.1, others.2) := by
  conv_lhs => unfold applyEach
  cases applyAlone limits now op state with
  | error reason => rfl
  | ok done =>
      obtain ⟨written, next⟩ := done
      cases written <;> rfl

/-- What the operations of a batch and the single writes keep, by induction over them. -/
theorem applyOps_each {related : List BatchOp → Working → StateFile → Prop}
    (step : ∀ op rest working state, related (op :: rest) working state →
      Alike (related rest)
        ((applyOp limits now op working).map fun done => (done.1.written, done.2))
        (applyAlone limits now op state))
    {ops : List BatchOp} (h : related ops working state)
    : Alike (related [])
        ((applyOps limits now ops working).map fun done =>
          (done.1.map BatchResult.written, done.2))
        (applyEach limits now acceptAll ops state) := by
  induction ops generalizing working state with
  | nil => exact ⟨rfl, h⟩
  | cons op rest ih =>
      rw [applyOps_written_cons, applyEach_cons]
      refine (step op rest working state h).bind fun written next next' together => ?_
      exact (ih together).bind fun others last last' final => ⟨rfl, final⟩

/-- Operations that skip conflicts, on keys of the store. -/
def Skipping (ops : List BatchOp) : Prop :=
  ∀ op ∈ ops, validKey op.key = true ∧ op.onConflict = .fixed .skip

theorem applyOps_level {ops : List BatchOp} (h : Level first working state)
    (skips : Skipping ops) (room : Roomy limits now ops working)
    : Alike (Level first)
        ((applyOps limits now ops working).map fun done =>
          (done.1.map BatchResult.written, done.2))
        (applyEach limits now acceptAll ops state) := by
  have run := @applyOps_each state limits now working
    (fun ops working state => Level first working state ∧ Skipping ops
      ∧ Roomy limits now ops working) ?_ ops ⟨h, skips, room⟩
  · exact run.imp fun _ _ related => related.1
  · rintro op rest working state ⟨level, skips, room⟩
    have fits : ∀ result next, applyOp limits now op working = .ok (result, next) →
        (tombstones next.state).length ≤ limits.maxStateTombstones := by
      intro result next applied
      have left := room.2 result next applied
      cases rest with
      | nil => exact left
      | cons => exact left.1
    obtain ⟨valid, skip⟩ := skips op List.mem_cons_self
    refine (applyOp_level level valid skip fits).with_left.imp ?_
    rintro next next' ⟨level', written, returned⟩
    obtain ⟨⟨result, next⟩, applied, same⟩ := map_eq_ok.mp returned
    obtain ⟨rfl, rfl⟩ := Prod.mk.inj same
    exact ⟨level', fun other member => skips other (List.mem_cons_of_mem _ member),
      room.2 result next applied⟩

/-- A single write that wrote nothing leaves the file. -/
theorem applyAlone_unwritten {next : StateFile}
    (h : applyAlone limits now op state = .ok (none, next)) : next = state := by
  obtain ⟨⟨⟩, checked, h⟩ := bind_eq_ok.mp h
  have valid : validKey op.key = true := by
    unfold checkKey at checked
    split at checked
    · assumption
    · cases checked
  have whole : applyAlone limits now op state = .ok (none, next) := by
    unfold applyAlone
    rw [checked]
    exact h
  rw [applyAlone_eq valid] at whole
  obtain ⟨slot, -, whole⟩ := bind_eq_ok.mp whole
  obtain ⟨allowed, -, whole⟩ := bind_eq_ok.mp whole
  split at whole
  · split at whole
    · obtain ⟨request, -, whole⟩ := bind_eq_ok.mp whole
      obtain ⟨moved, -, whole⟩ := bind_eq_ok.mp whole
      cases moved with
      | unchanged => exact (Prod.mk.inj (Except.ok.inj whole)).2.symm
      | delete version highWater => cases (Prod.mk.inj (Except.ok.inj whole)).1
      | put value identity version highWater => cases (Prod.mk.inj (Except.ok.inj whole)).1
    · exact (Prod.mk.inj (Except.ok.inj whole)).2.symm
  · exact (Prod.mk.inj (Except.ok.inj whole)).2.symm

variable {versions : List (Option Nat)}

/-- Single writes that a commit accepts return without it, and the last file is accepted if it is a
new one, by induction over them.
-/
theorem applyEach_accepted {accepts : StateFile → Except StateError Unit} {ops : List BatchOp}
    {last : StateFile} (h : applyEach limits now accepts ops state = .ok (versions, last))
    : applyEach limits now acceptAll ops state = .ok (versions, last)
      ∧ (last = state ∨ accepts last = .ok ())
      ∧ ∀ op ∈ ops, validKey op.key = true := by
  induction ops generalizing state versions with
  | nil =>
      obtain ⟨rfl, rfl⟩ := Prod.mk.inj (Except.ok.inj h)
      exact ⟨rfl, Or.inl rfl, fun _ none_ => by cases none_⟩
  | cons op rest ih =>
      obtain ⟨⟨written, next⟩, alone, h⟩ := bind_eq_ok.mp h
      have parts : (written = none ∨ accepts next = .ok ())
          ∧ ∃ others, applyEach limits now accepts rest next = .ok (others, last)
            ∧ versions = written :: others := by
        cases written with
        | none =>
            obtain ⟨⟨⟩, -, h⟩ := bind_eq_ok.mp h
            obtain ⟨⟨others, final⟩, each, h⟩ := bind_eq_ok.mp h
            obtain ⟨rfl, rfl⟩ := Prod.mk.inj (Except.ok.inj h)
            exact ⟨Or.inl rfl, others, each, rfl⟩
        | some version =>
            obtain ⟨⟨⟩, accepted, h⟩ := bind_eq_ok.mp h
            obtain ⟨⟨others, final⟩, each, h⟩ := bind_eq_ok.mp h
            obtain ⟨rfl, rfl⟩ := Prod.mk.inj (Except.ok.inj h)
            exact ⟨Or.inr accepted, others, each, rfl⟩
      obtain ⟨accepted, others, each, rfl⟩ := parts
      obtain ⟨free, kept, valid⟩ := ih each
      refine ⟨?_, ?_, fun other member => ?_⟩
      · rw [applyEach_cons, alone, ok_bind, free]
        rfl
      · rcases kept with same | kept
        · cases written with
          | none =>
              exact Or.inl (same.trans (applyAlone_unwritten alone))
          | some version =>
              rw [same]
              exact Or.inr (accepted.resolve_left (by simp))
        · exact Or.inr kept
      · rcases List.mem_cons.mp member with rfl | inside
        · obtain ⟨⟨⟩, checked, -⟩ := bind_eq_ok.mp alone
          unfold checkKey at checked
          split at checked
          · assumption
          · cases checked
        · exact valid other inside

/-- A batch applies nothing and leaves its snapshot, or advances its clock, by induction over its
operations.
-/
theorem applyOps_recorded {ops : List BatchOp} {results : List BatchResult} {last : Working}
    (h : applyOps limits now ops working = .ok (results, last))
    : results.any BatchResult.applied = false ∧ last = working
      ∨ results.any BatchResult.applied = true
        ∧ working.state.recorded < last.state.recorded := by
  induction ops generalizing working results with
  | nil =>
      obtain ⟨rfl, rfl⟩ := Prod.mk.inj (Except.ok.inj h)
      exact Or.inl ⟨rfl, rfl⟩
  | cons op rest ih =>
      obtain ⟨⟨result, next⟩, one, h⟩ := bind_eq_ok.mp h
      obtain ⟨⟨others, final⟩, all, h⟩ := bind_eq_ok.mp h
      obtain ⟨rfl, rfl⟩ := Prod.mk.inj (Except.ok.inj h)
      rw [List.any_cons]
      rcases applyOp_ok one with ⟨skipped, rfl⟩ | ⟨applied, change⟩
      · rw [skipped, Bool.false_or]
        exact ih all
      · rw [applied, Bool.true_or]
        have first : working.state.recorded < next.state.recorded := by
          rw [change.recorded]
          exact Nat.lt_succ_of_le working.state.recorded_le_clock
        rcases ih all with ⟨_, same⟩ | ⟨_, more⟩
        · exact Or.inr ⟨rfl, same ▸ first⟩
        · exact Or.inr ⟨rfl, first.trans more⟩

theorem Roomy.last {ops : List BatchOp} {results : List BatchResult} {last : Working}
    (room : Roomy limits now ops working)
    (h : applyOps limits now ops working = .ok (results, last))
    : (tombstones last.state).length ≤ limits.maxStateTombstones := by
  induction ops generalizing working results with
  | nil =>
      obtain ⟨-, rfl⟩ := Prod.mk.inj (Except.ok.inj h)
      exact room
  | cons op rest ih =>
      obtain ⟨⟨result, next⟩, one, h⟩ := bind_eq_ok.mp h
      obtain ⟨⟨others, final⟩, all, h⟩ := bind_eq_ok.mp h
      obtain ⟨-, rfl⟩ := Prod.mk.inj (Except.ok.inj h)
      exact ih (room.2 result next one) all

/-- What a batch stores, beside the file that the single writes left. -/
theorem Level.stored {last : Working} (h : Level first last state)
    (later : first.recorded < last.state.recorded)
    (room : (tombstones last.state).length ≤ limits.maxStateTombstones)
    : (Listed first → compactStateTombstones limits.maxStateTombstones
        { last.state with tombstoneOrder := some last.tombstones } = state)
      ∧ state = {
          compactStateTombstones limits.maxStateTombstones
            { last.state with tombstoneOrder := some last.tombstones } with
          tombstoneOrder := state.tombstoneOrder
        } := by
  have compacted := @compact_of_room { last.state with tombstoneOrder := some last.tombstones }
    limits.maxStateTombstones room
  rcases h.touched with ⟨same, -⟩ | ⟨-, changed, ordered⟩
  · rw [same] at later
    exact absurd later (Nat.lt_irrefl _)
  have whole : state = {
      compactStateTombstones limits.maxStateTombstones
        { last.state with tombstoneOrder := some last.tombstones } with
      tombstoneOrder := state.tombstoneOrder
    } := by
    rw [compacted]
    refine h.same.trans ?_
    change _ = StateFile.mk _ _ _ (some last.state.retained) _ _
    rw [← changed]
  refine ⟨fun listed => ?_, whole⟩
  have inOrder := h.order listed
  have self : InOrder last last.tombstones :=
    ⟨inOrder.distinct, inOrder.listed, eraseDups_of_nodup (inOrder.distinct.filter _)⟩
  have same : (compactStateTombstones limits.maxStateTombstones
      { last.state with tombstoneOrder := some last.tombstones }).tombstoneOrder
      = state.tombstoneOrder := by
    rw [compacted, ordered listed]
    exact congrArg some self.ordered
  rw [whole, ← same]

/-- A file after single writes beside the snapshot of a batch: the same entries and clock. The
single writes may have evicted tombstones, whose revisions the clock has passed.
-/
structure Behind (working : Working) (state : StateFile) : Prop where
  entries : state.entries = working.state.entries
  format : state.format = working.state.format
  revisionFormat : state.revisionFormat = working.state.revisionFormat
  highWater : state.highWater = working.state.highWater
  live : ∀ key, working.state.entries.has key = true →
    state.retained.get? key = working.state.retained.get? key
  kept : ∀ key revision, state.retained.get? key = some revision →
    working.state.retained.get? key = some revision
  passed : state.retained = working.state.retained
    ∨ ∀ key revision, working.state.retained.get? key = some revision →
      ∃ version ≤ working.state.recorded, storageRevision (some revision) = .ok version

theorem Behind.start (state : StateFile) : Behind (begin state) state :=
  ⟨rfl, rfl, rfl, rfl, fun _ _ => rfl, fun _ _ found => found, Or.inl rfl⟩

theorem stateSlot_retained (read : stateSlot state key = .ok slot) {other : JsString}
    {revision : Json} (found : state.retained.get? other = some revision)
    : ∃ version ≤ state.clock, storageRevision (some revision) = .ok version := by
  obtain ⟨rows, valid, -⟩ := bind_eq_ok.mp read
  have listed : revision ∈ state.retained.values :=
    List.mem_map_of_mem (JsMap.get?_eq_some_iff.mp found)
  obtain ⟨version, ok⟩ : ∃ version, storageRevision (some revision) = .ok version := by
    obtain ⟨version, -, ok⟩ := exists_of_mapM_eq_ok valid listed
    exact ⟨version, ok⟩
  refine ⟨version, ?_, ok⟩
  rw [eq_revisionOf ok]
  refine (le_foldl_max (Or.inr (List.mem_append_left _ ?_))).trans (le_max_right ..)
  exact List.mem_map.mpr ⟨revision, listed, rfl⟩

/-- A clock of which only the maximum counts. -/
theorem readClock_congr {first second : Nat}
    (same : max state.recorded first = max state.recorded second)
    : readClock state first = readClock state second := by
  unfold readClock
  cases marked : state.highWater with
  | none =>
      have none_ : state.recorded = 0 := by
        unfold StateFile.recorded
        rw [marked]
        rfl
      rw [none_, Nat.zero_max, Nat.zero_max] at same
      rw [same]
  | some recorded =>
      dsimp only
      cases read : storageRevision (some recorded) with
      | error reason => rfl
      | ok value =>
          have clock : value = state.recorded := by
            rw [StateFile.recorded, marked]
            exact eq_revisionOf read
          rw [clock]
          exact congrArg Except.ok same

theorem max_foldl_append {bound : Nat} {passed others : List Nat}
    (below : ∀ value ∈ passed, value ≤ bound)
    : max bound ((passed ++ others).foldl max 0) = max bound (others.foldl max 0) := by
  refine le_antisymm (max_le (le_max_left ..) ?_) (max_le (le_max_left ..) ?_)
  · refine foldl_max_le (Nat.zero_le _) fun value member => ?_
    rcases List.mem_append.mp member with first | second
    · exact (below value first).trans (le_max_left ..)
    · exact (le_foldl_max (Or.inr second)).trans (le_max_right ..)
  · refine (foldl_max_le (Nat.zero_le _) fun value member => ?_).trans (le_max_right ..)
    exact le_foldl_max (Or.inr (List.mem_append_right _ member))

theorem exists_rows (passed : ∀ key revision, state.retained.get? key = some revision →
      ∃ version ≤ working.state.recorded, storageRevision (some revision) = .ok version)
    : ∃ rows, state.retained.values.mapM (fun revision => storageRevision (some revision))
        = .ok rows ∧ ∀ row ∈ rows, row ≤ working.state.recorded := by
  have each : ∀ revision ∈ state.retained.values,
      ∃ version ≤ working.state.recorded, storageRevision (some revision) = .ok version := by
    intro revision member
    obtain ⟨⟨key, _⟩, inside, rfl⟩ := List.mem_map.mp member
    exact passed key _ (JsMap.get?_eq_some_iff.mpr inside)
  obtain ⟨rows, read⟩ := exists_mapM_eq_ok fun revision member =>
    (each revision member).imp fun _ h => h.2
  refine ⟨rows, read, fun row member => ?_⟩
  rw [mapM_eq_map (fun _ _ read => eq_revisionOf read) read] at member
  obtain ⟨revision, listed, rfl⟩ := List.mem_map.mp member
  obtain ⟨version, below, ok⟩ := each revision listed
  rw [← eq_revisionOf ok]
  exact below

/-- Both slots of a key agree, but for the revision that a tombstone retains. -/
structure Agrees (slot slot' : Slot) : Prop where
  present : slot'.present = slot.present
  highWater : slot'.highWater = slot.highWater
  version : slot.present = true → slot'.version = slot.version

/-- A key without an entry has a revision where all that is retained are revisions. -/
theorem exists_readVersion {bound : Nat} (dead : state.entries.get? key = none)
    (valid : ∀ key revision, state.retained.get? key = some revision →
      ∃ version ≤ bound, storageRevision (some revision) = .ok version)
    : ∃ version, readVersion state key = .ok version := by
  unfold readVersion
  rw [dead]
  cases kept : state.retained.get? key with
  | none => exact ⟨0, rfl⟩
  | some revision =>
      obtain ⟨version, -, read⟩ := valid key revision kept
      exact ⟨version, read⟩

theorem Behind.slots (h : Behind working state) (key : JsString)
    : (∃ reason, stateSlot working.state key = .error reason ∧ stateSlot state key = .error reason)
      ∨ ∃ slot slot', stateSlot working.state key = .ok slot ∧ stateSlot state key = .ok slot'
        ∧ Agrees slot slot' := by
  rcases h.passed with same | passed
  · have slots : stateSlot state key = stateSlot working.state key := by
      unfold stateSlot readVersion checkProtocol readClock
      rw [same, h.entries, h.format, h.revisionFormat, h.highWater]
    rw [slots]
    cases stateSlot working.state key with
    | error reason => exact Or.inl ⟨reason, rfl, rfl⟩
    | ok slot => exact Or.inr ⟨slot, slot, rfl, rfl, ⟨rfl, rfl, fun _ => rfl⟩⟩
  obtain ⟨rows, read, below⟩ := @exists_rows working.state working passed
  obtain ⟨rows', read', below'⟩ := @exists_rows state working
    fun key revision found => passed key revision (h.kept key revision found)
  have revisions : state.entries.entries.mapM (fun entry =>
        entryRevision state.retained entry.1 entry.2)
      = working.state.entries.entries.mapM (fun entry =>
        entryRevision working.state.retained entry.1 entry.2) := by
    rw [h.entries]
    refine mapM_congr_mem fun entry member => ?_
    have live : working.state.entries.has entry.1 = true :=
      JsMap.has_iff.mpr (List.mem_map.mpr ⟨entry, member, rfl⟩)
    unfold entryRevision agrees
    rw [h.live entry.1 live]
  have protocol : checkProtocol state = checkProtocol working.state := by
    unfold checkProtocol
    rw [h.format, h.revisionFormat, h.highWater]
  have recorded : state.recorded = working.state.recorded := by
    unfold StateFile.recorded
    rw [h.highWater]
  have clock (versions : List Nat) : readClock state ((rows' ++ versions).foldl max 0)
      = readClock working.state ((rows ++ versions).foldl max 0) := by
    have marked (most : Nat) : readClock state most = readClock working.state most := by
      unfold readClock
      rw [h.highWater]
    rw [marked]
    exact readClock_congr ((max_foldl_append below').trans (max_foldl_append below).symm)
  have version : (∃ reason, readVersion working.state key = .error reason
        ∧ readVersion state key = .error reason)
      ∨ ∃ version version', readVersion working.state key = .ok version
        ∧ readVersion state key = .ok version'
        ∧ (working.state.entries.has key = true → version' = version) := by
    cases found : working.state.entries.get? key with
    | some entry =>
        have live : working.state.entries.has key = true := JsMap.has_of_get? found
        have same : readVersion state key = readVersion working.state key := by
          unfold readVersion entryRevision agrees
          rw [h.entries, found]
          dsimp only
          rw [h.live key live]
        rw [same]
        cases readVersion working.state key with
        | error reason => exact Or.inl ⟨reason, rfl, rfl⟩
        | ok version => exact Or.inr ⟨version, version, rfl, rfl, fun _ => rfl⟩
    | none =>
        have dead : working.state.entries.has key ≠ true := by
          rw [has_eq_isSome, found]
          simp
        obtain ⟨version, first⟩ := exists_readVersion found passed
        obtain ⟨version', second⟩ := exists_readVersion (h.entries ▸ found)
          fun other revision kept => passed other revision (h.kept other revision kept)
        exact Or.inr ⟨version, version', first, second, fun live => absurd live dead⟩
  unfold stateSlot
  rw [read, read', revisions, protocol]
  simp only [bind, Except.bind, clock]
  cases working.state.entries.entries.mapM (fun entry =>
      entryRevision working.state.retained entry.1 entry.2) with
  | error reason => exact Or.inl ⟨reason, rfl, rfl⟩
  | ok versions =>
      cases checkProtocol working.state with
      | error reason => exact Or.inl ⟨reason, rfl, rfl⟩
      | ok checked =>
          dsimp only
          cases readClock working.state ((rows ++ versions).foldl max 0) with
          | error reason => exact Or.inl ⟨reason, rfl, rfl⟩
          | ok highWater =>
              dsimp only
              rcases version with ⟨reason, first, second⟩ | ⟨version, version', first, second, same⟩
              · rw [first, second]
                exact Or.inl ⟨reason, rfl, rfl⟩
              · rw [first, second]
                refine Or.inr ⟨_, _, rfl, rfl, ?_, rfl, same⟩
                rw [h.entries]

/-- Without an expectation a transition does not depend on the revision of a tombstone. -/
theorem transition_unconditional {actual' : Nat} (below : actual ≤ clock) (below' : actual' ≤ clock)
    (same : present = true → actual' = actual)
    : transition key none change present actual' clock
      = transition key none change present actual clock := by
  rw [transition_eq, transition_eq, if_neg (not_lt.mpr below), if_neg (not_lt.mpr below')]
  simp only [Option.all_none, if_true]
  cases present with
  | true => rw [same rfl]
  | false => cases change <;> rfl

theorem StateFile.store_retained (state : StateFile) (key : JsString) (value identity : Json)
    (version highWater now : Nat)
    : (state.store key value identity version highWater now).retained
      = state.retained.set key (number version) := rfl

theorem StateFile.bury_retained (state : StateFile) (key : JsString) (version highWater : Nat)
    : (state.bury key version highWater).retained = state.retained.set key (number version) := rfl

variable {file : StateFile}

theorem Behind.compact (h : Behind working state) {next : StateFile} {tombstones : List JsString}
    {version : Nat} (read : stateSlot working.state key = .ok slot)
    (entries : file.entries = next.entries) (format : file.format = next.format)
    (revisionFormat : file.revisionFormat = next.revisionFormat)
    (highWater : file.highWater = next.highWater)
    (retained : next.retained = working.state.retained.set key (number version))
    (retained' : file.retained = state.retained.set key (number version))
    (others : ∀ other, other ≠ key → next.entries.has other = working.state.entries.has other)
    (advanced : working.state.clock < next.recorded) (issued : version ≤ next.recorded)
    (safe : version ≤ maxSafeInteger) (order : List JsString)
    : Behind ⟨next, tombstones⟩ (compactStateTombstones limits.maxStateTombstones
        { file with tombstoneOrder := some order }) := by
  have found (other : JsString) : (compactStateTombstones limits.maxStateTombstones
      { file with tombstoneOrder := some order }).retained.get? other
      = (if other = key then some (number version) else state.retained.get? other).filter fun _ =>
        file.entries.has other || (sliceLast limits.maxStateTombstones
          (orderedTombstones { file with tombstoneOrder := some order })).contains other := by
    rw [compact_retained]
    change Option.filter _ (file.retained.get? other) = _
    rw [retained', JsMap.get?_set]
  have found' (other : JsString) : next.retained.get? other
      = if other = key then some (number version) else working.state.retained.get? other := by
    rw [retained, JsMap.get?_set]
  refine ⟨entries, format, revisionFormat, highWater, fun other live => ?_,
    fun other revision kept => ?_, Or.inr fun other revision kept => ?_⟩
  · dsimp only at live ⊢
    rw [found, found', entries, live]
    by_cases same : other = key
    · rw [if_pos same, if_pos same]
      rfl
    · rw [if_neg same, if_neg same, h.live other ((others other same).symm.trans live)]
      cases working.state.retained.get? other <;> rfl
  · dsimp only
    rw [found, Option.filter_eq_some_iff] at kept
    rw [found']
    by_cases same : other = key
    · rw [if_pos same] at kept ⊢
      exact kept.1
    · rw [if_neg same] at kept ⊢
      exact h.kept other revision kept.1
  · dsimp only at kept ⊢
    rw [found'] at kept
    by_cases same : other = key
    · rw [if_pos same] at kept
      rw [← Option.some.inj kept]
      exact ⟨version, issued, storageRevision_number safe⟩
    · rw [if_neg same] at kept
      obtain ⟨earlier, below, ok⟩ := stateSlot_retained read kept
      exact ⟨earlier, below.trans advanced.le, ok⟩

/-- An unconditional operation does the same to both. -/
theorem Behind.settle (h : Behind working state) (read : stateSlot working.state key = .ok slot)
    (moves : transition key none change slot.present slot.version slot.highWater = .ok moved)
    : (working.settle now key moved).1 = (state.settle limits now key moved).1
      ∧ Behind (working.settle now key moved).2 (state.settle limits now key moved).2 := by
  obtain ⟨-, actual, clock⟩ := stateSlot_eq read
  have takes := (transition_ok moves).2
  have below := working.state.versionOf_le_clock key
  rw [← actual, ← clock] at below
  rcases transition_room moves with rfl | room
  · exact ⟨rfl, h⟩
  cases moved with
  | unchanged => exact ⟨rfl, h⟩
  | delete version highWater =>
      obtain ⟨-, issued, advanced⟩ := takes
      have recorded : (working.state.bury key version highWater).recorded = highWater := rfl
      have entries : (state.bury key version highWater).entries
          = (working.state.bury key version highWater).entries := by
        change state.entries.delete key = working.state.entries.delete key
        rw [h.entries]
      refine ⟨rfl, h.compact read entries rfl rfl rfl
        (working.state.bury_retained key version highWater)
        (state.bury_retained key version highWater) (fun other apart => ?_) ?_ ?_ ?_ _⟩
      · rw [has_eq_isSome, has_eq_isSome]
        exact congrArg Option.isSome ((JsMap.get?_delete ..).trans (if_neg apart))
      · rw [recorded]
        omega
      · rw [recorded]
        omega
      · omega
  | put value identity version highWater =>
      obtain ⟨issued, advanced⟩ := takes
      have recorded : (working.state.store key value identity version highWater now).recorded
          = highWater := rfl
      have bound : version ≤ slot.highWater + 1 := by
        rw [issued]
        split <;> omega
      have entries : (state.store key value identity version highWater now).entries
          = (working.state.store key value identity version highWater now).entries := by
        change state.entries.set key _ = working.state.entries.set key _
        rw [h.entries]
      refine ⟨rfl, h.compact read entries rfl rfl rfl
        (working.state.store_retained key value identity version highWater now)
        (state.store_retained key value identity version highWater now)
        (fun other apart => ?_) ?_ ?_ ?_ _⟩
      · rw [has_eq_isSome, has_eq_isSome]
        exact congrArg Option.isSome ((JsMap.get?_set ..).trans (if_neg apart))
      · rw [recorded]
        omega
      · rw [recorded]
        omega
      · omega

theorem applyOp_behind (h : Behind working state) (valid : validKey op.key = true)
    (skips : op.onConflict = .fixed .skip) (unfenced : op.ifVersion = none)
    : Alike Behind
        ((applyOp limits now op working).map fun done => (done.1.written, done.2))
        (applyAlone limits now op state) := by
  have permits : op.allowed state = op.allowed working.state := by
    cases op with
    | put => rfl
    | delete key ifVersion onConflict condition =>
        cases condition with
        | none => rfl
        | some condition => exact congrArg (fun entries => condition entries.get?) h.entries
  rw [applyOp_written skips, applyAlone_eq valid]
  rcases h.slots op.key with ⟨reason, first, second⟩ | ⟨slot, slot', read, read', agrees⟩
  · rw [first, second]
    exact rfl
  rw [read, read', ok_bind, ok_bind, permits]
  refine Alike.bind_same fun allowed => ?_
  cases allowed with
  | false => exact ⟨rfl, h⟩
  | true =>
      simp only [if_true, unfenced, Option.all_none]
      refine Alike.bind_ok fun request captured => ?_
      obtain ⟨expected, change⟩ := request
      have free := capture_version captured
      rw [unfenced] at free
      obtain rfl := Except.ok.inj free
      have below := working.state.versionOf_le_clock op.key
      rw [← (stateSlot_eq read).2.1, ← (stateSlot_eq read).2.2] at below
      have below' := state.versionOf_le_clock op.key
      rw [← (stateSlot_eq read').2.1, ← (stateSlot_eq read').2.2, agrees.highWater] at below'
      have same := @transition_unconditional op.key slot.present slot.version slot.highWater change
        slot'.version below below' agrees.version
      dsimp only
      rw [agrees.present, agrees.highWater, same]
      exact Alike.bind_ok fun moved moves => h.settle read moves

theorem applyOps_behind {ops : List BatchOp} (h : Behind working state) (skips : Skipping ops)
    (unfenced : ∀ op ∈ ops, op.ifVersion = none)
    : Alike Behind
        ((applyOps limits now ops working).map fun done =>
          (done.1.map BatchResult.written, done.2))
        (applyEach limits now acceptAll ops state) := by
  have run := @applyOps_each state limits now working
    (fun ops working state => Behind working state ∧ Skipping ops
      ∧ ∀ op ∈ ops, op.ifVersion = none) ?_ ops ⟨h, skips, unfenced⟩
  · exact run.imp fun _ _ related => related.1
  · rintro op rest working state ⟨behind, skips, unfenced⟩
    obtain ⟨valid, skip⟩ := skips op List.mem_cons_self
    refine (applyOp_behind behind valid skip (unfenced op List.mem_cons_self)).imp ?_
    exact fun next next' behind' => ⟨behind',
      fun other member => skips other (List.mem_cons_of_mem _ member),
      fun other member => unfenced other (List.mem_cons_of_mem _ member)⟩

def unprepared (_ : StateFile) : Except StateError (List BatchOp) :=
  .ok []

variable {accepts : StateFile → Except StateError Unit} {ops : List BatchOp}
  {results : List BatchResult} {last : Working}

theorem writeBatch_of_ops (valid : ∀ op ∈ ops, validKey op.key = true)
    (done : applyOps limits now ops (begin state) = .ok (results, last))
    : writeBatch limits now ops unprepared state
      = .ok (ops, results, if results.any BatchResult.applied then
          some (compactStateTombstones limits.maxStateTombstones
            { last.state with tombstoneOrder := some last.tombstones })
          else none) := by
  have checked : ops.forM (fun op => checkKey op.key) = .ok () := by
    refine forM_eq_ok.mpr fun op member => ?_
    rw [checkKey, if_pos (valid op member)]
  unfold begin at done
  unfold writeBatch unprepared
  rw [checked]
  simp only [bind, Except.bind, List.append_nil, checked, done]
  split <;> rfl

/-- A batch that stores its operations, where the commit accepts what they leave. -/
theorem commitBatch_of_ops (valid : ∀ op ∈ ops, validKey op.key = true)
    (done : applyOps limits now ops (begin state) = .ok (results, last))
    (stored : results.any BatchResult.applied = false ∧ file = state
      ∨ results.any BatchResult.applied = true ∧ accepts file = .ok ()
        ∧ file = compactStateTombstones limits.maxStateTombstones
          { last.state with tombstoneOrder := some last.tombstones })
    : commitBatch limits now accepts ops unprepared state = (.ok results, file) := by
  unfold commitBatch
  rw [writeBatch_of_ops valid done]
  rcases stored with ⟨none_, rfl⟩ | ⟨some_, accepted, rfl⟩
  · rw [if_neg (by rw [none_]; exact Bool.false_ne_true)]
  · rw [if_pos some_]
    dsimp only
    rw [accepted]

theorem ops_of_writeBatch {ops' : List BatchOp} {next : Option StateFile}
    (done : writeBatch limits now ops unprepared state = .ok (ops', results, next))
    : (∀ op ∈ ops, validKey op.key = true)
      ∧ ∃ last, applyOps limits now ops (begin state) = .ok (results, last) := by
  obtain ⟨⟨⟩, checked, done⟩ := bind_eq_ok.mp done
  obtain ⟨prepared, none_, done⟩ := bind_eq_ok.mp done
  obtain rfl := Except.ok.inj none_
  obtain ⟨-, -, done⟩ := bind_eq_ok.mp done
  obtain ⟨⟨results', last⟩, applied, done⟩ := bind_eq_ok.mp done
  rw [List.append_nil] at applied
  have same : results' = results := by
    dsimp only at done
    split at done
    · exact (Prod.mk.inj (Prod.mk.inj (Except.ok.inj done)).2).1
    · exact (Prod.mk.inj (Prod.mk.inj (Except.ok.inj done)).2).1
  rw [same] at applied
  refine ⟨fun op member => ?_, last, applied⟩
  have one := forM_eq_ok.mp checked op member
  unfold checkKey at one
  split at one
  · assumption
  · cases one

theorem ops_of_commitBatch
    (done : commitBatch limits now accepts ops unprepared state = (.ok results, file))
    : (∀ op ∈ ops, validKey op.key = true)
      ∧ ∃ last, applyOps limits now ops (begin state) = .ok (results, last) := by
  unfold commitBatch at done
  split at done
  · cases done
  · next written =>
      rw [← Except.ok.inj (Prod.mk.inj done).1]
      exact ops_of_writeBatch written
  · next written =>
      split at done
      · cases done
      · rw [← Except.ok.inj (Prod.mk.inj done).1]
        exact ops_of_writeBatch written

theorem commitBatch_of_each (skips : ∀ op ∈ ops, op.onConflict = .fixed .skip)
    (room : Roomy limits now ops (begin state)) {last : StateFile}
    (each : applyEach limits now accepts ops state = .ok (versions, last))
    (kept : Listed state ∨ accepts = acceptAll)
    : ∃ results file, commitBatch limits now accepts ops unprepared state = (.ok results, file)
      ∧ results.map BatchResult.written = versions
      ∧ last = { file with tombstoneOrder := last.tombstoneOrder }
      ∧ (Listed state → file = last) := by
  obtain ⟨free, accepted, valid⟩ := applyEach_accepted each
  have alike := applyOps_level (.start state) (fun op member => ⟨valid op member, skips op member⟩)
    room
  obtain ⟨final, returned, level⟩ := alike.ok_right free
  obtain ⟨⟨results, final⟩, applied, same⟩ := map_eq_ok.mp returned
  obtain ⟨rfl, rfl⟩ := Prod.mk.inj same
  rcases applyOps_recorded applied with ⟨none_, unchanged⟩ | ⟨some_, later⟩
  · refine ⟨results, state, commitBatch_of_ops valid applied (Or.inl ⟨none_, rfl⟩), rfl, ?_⟩
    have left : last = state := by
      rcases level.touched with ⟨-, left⟩ | ⟨later, -⟩
      · exact left
      · rw [unchanged] at later
        exact absurd later (Nat.lt_irrefl _)
    rw [left]
    exact ⟨rfl, fun _ => rfl⟩
  · obtain ⟨listed, whole⟩ := level.stored later (room.last applied)
    refine ⟨results, _, commitBatch_of_ops valid applied (Or.inr ⟨some_, ?_, rfl⟩), rfl, whole,
      listed⟩
    rcases kept with recorded | rfl
    · rw [listed recorded]
      rcases accepted with left | accepted
      · rcases level.touched with ⟨same, -⟩ | ⟨later, -⟩
        · rw [same] at later
          exact absurd later (Nat.lt_irrefl _)
        · have recorded' : last.recorded = final.state.recorded := by
            rw [level.same]
            rfl
          rw [left] at recorded'
          rw [recorded'] at later
          exact absurd later (Nat.lt_irrefl _)
      · exact accepted
    · rfl

/-- Without expectations a batch stores the entries and the clock that the single writes leave. -/
theorem commitBatch_of_unfenced (skips : ∀ op ∈ ops, op.onConflict = .fixed .skip)
    (unfenced : ∀ op ∈ ops, op.ifVersion = none) {last : StateFile}
    (each : applyEach limits now acceptAll ops state = .ok (versions, last))
    : ∃ results file, commitBatch limits now acceptAll ops unprepared state = (.ok results, file)
      ∧ results.map BatchResult.written = versions
      ∧ file.entries = last.entries ∧ file.highWater = last.highWater := by
  obtain ⟨-, -, valid⟩ := applyEach_accepted each
  have alike := @applyOps_behind state limits now (begin state) ops (.start state)
    (fun op member => ⟨valid op member, skips op member⟩) unfenced
  obtain ⟨final, returned, behind⟩ := alike.ok_right each
  obtain ⟨⟨results, final⟩, applied, same⟩ := map_eq_ok.mp returned
  obtain ⟨rfl, rfl⟩ := Prod.mk.inj same
  rcases applyOps_recorded applied with ⟨none_, unchanged⟩ | ⟨some_, later⟩
  · refine ⟨results, state, commitBatch_of_ops valid applied (Or.inl ⟨none_, rfl⟩), rfl, ?_⟩
    rw [behind.entries, behind.highWater, unchanged]
    exact ⟨rfl, rfl⟩
  · exact ⟨results, _, commitBatch_of_ops valid applied (Or.inr ⟨some_, rfl, rfl⟩), rfl,
      behind.entries.symm, behind.highWater.symm⟩

theorem applyEach_of_commitBatch (skips : ∀ op ∈ ops, op.onConflict = .fixed .skip)
    (together : Roomy limits now ops (begin state) ∨ ∀ op ∈ ops, op.ifVersion = none)
    (done : commitBatch limits now acceptAll ops unprepared state = (.ok results, file))
    : ∃ last, applyEach limits now acceptAll ops state
      = .ok (results.map BatchResult.written, last) := by
  obtain ⟨valid, last, applied⟩ := ops_of_commitBatch done
  have both : Skipping ops := fun op member => ⟨valid op member, skips op member⟩
  have returned : (applyOps limits now ops (begin state)).map (fun done =>
      (done.1.map BatchResult.written, done.2)) = .ok (results.map BatchResult.written, last) := by
    rw [applied]
    rfl
  rcases together with room | unfenced
  · obtain ⟨final, each, -⟩ := (applyOps_level (.start state) both room).ok_left returned
    exact ⟨final, each⟩
  · obtain ⟨final, each, -⟩ := (applyOps_behind (.start state) both unfenced).ok_left returned
    exact ⟨final, each⟩

/-- **A batch equals its single writes.** As long as no more tombstones are left than are kept, a
batch that skips conflicts returns with the versions that the single writes of its operations return
with, and stores the file that they leave; its order of tombstones is theirs where the order of the
first file lists every tombstone, and then a commit that refuses no single write does not refuse it
either. A batch without expectations stores their entries and clock in any case. And a batch that
aborts changes nothing.
-/
theorem batch_equals_single_writes (limits : Limits) (now : Nat) (ops : List BatchOp)
    (state : StateFile)
    : ((∀ op ∈ ops, op.onConflict = .fixed .skip) →
        (Roomy limits now ops (begin state) →
          (∀ versions last, applyEach limits now acceptAll ops state = .ok (versions, last) →
            ∃ results file,
              commitBatch limits now acceptAll ops unprepared state = (.ok results, file)
              ∧ results.map BatchResult.written = versions
              ∧ last = { file with tombstoneOrder := last.tombstoneOrder })
          ∧ (Listed state → ∀ accepts versions last,
            applyEach limits now accepts ops state = .ok (versions, last) →
            ∃ results, commitBatch limits now accepts ops unprepared state = (.ok results, last)
              ∧ results.map BatchResult.written = versions))
        ∧ ((∀ op ∈ ops, op.ifVersion = none) →
          ∀ versions last, applyEach limits now acceptAll ops state = .ok (versions, last) →
            ∃ results file,
              commitBatch limits now acceptAll ops unprepared state = (.ok results, file)
              ∧ results.map BatchResult.written = versions
              ∧ file.entries = last.entries ∧ file.highWater = last.highWater)
        ∧ (Roomy limits now ops (begin state) ∨ (∀ op ∈ ops, op.ifVersion = none) →
          ∀ results file,
            commitBatch limits now acceptAll ops unprepared state = (.ok results, file) →
            ∃ last, applyEach limits now acceptAll ops state
              = .ok (results.map BatchResult.written, last)))
      ∧ ∀ accepts prepare reason,
        (commitBatch limits now accepts ops prepare state).1 = .error reason →
        (commitBatch limits now accepts ops prepare state).2 = state := by
  refine ⟨fun skips => ⟨fun room => ⟨?_, ?_⟩, ?_, ?_⟩, ?_⟩
  · intro versions last each
    obtain ⟨results, file, stored, same, whole, -⟩ :=
      commitBatch_of_each skips room each (Or.inr rfl)
    exact ⟨results, file, stored, same, whole⟩
  · intro listed accepts versions last each
    obtain ⟨results, file, stored, same, -, equal⟩ :=
      commitBatch_of_each skips room each (Or.inl listed)
    obtain rfl := equal listed
    exact ⟨results, stored, same⟩
  · exact fun unfenced versions last each => commitBatch_of_unfenced skips unfenced each
  · exact fun together results file done => applyEach_of_commitBatch skips together done
  · intro accepts prepare reason aborted
    unfold commitBatch at aborted ⊢
    split
    · rfl
    · rfl
    · next written =>
        rw [written] at aborted
        dsimp only at aborted ⊢
        cases accepted : accepts _ with
        | error refused => rfl
        | ok done =>
            rw [accepted] at aborted
            cases aborted

/-- A file with an entry `a` and a tombstone `x` that its order lists. -/
def listedFile : StateFile where
  format := number 1
  revisionFormat := some (number 2)
  entries := JsMap.empty.set (lit "a") (entryJson (lit "a") .null 1 0 .null)
  versions := some ((JsMap.empty.set (lit "a") (number 1)).set (lit "x") (number 2))
  tombstoneOrder := some [lit "x"]
  highWater := some (number 2)

/-- A file with entries `a` and `b` and a tombstone `x` that no order lists. -/
def unlistedFile : StateFile :=
  {
    listedFile with
    entries := listedFile.entries.set (lit "b") (entryJson (lit "b") .null 1 0 .null)
    versions := some (listedFile.retained.set (lit "b") (number 1))
    tombstoneOrder := none
  }

def crampedLimits : Limits where
  maxEventBytes := 100
  maxStateTombstones := 1

/-- The delete of `a` evicts the tombstone of `x`, which is then created by itself, but not in a
batch.
-/
def evictingOps : List BatchOp :=
  [.delete (lit "a") none (.fixed .skip) none,
    .put (lit "x") (.given (some .null)) .null (some (number 0)) (.fixed .skip)]

/-- The first delete by itself lists `x`, a batch lists it last. -/
def listingOps : List BatchOp :=
  [.delete (lit "a") none (.fixed .skip) none, .delete (lit "b") none (.fixed .skip) none]

/-- With room for two tombstones the same batch does what its single writes do. -/
theorem batch_equals_single_writes_listed
    : ∃ versions results last,
        applyEach ⟨100, 2⟩ 7 acceptAll evictingOps listedFile = .ok (versions, last)
        ∧ commitBatch ⟨100, 2⟩ 7 acceptAll evictingOps unprepared listedFile = (.ok results, last)
        ∧ results.map BatchResult.written = versions := by
  have skips : ∀ op ∈ evictingOps, op.onConflict = .fixed .skip := by
    intro op member
    simp only [evictingOps, List.mem_cons, List.not_mem_nil, or_false] at member
    rcases member with rfl | rfl <;> rfl
  have room : Roomy ⟨100, 2⟩ 7 evictingOps (begin listedFile) := by decide +kernel
  have listed : Listed listedFile := by
    unfold Listed
    decide +kernel
  obtain ⟨results, stored, same⟩ :=
    (((batch_equals_single_writes ⟨100, 2⟩ 7 evictingOps listedFile).1 skips).1 room).2 listed
      acceptAll _ _ rfl
  exact ⟨_, results, _, rfl, stored, same⟩

/-- Where a tombstone is evicted a single write may take a key that a batch leaves alone; and a
batch puts the tombstones that no order lists behind its own.
-/
theorem batch_differs_from_single_writes
    : (∃ limits now ops state versions last results file,
        (∀ op ∈ ops, op.onConflict = .fixed .skip)
        ∧ applyEach limits now acceptAll ops state = .ok (versions, last)
        ∧ commitBatch limits now acceptAll ops unprepared state = (.ok results, file)
        ∧ file.entries.keys ≠ last.entries.keys)
      ∧ ∃ limits now ops state versions last results file,
        (∀ op ∈ ops, op.onConflict = .fixed .skip) ∧ Roomy limits now ops (begin state)
        ∧ applyEach limits now acceptAll ops state = .ok (versions, last)
        ∧ commitBatch limits now acceptAll ops unprepared state = (.ok results, file)
        ∧ file.tombstoneOrder ≠ last.tombstoneOrder := by
  refine ⟨⟨crampedLimits, 7, evictingOps, listedFile, _, _, _, _, ?_, rfl, rfl, ?_⟩,
    ⟨⟨100, 10⟩, 7, listingOps, unlistedFile, _, _, _, _, ?_, ?_, rfl, rfl, ?_⟩⟩
  · intro op member
    simp only [evictingOps, List.mem_cons, List.not_mem_nil, or_false] at member
    rcases member with rfl | rfl <;> rfl
  · decide +kernel
  · intro op member
    simp only [listingOps, List.mem_cons, List.not_mem_nil, or_false] at member
    rcases member with rfl | rfl <;> rfl
  · decide +kernel
  · decide +kernel

end PiFabric.State
