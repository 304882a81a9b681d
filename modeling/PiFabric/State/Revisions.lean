import PiFabric.Foundation.Outcome
import PiFabric.State.File

/-! Revisions over whole runs of puts, deletes and batches: what a slot reads, what a write
issues, and why no revision of a key is issued twice.
-/

namespace PiFabric.State

open JsString Outcome

def revisionOf : Option Json → Nat
  | some (.number (.int value)) => value.toNat
  | _ => 0

namespace StateFile

def versionOf (state : StateFile) (key : JsString) : Nat :=
  match state.entries.get? key with
  | some entry => revisionOf (Json.field? "version" entry)
  | none => revisionOf (state.retained.get? key)

def recorded (state : StateFile) : Nat :=
  revisionOf state.highWater

def clock (state : StateFile) : Nat :=
  max state.recorded
    ((state.retained.values.map (fun revision => revisionOf (some revision))
      ++ state.entries.entries.map fun entry =>
        revisionOf (Json.field? "version" entry.2)).foldl max 0)

end StateFile

theorem eq_revisionOf {revision : Option Json} {value : Nat}
    (h : storageRevision revision = .ok value)
    : value = revisionOf revision := by
  unfold storageRevision at h
  split at h
  · split at h
    · exact (Except.ok.inj h).symm
    · exact absurd h (by simp)
  · exact absurd h (by simp)

theorem entryRevision_eq {retained : JsMap JsString Json} {key : JsString} {entry : Json}
    {value : Nat} (h : entryRevision retained key entry = .ok value)
    : value = revisionOf (Json.field? "version" entry) := by
  unfold entryRevision at h
  split at h
  · split at h
    · obtain ⟨version, read, rest⟩ := bind_eq_ok.mp h
      split at rest
      · exact absurd rest (by simp)
      · rw [← Except.ok.inj rest, eq_revisionOf read]
        rfl
    · exact absurd h (by simp)
  · exact absurd h (by simp)

theorem readVersion_eq {state : StateFile} {key : JsString} {version : Nat}
    (h : readVersion state key = .ok version)
    : version = state.versionOf key := by
  unfold StateFile.versionOf
  unfold readVersion at h
  cases found : state.entries.get? key with
  | some entry =>
      simp only [found] at h ⊢
      exact entryRevision_eq h
  | none =>
      simp only [found] at h ⊢
      cases kept : state.retained.get? key with
      | some revision =>
          simp only [kept] at h ⊢
          exact eq_revisionOf h
      | none =>
          simp only [kept] at h ⊢
          exact (Except.ok.inj h).symm

theorem readClock_eq {state : StateFile} {retainedMaximum clock : Nat}
    (h : readClock state retainedMaximum = .ok clock)
    : clock = max state.recorded retainedMaximum := by
  unfold StateFile.recorded
  unfold readClock at h
  split at h
  · next recorded mark =>
      obtain ⟨value, read, rfl⟩ := map_eq_ok.mp h
      rw [mark, eq_revisionOf read]
  · next unmarked =>
      rw [unmarked, ← Except.ok.inj h]
      exact (Nat.zero_max _).symm

/-- What a check that returns says of its results, for a whole list. -/
theorem mapM_eq_map {ε ι α : Type} {check : ι → Except ε α} {pure_ : ι → α}
    (sound : ∀ item value, check item = .ok value → value = pure_ item) {items : List ι}
    {values : List α} (h : items.mapM check = .ok values)
    : values = items.map pure_ := by
  induction items generalizing values with
  | nil => exact (Except.ok.inj h).symm
  | cons item rest ih =>
      rw [List.mapM_cons] at h
      obtain ⟨value, first, others⟩ := bind_eq_ok.mp h
      obtain ⟨tail, read, made⟩ := bind_eq_ok.mp others
      rw [← Except.ok.inj made, sound item value first, ih read]
      rfl

theorem stateSlot_eq {state : StateFile} {key : JsString} {slot : Slot}
    (h : stateSlot state key = .ok slot)
    : slot.present = state.entries.has key ∧ slot.version = state.versionOf key
      ∧ slot.highWater = state.clock := by
  unfold stateSlot at h
  obtain ⟨rows, readRows, h⟩ := bind_eq_ok.mp h
  obtain ⟨versions, readEntries, h⟩ := bind_eq_ok.mp h
  obtain ⟨-, -, h⟩ := bind_eq_ok.mp h
  obtain ⟨highWater, clock, h⟩ := bind_eq_ok.mp h
  obtain ⟨version, read, h⟩ := bind_eq_ok.mp h
  obtain rfl := Except.ok.inj h
  have rows := mapM_eq_map (fun _ _ read => eq_revisionOf read) readRows
  have versions := mapM_eq_map (fun _ _ read => entryRevision_eq read) readEntries
  subst rows versions
  exact ⟨rfl, readVersion_eq read, readClock_eq clock⟩

/-- A write that was applied, with the version it was told to expect. -/
structure Event where
  key : JsString
  expected : Option Json
  version : Nat

/-- What every applied write does. -/
structure Changed (state : StateFile) (event : Event) (next : StateFile) : Prop where
  issued : event.version
    = (if state.entries.has event.key then state.versionOf event.key else state.clock) + 1
  recorded : next.recorded = state.clock + 1
  self : next.versionOf event.key = event.version
  others : ∀ key, key ≠ event.key →
    next.versionOf key = state.versionOf key ∧ next.entries.get? key = state.entries.get? key
  fenced : ∀ expected, event.expected = some expected →
    expected = number (state.versionOf event.key)

theorem StateFile.versionOf_present {state : StateFile} {key : JsString} {entry : Json}
    (found : state.entries.get? key = some entry)
    : state.versionOf key = revisionOf (Json.field? "version" entry) := by
  rw [StateFile.versionOf, found]

theorem StateFile.versionOf_absent {state : StateFile} {key : JsString}
    (absent : state.entries.get? key = none)
    : state.versionOf key = revisionOf (state.retained.get? key) := by
  rw [StateFile.versionOf, absent]

theorem has_eq_isSome {ν : Type} {map : JsMap JsString ν} {key : JsString}
    : map.has key = (map.get? key).isSome := by
  rw [Bool.eq_iff_iff, JsMap.has_iff, ← not_iff_not, ← JsMap.get?_eq_none_iff]
  simp

theorem revisionOf_number (value : Nat) : revisionOf (some (number value)) = value := rfl

theorem revisionOf_entryJson (key : JsString) (value identity : Json) (version now : Nat)
    : revisionOf (Json.field? "version" (entryJson key value version now identity))
      = version := by
  rfl

section Maps

variable (state : StateFile) (key : JsString) (value identity : Json) (version highWater now : Nat)
  (other : JsString)

theorem StateFile.entries_store
    : (state.store key value identity version highWater now).entries.get? other
      = if other = key then some (entryJson key value version now identity)
        else state.entries.get? other :=
  JsMap.get?_set ..

theorem StateFile.retained_store
    : (state.store key value identity version highWater now).retained.get? other
      = if other = key then some (number version) else state.retained.get? other :=
  JsMap.get?_set ..

theorem StateFile.entries_bury
    : (state.bury key version highWater).entries.get? other
      = if other = key then none else state.entries.get? other :=
  JsMap.get?_delete ..

theorem StateFile.retained_bury
    : (state.bury key version highWater).retained.get? other
      = if other = key then some (number version) else state.retained.get? other :=
  JsMap.get?_set ..

theorem StateFile.store_versionOf
    : (state.store key value identity version highWater now).versionOf other
      = if other = key then version else state.versionOf other := by
  rw [StateFile.versionOf, StateFile.entries_store, StateFile.retained_store]
  by_cases same : other = key
  · simp only [if_pos same]
    exact revisionOf_entryJson ..
  · simp only [if_neg same]
    rfl

theorem StateFile.bury_versionOf
    : (state.bury key version highWater).versionOf other
      = if other = key then version else state.versionOf other := by
  rw [StateFile.versionOf, StateFile.entries_bury, StateFile.retained_bury]
  by_cases same : other = key
  · simp only [if_pos same]
    exact revisionOf_number version
  · simp only [if_neg same]
    rfl

end Maps

theorem compact_retained (maxTombstones : Nat) (state : StateFile) (key : JsString)
    : (compactStateTombstones maxTombstones state).retained.get? key
      = (state.retained.get? key).filter fun _ => state.entries.has key
        || (sliceLast maxTombstones (orderedTombstones state)).contains key :=
  JsMap.get?_filter state.retained (fun key _ => state.entries.has key
    || (sliceLast maxTombstones (orderedTombstones state)).contains key) key

/-- Compaction forgets tombstones, and only those. -/
theorem compact_versionOf (maxTombstones : Nat) (state : StateFile) (key : JsString)
    : (compactStateTombstones maxTombstones state).versionOf key = state.versionOf key
      ∨ state.entries.get? key = none
        ∧ (compactStateTombstones maxTombstones state).versionOf key = 0 := by
  cases found : state.entries.get? key with
  | some entry =>
      have kept : (compactStateTombstones maxTombstones state).entries.get? key = some entry := found
      rw [StateFile.versionOf_present kept, StateFile.versionOf_present found]
      exact .inl rfl
  | none =>
      have kept : (compactStateTombstones maxTombstones state).entries.get? key = none := found
      rw [StateFile.versionOf_absent kept, StateFile.versionOf_absent found]
      rw [compact_retained]
      cases retained : state.retained.get? key with
      | none => exact .inl rfl
      | some revision =>
          rw [Option.filter_some]
          split
          · exact .inl rfl
          · exact .inr ⟨rfl, rfl⟩

/-- A put or a delete takes the successor that its slot gives it. -/
def Transition.Takes (present : Bool) (actual clock : Nat) : Transition → Prop
  | put _ _ version highWater =>
      version = (if present then actual else clock) + 1 ∧ highWater = clock + 1
  | delete version highWater =>
      present = true ∧ version = actual + 1 ∧ highWater = clock + 1
  | unchanged => True

variable {expected : Option Nat} {change : Change}

theorem transition_ok {key : JsString} {present : Bool} {actual clock : Nat} {result : Transition}
    (h : transition key expected change present actual clock = .ok result)
    : expected.all (· = actual) = true ∧ result.Takes present actual clock := by
  rw [transition_eq] at h
  split at h
  · exact absurd h (by simp)
  split at h
  swap
  · exact absurd h (by simp)
  next matching =>
  refine ⟨matching, ?_⟩
  cases change with
  | put value identity =>
      simp only at h
      split at h
      · rw [← Except.ok.inj h]
        exact ⟨rfl, rfl⟩
      · exact absurd h (by simp)
  | delete =>
      simp only at h
      split at h
      · next present =>
          split at h
          · rw [← Except.ok.inj h]
            exact ⟨present, rfl, rfl⟩
          · exact absurd h (by simp)
      · rw [← Except.ok.inj h]
        trivial

theorem eq_number_of_storageRevision {expected : Json} {value : Nat}
    (h : storageRevision (some expected) = .ok value)
    : expected = number value := by
  unfold storageRevision at h
  split at h
  · next integer same =>
      rw [Option.some.inj same]
      split at h
      · next safe =>
          rw [← Except.ok.inj h, number, Int.toNat_of_nonneg safe.1]
      · exact absurd h (by simp)
  · exact absurd h (by simp)

variable {ifVersion : Option Json}

/-- What a captured expectation says of the version it was matched with. -/
theorem fenced_of_capture {actual : Nat} (captured : captureVersion ifVersion = .ok expected)
    (matching : expected.all (· = actual) = true)
    : ∀ version, ifVersion = some version → version = number actual := by
  rintro version rfl
  obtain ⟨value, read, made⟩ := bind_eq_ok.mp captured
  rw [← Except.ok.inj made] at matching
  rw [eq_number_of_storageRevision read, of_decide_eq_true matching]

variable {limits : Limits}

theorem capturePut_version {value : Option Json} {identity : Json}
    (h : captureStoragePut limits value identity ifVersion = .ok (expected, change))
    : captureVersion ifVersion = .ok expected := by
  obtain ⟨version, captured, h⟩ := bind_eq_ok.mp h
  cases value with
  | none => exact absurd h (by simp)
  | some value =>
      simp only at h
      split at h
      · exact absurd h (by simp)
      · rw [captured, (Prod.mk.inj (Except.ok.inj h)).1]

theorem captureDelete_version (h : captureStorageDelete ifVersion = .ok (expected, change))
    : captureVersion ifVersion = .ok expected := by
  obtain ⟨version, captured, h⟩ := bind_eq_ok.mp h
  rw [captured, (Prod.mk.inj (Except.ok.inj h)).1]

/-- A put through its transition changes the file as every write does. -/
theorem Changed.store {state : StateFile} {key : JsString} {slot : Slot} {value identity : Json}
    {version highWater now : Nat} (read : stateSlot state key = .ok slot)
    (captured : captureVersion ifVersion = .ok expected)
    (moved : transition key expected change slot.present slot.version slot.highWater
      = .ok (.put value identity version highWater))
    : Changed state { key, expected := ifVersion, version }
        (state.store key value identity version highWater now) := by
  obtain ⟨present, actual, clock⟩ := stateSlot_eq read
  obtain ⟨matching, issued, advanced⟩ := transition_ok moved
  rw [present, actual, clock] at issued
  rw [clock] at advanced
  rw [actual] at matching
  refine ⟨issued, advanced, ?_, ?_, fenced_of_capture captured matching⟩
  · rw [StateFile.store_versionOf, if_pos rfl]
  · intro other apart
    rw [StateFile.store_versionOf, if_neg apart]
    exact ⟨rfl, (JsMap.get?_set ..).trans (if_neg apart)⟩

theorem Changed.bury {state : StateFile} {key : JsString} {slot : Slot} {version highWater : Nat}
    (read : stateSlot state key = .ok slot) (captured : captureVersion ifVersion = .ok expected)
    (moved : transition key expected change slot.present slot.version slot.highWater
      = .ok (.delete version highWater))
    : Changed state { key, expected := ifVersion, version }
        (state.bury key version highWater) := by
  obtain ⟨present, actual, clock⟩ := stateSlot_eq read
  obtain ⟨matching, live, issued, advanced⟩ := transition_ok moved
  rw [present] at live
  rw [actual] at issued matching
  rw [clock] at advanced
  refine ⟨?_, advanced, ?_, ?_, fenced_of_capture captured matching⟩
  · rw [issued, if_pos live]
  · rw [StateFile.bury_versionOf, if_pos rfl]
  · intro other apart
    rw [StateFile.bury_versionOf, if_neg apart]
    exact ⟨rfl, (JsMap.get?_delete ..).trans (if_neg apart)⟩

/-- The last version of a key that a history issued, or what the first file says of it. -/
def current (first : StateFile) (log : List Event) (key : JsString) : Nat :=
  log.foldl (fun version event => if event.key = key then event.version else version)
    (first.versionOf key)

theorem current_snoc (first : StateFile) (log : List Event) (event : Event) (key : JsString)
    : current first (log ++ [event]) key
      = if event.key = key then event.version else current first log key := by
  rw [current, List.foldl_append]
  rfl

/-- What holds of an event after the history before it. -/
structure Issued (first : StateFile) (before : List Event) (event : Event) : Prop where
  above : current first before event.key < event.version
  fenced : ∀ expected, event.expected = some expected → ∃ version, expected = number version
    ∧ (version = current first before event.key ∨ version = 0)

def Disciplined (first : StateFile) (log : List Event) : Prop :=
  ∀ before event after, log = before ++ event :: after → Issued first before event

variable {first : StateFile} {log : List Event}

theorem Disciplined.snoc {event : Event} (h : Disciplined first log) (last : Issued first log event)
    : Disciplined first (log ++ [event]) := by
  intro before other after split
  rcases List.eq_nil_or_concat' after with rfl | ⟨rest, final, rfl⟩
  · obtain ⟨rfl, same⟩ := List.append_inj' split rfl
    rwa [← (List.cons.inj same).1]
  · have parts : log ++ [event] = (before ++ other :: rest) ++ [final] := by simpa using split
    exact h before other rest (List.append_inj' parts rfl).1

/-- How a file stands to the history that led to it. -/
structure Tracks (first : StateFile) (log : List Event) (state : StateFile) : Prop where
  versions : ∀ key, state.versionOf key = current first log key
    ∨ state.entries.get? key = none ∧ state.versionOf key = 0
  clock : ∀ key, current first log key ≤ state.clock
  recorded : log ≠ [] → ∀ key, current first log key ≤ state.recorded
  disciplined : Disciplined first log

theorem StateFile.recorded_le_clock (state : StateFile) : state.recorded ≤ state.clock :=
  le_max_left ..

/-- A maximum is above its start and its values, by induction over them. -/
theorem le_foldl_max {values : List Nat} {start value : Nat}
    (h : value ≤ start ∨ value ∈ values)
    : value ≤ values.foldl max start := by
  induction values generalizing start with
  | nil => exact h.resolve_right List.not_mem_nil
  | cons head rest ih =>
      rcases h with below | member
      · exact ih (.inl (below.trans (le_max_left ..)))
      · rcases List.mem_cons.mp member with rfl | inside
        · exact ih (.inl (le_max_right ..))
        · exact ih (.inr inside)

theorem StateFile.versionOf_le_clock (state : StateFile) (key : JsString)
    : state.versionOf key ≤ state.clock := by
  have top {value : Nat} (listed : value ∈ state.retained.values.map (fun revision =>
      revisionOf (some revision)) ++ state.entries.entries.map fun entry =>
        revisionOf (Json.field? "version" entry.2)) : value ≤ state.clock :=
    (le_foldl_max (.inr listed)).trans (le_max_right ..)
  cases found : state.entries.get? key with
  | some entry =>
      rw [StateFile.versionOf_present found]
      exact top (List.mem_append_right _
        (List.mem_map.mpr ⟨(key, entry), JsMap.get?_eq_some_iff.mp found, rfl⟩))
  | none =>
      rw [StateFile.versionOf_absent found]
      cases kept : state.retained.get? key with
      | none => exact Nat.zero_le _
      | some revision =>
          refine top (List.mem_append_left _ (List.mem_map.mpr ⟨revision, ?_, rfl⟩))
          exact List.mem_map_of_mem (JsMap.get?_eq_some_iff.mp kept)

theorem Tracks.initial (state : StateFile) : Tracks state [] state where
  versions := fun _ => .inl rfl
  clock := state.versionOf_le_clock
  recorded := fun none => absurd rfl none
  disciplined := by
    intro before event after split
    exact absurd split (by simp)

/-- One applied write: its version is above the history's, and the history goes on. -/
theorem Tracks.changed {state next : StateFile} {event : Event} (h : Tracks first log state)
    (change : Changed state event next)
    : Tracks first (log ++ [event]) next := by
  have issued : current first log event.key < event.version := by
    rw [change.issued]
    split
    · next present =>
        rcases h.versions event.key with same | ⟨absent, -⟩
        · omega
        · rw [has_eq_isSome, absent] at present
          exact absurd present (by simp)
    · have below := h.clock event.key
      omega
  have top : event.version ≤ state.clock + 1 := by
    rw [change.issued]
    have below := state.versionOf_le_clock event.key
    split <;> omega
  have recorded (key : JsString) : current first (log ++ [event]) key ≤ next.recorded := by
    rw [current_snoc, change.recorded]
    split
    · exact top
    · exact (h.clock key).trans (Nat.le_succ _)
  refine ⟨?_, ?_, fun _ => recorded, h.disciplined.snoc ⟨issued, ?_⟩⟩
  · intro key
    rw [current_snoc]
    by_cases same : event.key = key
    · rw [if_pos same, ← same]
      exact .inl change.self
    · obtain ⟨version, entry⟩ := change.others key (fun equal => same equal.symm)
      rw [if_neg same, version, entry]
      exact h.versions key
  · exact fun key => (recorded key).trans next.recorded_le_clock
  · intro expected given
    refine ⟨_, change.fenced expected given, ?_⟩
    exact (h.versions event.key).imp_right And.right

/-- Compaction after a write loses nothing of the history but tombstones. -/
theorem Tracks.compact {state : StateFile} (h : Tracks first log state) (written : log ≠ [])
    (maxTombstones : Nat) (order : Option (List JsString))
    : Tracks first log
        (compactStateTombstones maxTombstones { state with tombstoneOrder := order }) where
  versions := by
    intro key
    rcases compact_versionOf maxTombstones { state with tombstoneOrder := order } key
      with same | forgotten
    · rw [same]
      exact h.versions key
    · exact .inr forgotten
  clock := by
    intro key
    have bound := (compactStateTombstones maxTombstones
      { state with tombstoneOrder := order }).recorded_le_clock
    exact le_trans (h.recorded written key) bound
  recorded := fun _ => h.recorded written
  disciplined := h.disciplined

def batchEvents (ops : List BatchOp) (results : List BatchResult) : List Event :=
  (ops.zip results).filterMap fun (op, result) =>
    if result.applied then
      some { key := op.key, expected := op.ifVersion, version := result.version }
    else none

theorem batchEvents_cons (op : BatchOp) (ops : List BatchOp) (result : BatchResult)
    (results : List BatchResult)
    : batchEvents (op :: ops) (result :: results)
      = (if result.applied then
          [{ key := op.key, expected := op.ifVersion, version := result.version }] else [])
        ++ batchEvents ops results := by
  cases applied : result.applied <;> simp [batchEvents, applied]

theorem capture_version {now : Nat} {op : BatchOp}
    (h : op.capture limits now = .ok (expected, change))
    : captureVersion op.ifVersion = .ok expected := by
  cases op with
  | put key value identity ifVersion onConflict =>
      obtain ⟨payload, -, captured⟩ := bind_eq_ok.mp h
      exact capturePut_version captured
  | delete key ifVersion onConflict condition => exact captureDelete_version h

/-- One operation of a batch applies as a write, or leaves the snapshot alone. -/
theorem applyOp_ok {now : Nat} {op : BatchOp} {working next : Working} {result : BatchResult}
    (h : applyOp limits now op working = .ok (result, next))
    : result.applied = false ∧ next = working
      ∨ result.applied = true ∧ Changed working.state
          { key := op.key, expected := op.ifVersion, version := result.version } next.state := by
  obtain ⟨slot, read, h⟩ := bind_eq_ok.mp h
  obtain ⟨allowed, -, h⟩ := bind_eq_ok.mp h
  split at h
  · split at h
    · obtain ⟨policy, -, h⟩ := bind_eq_ok.mp h
      cases policy with
      | abort => exact absurd h (by simp)
      | skip =>
          obtain ⟨rfl, rfl⟩ := Prod.mk.inj (Except.ok.inj h)
          exact .inl ⟨rfl, rfl⟩
    · obtain ⟨⟨expected, change⟩, captured, h⟩ := bind_eq_ok.mp h
      obtain ⟨moved, transitioned, h⟩ := bind_eq_ok.mp h
      cases moved with
      | unchanged =>
          obtain ⟨rfl, rfl⟩ := Prod.mk.inj (Except.ok.inj h)
          exact .inl ⟨rfl, rfl⟩
      | delete version highWater =>
          obtain ⟨rfl, rfl⟩ := Prod.mk.inj (Except.ok.inj h)
          exact .inr ⟨rfl, .bury read (capture_version captured) transitioned⟩
      | put value identity version highWater =>
          obtain ⟨rfl, rfl⟩ := Prod.mk.inj (Except.ok.inj h)
          exact .inr ⟨rfl, .store read (capture_version captured) transitioned⟩
  · obtain ⟨rfl, rfl⟩ := Prod.mk.inj (Except.ok.inj h)
    exact .inl ⟨rfl, rfl⟩

/-- The loop of a batch continues the history, by induction over its operations. -/
theorem Tracks.applyOps {now : Nat} {ops : List BatchOp} {working last : Working}
    {results : List BatchResult} (h : Tracks first log working.state)
    (done : applyOps limits now ops working = .ok (results, last))
    : Tracks first (log ++ batchEvents ops results) last.state
      ∧ (results.any BatchResult.applied = true → batchEvents ops results ≠ []) := by
  induction ops generalizing log working results with
  | nil =>
      obtain ⟨rfl, rfl⟩ := Prod.mk.inj (Except.ok.inj done)
      exact ⟨by simpa [batchEvents] using h, by simp⟩
  | cons op rest ih =>
      obtain ⟨⟨result, next⟩, one, done⟩ := bind_eq_ok.mp done
      obtain ⟨⟨others, final⟩, all, done⟩ := bind_eq_ok.mp done
      obtain ⟨rfl, rfl⟩ := Prod.mk.inj (Except.ok.inj done)
      rw [batchEvents_cons]
      rcases applyOp_ok one with ⟨skipped, rfl⟩ | ⟨applied, change⟩
      · obtain ⟨tracks, some_⟩ := ih h all
        simpa [skipped] using And.intro tracks some_
      · obtain ⟨tracks, -⟩ := ih (h.changed change) all
        simpa [applied] using tracks

/-- A write that commits, with what it issued. A refused write, an aborted batch, a delete of an
absent key and a batch that applies nothing leave the file as it is.
-/
inductive Write (limits : Limits) : StateFile → List Event → StateFile → Prop
  | put {state next : StateFile} {key : JsString} {value : Option Json} {identity entry : Json}
      {ifVersion : Option Json} {now version : Nat}
      (done : put limits key value identity ifVersion now state = .ok (entry, version, next))
      : Write limits state [{ key, expected := ifVersion, version }] next
  | delete {state next : StateFile} {key : JsString} {ifVersion : Option Json} {version : Nat}
      (done : delete limits key ifVersion state = .ok (some (version, next)))
      : Write limits state [{ key, expected := ifVersion, version }] next
  | batch {state next : StateFile} {now : Nat} {callerOps ops : List BatchOp}
      {prepare : StateFile → Except StateError (List BatchOp)} {results : List BatchResult}
      (done : writeBatch limits now callerOps prepare state = .ok (ops, results, some next))
      : Write limits state (batchEvents ops results) next

/-- The writes of any stores on one root, one after another, with their history. -/
inductive Run (first : StateFile) : List Event → StateFile → Prop
  | refl : Run first [] first
  | write {log events : List Event} {state next : StateFile} {limits : Limits}
      (run : Run first log state) (write : Write limits state events next)
      : Run first (log ++ events) next

theorem Tracks.write {state next : StateFile} {events : List Event} (h : Tracks first log state)
    (write : Write limits state events next)
    : Tracks first (log ++ events) next := by
  cases write with
  | put done =>
      obtain ⟨-, -, done⟩ := bind_eq_ok.mp done
      obtain ⟨⟨expected, change⟩, captured, done⟩ := bind_eq_ok.mp done
      obtain ⟨slot, read, done⟩ := bind_eq_ok.mp done
      obtain ⟨moved, transitioned, done⟩ := bind_eq_ok.mp done
      cases moved with
      | put value identity version highWater =>
          obtain ⟨-, rfl, rfl⟩ := by simpa using Except.ok.inj done
          exact (h.changed (.store read (capturePut_version captured) transitioned)).compact
            (by simp) _ _
      | delete version highWater => exact absurd done (by simp)
      | unchanged => exact absurd done (by simp)
  | delete done =>
      obtain ⟨-, -, done⟩ := bind_eq_ok.mp done
      obtain ⟨⟨expected, change⟩, captured, done⟩ := bind_eq_ok.mp done
      obtain ⟨slot, read, done⟩ := bind_eq_ok.mp done
      obtain ⟨moved, transitioned, done⟩ := bind_eq_ok.mp done
      cases moved with
      | put value identity version highWater => exact absurd done (by simp)
      | unchanged => exact absurd done (by simp)
      | delete version highWater =>
          obtain ⟨rfl, rfl⟩ := by simpa using Except.ok.inj done
          exact (h.changed (.bury read (captureDelete_version captured) transitioned)).compact
            (by simp) _ _
  | batch done =>
      obtain ⟨-, -, done⟩ := bind_eq_ok.mp done
      obtain ⟨prepared, -, done⟩ := bind_eq_ok.mp done
      obtain ⟨-, -, done⟩ := bind_eq_ok.mp done
      obtain ⟨⟨results, last⟩, applied, done⟩ := bind_eq_ok.mp done
      simp only at done
      split at done
      · next some_ =>
          obtain ⟨rfl, rfl, rfl⟩ := by simpa using Except.ok.inj done
          obtain ⟨tracks, nonempty⟩ := h.applyOps applied
          exact tracks.compact (List.append_ne_nil_of_right_ne_nil _ (nonempty some_)) _ _
      · exact absurd done (by simp)

/-- Every run keeps the history in step with the file, by induction over it. -/
theorem Run.tracks {state : StateFile} (run : Run first log state)
    : Tracks first log state := by
  induction run with
  | refl => exact .initial first
  | write _ write ih => exact ih.write write

theorem Disciplined.front {rest : List Event} (h : Disciplined first (log ++ rest))
    : Disciplined first log := by
  intro before event after split
  refine h before event (after ++ rest) ?_
  rw [split, List.append_assoc, List.cons_append]

/-- The versions of a key only rise, by induction from the end of the history. -/
theorem Disciplined.current_le {earlier since : List Event}
    (h : Disciplined first (earlier ++ since)) (key : JsString)
    : current first earlier key ≤ current first (earlier ++ since) key
      ∧ ∀ event ∈ since, event.key = key →
          current first earlier key < event.version
          ∧ event.version ≤ current first (earlier ++ since) key := by
  induction since using List.reverseRecOn with
  | nil => exact ⟨by rw [List.append_nil], by simp⟩
  | append_singleton since last ih =>
      rw [← List.append_assoc] at h ⊢
      obtain ⟨rising, within⟩ := ih h.front
      have issued := h (earlier ++ since) last [] rfl
      rw [current_snoc]
      by_cases same : last.key = key
      · have above : current first (earlier ++ since) key < last.version := same ▸ issued.above
        rw [if_pos same]
        refine ⟨rising.trans above.le, ?_⟩
        intro event member named
        rcases List.mem_append.mp member with old | new
        · have bounds := within event old named
          exact ⟨bounds.1, bounds.2.trans above.le⟩
        · rw [List.mem_singleton.mp new]
          exact ⟨lt_of_le_of_lt rising above, le_refl _⟩
      · rw [if_neg same]
        refine ⟨rising, ?_⟩
        intro event member named
        rcases List.mem_append.mp member with old | new
        · exact within event old named
        · exact absurd (List.mem_singleton.mp new ▸ named) same

theorem Disciplined.pairwise (h : Disciplined first log) (key : JsString)
    : ((log.filter fun event => event.key = key).map Event.version).Pairwise (· < ·) := by
  induction log using List.reverseRecOn with
  | nil => simp
  | append_singleton log last ih =>
      rw [List.filter_append, List.map_append, List.pairwise_append]
      refine ⟨ih h.front, List.Pairwise.sublist (List.filter_sublist.map _) (by simp), ?_⟩
      intro version old issued new
      obtain ⟨event, kept, rfl⟩ := List.mem_map.mp old
      obtain ⟨final, listed, rfl⟩ := List.mem_map.mp new
      obtain ⟨member, named⟩ := List.mem_filter.mp kept
      obtain ⟨only, same⟩ := List.mem_filter.mp listed
      rw [List.mem_singleton.mp only] at same ⊢
      have bound := (@Disciplined.current_le _ [] _ h.front key).2 event member
        (of_decide_eq_true named)
      have above := (h log last [] rfl).above
      rw [of_decide_eq_true same] at above
      exact lt_of_le_of_lt bound.2 above

/-- A version of a key that was observed after a history: the last one issued, or whatever a read
of the file committed by then says.
-/
def Observed (first : StateFile) (earlier : List Event) (key : JsString) (version : Nat) : Prop :=
  current first earlier key = version
    ∨ ∃ state, Run first earlier state ∧ state.versionOf key = version

/-- In every run the versions of a key strictly increase, the recorded clock is above all of them,
and a write that was told to expect a version above 0 follows no other write of its key since any
observation of that version.
-/
theorem revisions_never_reissued {first state : StateFile} {log : List Event}
    (run : Run first log state)
    : (∀ key, ((log.filter fun event => event.key = key).map Event.version).Pairwise (· < ·))
      ∧ (∀ event ∈ log, event.version ≤ state.recorded)
      ∧ ∀ earlier since event after, log = earlier ++ since ++ event :: after →
          ∀ version, 0 < version → event.expected = some (number version) →
          Observed first earlier event.key version →
          ∀ other ∈ since, other.key ≠ event.key := by
  have tracks := run.tracks
  refine ⟨tracks.disciplined.pairwise, ?_, ?_⟩
  · intro event member
    have bounds := (@Disciplined.current_le _ [] _ tracks.disciplined event.key).2 event
      member rfl
    exact bounds.2.trans (tracks.recorded (List.ne_nil_of_mem member) event.key)
  · intro earlier since event after split version positive expected observed other member same
    have disciplined := tracks.disciplined
    rw [split] at disciplined
    obtain ⟨found, named, matched⟩ := (disciplined (earlier ++ since) event after rfl).fenced
      _ expected
    have now : version = current first (earlier ++ since) event.key := by
      have equal : version = found := by simpa [number] using named
      rcases matched with latest | none
      · exact equal.trans latest
      · omega
    have before : version = current first earlier event.key := by
      rcases observed with latest | ⟨mid, reached, read⟩
      · exact latest.symm
      · rcases reached.tracks.versions event.key with latest | ⟨-, none⟩
        · exact read.symm.trans latest
        · omega
    have bounds := (disciplined.front.current_le event.key).2 other member same
    omega

def noteKey : JsString :=
  lit "note"

def noteLimits : Limits where
  maxEventBytes := 262144
  maxStateTombstones := 1

def noteFile : StateFile where
  format := number 1
  revisionFormat := some (number 2)
  entries := JsMap.empty.set noteKey (entryJson noteKey .null 1 7 .null)
  versions := some (JsMap.empty.set noteKey (number 1))
  tombstoneOrder := some []
  highWater := some (number 1)

def noteGone : StateFile where
  format := number 1
  revisionFormat := some (number 2)
  entries := JsMap.empty
  versions := some (JsMap.empty.set noteKey (number 2))
  tombstoneOrder := some [noteKey]
  highWater := some (number 2)

theorem put_note
    : put noteLimits noteKey (some .null) .null none 7 emptyState
      = .ok (entryJson noteKey .null 1 7 .null, 1, noteFile) := by
  rfl

theorem delete_note
    : delete noteLimits noteKey (some (number 1)) noteFile = .ok (some (2, noteGone)) := by
  rfl

/-- Witness: a note is put, and deleted by the version its put returned. -/
theorem revisions_never_reissued_note
    : ([1, 2] : List Nat).Pairwise (· < ·) ∧ 2 ≤ noteGone.recorded := by
  have run := (Run.refl.write (.put put_note)).write (.delete delete_note)
  obtain ⟨rising, clock, -⟩ := revisions_never_reissued run
  exact ⟨rising noteKey, clock _ (List.mem_append_right _ (List.mem_singleton_self _))⟩

end PiFabric.State
