import PiFabric.Foundation.JsMap
import PiFabric.Ledger.Record

/-! The ledger's memory: the maps that replaying lines builds, what they answer, and what a
compaction keeps of them.
-/

namespace PiFabric.Ledger

open JsString LineLog
open Json (Members)

/-- What the ledger relies on in JavaScript's numbers. -/
structure Numbers (T : Type) [LinearOrder T] where
  /-- The number a JSON token denotes. -/
  value : JsNumber → T
  /-- `Math.max(deadlineAt, claimedAt) + BRIDGE_NATS_HORIZON_MS`. -/
  expiry : JsNumber → JsNumber → JsNumber
  expiry_ge : ∀ deadlineAt claimedAt, value claimedAt ≤ value (expiry deadlineAt claimedAt)

/-- A property as text; every key is taken from a record that passed its shape check. -/
def keyText (value : Option Json) : JsString :=
  (Json.text? value).getD []

def commandIdOf (r : Members) : JsString :=
  keyText (r.get? "commandId")

def seenKey (dir eventId : JsString) : JsString :=
  Json.stringify (.array [.string dir, .string eventId])

def originalKey (dir requesterId original : JsString) : JsString :=
  Json.stringify (.array [.string dir, .string requesterId, .string original])

def originalKeyOf (r : Members) : JsString :=
  originalKey (keyText (r.get? "direction")) (keyText (r.get? "requesterId"))
    (keyText (r.get? "originalCommandId"))

def seenKeyOf (r : Members) : JsString :=
  seenKey (keyText (r.get? "direction")) (keyText (r.get? "eventId"))

structure Memory where
  commands : JsMap JsString Members
  originals : JsMap JsString JsString
  seen : JsMap JsString Members

namespace Memory

def empty : Memory where
  commands := JsMap.empty
  originals := JsMap.empty
  seen := JsMap.empty

def apply (memory : Memory) : Line → Memory
  | .cmd r => {
      memory with
      commands := memory.commands.set (commandIdOf r) r
      originals := memory.originals.set (originalKeyOf r) (commandIdOf r)
    }
  | .seen r => { memory with seen := memory.seen.set (seenKeyOf r) r }

def replay (lines : List Line) : Memory :=
  lines.foldl apply empty

theorem replay_append_singleton (lines : List Line) (line : Line)
    : replay (lines ++ [line]) = (replay lines).apply line := by
  simp [replay]

section Clock

variable {T : Type} [LinearOrder T] (num : Numbers T)

def live (now : JsNumber) (r : Members) : Bool :=
  match r.get? "expiresAt" with
  | some (.number expiresAt) => num.value now ≤ num.value expiresAt
  | _ => false

def get (now : JsNumber) (memory : Memory) (commandId : JsString) : Option Members :=
  (memory.commands.get? commandId).filter (live num now)

def lookup (now : JsNumber) (memory : Memory) (dir : Direction) (commandId : JsString)
    : Option Members :=
  (memory.get num now commandId).filter fun r => keyText (r.get? "direction") = dir.name

def lookupOriginal (now : JsNumber) (memory : Memory) (dir : Direction)
    (requesterId original : JsString)
    : Option Members :=
  (memory.originals.get? (originalKey dir.name requesterId original)).bind
    (memory.lookup num now dir)

def seenRecord (now : JsNumber) (memory : Memory) (dir : Direction) (eventId : JsString)
    : Option Members :=
  (memory.seen.get? (seenKey dir.name eventId)).filter (live num now)

/-- `claimedAt`, compared as the sort compares it. -/
def claimedBefore (a b : Members) : Bool :=
  match a.get? "claimedAt", b.get? "claimedAt" with
  | some (.number first), some (.number second) => num.value first ≤ num.value second
  | _, _ => true

/-- The live records that pass a test, sorted by `claimedAt`; the sort is stable. -/
def pending (now : JsNumber) (memory : Memory) (wanted : Members → Bool) : List Members :=
  (memory.commands.values.filter fun r => live num now r && wanted r).mergeSort
    (claimedBefore num)

def pendingResends (now : JsNumber) (memory : Memory) : List Members :=
  memory.pending num now fun r => stateOf r = some .claimed || stateOf r = some .uncertain

def pendingAcks (now : JsNumber) (memory : Memory) : List Members :=
  memory.pending num now fun r => stateOf r = some .acked

def liveLines (now : JsNumber) (memory : Memory) : List Line :=
  (memory.commands.values.filter (live num now)).map .cmd
    ++ (memory.seen.values.filter (live num now)).map .seen

def compacted (now : JsNumber) (memory : Memory) : Memory :=
  replay (memory.liveLines num now)

end Clock

end Memory

open Memory

/-- What holds of a memory that valid lines built. -/
structure Memory.Sound (memory : Memory) : Prop where
  commandValid : ∀ entry ∈ memory.commands.entries, validCommand entry.2 = true
  commandKey : ∀ entry ∈ memory.commands.entries, commandIdOf entry.2 = entry.1
  seenValid : ∀ entry ∈ memory.seen.entries, validSeen entry.2 = true
  seenKey : ∀ entry ∈ memory.seen.entries, seenKeyOf entry.2 = entry.1

variable {r : Members}

theorem Memory.Sound.key_of_get? {memory : Memory} (h : memory.Sound) {commandId : JsString}
    (bound : memory.commands.get? commandId = some r)
    : commandIdOf r = commandId :=
  h.commandKey (commandId, r) (JsMap.get?_eq_some_iff.mp bound)

theorem Memory.Sound.valid_of_get? {memory : Memory} (h : memory.Sound) {commandId : JsString}
    (bound : memory.commands.get? commandId = some r)
    : validCommand r = true :=
  h.commandValid (commandId, r) (JsMap.get?_eq_some_iff.mp bound)

theorem Memory.sound_empty : Memory.empty.Sound := by
  constructor <;> simp [Memory.empty, JsMap.empty]

theorem Memory.Sound.apply {memory : Memory} {line : Line} (h : memory.Sound)
    (valid : line.valid = true)
    : (memory.apply line).Sound := by
  cases line with
  | cmd r =>
      refine ⟨?_, ?_, h.seenValid, h.seenKey⟩
      · intro entry member
        rcases (JsMap.mem_setEntries memory.commands.distinct).mp member with rfl | ⟨old, -⟩
        · exact valid
        · exact h.commandValid entry old
      · intro entry member
        rcases (JsMap.mem_setEntries memory.commands.distinct).mp member with rfl | ⟨old, -⟩
        · rfl
        · exact h.commandKey entry old
  | seen r =>
      refine ⟨h.commandValid, h.commandKey, ?_, ?_⟩
      · intro entry member
        rcases (JsMap.mem_setEntries memory.seen.distinct).mp member with rfl | ⟨old, -⟩
        · exact valid
        · exact h.seenValid entry old
      · intro entry member
        rcases (JsMap.mem_setEntries memory.seen.distinct).mp member with rfl | ⟨old, -⟩
        · rfl
        · exact h.seenKey entry old

variable {lines : List Line}

theorem Memory.sound_replay (valid : ∀ line ∈ lines, line.valid = true)
    : (replay lines).Sound := by
  induction lines using List.reverseRecOn with
  | nil => exact Memory.sound_empty
  | append_singleton lines line ih =>
      rw [replay_append_singleton]
      exact (ih fun other member => valid other (List.mem_append_left _ member)).apply
        (valid line (List.mem_append_right _ (List.mem_singleton_self line)))

/-- A record in memory was in one of the lines, by induction over them from the last. -/
theorem Memory.mem_of_mem_replay
    : (r ∈ (replay lines).commands.values → .cmd r ∈ lines)
      ∧ (r ∈ (replay lines).seen.values → .seen r ∈ lines) := by
  induction lines using List.reverseRecOn with
  | nil => simp [replay, empty, JsMap.empty, JsMap.values]
  | append_singleton lines line ih =>
      rw [replay_append_singleton]
      constructor
      · intro h
        cases line with
        | seen _ => exact List.mem_append_left _ (ih.1 h)
        | cmd new =>
            obtain ⟨entry, member, rfl⟩ := List.mem_map.mp h
            rcases (JsMap.mem_setEntries (replay lines).commands.distinct).mp member
              with rfl | ⟨old, -⟩
            · exact List.mem_append_right _ (List.mem_singleton_self _)
            · exact List.mem_append_left _ (ih.1 (List.mem_map_of_mem old))
      · intro h
        cases line with
        | cmd _ => exact List.mem_append_left _ (ih.2 h)
        | seen new =>
            obtain ⟨entry, member, rfl⟩ := List.mem_map.mp h
            rcases (JsMap.mem_setEntries (replay lines).seen.distinct).mp member
              with rfl | ⟨old, -⟩
            · exact List.mem_append_right _ (List.mem_singleton_self _)
            · exact List.mem_append_left _ (ih.2 (List.mem_map_of_mem old))

/-- A line that a compaction writes was read or written before. -/
theorem Memory.mem_of_mem_liveLines {T : Type} [LinearOrder T] {num : Numbers T} {now : JsNumber}
    {line : Line} (h : line ∈ (replay lines).liveLines num now)
    : line ∈ lines := by
  rcases List.mem_append.mp h with command | seen
  · obtain ⟨r, inside, rfl⟩ := List.mem_map.mp command
    exact mem_of_mem_replay.1 (List.mem_of_mem_filter inside)
  · obtain ⟨r, inside, rfl⟩ := List.mem_map.mp seen
    exact mem_of_mem_replay.2 (List.mem_of_mem_filter inside)

section Compaction

variable {T : Type} [LinearOrder T] {num : Numbers T}

/-- Replaying commands only touches the two command maps, by induction over them. -/
theorem foldl_apply_cmd (memory : Memory) (records : List Members)
    : (records.map Line.cmd).foldl Memory.apply memory = {
        memory with
        commands := JsMap.bindAll commandIdOf id memory.commands records
        originals := JsMap.bindAll originalKeyOf commandIdOf memory.originals records
      } := by
  induction records generalizing memory with
  | nil => rfl
  | cons r rest ih => exact ih (memory.apply (.cmd r))

theorem foldl_apply_seen (memory : Memory) (records : List Members)
    : (records.map Line.seen).foldl Memory.apply memory
      = { memory with seen := JsMap.bindAll seenKeyOf id memory.seen records } := by
  induction records generalizing memory with
  | nil => rfl
  | cons r rest ih => exact ih (memory.apply (.seen r))

def liveCommands (num : Numbers T) (now : JsNumber) (memory : Memory) : List Members :=
  memory.commands.values.filter (live num now)

theorem compacted_eq (now : JsNumber) (memory : Memory)
    : memory.compacted num now = {
        commands := JsMap.bindAll commandIdOf id JsMap.empty (liveCommands num now memory)
        originals :=
          JsMap.bindAll originalKeyOf commandIdOf JsMap.empty (liveCommands num now memory)
        seen := JsMap.bindAll seenKeyOf id JsMap.empty
          (memory.seen.values.filter (live num now))
      } := by
  simp only [Memory.compacted, replay, liveLines, List.foldl_append]
  rw [show (memory.commands.values.filter (live num now)) = liveCommands num now memory from rfl,
    foldl_apply_cmd, foldl_apply_seen]
  rfl

/-- Records under their own keys are bound again as they were. -/
theorem bindAll_values {key : Members → JsString} {map : JsMap JsString Members}
    (own : ∀ entry ∈ map.entries, key entry.2 = entry.1) (keep : Members → Bool)
    : (JsMap.bindAll key id JsMap.empty (map.values.filter keep)).entries
      = (map.filter fun _ r => keep r).entries := by
  have keyed : (map.values.filter keep).map (fun r => (key r, id r))
      = (map.filter fun _ r => keep r).entries := by
    simp only [JsMap.values, JsMap.filter, List.filter_map, List.map_map]
    conv => rhs; rw [← List.map_id (map.entries.filter fun entry => keep entry.2)]
    apply List.map_congr_left
    intro entry member
    have same := own entry (List.mem_of_mem_filter member)
    exact Prod.ext same rfl
  have distinct : ((map.values.filter keep).map key).Nodup := by
    have fsts := (map.filter fun _ r => keep r).distinct
    rw [← keyed, List.map_map] at fsts
    exact fsts
  rw [JsMap.entries_bindAll distinct (by simp [JsMap.keys, JsMap.empty]), keyed]
  rfl

variable {now : JsNumber} {memory : Memory}

/-- A compaction keeps exactly the live commands, in their order. -/
theorem compacted_commands (sound : memory.Sound)
    : (memory.compacted num now).commands = memory.commands.filter fun _ r => live num now r := by
  rw [compacted_eq]
  exact JsMap.ext (bindAll_values sound.commandKey _)

theorem compacted_seen (sound : memory.Sound)
    : (memory.compacted num now).seen = memory.seen.filter fun _ r => live num now r := by
  rw [compacted_eq]
  exact JsMap.ext (bindAll_values sound.seenKey _)

theorem compacted_originals (now : JsNumber) (memory : Memory)
    : (memory.compacted num now).originals
      = JsMap.bindAll originalKeyOf commandIdOf JsMap.empty (liveCommands num now memory) := by
  rw [compacted_eq]

variable {later : JsNumber}

theorem live_of_live (order : num.value now ≤ num.value later) {r : Members}
    (h : live num later r = true)
    : live num now r = true := by
  unfold live at h ⊢
  split at h
  · next expiresAt field =>
      simp only [decide_eq_true_eq] at h ⊢
      exact order.trans h
  · exact absurd h (by simp)

theorem filter_live_live (order : num.value now ≤ num.value later) (found : Option Members)
    : (found.filter (live num now)).filter (live num later) = found.filter (live num later) := by
  cases found with
  | none => rfl
  | some r =>
      cases alive : live num later r with
      | false => cases before : live num now r <;> simp [Option.filter, alive, before]
      | true => simp [Option.filter, alive, live_of_live order alive]

/-- The answers that a compaction never changes. -/
structure SameRecords (num : Numbers T) (now : JsNumber) (left right : Memory) : Prop where
  get : ∀ later, num.value now ≤ num.value later → ∀ commandId,
    left.get num later commandId = right.get num later commandId
  lookup : ∀ later, num.value now ≤ num.value later → ∀ dir commandId,
    left.lookup num later dir commandId = right.lookup num later dir commandId
  seen : ∀ later, num.value now ≤ num.value later → ∀ dir eventId,
    left.seenRecord num later dir eventId = right.seenRecord num later dir eventId
  resends : ∀ later, num.value now ≤ num.value later →
    left.pendingResends num later = right.pendingResends num later
  acks : ∀ later, num.value now ≤ num.value later →
    left.pendingAcks num later = right.pendingAcks num later

/-- The answer that a compaction may change. -/
def SameOriginals (num : Numbers T) (now : JsNumber) (left right : Memory) : Prop :=
  ∀ later, num.value now ≤ num.value later → ∀ dir requesterId original,
    left.lookupOriginal num later dir requesterId original
      = right.lookupOriginal num later dir requesterId original

theorem pending_compacted (sound : memory.Sound) (order : num.value now ≤ num.value later)
    (wanted : Members → Bool)
    : (memory.compacted num now).pending num later wanted = memory.pending num later wanted := by
  rw [Memory.pending, compacted_commands sound, Memory.pending]
  congr 1
  simp only [JsMap.values, JsMap.filter, List.filter_map, List.filter_filter]
  congr 1
  apply List.filter_congr
  intro entry _
  cases alive : live num later entry.2 with
  | false => simp [alive]
  | true => simp [alive, live_of_live order alive]

theorem get_compacted (sound : memory.Sound) (order : num.value now ≤ num.value later)
    (commandId : JsString)
    : (memory.compacted num now).get num later commandId = memory.get num later commandId := by
  rw [Memory.get, compacted_commands sound, JsMap.get?_filter]
  exact filter_live_live order _

theorem compacted_sameRecords (sound : memory.Sound)
    : SameRecords num now (memory.compacted num now) memory where
  get := fun _ order commandId => get_compacted sound order commandId
  lookup := by
    intro later order dir commandId
    rw [Memory.lookup, get_compacted sound order, Memory.lookup]
  seen := by
    intro later order dir eventId
    rw [Memory.seenRecord, compacted_seen sound, JsMap.get?_filter]
    exact filter_live_live order _
  resends := fun _ order => pending_compacted sound order _
  acks := fun _ order => pending_compacted sound order _

end Compaction

end PiFabric.Ledger
