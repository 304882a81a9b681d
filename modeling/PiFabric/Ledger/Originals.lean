import PiFabric.Ledger.Memory

/-! The index of original command ids across a compaction. The index names the command written
last under a key, and a compaction makes it name the last live command of the command map with
that key.
-/

namespace PiFabric.Ledger

open JsString Memory
open Json (Members)

section Originals

variable {T : Type} [LinearOrder T]

/-- The last live command with an original key, in the order of the command map. -/
def lastLive (num : Numbers T) (now : JsNumber) (memory : Memory) (key : JsString)
    : Option Members :=
  (liveCommands num now memory).reverse.find? fun r => originalKeyOf r = key

/-- The index names live commands under their own keys only, and under the key of each live
command it names the last live one of the command map that has the key.
-/
structure OriginalsCurrent (num : Numbers T) (now : JsNumber) (memory : Memory) : Prop where
  own : ∀ (dir : Direction) requesterId original commandId r,
    memory.originals.get? (originalKey dir.name requesterId original) = some commandId
    → memory.commands.get? commandId = some r
    → live num now r = true
    → keyText (r.get? "direction") = dir.name
    → originalKeyOf r = originalKey dir.name requesterId original
  latest : ∀ r ∈ liveCommands num now memory,
    memory.originals.get? (originalKeyOf r)
      = (lastLive num now memory (originalKeyOf r)).map commandIdOf

variable {num : Numbers T} {now : JsNumber} {memory : Memory}

variable {r : Members}

theorem mem_liveCommands_iff (sound : memory.Sound)
    : r ∈ liveCommands num now memory
      ↔ memory.commands.get? (commandIdOf r) = some r ∧ live num now r = true := by
  simp only [liveCommands, List.mem_filter, JsMap.values, List.mem_map, JsMap.get?_eq_some_iff]
  refine and_congr_left fun _ => ?_
  constructor
  · intro h
    obtain ⟨entry, member, rfl⟩ := h
    rw [sound.commandKey entry member]
    exact member
  · intro h
    exact ⟨_, h, rfl⟩

theorem lastLive_eq_some {key : JsString} (h : lastLive num now memory key = some r)
    : r ∈ liveCommands num now memory ∧ originalKeyOf r = key := by
  have member := List.mem_of_find?_eq_some h
  exact ⟨List.mem_reverse.mp member, by simpa using List.find?_some h⟩

theorem lastLive_ne_none (h : r ∈ liveCommands num now memory)
    : lastLive num now memory (originalKeyOf r) ≠ none := by
  intro absent
  exact List.find?_eq_none.mp absent r (List.mem_reverse.mpr h) (by simp)

/-- The rebuilt index names the last live command with a key. -/
theorem compacted_originals_get? (key : JsString)
    : (memory.compacted num now).originals.get? key
      = (lastLive num now memory key).map commandIdOf := by
  rw [compacted_originals, JsMap.get?_bindAll, lastLive]
  cases (liveCommands num now memory).reverse.find? fun r => originalKeyOf r = key <;> rfl

variable {dir : Direction}

theorem lookup_eq_some_iff {commandId : JsString}
    : memory.lookup num now dir commandId = some r
      ↔ memory.commands.get? commandId = some r ∧ live num now r = true
        ∧ keyText (r.get? "direction") = dir.name := by
  simp only [lookup, Memory.get, Option.filter_eq_some_iff, decide_eq_true_eq, and_assoc]

variable {requesterId original : JsString}

theorem lookupOriginal_eq_some_iff
    : memory.lookupOriginal num now dir requesterId original = some r
      ↔ ∃ commandId,
        memory.originals.get? (originalKey dir.name requesterId original) = some commandId
        ∧ memory.lookup num now dir commandId = some r := by
  rw [lookupOriginal, Option.bind_eq_some_iff]

theorem direction_of_valid (valid : validCommand r = true)
    : ∃ dir : Direction, keyText (r.get? "direction") = dir.name := by
  have field : isDirection (r.get? "direction") = true := by
    simp only [validCommand, Bool.and_eq_true] at valid
    grind
  simp only [isDirection, isLiteral, Bool.or_eq_true, decide_eq_true_eq] at field
  rcases field with toNats | toFile
  · exact ⟨.toNats, by simp [keyText, toNats, Direction.name]⟩
  · exact ⟨.toFile, by simp [keyText, toFile, Direction.name]⟩

theorem originalKey_injective {dir dir' requesterId' original' : JsString}
    (h : originalKey dir requesterId original = originalKey dir' requesterId' original')
    : dir = dir' ∧ requesterId = requesterId' ∧ original = original' := by
  simpa using Json.stringify_injective h

/-- The last live command with a key is what a compacted ledger answers for it. -/
theorem compacted_lookupOriginal_last (sound : memory.Sound)
    (h : lastLive num now memory (originalKey dir.name requesterId original) = some r)
    : (memory.compacted num now).lookupOriginal num now dir requesterId original = some r := by
  obtain ⟨member, key⟩ := lastLive_eq_some h
  obtain ⟨bound, alive⟩ := (mem_liveCommands_iff sound).mp member
  refine lookupOriginal_eq_some_iff.mpr ⟨commandIdOf r, ?_, ?_⟩
  · rw [compacted_originals_get?, h]
    rfl
  · rw [(compacted_sameRecords sound).lookup now (le_refl _)]
    exact lookup_eq_some_iff.mpr ⟨bound, alive, (originalKey_injective key).1⟩

/-- A compaction keeps the answers to `lookupOriginal` exactly where the index is current. -/
theorem sameOriginals_iff (sound : memory.Sound)
    : SameOriginals num now (memory.compacted num now) memory
      ↔ OriginalsCurrent num now memory := by
  constructor
  · intro same
    constructor
    · intro dir requesterId original commandId r named bound alive direction
      have before : memory.lookupOriginal num now dir requesterId original = some r :=
        lookupOriginal_eq_some_iff.mpr
          ⟨commandId, named, lookup_eq_some_iff.mpr ⟨bound, alive, direction⟩⟩
      rw [← same now (le_refl _)] at before
      obtain ⟨other, found, looked⟩ := lookupOriginal_eq_some_iff.mp before
      rw [compacted_originals_get?, Option.map_eq_some_iff] at found
      obtain ⟨last, atKey, rfl⟩ := found
      obtain ⟨member, key⟩ := lastLive_eq_some atKey
      rw [(compacted_sameRecords sound).lookup now (le_refl _)] at looked
      have lastBound := ((mem_liveCommands_iff sound).mp member).1
      obtain rfl : last = r :=
        Option.some.inj (lastBound.symm.trans (lookup_eq_some_iff.mp looked).1)
      exact key
    · intro r member
      obtain ⟨last, atKey⟩ := Option.ne_none_iff_exists'.mp (lastLive_ne_none member)
      have bound := ((mem_liveCommands_iff sound).mp member).1
      obtain ⟨dir, direction⟩ :=
        direction_of_valid (sound.valid_of_get? bound)
      have key : originalKeyOf r = originalKey dir.name (keyText (r.get? "requesterId"))
          (keyText (r.get? "originalCommandId")) := by
        rw [originalKeyOf, direction]
      rw [key] at atKey ⊢
      have after := compacted_lookupOriginal_last sound atKey
      rw [same now (le_refl _)] at after
      obtain ⟨commandId, named, looked⟩ := lookupOriginal_eq_some_iff.mp after
      have lastBound := (lookup_eq_some_iff.mp looked).1
      rw [named, atKey, Option.map_some, sound.key_of_get? lastBound]
  · intro current later order dir requesterId original
    cases last : lastLive num now memory (originalKey dir.name requesterId original) with
    | none =>
        have after : (memory.compacted num now).lookupOriginal num later dir requesterId original
            = none := by
          rw [lookupOriginal, compacted_originals_get?, last]
          rfl
        rw [after, eq_comm, Option.eq_none_iff_forall_ne_some]
        intro r found
        obtain ⟨commandId, named, looked⟩ := lookupOriginal_eq_some_iff.mp found
        obtain ⟨bound, alive, direction⟩ := lookup_eq_some_iff.mp looked
        have before := live_of_live order alive
        have key := current.own dir requesterId original commandId r named bound before direction
        rw [← sound.key_of_get? bound] at bound
        have absent := lastLive_ne_none ((mem_liveCommands_iff sound).mpr ⟨bound, before⟩)
        rw [key] at absent
        exact absent last
    | some r =>
        obtain ⟨member, key⟩ := lastLive_eq_some last
        have named := current.latest r member
        rw [key, last] at named
        rw [lookupOriginal, lookupOriginal, compacted_originals_get?, last, named]
        exact (compacted_sameRecords sound).lookup later order dir (commandIdOf r)

end Originals

end PiFabric.Ledger
