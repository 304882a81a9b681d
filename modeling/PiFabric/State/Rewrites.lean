import PiFabric.State.Snapshots

/-! What a write does to the entries. It names every key that it changes, it gives an entry that it
replaces another version, and it accepts and leaves only entries under their own keys.
-/

namespace PiFabric.State

open JsString Outcome

/-- Every entry is under its own key. -/
def Keyed (entries : JsMap JsString Json) : Prop :=
  ∀ key value, entries.get? key = some value → Json.field? "key" value = some (.string key)

variable {state : StateFile} {key : JsString}

/-- A slot is only read of a file whose entries are under their keys. -/
theorem stateSlot_keyed {slot : Slot} (h : stateSlot state key = .ok slot)
    : Keyed state.entries := by
  unfold stateSlot at h
  obtain ⟨rows, -, h⟩ := bind_eq_ok.mp h
  obtain ⟨versions, checked, -⟩ := bind_eq_ok.mp h
  intro other value found
  obtain ⟨version, -, accepted⟩ :=
    exists_of_mapM_eq_ok checked (JsMap.get?_eq_some_iff.mp found)
  cases value with
  | object members =>
      unfold entryRevision at accepted
      dsimp only at accepted
      split at accepted
      · next named => exact Json.eq_of_strictEqual named
      · cases accepted
  | _ => cases accepted

theorem Keyed.set {entries : JsMap JsString Json} {value : Json} (h : Keyed entries)
    (own : Json.field? "key" value = some (.string key))
    : Keyed (entries.set key value) := by
  intro other found present
  rw [JsMap.get?_set] at present
  split at present
  · next same =>
      rw [← Option.some.inj present, own, same]
  · exact h other found present

theorem Keyed.delete {entries : JsMap JsString Json} (h : Keyed entries) (key : JsString)
    : Keyed (entries.delete key) := by
  intro other found present
  rw [JsMap.get?_delete] at present
  split at present
  · cases present
  · exact h other found present

theorem field?_key_entryJson (key : JsString) (value identity : Json) (version now : Nat)
    : Json.field? "key" (entryJson key value version now identity) = some (.string key) := by
  rfl

variable {limits : Limits} {now : Nat}

/-- One operation of a batch reads a file with keyed entries and leaves one; its result names it. -/
theorem applyOp_keyed {op : BatchOp} {working next : Working} {result : BatchResult}
    (h : applyOp limits now op working = .ok (result, next))
    : Keyed working.state.entries ∧ Keyed next.state.entries ∧ result.key = op.key := by
  obtain ⟨slot, read, h⟩ := bind_eq_ok.mp h
  have keyed := stateSlot_keyed read
  obtain ⟨allowed, -, h⟩ := bind_eq_ok.mp h
  split at h
  · split at h
    · obtain ⟨policy, -, h⟩ := bind_eq_ok.mp h
      cases policy with
      | abort => cases h
      | skip =>
          obtain ⟨rfl, rfl⟩ := Prod.mk.inj (Except.ok.inj h)
          exact ⟨keyed, keyed, rfl⟩
    · obtain ⟨⟨expected, change⟩, -, h⟩ := bind_eq_ok.mp h
      obtain ⟨moved, -, h⟩ := bind_eq_ok.mp h
      cases moved with
      | unchanged =>
          obtain ⟨rfl, rfl⟩ := Prod.mk.inj (Except.ok.inj h)
          exact ⟨keyed, keyed, rfl⟩
      | delete version highWater =>
          obtain ⟨rfl, rfl⟩ := Prod.mk.inj (Except.ok.inj h)
          exact ⟨keyed, keyed.delete op.key, rfl⟩
      | put value identity version highWater =>
          obtain ⟨rfl, rfl⟩ := Prod.mk.inj (Except.ok.inj h)
          exact ⟨keyed, keyed.set (field?_key_entryJson ..), rfl⟩
  · obtain ⟨rfl, rfl⟩ := Prod.mk.inj (Except.ok.inj h)
    exact ⟨keyed, keyed, rfl⟩

/-- What the loop of a batch leaves, by induction over its operations. -/
theorem applyOps_entries {ops : List BatchOp} {working last : Working} {results : List BatchResult}
    (done : applyOps limits now ops working = .ok (results, last))
    : (results.filter BatchResult.applied).map BatchResult.key
        = (batchEvents ops results).map Event.key
      ∧ (∀ key, key ∉ (batchEvents ops results).map Event.key →
          last.state.entries.get? key = working.state.entries.get? key)
      ∧ (results ≠ [] → Keyed working.state.entries)
      ∧ (Keyed working.state.entries → Keyed last.state.entries) := by
  induction ops generalizing working results with
  | nil =>
      obtain ⟨rfl, rfl⟩ := Prod.mk.inj (Except.ok.inj done)
      exact ⟨rfl, fun _ _ => rfl, fun some_ => absurd rfl some_, id⟩
  | cons op rest ih =>
      obtain ⟨⟨result, next⟩, one, done⟩ := bind_eq_ok.mp done
      obtain ⟨⟨others, final⟩, all, done⟩ := bind_eq_ok.mp done
      obtain ⟨rfl, rfl⟩ := Prod.mk.inj (Except.ok.inj done)
      obtain ⟨keys, kept, -, later⟩ := ih all
      obtain ⟨keyed, keyed', named⟩ := applyOp_keyed one
      rw [batchEvents_cons, List.map_append]
      rcases applyOp_ok one with ⟨skipped, rfl⟩ | ⟨applied, change⟩
      · refine ⟨?_, ?_, fun _ => keyed, later⟩
        · rw [List.filter_cons_of_neg (by simp [skipped]), keys]
          simp [skipped]
        · intro key absent
          refine kept key fun member => absent ?_
          exact List.mem_append_right _ member
      · refine ⟨?_, ?_, fun _ => keyed, fun _ => later keyed'⟩
        · rw [List.filter_cons_of_pos (by simp [applied]), List.map_cons, keys, named]
          simp [applied]
        · intro key absent
          rw [if_pos applied, List.mem_append, not_or] at absent
          have apart : key ≠ op.key := by simpa using absent.1
          rw [kept key absent.2, (change.others key apart).2]

/-- Where a history names a key, the entry that it left has another version. -/
theorem Tracks.other_version {first : StateFile} {log : List Event} (h : Tracks first log state)
    (named : key ∈ log.map Event.key) {value value' : Json}
    (before : first.entries.get? key = some value) (after : state.entries.get? key = some value')
    : Json.strictEqual (Json.field? "version" value) (Json.field? "version" value') = false := by
  obtain ⟨event, member, rfl⟩ := List.mem_map.mp named
  have bound := (@Disciplined.current_le first [] log h.disciplined event.key).2 event member rfl
  have above : first.versionOf event.key < current first log event.key :=
    lt_of_lt_of_le bound.1 bound.2
  have latest : state.versionOf event.key = current first log event.key := by
    refine (h.versions event.key).resolve_right fun absent => ?_
    rw [absent.1] at after
    cases after
  rw [← latest, StateFile.versionOf_present before, StateFile.versionOf_present after] at above
  by_contra same
  rw [Bool.not_eq_false] at same
  rw [Json.eq_of_strictEqual same] at above
  exact lt_irrefl _ above

theorem Write.rewrites {next : StateFile} {events : List Event}
    (write : Write limits state events next)
    : Rewrites (events.map Event.key) state.entries next.entries
      ∧ Keyed state.entries ∧ Keyed next.entries := by
  have tracks := (Tracks.initial state).write write
  have parts : (∀ key, key ∉ events.map Event.key →
        next.entries.get? key = state.entries.get? key)
      ∧ Keyed state.entries ∧ Keyed next.entries := by
    cases write with
    | put done =>
        obtain ⟨-, -, done⟩ := bind_eq_ok.mp done
        obtain ⟨⟨expected, change⟩, -, done⟩ := bind_eq_ok.mp done
        obtain ⟨slot, read, done⟩ := bind_eq_ok.mp done
        obtain ⟨moved, -, done⟩ := bind_eq_ok.mp done
        have keyed := stateSlot_keyed read
        cases moved with
        | put value identity version highWater =>
            obtain ⟨-, rfl, rfl⟩ := by simpa using Except.ok.inj done
            refine ⟨fun key other => ?_, keyed, keyed.set (field?_key_entryJson ..)⟩
            exact (JsMap.get?_set ..).trans (if_neg (by simpa using other))
        | delete version highWater => cases done
        | unchanged => cases done
    | delete done =>
        obtain ⟨-, -, done⟩ := bind_eq_ok.mp done
        obtain ⟨⟨expected, change⟩, -, done⟩ := bind_eq_ok.mp done
        obtain ⟨slot, read, done⟩ := bind_eq_ok.mp done
        obtain ⟨moved, -, done⟩ := bind_eq_ok.mp done
        have keyed := stateSlot_keyed read
        cases moved with
        | put value identity version highWater => cases done
        | unchanged => cases done
        | delete version highWater =>
            obtain ⟨rfl, rfl⟩ := by simpa using Except.ok.inj done
            refine ⟨fun key other => ?_, keyed, keyed.delete _⟩
            exact (JsMap.get?_delete ..).trans (if_neg (by simpa using other))
    | batch done =>
        obtain ⟨-, -, done⟩ := bind_eq_ok.mp done
        obtain ⟨prepared, -, done⟩ := bind_eq_ok.mp done
        obtain ⟨-, -, done⟩ := bind_eq_ok.mp done
        obtain ⟨⟨results, last⟩, applied, done⟩ := bind_eq_ok.mp done
        simp only at done
        split at done
        · next some_ =>
            obtain ⟨rfl, rfl, rfl⟩ := by simpa using Except.ok.inj done
            obtain ⟨-, kept, before, after⟩ := applyOps_entries applied
            have keyed := before (by rintro rfl; cases some_)
            exact ⟨kept, keyed, after keyed⟩
        · cases done
  refine ⟨⟨parts.1, ?_⟩, parts.2⟩
  intro key value value' before after
  by_cases named : key ∈ events.map Event.key
  · exact .inr (tracks.other_version named before after)
  · rw [parts.1 key named, before] at after
    exact .inl (Option.some.inj after).symm

/-- The transition of a request tells what it changed. -/
theorem Request.change_rewrites {request : Request} {file next : StateFile} {keys : List JsString}
    (done : request.change limits now file = .ok (some (keys, next)))
    : Rewrites keys file.entries next.entries ∧ Keyed file.entries ∧ Keyed next.entries := by
  cases request with
  | put key value identity ifVersion =>
      obtain ⟨⟨entry, version, last⟩, written, done⟩ := bind_eq_ok.mp done
      obtain ⟨rfl, rfl⟩ := Prod.mk.inj (Option.some.inj (Except.ok.inj done))
      exact (Write.put written).rewrites
  | delete key ifVersion =>
      obtain ⟨written, call, done⟩ := bind_eq_ok.mp done
      obtain ⟨⟨version, last⟩, rfl, same⟩ := Option.map_eq_some_iff.mp (Except.ok.inj done)
      obtain ⟨rfl, rfl⟩ := Prod.mk.inj same
      exact (Write.delete call).rewrites
  | batch ops prepare fileRead =>
      obtain ⟨⟨all, results, last⟩, call, done⟩ := bind_eq_ok.mp done
      obtain ⟨last, rfl, same⟩ := Option.map_eq_some_iff.mp (Except.ok.inj done)
      obtain ⟨rfl, rfl⟩ := Prod.mk.inj same
      have keys : (results.filter BatchResult.applied).map BatchResult.key
          = (batchEvents all results).map Event.key := by
        obtain ⟨-, -, done⟩ := bind_eq_ok.mp call
        obtain ⟨prepared, -, done⟩ := bind_eq_ok.mp done
        obtain ⟨-, -, done⟩ := bind_eq_ok.mp done
        obtain ⟨⟨results, working⟩, applied, done⟩ := bind_eq_ok.mp done
        simp only at done
        split at done
        · obtain ⟨rfl, rfl, rfl⟩ := by simpa using Except.ok.inj done
          exact (applyOps_entries applied).1
        · cases done
      rw [keys]
      exact (Write.batch call).rewrites

theorem Request.apply_rewrites {request : Request} {state next : Document} {keys : List JsString}
    (done : request.apply limits now state = .ok (some (keys, next)))
    : Rewrites keys state.entries next.entries ∧ Keyed state.entries ∧ Keyed next.entries := by
  unfold Request.apply at done
  split at done
  · cases done
  · next file viewed =>
      obtain ⟨changed, transition, done⟩ := bind_eq_ok.mp done
      obtain ⟨⟨keys', last⟩, rfl, same⟩ := Option.map_eq_some_iff.mp (Except.ok.inj done)
      obtain ⟨rfl, rfl⟩ := Prod.mk.inj same
      have entries : file.entries = state.entries := by
        obtain ⟨versions, -, viewed⟩ := Option.bind_eq_some_iff.mp viewed
        obtain ⟨order, -, viewed⟩ := Option.bind_eq_some_iff.mp viewed
        rw [← Option.some.inj viewed]
      have called : request.change limits now file = .ok (some (keys', last)) := by
        unfold transitioned at transition
        split at transition
        · next found => rw [found, Except.ok.inj transition]
        · cases transition
      rw [← entries]
      exact Request.change_rewrites called

end PiFabric.State
