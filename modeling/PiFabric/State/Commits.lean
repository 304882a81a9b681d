import PiFabric.State.Rewrites

/-! What a prepared commit holds: the plain bytes of its state and the digests of its namespaces,
however much of either was kept from another commit or computed before the lock.
-/

namespace PiFabric.State

open JsString Outcome

variable {digest : Digest}

variable {space : JsString}

theorem namespaceEntries_congr {left right : Document} (own : IsNamespace space)
    (same : ∀ key, keyNamespace key = some space →
      left.entries.get? key = right.entries.get? key)
    : namespaceEntries left space = namespaceEntries right space := by
  have listed (state : Document) : (objectKeys state.entries).Perm state.entries.keys :=
    perm_enumerated _ _
  have keys : sortedKeys ((objectKeys left.entries).filter space.isPrefixOf)
      = sortedKeys ((objectKeys right.entries).filter space.isPrefixOf) := by
    refine sorted_congr ((List.perm_ext_iff_of_nodup
      (((listed left).nodup_iff.mpr left.entries.distinct).filter _)
      (((listed right).nodup_iff.mpr right.entries.distinct).filter _)).mpr fun key => ?_)
    rw [List.mem_filter, List.mem_filter, keyNamespace_of_isPrefixOf own, (listed left).mem_iff,
      (listed right).mem_iff, ← JsMap.has_iff, ← JsMap.has_iff, has_eq_isSome, has_eq_isSome]
    refine and_congr_left fun within => ?_
    rw [same key (of_decide_eq_true within)]
  rw [namespaceEntries, namespaceEntries, keys]
  refine List.filterMap_congr fun key member => same key ?_
  have within := (List.mem_filter.mp ((perm_sorted _).mem_iff.mp member)).2
  rw [keyNamespace_of_isPrefixOf own] at within
  exact of_decide_eq_true within

theorem indexOf_congr {left right : Document} (same : ∀ key, keyNamespace key = some space →
      left.entries.get? key = right.entries.get? key)
    : indexOf digest left space = indexOf digest right space := by
  unfold indexOf
  by_cases own : keyNamespace space = some space
  · rw [namespaceDigest, namespaceDigest, namespaceEntries_congr (isNamespace_iff.mpr own) same]
  · rw [if_neg fun both => own both.1, if_neg fun both => own both.1]

/-- The digests of the namespaces of the changed keys are dropped, by induction over the keys. -/
theorem unchangedNamespaces_get? (namespaces : JsMap JsString JsString) (keys : List JsString)
    (space : JsString)
    : (unchangedNamespaces namespaces keys).get? space
      = if some space ∈ keys.map keyNamespace then none else namespaces.get? space := by
  unfold unchangedNamespaces
  induction keys generalizing namespaces with
  | nil => simp
  | cons key rest ih =>
      rw [List.foldl_cons, ih, List.map_cons]
      by_cases later : some space ∈ rest.map keyNamespace
      · rw [if_pos later, if_pos (List.mem_cons_of_mem _ later)]
      · rw [if_neg later]
        cases found : keyNamespace key with
        | none => simp [later]
        | some other =>
            rw [Option.elim_some, JsMap.get?_delete]
            simp [later]

/-- Digests that were computed of a state: each is that of its namespace. -/
def Foretells (digest : Digest) (namespaces : JsMap JsString JsString) (state : Document) : Prop :=
  ∀ space found, namespaces.get? space = some found → indexOf digest state space = some found

theorem Foretells.empty (state : Document) : Foretells digest JsMap.empty state :=
  fun _ _ found => nomatch found

variable {namespaces : JsMap JsString JsString}

/-- What a write leaves of them holds of the state after it. -/
theorem Foretells.unchanged {before after : Document} {keys : List JsString}
    (foretells : Foretells digest namespaces before)
    (rewrites : Rewrites keys before.entries after.entries)
    : Foretells digest (unchangedNamespaces namespaces keys) after := by
  intro space found left
  rw [unchangedNamespaces_get?] at left
  split at left
  · cases left
  · next apart =>
      rw [← foretells space found left]
      refine indexOf_congr fun key within => rewrites.kept key fun member => apart ?_
      exact List.mem_map.mpr ⟨key, member, within⟩

/-- The loop that encodes before the lock keeps what is drawn and leaves out locked keys only, by
induction over the entries.
-/
theorem encodeOutside_loop {entries : JsMap JsString Json} (locked : List JsString)
    (items : List (JsString × Json))
    (listed : ∀ item ∈ items, entries.get? item.1 = some item.2) (reuse : Encodings)
    (drawn : Drawn reuse entries)
    : let encoded := items.foldl
        (fun reuse entry =>
          if locked.contains entry.1 || reuse.has entry.1 then reuse
          else reuse.set entry.1 (encodeEntry entry.1 entry.2))
        reuse
      Drawn encoded entries
      ∧ (∀ key, reuse.has key = true → encoded.has key = true)
      ∧ ∀ item ∈ items, item.1 ∉ locked → encoded.has item.1 = true := by
  induction items generalizing reuse with
  | nil =>
      exact ⟨drawn, fun _ held => held, fun _ member => absurd member List.not_mem_nil⟩
  | cons item rest ih =>
      have first := listed item List.mem_cons_self
      have others := fun other member => listed other (List.mem_cons_of_mem item member)
      rw [List.foldl_cons]
      by_cases skipped : (locked.contains item.1 || reuse.has item.1) = true
      · rw [if_pos skipped]
        obtain ⟨sound, stays, covers⟩ := ih others reuse drawn
        refine ⟨sound, stays, fun other member free => ?_⟩
        rcases List.mem_cons.mp member with rfl | inside
        · rw [Bool.or_eq_true, List.contains_iff_mem] at skipped
          exact stays _ (skipped.resolve_left free)
        · exact covers other inside free
      · rw [if_neg skipped]
        have next : Drawn (reuse.set item.1 (encodeEntry item.1 item.2)) entries := by
          intro key cached found
          rw [JsMap.get?_set] at found
          split at found
          · next same =>
              refine ⟨item.2, same ▸ first, ?_⟩
              rw [← Option.some.inj found, same]
          · exact drawn key cached found
        obtain ⟨sound, stays, covers⟩ := ih others _ next
        have grown (key : JsString) (held : reuse.has key = true)
            : (reuse.set item.1 (encodeEntry item.1 item.2)).has key = true := by
          rw [has_eq_isSome, JsMap.get?_set]
          split
          · rfl
          · rwa [has_eq_isSome] at held
        refine ⟨sound, fun key held => stays key (grown key held), fun other member free => ?_⟩
        rcases List.mem_cons.mp member with rfl | inside
        · refine stays _ ?_
          rw [has_eq_isSome, JsMap.get?_set_self]
          rfl
        · exact covers other inside free

variable {state : Document} {reuse : Encodings}

theorem Drawn.outside (drawn : Drawn reuse state.entries) (locked : List JsString)
    : Drawn (encodeOutside locked state reuse) state.entries :=
  (encodeOutside_loop locked (membersOf state.entries) (fun _ member => mem_membersOf.mp member)
    reuse drawn).1

theorem Drawn.covers (drawn : Drawn reuse state.entries) {locked : List JsString}
    (free : some space ∉ locked.map keyNamespace)
    : Covers (encodeOutside locked state reuse) state space := by
  obtain ⟨sound, -, covers⟩ := encodeOutside_loop locked (membersOf state.entries)
    (fun _ member => mem_membersOf.mp member) reuse drawn
  intro key within
  cases present : state.entries.get? key with
  | none =>
      cases found : (encodeOutside locked state reuse).get? key with
      | none => rfl
      | some cached =>
          obtain ⟨value, held, -⟩ := sound key cached found
          rw [present] at held
          cases held
  | some value =>
      have held := covers (key, value) (mem_membersOf.mpr present)
        fun member => free (List.mem_map.mpr ⟨key, member, within⟩)
      rw [has_eq_isSome] at held
      obtain ⟨cached, found⟩ := Option.isSome_iff_exists.mp held
      obtain ⟨value', same, rfl⟩ := sound key cached found
      rw [present] at same
      rw [← Option.some.inj same] at found
      exact found

theorem Drawn.foretells (drawn : Drawn reuse state.entries) (locked : List JsString)
    : Foretells digest (signalNamespaces digest (encodeOutside locked state reuse) JsMap.empty
        (locked.map keyNamespace)) state := by
  intro space found computed
  have looked := computed
  rw [signalNamespaces_get?] at looked
  split at looked
  · cases looked
  · next passed =>
      rw [not_or] at passed
      obtain ⟨key, member⟩ := List.exists_mem_of_ne_nil _ passed.2
      have within := of_decide_eq_true (List.mem_filter.mp member).2
      have own := (keyNamespace_eq_some_iff.mp within).1
      have free : some space ∉ locked.map keyNamespace := by
        intro listed
        refine passed.1 ?_
        rw [passesOver, List.contains_iff_mem.mpr listed, Bool.or_true]
      rw [← (drawn.covers free).index own (Bool.eq_false_iff.mpr passed.1), computed]

structure Proper (digest : Digest) (prepared : PreparedStateCommit) : Prop where
  bytes : prepared.encoded.serialized = Json.bytes prepared.stamped.json
  text : prepared.serializedText = Json.stringify prepared.stamped.json
  index : ∀ space, prepared.namespaces.get? space = indexOf digest prepared.stamped space
  drawn : Drawn prepared.encoded.entries prepared.stamped.entries
  stamped : ∃ state hash, prepared.stamped = Document.stamp state prepared.generation hash

theorem stampAndEncode_proper {maxStateBytes : Nat} {generation : JsString}
    {journalHash : Option JsString} (serves : Serves reuse state.entries)
    : let made := stampAndEncode maxStateBytes state reuse generation journalHash
      made.2.serialized = Json.bytes made.1.json
      ∧ (∀ key, made.2.entries.get? key = (state.entries.get? key).map (encodeEntry key))
      ∧ ∃ hash, made.1 = state.stamp generation hash := by
  have plain : Serves reuse (state.stamp generation none).entries := serves
  unfold stampAndEncode
  cases journalHash with
  | none => exact ⟨plain.serialized, plain.entries, none, rfl⟩
  | some hash =>
      have again : Serves (encodeState (state.stamp generation none) reuse).entries
          (state.stamp generation (some hash)).entries :=
        plain.drawn.serves (Rewrites.refl state.entries)
      dsimp only
      split
      · exact ⟨plain.serialized, plain.entries, none, rfl⟩
      · exact ⟨again.serialized, again.entries, some hash, rfl⟩

theorem Foretells.index {entries : Encodings} (foretells : Foretells digest namespaces state)
    (encoded : ∀ key, entries.get? key = (state.entries.get? key).map (encodeEntry key))
    (space : JsString)
    : (signalNamespaces digest entries namespaces []).get? space
      = indexOf digest state space := by
  by_cases own : IsNamespace space
  · cases held : namespaces.get? space with
    | some found =>
        have passed : passesOver namespaces [] space = true := by
          rw [passesOver, has_eq_isSome, held]
          rfl
        rw [signalNamespaces_get?, if_pos (.inl passed), held, foretells space found held]
    | none =>
        have computed : passesOver namespaces [] space = false := by
          rw [passesOver, has_eq_isSome, held]
          rfl
        exact Covers.index (fun key _ => encoded key) own computed
  · have nothing : entries.keys.filter (fun key => decide (keyNamespace key = some space)) = [] := by
      refine List.filter_eq_nil_iff.mpr fun key _ within => own ?_
      exact (keyNamespace_eq_some_iff.mp (of_decide_eq_true within)).1
    have missing : indexOf digest state space = none := by
      rw [indexOf, if_neg fun both => own (isNamespace_iff.mpr both.1)]
    rw [signalNamespaces_get?, if_pos (.inr nothing), missing]
    cases held : namespaces.get? space with
    | none => rfl
    | some found =>
        rw [foretells space found held] at missing
        cases missing

theorem prepareStateCommit_proper {maxStateBytes : Nat} {keys : List JsString}
    {generation : JsString} {journalHash : Option JsString} {prepared : PreparedStateCommit}
    (h : prepareStateCommit digest maxStateBytes state reuse keys generation journalHash namespaces
      = .ok prepared) (serves : Serves reuse state.entries)
    (foretells : Foretells digest (unchangedNamespaces namespaces keys) state)
    : Proper digest prepared ∧ prepared.generation = generation
      ∧ ∃ hash, prepared.stamped = state.stamp generation hash := by
  obtain ⟨bytes, encoded, hash, stamped⟩ := @stampAndEncode_proper state reuse maxStateBytes
    generation journalHash serves
  unfold prepareStateCommit at h
  generalize stampAndEncode maxStateBytes state reuse generation journalHash = made
    at h bytes encoded stamped
  obtain ⟨document, result⟩ := made
  dsimp only at h bytes encoded stamped
  split at h
  · cases h
  · obtain rfl := Except.ok.inj h
    obtain rfl := stamped
    refine ⟨?_, rfl, hash, rfl⟩
    exact {
      bytes
      text := by
        dsimp only
        rw [bytes]
        exact Utf8.decode_encode (Json.printable_stringify _).wellFormed
      index := foretells.index encoded
      drawn := by
        intro key cached found
        dsimp only at found
        rw [encoded] at found
        obtain ⟨value, present, rfl⟩ := Option.map_eq_some_iff.mp found
        exact ⟨value, present, rfl⟩
      stamped := ⟨state, hash, rfl⟩
    }

end PiFabric.State
