import PiFabric.Foundation.JsonBytes
import PiFabric.Foundation.ObjectKeys
import PiFabric.State.Revisions

/-! The document of a state file with its whole envelope, and its encoding from kept members. A kept
encoding is good for an entry of the same version, as long as it was drawn from an entry that only
a new version could have replaced.
-/

namespace PiFabric.State

open JsString
open Json (Members)

/-- `MeshStateFile` with every field that it was parsed with. The field `entries` only keeps its
place among the others; what it holds is `entries`.
-/
structure Document where
  fields : JsMap JsString Json
  entries : JsMap JsString Json

/-- An object as a map: the last member of a name counts, in the place of the first. -/
def ofMembers (members : Members) : JsMap JsString Json :=
  JsMap.bindAll Prod.fst Prod.snd JsMap.empty members

def membersOf {ν : Type} (map : JsMap JsString ν) : List (JsString × ν) :=
  enumerated Prod.fst map.entries

def Document.json (state : Document) : Json :=
  .object ((membersOf state.fields).map fun field =>
    if field.1 = lit "entries" then (field.1, .object (membersOf state.entries)) else field)

/-- `emptyState`. -/
def emptyDocument : Document where
  fields := ofMembers [(lit "format", number 1), (lit "revisionFormat", number 2),
    (lit "entries", .null), (lit "highWater", number 0)]
  entries := JsMap.empty

def meshStateFile : Json → Option Document
  | .object members =>
      let fields := ofMembers members
      if fields.get? (lit "format") matches some (.number (.int 1)) | some (.number (.int 2)) then
        match fields.get? (lit "entries") with
        | some (.object entries) => some { fields, entries := ofMembers entries }
        | _ => none
      else none
  | _ => none

structure EncodedStateEntry where
  version : Option Json
  member : List UInt8
  entry : List UInt8

def encodeEntry (key : JsString) (value : Json) : EncodedStateEntry :=
  let encodedKey := Json.quote key
  let member := Utf8.encode (encodedKey ++ unitOf ':' :: Json.stringify value)
  {
    version := Json.field? "version" value
    member
    entry := member.drop ((Utf8.encode encodedKey).length + 1)
  }

abbrev Encodings := JsMap JsString EncodedStateEntry

/-- The kept encoding of an entry, where its version is the entry's, or a new one. -/
def encodingOf (reuse : Encodings) (key : JsString) (value : Json) : EncodedStateEntry :=
  match reuse.get? key with
  | some cached =>
      if Json.strictEqual cached.version (Json.field? "version" value) then cached
      else encodeEntry key value
  | none => encodeEntry key value

/-- What `encodeState` returns. -/
structure EncodedState where
  serialized : List UInt8
  entries : Encodings

def encodeState (state : Document) (reuse : Encodings) : EncodedState :=
  let entries := (membersOf state.entries).map fun entry =>
    (entry.1, encodingOf reuse entry.1 entry.2)
  let fields := (membersOf state.fields).map fun field =>
    if field.1 = lit "entries" then
      Utf8.encode (lit "\"entries\":") ++ Json.braced (entries.map fun entry => entry.2.member)
    else Utf8.encode (Json.quote field.1 ++ unitOf ':' :: Json.stringify field.2)
  {
    serialized := Json.braced fields
    entries := JsMap.bindAll Prod.fst Prod.snd JsMap.empty entries
  }

theorem mem_membersOf {ν : Type} {map : JsMap JsString ν} {key : JsString} {value : ν}
    : (key, value) ∈ membersOf map ↔ map.get? key = some value :=
  (perm_enumerated Prod.fst map.entries).mem_iff.trans JsMap.get?_eq_some_iff.symm

/-- A map that is built from the enumeration of another, value by value. -/
theorem get?_bindAll_membersOf {ν ν' : Type} (map : JsMap JsString ν)
    (convert : JsString → ν → ν') (key : JsString)
    : (JsMap.bindAll Prod.fst Prod.snd JsMap.empty
        ((membersOf map).map fun entry => (entry.1, convert entry.1 entry.2))).get? key
      = (map.get? key).map (convert key) := by
  have bound : JsMap.bindAll Prod.fst Prod.snd JsMap.empty
        ((membersOf map).map fun entry => (entry.1, convert entry.1 entry.2))
      = JsMap.bindAll Prod.fst (fun entry => convert entry.1 entry.2) JsMap.empty (membersOf map) := by
    rw [JsMap.bindAll, List.foldl_map]
    rfl
  have same (entry : JsString × ν) : entry ∈ membersOf map ↔ entry ∈ map.entries :=
    (perm_enumerated Prod.fst map.entries).mem_iff
  rw [bound, JsMap.get?_bindAll_entries convert .empty same, JsMap.get?_empty, Option.or_none]

/-- The encodings that a commit keeps are those of its entries. -/
theorem encodeState_entries (state : Document) (reuse : Encodings) (key : JsString)
    : (encodeState state reuse).entries.get? key
      = (state.entries.get? key).map (encodingOf reuse key) :=
  get?_bindAll_membersOf state.entries (encodingOf reuse) key

/-- Every encoding that the entries would reuse is theirs. -/
def Serves (reuse : Encodings) (entries : JsMap JsString Json) : Prop :=
  ∀ key value, entries.get? key = some value → encodingOf reuse key value = encodeEntry key value

/-- Every kept encoding is that of an entry. -/
def Drawn (reuse : Encodings) (entries : JsMap JsString Json) : Prop :=
  ∀ key cached, reuse.get? key = some cached →
    ∃ value, entries.get? key = some value ∧ cached = encodeEntry key value

theorem Drawn.empty (entries : JsMap JsString Json) : Drawn JsMap.empty entries :=
  fun _ _ found => nomatch found

/-- What a write may do to the entries: it leaves those outside `keys` alone, and an entry that
it replaces has another version.
-/
structure Rewrites (keys : List JsString) (before after : JsMap JsString Json) : Prop where
  kept : ∀ key, key ∉ keys → after.get? key = before.get? key
  moved : ∀ key value value', before.get? key = some value → after.get? key = some value' →
    value' = value
    ∨ Json.strictEqual (Json.field? "version" value) (Json.field? "version" value') = false

theorem Rewrites.refl (entries : JsMap JsString Json) : Rewrites [] entries entries where
  kept _ _ := rfl
  moved _ _ _ before after := .inl (Option.some.inj (after.symm.trans before))

variable {reuse : Encodings}

theorem Drawn.serves {keys : List JsString} {before after : JsMap JsString Json}
    (drawn : Drawn reuse before) (rewrites : Rewrites keys before after)
    : Serves reuse after := by
  intro key value' present
  unfold encodingOf
  cases found : reuse.get? key with
  | none => rfl
  | some cached =>
      obtain ⟨value, old, rfl⟩ := drawn key cached found
      rcases rewrites.moved key value value' old present with rfl | other
      · exact ite_self _
      · have differs : Json.strictEqual (encodeEntry key value).version
            (Json.field? "version" value') = false := other
        simp [differs]

variable {state : Document}

theorem Serves.drawn (serves : Serves reuse state.entries)
    : Drawn (encodeState state reuse).entries state.entries := by
  intro key cached found
  rw [encodeState_entries] at found
  obtain ⟨value, present, rfl⟩ := Option.map_eq_some_iff.mp found
  exact ⟨value, present, serves key value present⟩

theorem Serves.entries (serves : Serves reuse state.entries) (key : JsString)
    : (encodeState state reuse).entries.get? key
      = (state.entries.get? key).map (encodeEntry key) := by
  rw [encodeState_entries]
  cases present : state.entries.get? key with
  | none => rfl
  | some value => exact congrArg some (serves key value present)

theorem Serves.serialized (serves : Serves reuse state.entries)
    : (encodeState state reuse).serialized = Json.bytes state.json := by
  have members
      : ((membersOf state.entries).map fun entry =>
          (entry.1, encodingOf reuse entry.1 entry.2)).map (fun entry => entry.2.member)
        = (membersOf state.entries).map Json.memberBytes := by
    rw [List.map_map]
    refine List.map_congr_left fun entry member => ?_
    have encoded := serves entry.1 entry.2 (mem_membersOf.mp member)
    exact congrArg EncodedStateEntry.member encoded
  rw [Document.json, Json.bytes_object, encodeState, members, List.map_map]
  dsimp only
  refine congrArg Json.braced (List.map_congr_left fun field _ => ?_)
  rw [Function.comp_apply]
  split
  · next table =>
      rw [Json.memberBytes_object, table]
      rfl
  · rfl

/-- The bytes of an encoding are those of its entry. -/
theorem encodeEntry_entry (key : JsString) (value : Json)
    : (encodeEntry key value).entry = Json.bytes value :=
  Json.drop_memberBytes (key, value)

end PiFabric.State
