import PiFabric.State.Commits
import PiFabric.State.Signals

/-! A commit reads back: its text is a state file with its entries, and the generation that the head
of the file names is its own.
-/

namespace PiFabric.State

open JsString Outcome
open Json (Members)

/-- The marks by which a parsed object is a state file. -/
structure Shaped (state : Document) : Prop where
  entries : (state.fields.get? (lit "entries")).isSome = true
  format : state.fields.get? (lit "format") = some (number 1)
    ∨ state.fields.get? (lit "format") = some (number 2)

theorem get?_ofMembers_membersOf (map : JsMap JsString Json) (key : JsString)
    : (ofMembers (membersOf map)).get? key = map.get? key := by
  have built := get?_bindAll_membersOf map (fun _ value => value) key
  simpa [ofMembers] using built

/-- A property of the object that `JSON.stringify` is given. -/
theorem get?_json (state : Document) (name : JsString)
    : (ofMembers ((membersOf state.fields).map fun field =>
        if field.1 = lit "entries" then (field.1, .object (membersOf state.entries)) else field)).get?
          name
      = (state.fields.get? name).map fun value =>
          if name = lit "entries" then .object (membersOf state.entries) else value := by
  have same : (fun field : JsString × Json =>
        if field.1 = lit "entries" then (field.1, Json.object (membersOf state.entries)) else field)
      = fun field => (field.1,
        if field.1 = lit "entries" then Json.object (membersOf state.entries) else field.2) := by
    funext field
    split <;> rfl
  rw [same]
  exact get?_bindAll_membersOf state.fields
    (fun name value => if name = lit "entries" then .object (membersOf state.entries) else value)
    name

variable {state : Document}

/-- A state file with its marks is one when it is parsed, with the same entries. -/
theorem Shaped.read (shaped : Shaped state)
    : ∃ read, meshStateFile state.json = some read
      ∧ ∀ key, read.entries.get? key = state.entries.get? key := by
  obtain ⟨table, present⟩ := Option.isSome_iff_exists.mp shaped.entries
  have entries := get?_json state (lit "entries")
  have format := get?_json state (lit "format")
  have apart : ¬lit "format" = lit "entries" := by decide
  rw [present, Option.map_some, if_pos rfl] at entries
  simp only [if_neg apart, Option.map_id'] at format
  have read : meshStateFile state.json = some {
      fields := ofMembers ((membersOf state.fields).map fun field =>
        if field.1 = lit "entries" then (field.1, .object (membersOf state.entries)) else field)
      entries := ofMembers (membersOf state.entries)
    } := by
    rw [Document.json, meshStateFile, format, entries]
    rcases shaped.format with one | two
    · rw [one]
      rfl
    · rw [two]
      rfl
  exact ⟨_, read, get?_ofMembers_membersOf state.entries⟩

theorem shaped_of_meshStateFile {value : Json} (h : meshStateFile value = some state)
    : Shaped state := by
  cases value with
  | object members =>
      have format : (ofMembers members).get? (lit "format") = some (number 1)
          ∨ (ofMembers members).get? (lit "format") = some (number 2) := by
        unfold meshStateFile at h
        dsimp only at h
        split at h
        · next one => exact .inl one
        · next two => exact .inr two
        · simp at h
      have table : ∃ entries, (ofMembers members).get? (lit "entries") = some (.object entries)
          ∧ state = { fields := ofMembers members, entries := ofMembers entries } := by
        unfold meshStateFile at h
        dsimp only at h
        split at h
        case h_3 => simp at h
        all_goals
          rw [if_pos rfl] at h
          split at h
          · next entries table => exact ⟨entries, table, (Option.some.inj h).symm⟩
          · cases h
      obtain ⟨entries, table, rfl⟩ := table
      exact ⟨by rw [table]; rfl, format⟩
  | _ => cases h

theorem shaped_empty : Shaped emptyDocument :=
  ⟨rfl, .inl rfl⟩

variable {text : JsString}

theorem shaped_of_scan {scan last : Scan} (sound : ∀ state ∈ scan.snapshots, Shaped state)
    (done : text.foldlM Scan.next scan = some last)
    : ∀ state ∈ last.snapshots, Shaped state := by
  induction text generalizing scan with
  | nil =>
      obtain rfl := Option.some.inj done
      exact sound
  | cons unit rest ih =>
      rw [List.foldlM_cons] at done
      obtain ⟨next, step, done⟩ := Option.bind_eq_some_iff.mp done
      refine ih ?_ done
      unfold Scan.next at step
      split at step
      · split at step
        · obtain rfl := Option.some.inj step
          exact sound
        · split at step
          · cases step
          · obtain rfl := Option.some.inj step
            exact sound
      · dsimp only at step
        split at step
        · split at step
          · obtain rfl := Option.some.inj step
            exact sound
          · split at step
            · obtain rfl := Option.some.inj step
              exact sound
            · split at step
              · obtain rfl := Option.some.inj step
                exact sound
              · obtain rfl := Option.some.inj step
                exact sound
        · split at step
          · obtain rfl := Option.some.inj step
            exact sound
          · split at step
            · obtain rfl := Option.some.inj step
              exact sound
            · split at step
              · split at step
                · obtain rfl := Option.some.inj step
                  exact sound
                · obtain ⟨parsed, -, rfl⟩ := Option.map_eq_some_iff.mp step
                  intro state member
                  rcases List.mem_append.mp member with old | new
                  · exact sound state old
                  · exact shaped_of_meshStateFile (Option.mem_toList.mp new)
              · obtain rfl := Option.some.inj step
                exact sound

theorem shaped_of_decodeState {recoverDamage : Bool} {bytes : Bytes} {read : StateRead}
    (h : decodeState recoverDamage bytes = .ok read)
    : Shaped read.state := by
  have damaged {text : JsString} (h : readDamaged recoverDamage text = .ok read)
      : Shaped read.state := by
    unfold readDamaged at h
    split at h
    · next state recovered =>
        obtain rfl := Except.ok.inj h
        obtain ⟨scan, scanned, last⟩ := Option.bind_eq_some_iff.mp recovered
        split at last
        · refine shaped_of_scan (fun _ member => absurd member List.not_mem_nil) scanned state ?_
          exact List.mem_of_getLast? last
        · cases last
    · split at h
      · obtain rfl := Except.ok.inj h
        exact shaped_empty
      · cases h
  unfold decodeState at h
  dsimp only at h
  split at h
  · obtain rfl := Except.ok.inj h
    exact shaped_empty
  · split at h
    · exact damaged h
    · split at h
      · next state parsed =>
          obtain rfl := Except.ok.inj h
          exact shaped_of_meshStateFile parsed
      · split at h
        · cases h
        · exact damaged h

theorem shaped_of_readState {maxBytes : Nat} {recoverDamage : Bool} {file : Option Bytes}
    {read : StateRead} (h : readState maxBytes recoverDamage file = .ok read)
    : Shaped read.state := by
  cases file with
  | none =>
      obtain rfl := Except.ok.inj h
      exact shaped_empty
  | some bytes =>
      unfold readState at h
      dsimp only at h
      split at h
      · cases h
      · exact shaped_of_decodeState h

/-- The mark that a write leaves is the one that it found, or 1. -/
def KeepsFormat (state next : StateFile) : Prop :=
  next.format = state.format ∨ next.format = number 1

theorem KeepsFormat.trans {first second third : StateFile} (h : KeepsFormat first second)
    (h' : KeepsFormat second third)
    : KeepsFormat first third := by
  rcases h' with same | one
  · rcases h with kept | one
    · exact .inl (same.trans kept)
    · exact .inr (same.trans one)
  · exact .inr one

variable {limits : Limits} {now : Nat}

theorem applyOp_format {op : BatchOp} {working next : Working} {result : BatchResult}
    (h : applyOp limits now op working = .ok (result, next))
    : KeepsFormat working.state next.state := by
  obtain ⟨slot, -, h⟩ := bind_eq_ok.mp h
  obtain ⟨allowed, -, h⟩ := bind_eq_ok.mp h
  split at h
  · split at h
    · obtain ⟨policy, -, h⟩ := bind_eq_ok.mp h
      cases policy with
      | abort => cases h
      | skip =>
          obtain ⟨rfl, rfl⟩ := Prod.mk.inj (Except.ok.inj h)
          exact .inl rfl
    · obtain ⟨⟨expected, change⟩, -, h⟩ := bind_eq_ok.mp h
      obtain ⟨moved, -, h⟩ := bind_eq_ok.mp h
      cases moved with
      | unchanged =>
          obtain ⟨rfl, rfl⟩ := Prod.mk.inj (Except.ok.inj h)
          exact .inl rfl
      | delete version highWater =>
          obtain ⟨rfl, rfl⟩ := Prod.mk.inj (Except.ok.inj h)
          exact .inr rfl
      | put value identity version highWater =>
          obtain ⟨rfl, rfl⟩ := Prod.mk.inj (Except.ok.inj h)
          exact .inr rfl
  · obtain ⟨rfl, rfl⟩ := Prod.mk.inj (Except.ok.inj h)
    exact .inl rfl

theorem applyOps_format {ops : List BatchOp} {working last : Working} {results : List BatchResult}
    (done : applyOps limits now ops working = .ok (results, last))
    : KeepsFormat working.state last.state := by
  induction ops generalizing working results with
  | nil =>
      obtain ⟨rfl, rfl⟩ := Prod.mk.inj (Except.ok.inj done)
      exact .inl rfl
  | cons op rest ih =>
      obtain ⟨⟨result, next⟩, one, done⟩ := bind_eq_ok.mp done
      obtain ⟨⟨others, final⟩, all, done⟩ := bind_eq_ok.mp done
      obtain ⟨rfl, rfl⟩ := Prod.mk.inj (Except.ok.inj done)
      exact (applyOp_format one).trans (ih all)

theorem Request.change_format {request : Request} {file next : StateFile} {keys : List JsString}
    (done : request.change limits now file = .ok (some (keys, next)))
    : KeepsFormat file next := by
  cases request with
  | put key value identity ifVersion =>
      obtain ⟨⟨entry, version, last⟩, written, done⟩ := bind_eq_ok.mp done
      obtain ⟨rfl, rfl⟩ := Prod.mk.inj (Option.some.inj (Except.ok.inj done))
      obtain ⟨-, -, written⟩ := bind_eq_ok.mp written
      obtain ⟨⟨expected, change⟩, -, written⟩ := bind_eq_ok.mp written
      obtain ⟨slot, -, written⟩ := bind_eq_ok.mp written
      obtain ⟨moved, -, written⟩ := bind_eq_ok.mp written
      cases moved with
      | put value identity version highWater =>
          obtain ⟨-, rfl, rfl⟩ := by simpa using Except.ok.inj written
          exact .inr rfl
      | delete version highWater => cases written
      | unchanged => cases written
  | delete key ifVersion =>
      obtain ⟨found, written, done⟩ := bind_eq_ok.mp done
      obtain ⟨⟨version, last⟩, rfl, same⟩ := Option.map_eq_some_iff.mp (Except.ok.inj done)
      obtain ⟨rfl, rfl⟩ := Prod.mk.inj same
      obtain ⟨-, -, written⟩ := bind_eq_ok.mp written
      obtain ⟨⟨expected, change⟩, -, written⟩ := bind_eq_ok.mp written
      obtain ⟨slot, -, written⟩ := bind_eq_ok.mp written
      obtain ⟨moved, -, written⟩ := bind_eq_ok.mp written
      cases moved with
      | put value identity version highWater => cases written
      | unchanged => cases written
      | delete version highWater =>
          obtain ⟨rfl, rfl⟩ := by simpa using Except.ok.inj written
          exact .inr rfl
  | batch ops prepare fileRead =>
      obtain ⟨⟨all, results, last⟩, call, done⟩ := bind_eq_ok.mp done
      obtain ⟨last, rfl, same⟩ := Option.map_eq_some_iff.mp (Except.ok.inj done)
      obtain ⟨rfl, rfl⟩ := Prod.mk.inj same
      obtain ⟨-, -, call⟩ := bind_eq_ok.mp call
      obtain ⟨prepared, -, call⟩ := bind_eq_ok.mp call
      obtain ⟨-, -, call⟩ := bind_eq_ok.mp call
      obtain ⟨⟨results, working⟩, applied, call⟩ := bind_eq_ok.mp call
      simp only at call
      split at call
      · obtain ⟨rfl, rfl, rfl⟩ := by simpa using Except.ok.inj call
        exact applyOps_format applied
      · cases call

theorem StateFile.assigned_names (file : StateFile)
    : ∀ item ∈ file.assigned, item.1 ∈ [lit "versions", lit "format", lit "revisionFormat",
        lit "highWater", lit "tombstoneOrder"] := by
  intro item member
  simp only [StateFile.assigned, List.cons_append, List.nil_append, List.append_assoc,
    List.mem_cons, List.mem_append, List.mem_map, List.not_mem_nil, or_false] at member
  rcases member with rfl | rfl | ⟨_, _, rfl⟩ | ⟨_, _, rfl⟩ | rfl <;> simp

/-- Assigning the fields of a write leaves every other field, and the mark is the write's. -/
theorem Shaped.revised (shaped : Shaped state) {file : StateFile}
    (format : file.format = number 1 ∨ file.format = number 2)
    : Shaped (state.revised file) := by
  have entries : (state.revised file).fields.get? (lit "entries")
      = state.fields.get? (lit "entries") := by
    rw [Document.revised, JsMap.get?_bindAll]
    have other : file.assigned.reverse.find? (fun item => item.1 = lit "entries") = none := by
      refine List.find?_eq_none.mpr fun item member same => ?_
      have named := file.assigned_names item (List.mem_reverse.mp member)
      rw [of_decide_eq_true same] at named
      exact absurd named (by decide)
    rw [other]
  have mark : (state.revised file).fields.get? (lit "format") = some file.format := by
    rw [Document.revised, JsMap.get?_bindAll]
    have own : file.assigned.reverse.find? (fun item => item.1 = lit "format")
        = some (lit "format", file.format) := by
      unfold StateFile.assigned
      cases file.revisionFormat <;> cases file.highWater <;> rfl
    rw [own]
  refine ⟨by rw [entries]; exact shaped.entries, ?_⟩
  rw [mark]
  exact format.imp (congrArg some) (congrArg some)

theorem Request.apply_shaped {request : Request} {next : Document} {keys : List JsString}
    (done : request.apply limits now state = .ok (some (keys, next))) (shaped : Shaped state)
    : Shaped next := by
  unfold Request.apply at done
  split at done
  · cases done
  · next file viewed =>
      obtain ⟨changed, transition, done⟩ := bind_eq_ok.mp done
      obtain ⟨⟨keys', last⟩, rfl, same⟩ := Option.map_eq_some_iff.mp (Except.ok.inj done)
      obtain ⟨rfl, rfl⟩ := Prod.mk.inj same
      have called : request.change limits now file = .ok (some (keys', last)) := by
        unfold transitioned at transition
        split at transition
        · next found => rw [found, Except.ok.inj transition]
        · cases transition
      have before : file.format = number 1 ∨ file.format = number 2 := by
        obtain ⟨versions, -, viewed⟩ := Option.bind_eq_some_iff.mp viewed
        obtain ⟨order, -, viewed⟩ := Option.bind_eq_some_iff.mp viewed
        rw [← Option.some.inj viewed]
        rcases shaped.format with one | two
        · exact .inl (by rw [one]; rfl)
        · exact .inr (by rw [two]; rfl)
      refine shaped.revised ?_
      rcases Request.change_format called with same | one
      · rwa [same]
      · exact .inl one

/-- The fields of a stamped document: the stamps first, then what was there without them. -/
theorem stamp_fields (state : Document) (generation : JsString) (journalHash : Option JsString)
    : (state.stamp generation journalHash).fields.entries
      = (lit "readGeneration", .string generation)
        :: (journalHash.toList.map fun hash => (lit "readJournalHash", .string hash))
        ++ membersOf ((state.fields.delete (lit "readGeneration")).delete
          (lit "readJournalHash")) := by
  have rest (key : JsString) (value : Json)
      (member : (key, value) ∈ membersOf ((state.fields.delete (lit "readGeneration")).delete
        (lit "readJournalHash")))
      : key ≠ lit "readGeneration" ∧ key ≠ lit "readJournalHash" := by
    have bound := mem_membersOf.mp member
    rw [JsMap.get?_delete] at bound
    split at bound
    · cases bound
    · next other =>
        rw [JsMap.get?_delete] at bound
        split at bound
        · cases bound
        · next first => exact ⟨first, other⟩
  have distinct : ((membersOf ((state.fields.delete (lit "readGeneration")).delete
      (lit "readJournalHash"))).map Prod.fst).Nodup :=
    ((perm_enumerated Prod.fst _).map Prod.fst).nodup_iff.mpr (JsMap.distinct _)
  unfold Document.stamp ofMembers
  dsimp only
  rw [JsMap.entries_bindAll]
  · simp [JsMap.empty]
  · have apart : lit "readGeneration" ≠ lit "readJournalHash" := by decide
    have first : lit "readGeneration" ∉ (membersOf ((state.fields.delete
        (lit "readGeneration")).delete (lit "readJournalHash"))).map Prod.fst := by
      intro inside
      obtain ⟨⟨key, value⟩, member, same⟩ := List.mem_map.mp inside
      exact (rest key value member).1 same
    have second : lit "readJournalHash" ∉ (membersOf ((state.fields.delete
        (lit "readGeneration")).delete (lit "readJournalHash"))).map Prod.fst := by
      intro inside
      obtain ⟨⟨key, value⟩, member, same⟩ := List.mem_map.mp inside
      exact (rest key value member).2 same
    cases journalHash with
    | none =>
        rw [Option.toList_none, List.map_nil, List.singleton_append, List.map_cons]
        exact List.nodup_cons.mpr ⟨first, distinct⟩
    | some hash =>
        rw [Option.toList_some, List.map_singleton, List.cons_append, List.singleton_append,
          List.map_cons, List.map_cons]
        refine List.nodup_cons.mpr ⟨?_, List.nodup_cons.mpr ⟨second, distinct⟩⟩
        exact fun inside => (List.mem_cons.mp inside).elim apart first
  · exact fun _ _ => List.not_mem_nil

theorem stamp_get? (state : Document) (generation : JsString) (journalHash : Option JsString)
    {name : JsString} (first : name ≠ lit "readGeneration") (second : name ≠ lit "readJournalHash")
    : (state.stamp generation journalHash).fields.get? name = state.fields.get? name := by
  have payload : ((state.fields.delete (lit "readGeneration")).delete
      (lit "readJournalHash")).get? name = state.fields.get? name := by
    rw [JsMap.get?_delete, if_neg second, JsMap.get?_delete, if_neg first]
  apply Option.ext
  intro value
  rw [JsMap.get?_eq_some_iff, stamp_fields, ← payload, ← mem_membersOf]
  simp only [List.cons_append, List.mem_cons, List.mem_append, List.mem_map, Prod.mk.injEq]
  constructor
  · rintro (⟨same, -⟩ | ⟨hash, -, same, -⟩ | member)
    · exact absurd same first
    · exact absurd same.symm second
    · exact member
  · exact fun member => .inr (.inr member)

theorem Shaped.stamp (shaped : Shaped state) (generation : JsString) (journalHash : Option JsString)
    : Shaped (state.stamp generation journalHash) := by
  refine ⟨?_, ?_⟩
  · rw [stamp_get? _ _ _ (by decide) (by decide)]
    exact shaped.entries
  · rw [stamp_get? _ _ _ (by decide) (by decide)]
    exact shaped.format

theorem isPlain_of_isDigit {unit : UInt16} (h : isDigit unit = true)
    : Json.isPlain unit = true := by
  have bounds := Json.digit_bounds h
  have quoteFree : unit ≠ unitOf '"' := by
    rintro rfl
    exact absurd h (by decide)
  have slashFree : unit ≠ unitOf '\\' := by
    rintro rfl
    exact absurd h (by decide)
  simp only [Json.isPlain, Json.isVisible, Bool.and_eq_true, decide_eq_true_eq, bne_iff_ne]
  exact ⟨⟨⟨by omega, by omega⟩, quoteFree⟩, slashFree⟩

theorem isPlain_of_isGeneration (h : isGeneration text = true)
    : ∀ unit ∈ text, Json.isPlain unit = true := by
  intro unit member
  obtain ⟨place, bound, rfl⟩ := List.mem_iff_getElem.mp member
  have inside : (text[place], place) ∈ text.zipIdx := by
    rw [List.mem_zipIdx_iff_getElem?, List.getElem?_eq_getElem bound]
  simp only [isGeneration, Bool.and_eq_true, List.all_eq_true] at h
  have shaped := h.2 (text[place], place) inside
  dsimp only at shaped
  split at shaped
  · rw [beq_iff_eq.mp shaped]
    decide
  · rw [isHexUnit, Bool.or_eq_true] at shaped
    rcases shaped with digit | letter
    · exact isPlain_of_isDigit digit
    · generalize text[place] = unit at letter
      simp only [Bool.and_eq_true, decide_eq_true_eq, UInt16.le_iff_toNat_le] at letter
      have low : (unitOf 'a').toNat = 97 := rfl
      have high : (unitOf 'f').toNat = 102 := rfl
      have quoteFree : unit ≠ unitOf '"' := by
        rintro rfl
        exact absurd letter (by decide)
      have slashFree : unit ≠ unitOf '\\' := by
        rintro rfl
        exact absurd letter (by decide)
      simp only [Json.isPlain, Json.isVisible, Bool.and_eq_true, decide_eq_true_eq, bne_iff_ne]
      exact ⟨⟨⟨by omega, by omega⟩, quoteFree⟩, slashFree⟩

theorem toNat_lt_of_isPlain {unit : UInt16} (h : Json.isPlain unit = true) : unit.toNat < 0x80 := by
  simp only [Json.isPlain, Json.isVisible, Bool.and_eq_true, decide_eq_true_eq] at h
  exact h.1.1.2

/-- What a file that starts with ASCII text shows of its head. -/
theorem header_of_ascii (ascii : ∀ unit ∈ text, unit.toNat < 0x80) (more : Bytes)
    : ((Utf8.encode text ++ more).take 192).map UInt8.toUInt16
      = (text ++ more.map UInt8.toUInt16).take 192 := by
  rw [List.map_take, List.map_append, Utf8.map_encode_of_ascii ascii]

/-- The generation between the mark and the quote. -/
theorem headerGeneration_of_mark {generation : JsString} (shaped : isGeneration generation = true)
    {found : JsString} (more : Bytes)
    (h : headerGeneration (Utf8.encode (lit "\x7b\"readGeneration\":\"" ++ generation
      ++ [unitOf '"']) ++ more) = some found)
    : found = generation := by
  have ascii : ∀ unit ∈ lit "\x7b\"readGeneration\":\"" ++ generation ++ [unitOf '"'],
      unit.toNat < 0x80 := by
    intro unit member
    rcases List.mem_append.mp member with member | last
    · rcases List.mem_append.mp member with mark | inside
      · have marks : (lit "\x7b\"readGeneration\":\"").all (fun unit => unit.toNat < 0x80)
            = true := by
          decide
        exact of_decide_eq_true (List.all_eq_true.mp marks unit mark)
      · exact toNat_lt_of_isPlain (isPlain_of_isGeneration shaped unit inside)
    · rw [List.mem_singleton.mp last]
      decide
  have length : generation.length = 36 := by
    simp only [isGeneration, Bool.and_eq_true, beq_iff_eq] at shaped
    exact shaped.1
  unfold headerGeneration at h
  dsimp only at h
  split at h
  · rw [← Option.some.inj h, header_of_ascii ascii, List.drop_take, List.append_assoc,
      List.append_assoc, List.drop_left' rfl, List.take_take, List.take_left' (by rw [length]; rfl)]
  · cases h

/-- A head whose first field is an index names no generation. -/
theorem headerGeneration_of_index {digit : UInt16} (shaped : isDigit digit = true) (more : Bytes)
    : headerGeneration (Utf8.encode (lit "\x7b\"" ++ [digit]) ++ more) = none := by
  have ascii : ∀ unit ∈ lit "\x7b\"" ++ [digit], unit.toNat < 0x80 := by
    intro unit member
    rcases List.mem_append.mp member with mark | last
    · have marks : (lit "\x7b\"").all (fun unit => unit.toNat < 0x80) = true := by decide
      exact of_decide_eq_true (List.all_eq_true.mp marks unit mark)
    · rw [List.mem_singleton.mp last]
      exact toNat_lt_of_isPlain (isPlain_of_isDigit shaped)
  have other : (lit "\x7b\"readGeneration\":\"").isPrefixOf
      ((lit "\x7b\"" ++ [digit] ++ more.map UInt8.toUInt16).take 192) = false := by
    rw [Bool.eq_false_iff]
    intro front
    obtain ⟨rest, whole⟩ := List.isPrefixOf_iff_prefix.mp front
    have third := congrArg (fun units => units[2]?) whole
    have letter : (lit "\x7b\"readGeneration\":\"" ++ rest)[2]? = some (unitOf 'r') := rfl
    have number : ((lit "\x7b\"" ++ [digit] ++ more.map UInt8.toUInt16).take 192)[2]?
        = some digit := rfl
    rw [letter, number] at third
    rw [← Option.some.inj third] at shaped
    exact absurd shaped (by decide)
  unfold headerGeneration
  dsimp only
  rw [header_of_ascii ascii, other]
  rfl

/-- The first field of a stamped document is its generation, unless some field is an index. -/
theorem membersOf_stamp (state : Document) (generation : JsString)
    (journalHash : Option JsString)
    : ∃ first rest, membersOf (state.stamp generation journalHash).fields = first :: rest
      ∧ (first = (lit "readGeneration", .string generation)
        ∨ (arrayIndex? first.1).isSome = true) := by
  rw [membersOf, enumerated]
  have first : (arrayIndex? (lit "readGeneration")).isNone = true := by decide
  cases indices : ((state.stamp generation journalHash).fields.entries.filter fun item =>
      (arrayIndex? item.1).isSome).insertionSort fun a b =>
        (arrayIndex? a.1).getD 0 ≤ (arrayIndex? b.1).getD 0 with
  | nil =>
      have front : ∃ rest, ((state.stamp generation journalHash).fields.entries.filter fun item =>
          (arrayIndex? item.1).isNone) = (lit "readGeneration", .string generation) :: rest := by
        rw [stamp_fields, List.cons_append, List.filter_cons_of_pos (by exact first)]
        exact ⟨_, rfl⟩
      obtain ⟨rest, front⟩ := front
      exact ⟨_, rest, front, .inl rfl⟩
  | cons item rest =>
      have member : item ∈ (state.stamp generation journalHash).fields.entries.filter fun item =>
          (arrayIndex? item.1).isSome := by
        have listed : item ∈ item :: rest := List.mem_cons_self
        rw [← indices] at listed
        exact (List.perm_insertionSort _ _).mem_iff.mp listed
      exact ⟨item, _, rfl, .inr (List.mem_filter.mp member).2⟩

theorem isDigit_of_arrayIndex {key : JsString} (h : (arrayIndex? key).isSome = true)
    : ∃ digit rest, key = digit :: rest ∧ isDigit digit = true
      ∧ ∀ unit ∈ key, Json.isPlain unit = true := by
  unfold arrayIndex? at h
  split at h
  · next shaped =>
      have digits := (Bool.and_eq_true_iff.mp shaped).1
      cases key with
      | nil => cases digits
      | cons digit rest =>
          cases rest with
          | nil =>
              refine ⟨digit, [], rfl, digits, fun unit member => ?_⟩
              rw [List.mem_singleton.mp member]
              exact isPlain_of_isDigit digits
          | cons next more =>
              simp only [isDigits, Bool.and_eq_true, List.all_eq_true] at digits
              refine ⟨digit, _, rfl, digits.1.1, fun unit member => ?_⟩
              rcases List.mem_cons.mp member with rfl | inside
              · exact isPlain_of_isDigit digits.1.1
              · exact isPlain_of_isDigit (digits.2 unit inside)
  · cases h

theorem headerGeneration_stamp {generation : JsString} {journalHash : Option JsString}
    (shaped : isGeneration generation = true) {found : JsString}
    (h : headerGeneration (Json.bytes (state.stamp generation journalHash).json) = some found)
    : found = generation := by
  obtain ⟨first, rest, members, kind⟩ := membersOf_stamp state generation journalHash
  rw [Document.json, members, List.map_cons] at h
  rcases kind with rfl | index
  · have name : ¬lit "readGeneration" = lit "entries" := by decide
    have plain : ∀ unit ∈ lit "readGeneration", Json.isPlain unit = true := by
      have all : (lit "readGeneration").all Json.isPlain = true := by decide
      exact fun unit member => List.all_eq_true.mp all unit member
    rw [if_neg name, Json.bytes, Json.stringify] at h
    generalize Json.stringifyMembers _ = tail at h
    have split : unitOf '\x7b' :: Json.quote (lit "readGeneration")
          ++ unitOf ':' :: Json.stringify (.string generation) ++ tail
        = (lit "\x7b\"readGeneration\":\"" ++ generation ++ [unitOf '"']) ++ tail := by
      rw [Json.quote_of_plain plain, Json.stringify,
        Json.quote_of_plain (isPlain_of_isGeneration shaped)]
      simp only [List.append_assoc, List.cons_append, List.nil_append]
      rfl
    have front : WellFormed (lit "\x7b\"readGeneration\":\"" ++ generation ++ [unitOf '"']) := by
      have mark : (lit "\x7b\"readGeneration\":\"").all Json.isVisible = true := by decide
      have inner : generation.all Json.isVisible = true := by
        refine List.all_eq_true.mpr fun unit member => ?_
        have plain := isPlain_of_isGeneration shaped unit member
        simp only [Json.isPlain, Bool.and_eq_true] at plain
        exact plain.1.1
      exact (((Json.printable_of_ascii mark).append (Json.printable_of_ascii inner)).append
        (Json.printable_of_ascii (by decide))).wellFormed
    rw [split, Utf8.encode_append front] at h
    exact headerGeneration_of_mark shaped _ h
  · obtain ⟨digit, more, named, digits, plain⟩ := isDigit_of_arrayIndex index
    have other : ¬first.1 = lit "entries" := by
      rw [named]
      intro same
      have letter := congrArg List.head? same
      rw [List.head?_cons] at letter
      rw [Option.some.inj letter] at digits
      exact absurd digits (by decide)
    rw [if_neg other, Json.bytes, Json.stringify, Json.quote_of_plain plain, named] at h
    generalize Json.stringifyMembers _ = tail at h
    have split : unitOf '\x7b' :: (unitOf '"' :: (digit :: more) ++ [unitOf '"'])
          ++ unitOf ':' :: Json.stringify first.2 ++ tail
        = (lit "\x7b\"" ++ [digit])
          ++ (more ++ ([unitOf '"'] ++ (unitOf ':' :: Json.stringify first.2 ++ tail))) := by
      simp only [List.append_assoc, List.cons_append, List.nil_append]
      rfl
    have front : WellFormed (lit "\x7b\"" ++ [digit]) := by
      have visible := isPlain_of_isDigit digits
      simp only [Json.isPlain, Bool.and_eq_true] at visible
      have last : [digit].all Json.isVisible = true := by simp [visible.1.1]
      exact ((Json.printable_of_ascii (by decide)).append
        (Json.printable_of_ascii last)).wellFormed
    rw [split, Utf8.encode_append front, headerGeneration_of_index digits] at h
    cases h

theorem Shaped.decode (shaped : Shaped state) (recoverDamage : Bool)
    : ∃ read, decodeState recoverDamage (Json.bytes state.json) = .ok read
      ∧ read.observed = some (Json.stringify state.json)
      ∧ meshStateFile state.json = some read.state
      ∧ ∀ key, read.state.entries.get? key = state.entries.get? key := by
  obtain ⟨found, parsed, entries⟩ := shaped.read
  have text : Utf8.decode (Json.bytes state.json) = Json.stringify state.json :=
    Utf8.decode_encode (Json.printable_stringify _).wellFormed
  have written : (trim (Json.stringify state.json)).isEmpty = false := by
    obtain ⟨tail, starts⟩ : ∃ tail, Json.stringify state.json = unitOf '\x7b' :: tail := by
      rw [Document.json]
      cases (membersOf state.fields).map fun field =>
          if field.1 = lit "entries" then (field.1, .object (membersOf state.entries))
          else field with
      | nil => exact ⟨_, rfl⟩
      | cons member rest => exact ⟨_, rfl⟩
    have visible : isBlank (unitOf '\x7b') = false := by decide
    rw [starts, trim, List.dropWhile_cons_of_neg (by simp [visible]), List.isEmpty_reverse,
      Bool.eq_false_iff]
    intro blank
    have all := List.dropWhile_eq_nil_iff.mp (List.isEmpty_iff.mp blank) (unitOf '\x7b')
      (List.mem_reverse.mpr List.mem_cons_self)
    rw [visible] at all
    cases all
  refine ⟨{ state := found, observed := some (Json.stringify state.json) }, ?_, rfl, parsed,
    entries⟩
  unfold decodeState
  dsimp only
  rw [text, written, Json.parse_stringify]
  dsimp only
  rw [parsed]
  rfl

end PiFabric.State
