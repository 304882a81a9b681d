import PiFabric.Foundation.KeyedLists
import PiFabric.Foundation.Ordinals
import PiFabric.Projector.Apply

/-! The delta that a journal record carries for a changed tombstone order: the longest prefix of the
new order that the old one holds in the same order is kept, the rest is appended.
-/

namespace PiFabric.ReadJournal

open JsString

structure TombstonePatch where
  remove : List JsString
  append : List JsString
deriving DecidableEq

/-- `index`: the place of each key's first occurrence. -/
def indexOf (base : List JsString) : JsMap JsString Nat :=
  base.zipIdx.foldl
    (fun (index : JsMap JsString Nat) item =>
      if index.has item.1 then index else index.set item.1 item.2)
    .empty

/-- The loop over `next`: the keys that are kept, and `next.slice(split)`. -/
def keptSplit (index : JsMap JsString Nat)
    : Int → List JsString → List JsString → List JsString × List JsString
  | _, kept, [] => (kept, [])
  | position, kept, key :: rest =>
      match index.get? key with
      | none => (kept, key :: rest)
      | some at_ =>
          if at_ ≤ position then (kept, key :: rest)
          else keptSplit index at_ (Projector.add kept key) rest

def tombstonePatch (base next : List JsString) : Option TombstonePatch :=
  let index := indexOf base
  if index.size ≠ base.length ∨ next.eraseDups.length ≠ next.length then none
  else
    let (kept, append) := keptSplit index (-1) [] next
    if append.any (· ∈ kept) then none
    else some { remove := base.filter (· ∉ kept), append }

/-- `JSON.stringify(patch)` writes this value. -/
def TombstonePatch.json (patch : TombstonePatch) : Json :=
  .object [
    (lit "remove", .array (patch.remove.map .string)),
    (lit "append", .array (patch.append.map .string))
  ]

/-- The journal's decoder is the projector's. -/
def applyTombstonePatch (base : List JsString) (patch : Json) : Option (List JsString) :=
  Projector.applyTombstonePatch base patch

/-- An index keeps the places it has and takes each other key's first one, by induction on the
items.
-/
theorem get?_foldl_index (items : List (JsString × Nat)) (index : JsMap JsString Nat)
    (key : JsString)
    : (items.foldl
        (fun (index : JsMap JsString Nat) item =>
          if index.has item.1 then index else index.set item.1 item.2)
        index).get? key
        = (index.get? key).or (items.lookup key) := by
  induction items generalizing index with
  | nil => simp
  | cons item rest ih =>
      rw [List.foldl_cons, ih, List.lookup_cons]
      by_cases there : index.has item.1 = true
      · rw [if_pos there]
        by_cases same : key = item.1
        · have found : index.get? item.1 ≠ none := by
            rw [Ne, JsMap.get?_eq_none_iff, not_not]
            exact JsMap.has_iff.mp there
          obtain ⟨place, at_⟩ := Option.ne_none_iff_exists'.mp found
          rw [same, at_]
          rfl
        · rw [beq_eq_false_iff_ne.mpr same]
      · rw [if_neg there, JsMap.get?_set]
        by_cases same : key = item.1
        · have absent : index.get? item.1 = none :=
            JsMap.get?_eq_none_iff.mpr fun own => there (JsMap.has_iff.mpr own)
          rw [if_pos same, same, absent, beq_self_eq_true]
          rfl
        · rw [if_neg same, beq_eq_false_iff_ne.mpr same]

theorem get?_indexOf (base : List JsString) (key : JsString)
    : (indexOf base).get? key = base.zipIdx.lookup key := by
  rw [indexOf, get?_foldl_index, JsMap.get?_empty, Option.none_or]

variable {base : List JsString}

/-- A key is found where it stands. -/
theorem indexOf_at {key : JsString} {place : Nat} (found : (indexOf base).get? key = some place)
    : base[place]? = some key := by
  rw [get?_indexOf] at found
  obtain ⟨before, after, split, -⟩ := List.lookup_eq_some_iff.mp found
  have member : (key, place) ∈ base.zipIdx := by
    rw [split]
    simp
  exact List.mk_mem_zipIdx_iff_getElem?.mp member

theorem mem_indexOf {key : JsString}
    : key ∈ (indexOf base).keys ↔ key ∈ base := by
  have keys : KeyedLists.keys base.zipIdx = base := List.zipIdx_map_fst 0 base
  rw [← not_iff_not, ← JsMap.get?_eq_none_iff, get?_indexOf, KeyedLists.lookup_eq_none_iff, keys]

/-- The index is as long as the base exactly where no key repeats. -/
theorem size_indexOf_eq_iff
    : (indexOf base).size = base.length ↔ base.Nodup := by
  have perm : (indexOf base).keys.Perm base.eraseDups :=
    (List.perm_ext_iff_of_nodup (indexOf base).distinct (Ordinals.nodup_eraseDups base)).mpr
      fun key => mem_indexOf.trans List.mem_eraseDups.symm
  have size : (indexOf base).size = base.eraseDups.length := by
    rw [← perm.length_eq, JsMap.keys, List.length_map]
    rfl
  rw [size, Ordinals.length_eraseDups_eq_iff]

variable {next : List JsString}

/-- The loop splits `next` into the keys it keeps, which the base holds in their order from the
place it has come to on, and the rest, by induction on `next`.
-/
theorem keptSplit_spec {floor : Nat} {kept : List JsString} (distinct : next.Nodup)
    (fresh : ∀ key ∈ next, key ∉ kept)
    : ∃ more append, keptSplit (indexOf base) ((floor : Int) - 1) kept next = (kept ++ more, append)
        ∧ next = more ++ append ∧ more.Sublist (base.drop floor) := by
  induction next generalizing floor kept with
  | nil => exact ⟨[], [], by simp [keptSplit], rfl, List.nil_sublist _⟩
  | cons key rest ih =>
      rw [List.nodup_cons] at distinct
      have stop : ∃ more append, (kept, key :: rest) = (kept ++ more, append)
          ∧ key :: rest = more ++ append ∧ more.Sublist (base.drop floor) :=
        ⟨[], key :: rest, by simp, rfl, List.nil_sublist _⟩
      unfold keptSplit
      split
      · exact stop
      · rename_i place found
        split
        · exact stop
        · rename_i later
          have reached : floor ≤ place := by omega
          have grown : Projector.add kept key = kept ++ [key] := if_neg (fresh key (by simp))
          have position : (place : Int) = ((place + 1 : Nat) : Int) - 1 := by omega
          have others : ∀ other ∈ rest, other ∉ kept ++ [key] := by
            intro other member
            rw [List.mem_append, List.mem_singleton, not_or]
            refine ⟨fresh other (List.mem_cons_of_mem _ member), ?_⟩
            rintro rfl
            exact distinct.1 member
          obtain ⟨more, append, all, split, ordered⟩ := @ih (place + 1) _ distinct.2 others
          rw [grown, position, all]
          refine ⟨key :: more, append, by simp, by rw [split]; rfl, ?_⟩
          have here : base.drop place = key :: base.drop (place + 1) := by
            obtain ⟨bound, value⟩ := List.getElem?_eq_some_iff.mp (indexOf_at found)
            rw [← value]
            exact List.drop_eq_getElem_cons bound
          have tail : (base.drop place).Sublist (base.drop floor) :=
            List.drop_sublist_drop_left base reached
          rw [here] at tail
          exact (ordered.cons_cons key).trans tail

/-- What a patch of two lists without repetitions holds: `next` is a part of the base in its order,
which is what the base is without the removed keys, followed by the appended keys.
-/
structure Splits (base next : List JsString) (patch : TombstonePatch) : Prop where
  kept : next = base.filter (· ∉ patch.remove) ++ patch.append
  removed : patch.remove.Sublist base

/-- Lists without repetitions always have a patch. -/
theorem tombstonePatch_splits (baseDistinct : base.Nodup) (nextDistinct : next.Nodup)
    : ∃ patch, tombstonePatch base next = some patch ∧ Splits base next patch := by
  obtain ⟨more, append, all, split, ordered⟩ := @keptSplit_spec base next 0 [] nextDistinct
    fun _ _ => List.not_mem_nil
  have held : more.Sublist base := by simpa using ordered
  have apart : append.any (· ∈ more) = false := by
    rw [List.any_eq_false]
    intro key member
    rw [split, List.nodup_append] at nextDistinct
    simpa using fun own => nextDistinct.2.2 key own key member rfl
  refine ⟨{ remove := base.filter (· ∉ more), append }, ?_, ?_, List.filter_sublist⟩
  · unfold tombstonePatch
    have start : ((0 : Nat) : Int) - 1 = -1 := rfl
    rw [start, List.nil_append] at all
    rw [if_neg (by
      rw [not_or, not_not, not_not]
      exact ⟨size_indexOf_eq_iff.mpr baseDistinct,
        Ordinals.length_eraseDups_eq_iff.mpr nextDistinct⟩), all]
    simp [apart]
  · have rest : base.filter (· ∉ base.filter (· ∉ more)) = base.filter (· ∈ more) := by
      refine List.filter_congr fun key member => ?_
      simp [member]
    rw [split]
    exact congrArg (· ++ append) ((Ordinals.filter_mem_of_sublist held baseDistinct).symm.trans
      rest.symm)

theorem tombstonePatch_eq_none (h : ¬ (base.Nodup ∧ next.Nodup))
    : tombstonePatch base next = none := by
  unfold tombstonePatch
  refine if_pos ?_
  rw [Ne, Ne, size_indexOf_eq_iff, Ordinals.length_eraseDups_eq_iff, ← not_and_or]
  exact h

theorem stringsOf_strings (items : List JsString)
    : Projector.stringsOf (some (.array (items.map .string))) = some items := by
  induction items with
  | nil => rfl
  | cons item rest ih =>
      have tail : (rest.map Json.string).mapM (fun item => Json.text? (some item)) = some rest := ih
      change ((Json.string item) :: rest.map Json.string).mapM
        (fun item => Json.text? (some item)) = _
      rw [List.mapM_cons, tail]
      rfl

theorem apply_splits {patch : TombstonePatch} (splits : Splits base next patch)
    (baseDistinct : base.Nodup) (nextDistinct : next.Nodup)
    : applyTombstonePatch base patch.json = some next := by
  have remove : patch.json.field? "remove" = some (.array (patch.remove.map .string)) := rfl
  have append : patch.json.field? "append" = some (.array (patch.append.map .string)) := rfl
  unfold applyTombstonePatch Projector.applyTombstonePatch
  rw [remove, append, stringsOf_strings, stringsOf_strings]
  have whole := splits.kept
  have fits : patch.remove.Nodup ∧ (∀ key ∈ patch.remove, key ∈ base)
      ∧ (base.filter (· ∉ patch.remove) ++ patch.append).Nodup := by
    rw [← whole]
    exact ⟨baseDistinct.sublist splits.removed, fun key => (splits.removed.subset ·), nextDistinct⟩
  rw [whole]
  exact if_pos fits

/-- A patch decodes to the list it was made for, also when it was written and read, and there is
none exactly where one of the lists repeats a key.
-/
theorem tombstone_patch_decodes (base next : List JsString)
    : (∀ patch, tombstonePatch base next = some patch →
          applyTombstonePatch base patch.json = some next
            ∧ (Json.parse (Json.stringify patch.json)).bind (applyTombstonePatch base) = some next)
        ∧ (tombstonePatch base next = none ↔ ¬ base.Nodup ∨ ¬ next.Nodup) := by
  by_cases distinct : base.Nodup ∧ next.Nodup
  · obtain ⟨made, patched, splits⟩ := tombstonePatch_splits distinct.1 distinct.2
    refine ⟨?_, ?_⟩
    · intro patch h
      obtain rfl : made = patch := Option.some.inj (patched.symm.trans h)
      have decoded := apply_splits splits distinct.1 distinct.2
      rw [Json.parse_stringify]
      exact ⟨decoded, decoded⟩
    · rw [patched, ← not_and_or]
      simp [distinct]
  · rw [← not_and_or, tombstonePatch_eq_none distinct]
    simp [distinct]

/-- A key that moves behind another is both removed and appended. -/
theorem tombstone_patch_decodes_swapped
    : applyTombstonePatch [lit "a", lit "b", lit "c"]
        { remove := [lit "a", lit "c"], append := [lit "a", lit "d"] : TombstonePatch }.json
      = some [lit "b", lit "a", lit "d"] :=
  ((tombstone_patch_decodes [lit "a", lit "b", lit "c"] [lit "b", lit "a", lit "d"]).1 _
    (by decide)).1

end PiFabric.ReadJournal
