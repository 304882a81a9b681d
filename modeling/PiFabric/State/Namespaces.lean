import PiFabric.Foundation.LineLog
import PiFabric.State.Encoding

/-! The namespaces of a state and their digests. A commit hashes the bytes that it encoded, and
takes over a digest that was computed before it where nothing in the namespace changed.
-/

namespace PiFabric.State

open JsString

def slash : UInt16 := unitOf '/'

/-- A text through its first slash, and what follows. -/
def throughSlash (text : JsString) : Option (JsString × JsString) :=
  match text.dropWhile (· != slash) with
  | [] => none
  | _ :: rest => some (text.takeWhile (· != slash) ++ [slash], rest)

/-- `keyNamespace`: the first two segments of a key, if both are complete. -/
def keyNamespace (key : JsString) : Option JsString := do
  let (first, rest) ← throughSlash key
  let (second, _) ← throughSlash rest
  some (first ++ second)

def sortedKeys (keys : List JsString) : List JsString :=
  JsString.sorted keys

/-- `hash.digest("base64")` of all that the hash was updated with. -/
abbrev Digest := List UInt8 → JsString

def digestEntries (digest : Digest) (entries : List Json) : JsString :=
  digest (LineLog.join (entries.map Json.bytes))

def emptyDigest (digest : Digest) : JsString :=
  digestEntries digest []

def namespaceEntries (state : Document) (space : JsString) : List Json :=
  (sortedKeys ((objectKeys state.entries).filter space.isPrefixOf)).filterMap state.entries.get?

def namespaceDigest (digest : Digest) (state : Document) (space : JsString) : JsString :=
  digestEntries digest (namespaceEntries state space)

def hashed (entries : Encodings) (key : JsString) : List UInt8 :=
  match entries.get? key with
  | some encoded => encoded.entry ++ [LineLog.newline]
  | none => []

/-- One key of the loop of `#signalNamespaces`. -/
def hashKey (entries : Encodings) (reuse : JsMap JsString JsString)
    (omitted : List (Option JsString)) (hashes : JsMap JsString (List UInt8)) (key : JsString)
    : JsMap JsString (List UInt8) :=
  match keyNamespace key with
  | none => hashes
  | some space =>
      if reuse.has space || omitted.contains (some space) then hashes
      else hashes.set space ((hashes.get? space).getD [] ++ hashed entries key)

def signalNamespaces (digest : Digest) (entries : Encodings) (reuse : JsMap JsString JsString)
    (omitted : List (Option JsString)) : JsMap JsString JsString :=
  let hashes := (sortedKeys entries.keys).foldl (hashKey entries reuse omitted) JsMap.empty
  JsMap.bindAll Prod.fst (fun hash => digest hash.2) reuse hashes.entries

/-- Two complete segments. -/
def IsNamespace (space : JsString) : Prop :=
  ∃ first second, slash ∉ first ∧ slash ∉ second
    ∧ space = (first ++ [slash]) ++ (second ++ [slash])

/-- The first slash ends the first segment, by induction over it. -/
theorem throughSlash_append {first : JsString} (clean : slash ∉ first) (rest : JsString)
    : throughSlash ((first ++ [slash]) ++ rest) = some (first ++ [slash], rest) := by
  unfold throughSlash
  have passes : ∀ unit ∈ first, (unit != slash) = true := by
    intro unit member
    exact bne_iff_ne.mpr fun same => clean (same ▸ member)
  rw [List.append_assoc, List.dropWhile_append_of_pos passes, List.takeWhile_append_of_pos passes]
  simp

theorem throughSlash_eq_some {text head rest : JsString}
    (h : throughSlash text = some (head, rest))
    : ∃ first, slash ∉ first ∧ head = first ++ [slash] ∧ text = head ++ rest := by
  unfold throughSlash at h
  have clean : slash ∉ text.takeWhile (· != slash) := by
    intro member
    simpa using List.mem_takeWhile_imp member
  have whole := List.takeWhile_append_dropWhile (p := (· != slash)) (l := text)
  split at h
  · cases h
  · next unit more after =>
      obtain ⟨rfl, rfl⟩ := Prod.mk.inj (Option.some.inj h)
      have stopped := List.head?_dropWhile_not (· != slash) text
      rw [after] at stopped whole
      have unitSlash : unit = slash := by simpa using stopped
      refine ⟨_, clean, rfl, ?_⟩
      rw [unitSlash] at whole
      simpa using whole.symm

variable {space : JsString}

theorem keyNamespace_eq_some_iff {key : JsString}
    : keyNamespace key = some space ↔ IsNamespace space ∧ space <+: key := by
  constructor
  · intro h
    obtain ⟨⟨first, rest⟩, start, tail⟩ := Option.bind_eq_some_iff.mp h
    obtain ⟨⟨second, more⟩, next, whole⟩ := Option.bind_eq_some_iff.mp tail
    obtain ⟨segment, clean, rfl, rfl⟩ := throughSlash_eq_some start
    obtain ⟨segment', clean', rfl, rfl⟩ := throughSlash_eq_some next
    obtain rfl := Option.some.inj whole
    exact ⟨⟨segment, segment', clean, clean', rfl⟩, more, by simp⟩
  · rintro ⟨⟨first, second, clean, clean', rfl⟩, more, rfl⟩
    rw [keyNamespace, List.append_assoc, throughSlash_append clean]
    simp only [Option.bind_eq_bind, Option.bind_some]
    rw [throughSlash_append clean']
    rfl

theorem keyNamespace_of_isPrefixOf {key : JsString} (own : IsNamespace space)
    : space.isPrefixOf key = decide (keyNamespace key = some space) := by
  rw [Bool.eq_iff_iff, List.isPrefixOf_iff_prefix, decide_eq_true_iff, keyNamespace_eq_some_iff]
  exact ⟨fun front => ⟨own, front⟩, And.right⟩

theorem isNamespace_iff
    : IsNamespace space ↔ keyNamespace space = some space := by
  rw [keyNamespace_eq_some_iff]
  exact ⟨fun own => ⟨own, List.prefix_rfl⟩, And.left⟩

variable {digest : Digest} {entries : Encodings} {reuse : JsMap JsString JsString}
  {omitted : List (Option JsString)}

def passesOver (reuse : JsMap JsString JsString) (omitted : List (Option JsString))
    (space : JsString) : Bool :=
  reuse.has space || omitted.contains (some space)

theorem foldl_hashKey (keys : List JsString) (hashes : JsMap JsString (List UInt8))
    (space : JsString)
    : (keys.foldl (hashKey entries reuse omitted) hashes).get? space
      = if passesOver reuse omitted space
          ∨ keys.filter (fun key => decide (keyNamespace key = some space)) = [] then
          hashes.get? space
        else some ((hashes.get? space).getD []
          ++ (keys.filter fun key => decide (keyNamespace key = some space)).flatMap
            (hashed entries)) := by
  induction keys generalizing hashes with
  | nil => simp
  | cons key rest ih =>
      rw [List.foldl_cons, ih]
      by_cases own : keyNamespace key = some space
      · rw [List.filter_cons_of_pos (by simpa using own)]
        cases passed : passesOver reuse omitted space with
        | true =>
            have step : hashKey entries reuse omitted hashes key = hashes := by
              unfold passesOver at passed
              simp only [hashKey, own, passed, if_true]
            simp [step]
        | false =>
            have step : (hashKey entries reuse omitted hashes key).get? space
                = some ((hashes.get? space).getD [] ++ hashed entries key) := by
              unfold passesOver at passed
              simp only [hashKey, own, passed, Bool.false_eq_true, if_false, JsMap.get?_set_self]
            rw [step]
            by_cases last : rest.filter (fun key => decide (keyNamespace key = some space)) = []
            · simp [last]
            · simp [last, List.append_assoc]
      · rw [List.filter_cons_of_neg (by simpa using own)]
        have step : (hashKey entries reuse omitted hashes key).get? space = hashes.get? space := by
          unfold hashKey
          split
          · rfl
          · next other found =>
              split
              · rfl
              · rw [JsMap.get?_set, if_neg]
                rintro rfl
                exact own found
        rw [step]

theorem signalNamespaces_get? (digest : Digest) (space : JsString)
    : (signalNamespaces digest entries reuse omitted).get? space
      = if passesOver reuse omitted space
          ∨ entries.keys.filter (fun key => decide (keyNamespace key = some space)) = [] then
          reuse.get? space
        else some (digest ((sortedKeys (entries.keys.filter fun key =>
          decide (keyNamespace key = some space))).flatMap (hashed entries))) := by
  have none_left : sortedKeys (entries.keys.filter fun key =>
        decide (keyNamespace key = some space)) = []
      ↔ entries.keys.filter (fun key => decide (keyNamespace key = some space)) = [] := by
    rw [← List.length_eq_zero_iff, ← List.length_eq_zero_iff, sortedKeys,
      (perm_sorted _).length_eq]
  rw [signalNamespaces, JsMap.get?_bindAll_entries (fun _ => digest) reuse fun _ => Iff.rfl,
    foldl_hashKey, sortedKeys, sorted_filter, ← sortedKeys]
  by_cases stays : passesOver reuse omitted space
      ∨ entries.keys.filter (fun key => decide (keyNamespace key = some space)) = []
  · rw [if_pos stays, if_pos (stays.imp_right none_left.mpr)]
    rfl
  · rw [if_neg stays, if_neg fun passed => stays (passed.imp_right none_left.mp)]
    rfl

def indexOf (digest : Digest) (state : Document) (space : JsString) : Option JsString :=
  if keyNamespace space = some space ∧ namespaceEntries state space ≠ [] then
    some (namespaceDigest digest state space)
  else none

/-- Encodings that are those of the entries, as far as a namespace goes. -/
def Covers (entries : Encodings) (state : Document) (space : JsString) : Prop :=
  ∀ key, keyNamespace key = some space →
    entries.get? key = (state.entries.get? key).map (encodeEntry key)

variable {state : Document}

theorem Covers.keys (covers : Covers entries state space) (own : IsNamespace space)
    : sortedKeys (entries.keys.filter fun key => decide (keyNamespace key = some space))
      = sortedKeys ((objectKeys state.entries).filter space.isPrefixOf) := by
  have listed : (objectKeys state.entries).Perm state.entries.keys := perm_enumerated _ _
  have distinct : entries.keys.Nodup := entries.distinct
  refine sorted_congr ((List.perm_ext_iff_of_nodup (distinct.filter _)
    ((listed.nodup_iff.mpr state.entries.distinct).filter _)).mpr fun key => ?_)
  rw [List.mem_filter, List.mem_filter, keyNamespace_of_isPrefixOf own, listed.mem_iff,
    ← JsMap.has_iff, ← JsMap.has_iff, has_eq_isSome, has_eq_isSome]
  refine and_congr_left fun within => ?_
  rw [covers key (of_decide_eq_true within), Option.isSome_map]

theorem Covers.bytes (covers : Covers entries state space) (own : IsNamespace space)
    : (sortedKeys ((objectKeys state.entries).filter space.isPrefixOf)).flatMap (hashed entries)
      = LineLog.join ((namespaceEntries state space).map Json.bytes) := by
  have each : ∀ key ∈ sortedKeys ((objectKeys state.entries).filter space.isPrefixOf),
      hashed entries key
        = ((state.entries.get? key).map fun value =>
            Json.bytes value ++ [LineLog.newline]).toList.flatten := by
    intro key member
    have within := (List.mem_filter.mp ((perm_sorted _).mem_iff.mp member)).2
    rw [keyNamespace_of_isPrefixOf own] at within
    rw [hashed, covers key (of_decide_eq_true within)]
    cases state.entries.get? key with
    | none => rfl
    | some value => simp [encodeEntry_entry]
  rw [LineLog.join, namespaceEntries]
  generalize sortedKeys ((objectKeys state.entries).filter space.isPrefixOf) = keys at each
  induction keys with
  | nil => rfl
  | cons key rest ih =>
      rw [List.flatMap_cons, each key List.mem_cons_self,
        ih fun other member => each other (List.mem_cons_of_mem _ member)]
      cases found : state.entries.get? key with
      | none => simp [found]
      | some value => simp [found]

theorem Covers.index (covers : Covers entries state space) (own : IsNamespace space)
    (computed : passesOver reuse omitted space = false)
    : (signalNamespaces digest entries reuse omitted).get? space = indexOf digest state space := by
  have absent : reuse.get? space = none := by
    unfold passesOver at computed
    have missing := (Bool.or_eq_false_iff.mp computed).1
    rw [has_eq_isSome] at missing
    simpa using missing
  have listed : (objectKeys state.entries).Perm state.entries.keys := perm_enumerated _ _
  have empty : entries.keys.filter (fun key => decide (keyNamespace key = some space)) = []
      ↔ namespaceEntries state space = [] := by
    rw [namespaceEntries, ← covers.keys own, List.filterMap_eq_nil_iff]
    constructor
    · intro none_left
      rw [none_left]
      exact fun _ member => absurd member List.not_mem_nil
    · intro none_left
      by_contra some_left
      obtain ⟨key, member⟩ := List.exists_mem_of_ne_nil _ some_left
      have missing := none_left key ((perm_sorted _).mem_iff.mpr member)
      obtain ⟨inside, within⟩ := List.mem_filter.mp member
      have encoded := covers key (of_decide_eq_true within)
      rw [missing] at encoded
      exact JsMap.get?_eq_none_iff.mp encoded inside
  rw [signalNamespaces_get?, computed, absent, indexOf, covers.keys own, covers.bytes own]
  by_cases none_left : namespaceEntries state space = []
  · rw [if_pos (.inr (empty.mpr none_left)), if_neg fun both => both.2 none_left]
  · rw [if_neg, if_pos ⟨isNamespace_iff.mp own, none_left⟩]
    · rfl
    · rintro (passed | missing)
      · cases passed
      · exact none_left (empty.mp missing)

end PiFabric.State
