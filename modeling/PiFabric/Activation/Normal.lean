import PiFabric.Foundation.Literals
import PiFabric.Foundation.Outcome
import PiFabric.Activation.Filter

/-! A filter that was checked passes the check again, as it is. -/

namespace PiFabric.Activation

open JsString Outcome

def Paths.json : Paths → Json
  | one path => .string path
  | alternatives paths => .array (paths.map .string)

def Test.member : Test → JsString × Json
  | equals value => (lit "equals", value)
  | among values => (lit "in", .array values)
  | present => (lit "exists", .bool true)

def Predicate.json (predicate : Predicate) : Json :=
  .object [(lit "path", predicate.path.json), predicate.test.member]

def patternsJson (list : List JsString) : Json :=
  .array (list.map .string)

def predicatesJson (predicates : List Predicate) : Json :=
  .array (predicates.map Predicate.json)

def SkipRule.json (rule : SkipRule) : Json :=
  Json.literal [("id", some (.string rule.id)), ("source", rule.source.map patternsJson),
    ("topic", rule.topic.map patternsJson), ("kind", rule.kind.map patternsJson),
    ("where", rule.where.map predicatesJson), ("unless", rule.unless.map predicatesJson)]

def Entry.json : Entry → Json
  | .preset held => .string held.name
  | .rule held => held.json

def filterJson (filter : List Entry) : Json :=
  .array (filter.map Entry.json)

def Paths.Valid : Paths → Prop
  | one path => isShortPath path = true
  | alternatives paths =>
      paths ≠ [] ∧ paths.length ≤ 8 ∧ ∀ path ∈ paths, isShortPath path = true

def Test.Valid : Test → Prop
  | equals value => isScalar value = true
  | among values => values ≠ [] ∧ values.length ≤ maxList ∧ ∀ value ∈ values, isScalar value = true
  | present => True

structure Predicate.Valid (predicate : Predicate) : Prop where
  path : predicate.path.Valid
  test : predicate.test.Valid

def PatternsValid (list : List JsString) : Prop :=
  list ≠ [] ∧ list.length ≤ maxList ∧ ∀ pattern ∈ list, isPattern pattern = true

def PredicatesValid (predicates : List Predicate) : Prop :=
  predicates ≠ [] ∧ predicates.length ≤ maxPredicates ∧ ∀ predicate ∈ predicates, predicate.Valid

structure SkipRule.Valid (rule : SkipRule) : Prop where
  id : isRuleId rule.id = true
  source : ∀ list, rule.source = some list → PatternsValid list
  topic : ∀ list, rule.topic = some list → PatternsValid list
  kind : ∀ list, rule.kind = some list → PatternsValid list
  «where» : ∀ predicates, rule.where = some predicates → PredicatesValid predicates
  «unless» : ∀ predicates, rule.unless = some predicates → PredicatesValid predicates
  named : (names rule.source || names rule.topic || names rule.kind || rule.where.isSome) = true

def Entry.Valid : Entry → Prop
  | .preset _ => True
  | .rule held => held.Valid

variable {items : List Json}

theorem strings_valid {valid : JsString → Bool} {texts : List JsString}
    (read : strings valid items = some texts)
    : items = texts.map .string ∧ ∀ text ∈ texts, valid text = true := by
  induction items generalizing texts with
  | nil =>
      obtain rfl := Option.some.inj read
      exact ⟨rfl, fun _ member => nomatch member⟩
  | cons item rest ih =>
      cases item with
      | string text =>
          rw [strings] at read
          split at read
          · next passes =>
              obtain ⟨others, later, rfl⟩ := Option.map_eq_some_iff.mp read
              obtain ⟨same, all⟩ := ih later
              refine ⟨by rw [same]; rfl, fun other member => ?_⟩
              rcases List.mem_cons.mp member with rfl | inside
              · exact passes
              · exact all other inside
          · cases read
      | _ => cases read

theorem strings_map {valid : JsString → Bool} {texts : List JsString}
    (all : ∀ text ∈ texts, valid text = true)
    : strings valid (texts.map .string) = some texts := by
  induction texts with
  | nil => rfl
  | cons text rest ih =>
      rw [List.map_cons, strings, if_pos (all text List.mem_cons_self),
        ih fun other member => all other (List.mem_cons_of_mem _ member)]
      rfl

variable {value : Option Json} {place : JsString}

theorem patterns_valid {list : Option (List JsString)} (read : patterns value place = .ok list)
    : ∀ found, list = some found → PatternsValid found := by
  intro found same
  rw [same] at read
  unfold patterns at read
  split at read
  · cases read
  · next items =>
      split at read
      · cases read
      · next sized =>
          simp only [Bool.or_eq_true, decide_eq_true_eq, not_or, List.isEmpty_iff] at sized
          split at read
          · next texts known =>
              obtain rfl := Option.some.inj (Except.ok.inj read)
              obtain ⟨rfl, all⟩ := strings_valid known
              refine ⟨fun empty => sized.1 (by rw [empty]; rfl), ?_, all⟩
              have length := sized.2
              rw [List.length_map] at length
              omega
          · cases read
  · cases read

theorem patterns_json {list : Option (List JsString)} (place : JsString)
    (valid : ∀ found, list = some found → PatternsValid found)
    : patterns (list.map patternsJson) place = .ok list := by
  cases list with
  | none => rfl
  | some found =>
      obtain ⟨some, length, all⟩ := valid found rfl
      have sized : ((found.map Json.string).isEmpty
          || decide (maxList < (found.map Json.string).length)) = false := by
        rw [Bool.or_eq_false_iff, List.length_map, decide_eq_false_iff_not]
        refine ⟨?_, by omega⟩
        rw [Bool.eq_false_iff, Ne, List.isEmpty_iff, List.map_eq_nil_iff]
        exact some
      rw [Option.map_some, patternsJson, patterns, sized, if_neg Bool.false_ne_true,
        strings_map all]

theorem readPaths_valid {paths : Paths} (read : readPaths value = some paths)
    : paths.Valid := by
  unfold readPaths at read
  split at read
  · split at read
    · next passes =>
        obtain rfl := Option.some.inj read
        exact passes
    · cases read
  · split at read
    · cases read
    · next sized =>
        simp only [Bool.or_eq_true, decide_eq_true_eq, not_or, List.isEmpty_iff] at sized
        obtain ⟨texts, known, rfl⟩ := Option.map_eq_some_iff.mp read
        obtain ⟨rfl, all⟩ := strings_valid known
        refine ⟨fun empty => sized.1 (by rw [empty]; rfl), ?_, all⟩
        have length := sized.2
        rw [List.length_map] at length
        omega
  · cases read

theorem readPaths_json {paths : Paths} (valid : paths.Valid)
    : readPaths (some paths.json) = some paths := by
  cases paths with
  | one path => exact if_pos valid
  | alternatives paths =>
      obtain ⟨some, length, all⟩ := valid
      have sized : ((paths.map Json.string).isEmpty
          || decide (8 < (paths.map Json.string).length)) = false := by
        rw [Bool.or_eq_false_iff, List.length_map, decide_eq_false_iff_not]
        refine ⟨?_, by omega⟩
        rw [Bool.eq_false_iff, Ne, List.isEmpty_iff, List.map_eq_nil_iff]
        exact some
      rw [Paths.json, readPaths, sized, if_neg Bool.false_ne_true, strings_map all]
      rfl

theorem readTest_valid {entry : Json} {test : Test} (read : readTest entry place = .ok test)
    : test.Valid := by
  unfold readTest at read
  split at read
  · split at read
    · split at read
      · next scalar =>
          obtain rfl := Except.ok.inj read
          exact scalar
      · cases read
    · cases read
  · split at read
    · split at read
      · cases read
      · next sized =>
          simp only [Bool.or_eq_true, decide_eq_true_eq, not_or, List.isEmpty_iff,
            Bool.not_eq_true', Bool.not_eq_false] at sized
          obtain rfl := Except.ok.inj read
          exact ⟨sized.1.1, by omega, List.all_eq_true.mp sized.2⟩
    · cases read
  · split at read
    · obtain rfl := Except.ok.inj read
      trivial
    · cases read
  · cases read

theorem readTest_json {path : Json} {test : Test} (valid : test.Valid)
    : readTest (.object [(lit "path", path), test.member]) place = .ok test := by
  cases test with
  | equals value =>
      have operators : ["equals", "in", "exists"].filter (fun key =>
          (Json.field? key (.object [(lit "path", path), (lit "equals", value)])).isSome)
          = ["equals"] := rfl
      have held : Json.field? "equals" (.object [(lit "path", path), (lit "equals", value)])
          = some value := rfl
      rw [Test.member, readTest, operators]
      dsimp only
      rw [held]
      exact if_pos valid
  | among values =>
      obtain ⟨some, length, all⟩ := valid
      have operators : ["equals", "in", "exists"].filter (fun key =>
          (Json.field? key (.object [(lit "path", path), (lit "in", .array values)])).isSome)
          = ["in"] := rfl
      have held : Json.field? "in" (.object [(lit "path", path), (lit "in", .array values)])
          = Option.some (.array values) := rfl
      have sized : (values.isEmpty || decide (maxList < values.length) || !values.all isScalar)
          = false := by
        rw [Bool.or_eq_false_iff, Bool.or_eq_false_iff, decide_eq_false_iff_not,
          List.all_eq_true.mpr all]
        refine ⟨⟨?_, by omega⟩, rfl⟩
        rw [Bool.eq_false_iff, Ne, List.isEmpty_iff]
        exact some
      rw [Test.member, readTest, operators]
      dsimp only
      rw [held]
      dsimp only
      rw [sized]
      rfl
  | present => rfl

theorem readPredicate_valid {entry : Json} {predicate : Predicate}
    (read : readPredicate place entry = .ok predicate) : predicate.Valid := by
  unfold readPredicate at read
  split at read
  · next members =>
      obtain ⟨_, _, read⟩ := bind_eq_ok.mp read
      split at read
      · cases read
      · next path paths =>
          obtain ⟨test, tested, same⟩ := bind_eq_ok.mp read
          obtain rfl := Except.ok.inj same
          exact ⟨readPaths_valid paths, readTest_valid tested⟩
  · cases read

theorem readPredicate_json {predicate : Predicate} (valid : predicate.Valid)
    : readPredicate place predicate.json = .ok predicate := by
  have known : knownFields ["path", "equals", "in", "exists"] place
      [(lit "path", predicate.path.json), predicate.test.member] = .ok () := by
    cases predicate.test <;> rfl
  have path : Json.field? "path" (.object [(lit "path", predicate.path.json),
      predicate.test.member]) = some predicate.path.json := by
    cases predicate.test <;> rfl
  rw [Predicate.json, readPredicate, known, path, readPaths_json valid.path]
  dsimp only [bind, Except.bind]
  rw [readTest_json valid.test]

variable {index : Nat}

theorem readPredicates_valid {found : List Predicate}
    (read : readPredicates place index items = .ok found)
    : found.length = items.length ∧ ∀ predicate ∈ found, predicate.Valid := by
  induction items generalizing index found with
  | nil =>
      obtain rfl := Except.ok.inj read
      exact ⟨rfl, fun _ member => nomatch member⟩
  | cons item rest ih =>
      obtain ⟨predicate, first, read⟩ := bind_eq_ok.mp read
      obtain ⟨others, later, same⟩ := bind_eq_ok.mp read
      obtain rfl := Except.ok.inj same
      obtain ⟨length, all⟩ := ih later
      refine ⟨by rw [List.length_cons, List.length_cons, length], fun other member => ?_⟩
      rcases List.mem_cons.mp member with rfl | inside
      · exact readPredicate_valid first
      · exact all other inside

theorem readPredicates_json {found : List Predicate} (all : ∀ predicate ∈ found, predicate.Valid)
    : readPredicates place index (found.map Predicate.json) = .ok found := by
  induction found generalizing index with
  | nil => rfl
  | cons predicate rest ih =>
      rw [List.map_cons, readPredicates, readPredicate_json (all predicate List.mem_cons_self)]
      dsimp only [bind, Except.bind]
      rw [ih fun other member => all other (List.mem_cons_of_mem _ member)]

theorem predicates_valid {list : Option (List Predicate)} (read : predicates value place = .ok list)
    : ∀ found, list = some found → PredicatesValid found := by
  intro found same
  rw [same] at read
  unfold predicates at read
  split at read
  · cases read
  · next items =>
      split at read
      · cases read
      · next sized =>
          simp only [Bool.or_eq_true, decide_eq_true_eq, not_or, List.isEmpty_iff] at sized
          cases entries : readPredicates place 0 items with
          | error message =>
              rw [entries] at read
              cases read
          | ok others =>
              rw [entries] at read
              obtain rfl := Option.some.inj (Except.ok.inj read)
              obtain ⟨length, all⟩ := readPredicates_valid entries
              refine ⟨fun empty => sized.1 ?_, by omega, all⟩
              rw [← List.length_eq_zero_iff, ← length, empty]
              rfl
  · cases read

theorem predicates_json {list : Option (List Predicate)} (place : JsString)
    (valid : ∀ found, list = some found → PredicatesValid found)
    : predicates (list.map predicatesJson) place = .ok list := by
  cases list with
  | none => rfl
  | some found =>
      obtain ⟨some, length, all⟩ := valid found rfl
      have sized : ((found.map Predicate.json).isEmpty
          || decide (maxPredicates < (found.map Predicate.json).length)) = false := by
        rw [Bool.or_eq_false_iff, List.length_map, decide_eq_false_iff_not]
        refine ⟨?_, by omega⟩
        rw [Bool.eq_false_iff, Ne, List.isEmpty_iff, List.map_eq_nil_iff]
        exact some
      rw [Option.map_some, predicatesJson, predicates, sized, if_neg Bool.false_ne_true,
        readPredicates_json all]
      rfl

theorem require_eq_ok {condition : Bool} {message : JsString} {result : Unit}
    (passed : require condition message = .ok result) : condition = true := by
  unfold require at passed
  split at passed
  · assumption
  · cases passed

theorem normalizeRule_valid {value : Json} {rule : SkipRule}
    (read : normalizeRule value index = .ok rule) : rule.Valid := by
  unfold normalizeRule at read
  dsimp only at read
  split at read
  · obtain ⟨_, _, read⟩ := bind_eq_ok.mp read
    split at read
    · obtain ⟨_, id, read⟩ := bind_eq_ok.mp read
      obtain ⟨source, hs, read⟩ := bind_eq_ok.mp read
      obtain ⟨topic, ht, read⟩ := bind_eq_ok.mp read
      obtain ⟨kind, hk, read⟩ := bind_eq_ok.mp read
      obtain ⟨held, hw, read⟩ := bind_eq_ok.mp read
      obtain ⟨exception, hu, read⟩ := bind_eq_ok.mp read
      obtain ⟨_, named, same⟩ := bind_eq_ok.mp read
      obtain rfl := Except.ok.inj same
      exact ⟨require_eq_ok id, patterns_valid hs, patterns_valid ht, patterns_valid hk,
        predicates_valid hw, predicates_valid hu, require_eq_ok named⟩
    · cases read
  · cases read

/-- The properties of a rule, read back. -/
theorem SkipRule.field?_json (rule : SkipRule) {name : String}
    (member : (name, value) ∈ [("id", some (.string rule.id)),
      ("source", rule.source.map patternsJson), ("topic", rule.topic.map patternsJson),
      ("kind", rule.kind.map patternsJson), ("where", rule.where.map predicatesJson),
      ("unless", rule.unless.map predicatesJson)])
    : rule.json.field? name = value := by
  refine Json.field?_literal ?_ member
  show ((["id", "source", "topic", "kind", "where", "unless"]).map lit).Nodup
  decide

theorem normalizeRule_json {rule : SkipRule} (valid : rule.Valid) (index : Nat)
    : normalizeRule rule.json index = .ok rule := by
  have known (place : JsString) : ∀ members, rule.json = .object members →
      knownFields ["id", "source", "topic", "kind", "where", "unless"] place members = .ok () := by
    intro members same
    obtain rfl := Json.object.inj same
    have none : (([("id", some (.string rule.id)), ("source", rule.source.map patternsJson),
        ("topic", rule.topic.map patternsJson), ("kind", rule.kind.map patternsJson),
        ("where", rule.where.map predicatesJson), ("unless", rule.unless.map predicatesJson)]
        : List (String × Option Json)).filterMap fun property =>
          property.2.map fun value => (lit property.1, value)).find? (fun member =>
            !((["id", "source", "topic", "kind", "where", "unless"]).map lit).contains member.1)
        = none := by
      rw [List.find?_eq_none]
      intro found inside unknown
      obtain ⟨property, listed, made⟩ := List.mem_filterMap.mp inside
      obtain ⟨value, _, rfl⟩ := Option.map_eq_some_iff.mp made
      have name : property.1 ∈ ["id", "source", "topic", "kind", "where", "unless"] := by
        have inside := List.mem_map_of_mem (f := Prod.fst) listed
        exact inside
      rw [Bool.not_eq_true', ← Bool.not_eq_true, List.contains_iff_mem] at unknown
      exact unknown (List.mem_map_of_mem name)
    rw [knownFields, none]
  have read {name : String} {value : Option Json} := @SkipRule.field?_json value rule name
  unfold normalizeRule
  dsimp only
  split
  · next members object =>
      rw [known _ members object]
      have id : rule.json.field? "id" = some (.string rule.id) := read (by simp)
      have source : rule.json.field? "source" = rule.source.map patternsJson := read (by simp)
      have topic : rule.json.field? "topic" = rule.topic.map patternsJson := read (by simp)
      have kind : rule.json.field? "kind" = rule.kind.map patternsJson := read (by simp)
      have held : rule.json.field? "where" = rule.where.map predicatesJson := read (by simp)
      have exception : rule.json.field? "unless" = rule.unless.map predicatesJson :=
        read (by simp)
      rw [id, source, topic, kind, held, exception]
      simp only [bind, Except.bind, require, valid.id, if_true, patterns_json _ valid.source,
        patterns_json _ valid.topic, patterns_json _ valid.kind, predicates_json _ valid.where,
        predicates_json _ valid.unless, valid.named]
  · next other => exact absurd rfl (other _)

theorem normalizeEntry_valid {value : Json} {entry : Entry}
    (read : normalizeEntry value index = .ok entry) : entry.Valid := by
  unfold normalizeEntry at read
  split at read
  · split at read
    · obtain rfl := Except.ok.inj read
      trivial
    · cases read
  · cases rule : normalizeRule value index with
    | error message =>
        rw [rule] at read
        cases read
    | ok rule' =>
        rw [rule] at read
        obtain rfl := Except.ok.inj read
        exact normalizeRule_valid rule

theorem normalizeEntry_json {entry : Entry} (valid : entry.Valid) (index : Nat)
    : normalizeEntry entry.json index = .ok entry := by
  cases entry with
  | preset held => cases held <;> rfl
  | rule held =>
      have object : ∃ members, held.json = .object members := ⟨_, rfl⟩
      obtain ⟨members, object⟩ := object
      rw [Entry.json, normalizeEntry, normalizeRule_json valid]
      · rfl
      · intro text same
        rw [object] at same
        cases same

variable {filter : List Entry}

/-- The entries are valid, and as many as there were, by induction over them. -/
theorem normalizeEntries_valid (read : normalizeEntries index items = .ok filter)
    : filter.length = items.length ∧ ∀ entry ∈ filter, entry.Valid := by
  induction items generalizing index filter with
  | nil =>
      obtain rfl := Except.ok.inj read
      exact ⟨rfl, fun _ member => nomatch member⟩
  | cons item rest ih =>
      obtain ⟨entry, first, read⟩ := bind_eq_ok.mp read
      obtain ⟨others, later, same⟩ := bind_eq_ok.mp read
      obtain rfl := Except.ok.inj same
      obtain ⟨length, all⟩ := ih later
      refine ⟨by rw [List.length_cons, List.length_cons, length], fun other member => ?_⟩
      rcases List.mem_cons.mp member with rfl | inside
      · exact normalizeEntry_valid first
      · exact all other inside

theorem normalizeEntries_json (all : ∀ entry ∈ filter, entry.Valid)
    : normalizeEntries index (filter.map Entry.json) = .ok filter := by
  induction filter generalizing index with
  | nil => rfl
  | cons entry rest ih =>
      rw [List.map_cons, normalizeEntries, normalizeEntry_json (all entry List.mem_cons_self)]
      dsimp only [bind, Except.bind]
      rw [ih fun other member => all other (List.mem_cons_of_mem _ member)]

/-- What a filter that passed the check is. -/
theorem normalize_valid {value : Json} (read : normalizeActorActivationFilter value = .ok filter)
    : filter.length ≤ maxRules ∧ (∀ entry ∈ filter, entry.Valid)
      ∧ distinctIds [] (expand filter) = .ok () := by
  unfold normalizeActorActivationFilter at read
  dsimp only at read
  split at read
  · split at read
    · cases read
    · next length =>
        obtain ⟨found, entries, read⟩ := bind_eq_ok.mp read
        obtain ⟨_, distinct, same⟩ := bind_eq_ok.mp read
        obtain rfl := Except.ok.inj same
        obtain ⟨sized, all⟩ := normalizeEntries_valid entries
        exact ⟨by omega, all, distinct⟩
  · cases read

/-- A checked filter passes the check again, as it is. -/
theorem normalize_json {value : Json} (read : normalizeActorActivationFilter value = .ok filter)
    : normalizeActorActivationFilter (filterJson filter) = .ok filter := by
  obtain ⟨length, all, distinct⟩ := normalize_valid read
  rw [filterJson, normalizeActorActivationFilter, if_neg (by rw [List.length_map]; omega),
    normalizeEntries_json all]
  dsimp only [bind, Except.bind]
  rw [distinct]

end PiFabric.Activation
