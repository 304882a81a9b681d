import PiFabric.Activation.Normal
import PiFabric.Activation.Unsure

/-! A payload whose missing fields are filled with the values that some predicates look for: a rule
that skips only because fields are missing delivers it.
-/

namespace PiFabric.Activation

open JsString

abbrev Want := List JsString × Json

def behind (segment : JsString) (wants : List Want) : List Want :=
  wants.filterMap fun want =>
    match want.1 with
    | first :: rest => if first = segment then some (rest, want.2) else none
    | [] => none

def made : List JsString → Json → Json
  | [], value => value
  | segment :: rest, value => .object [(segment, made rest value)]

def added (wants : List Want) (members : List (JsString × Json)) : List (JsString × Json) :=
  ((wants.filterMap fun want => want.1.head?).dedup.filter fun segment =>
    (own? segment (.object members)).isNone).map fun segment =>
      (segment, .array ((behind segment wants).map fun want => made want.1 want.2))

mutual
def fill (wants : List Want) : Json → Json
  | .object members => .object (fillMembers wants members ++ added wants members)
  | .array items => .array (fillItems wants items)
  | value => value

def fillItems (wants : List Want) : List Json → List Json
  | [] => []
  | item :: rest => fill wants item :: fillItems wants rest

def fillMembers (wants : List Want) : List (JsString × Json) → List (JsString × Json)
  | [] => []
  | member :: rest =>
      (member.1, fill (behind member.1 wants) member.2) :: fillMembers wants rest
end

theorem fillItems_eq (wants : List Want) (items : List Json)
    : fillItems wants items = items.map (fill wants) := by
  induction items with
  | nil => rfl
  | cons item rest ih => rw [fillItems, ih, List.map_cons]

theorem fillMembers_eq (wants : List Want) (members : List (JsString × Json))
    : fillMembers wants members
      = members.map fun member => (member.1, fill (behind member.1 wants) member.2) := by
  induction members with
  | nil => rfl
  | cons member rest ih => rw [fillMembers, ih, List.map_cons]

theorem own?_append (segment : JsString) (first last : List (JsString × Json))
    : own? segment (.object (first ++ last))
      = (own? segment (.object last)).or (own? segment (.object first)) := by
  simp only [own?, List.reverse_append, List.find?_append]
  cases last.reverse.find? fun member => member.1 = segment <;> rfl

theorem own?_fillMembers (wants : List Want) (segment : JsString)
    (members : List (JsString × Json))
    : own? segment (.object (fillMembers wants members))
      = (own? segment (.object members)).map (fill (behind segment wants)) := by
  simp only [own?, fillMembers_eq, ← List.map_reverse, List.find?_map, Option.map_map]
  cases found : members.reverse.find? fun member => member.1 = segment with
  | none =>
      have found' : members.reverse.find? ((fun member => decide (member.1 = segment))
          ∘ fun member => (member.1, fill (behind member.1 wants) member.2)) = none := found
      rw [found']
      rfl
  | some member =>
      have found' : members.reverse.find? ((fun member => decide (member.1 = segment))
          ∘ fun member => (member.1, fill (behind member.1 wants) member.2)) = some member := found
      have named : member.1 = segment := by simpa using List.find?_some found
      rw [found', ← named]
      rfl

theorem own?_added (wants : List Want) (segment : JsString) (members : List (JsString × Json))
    : own? segment (.object (added wants members))
      = if (own? segment (.object members)).isNone
          ∧ segment ∈ wants.filterMap fun want => want.1.head? then
          some (.array ((behind segment wants).map fun want => made want.1 want.2))
        else none := by
  rw [own?, added, ← List.map_reverse, List.find?_map, Option.map_map]
  split
  · next missing =>
      have member : segment ∈ ((wants.filterMap fun want => want.1.head?).dedup.filter
          fun segment => (own? segment (.object members)).isNone).reverse := by
        rw [List.mem_reverse, List.mem_filter, List.mem_dedup]
        exact ⟨missing.2, missing.1⟩
      cases found : ((wants.filterMap fun want => want.1.head?).dedup.filter
          fun segment => (own? segment (.object members)).isNone).reverse.find?
          ((fun member : JsString × Json => decide (member.1 = segment)) ∘ fun segment =>
            (segment, .array ((behind segment wants).map fun want => made want.1 want.2))) with
      | none =>
          have absent := List.find?_eq_none.mp found segment member
          simp at absent
      | some other =>
          have same : other = segment := by simpa using List.find?_some found
          rw [same]
          rfl
  · next present =>
      rw [Option.map_eq_none_iff, List.find?_eq_none]
      intro other member same
      simp only [Function.comp_apply, decide_eq_true_eq] at same
      rw [List.mem_reverse, List.mem_filter, List.mem_dedup, same] at member
      exact present ⟨member.2, member.1⟩

mutual
/-- Filling adds fields and changes none, by induction over the value. -/
theorem extends_fill : ∀ (value : Json) (wants : List Want), Extends value (fill wants value)
  | .object members, wants => by
      rw [fill]
      refine .object (fun name => fill (behind name wants)
        ((own? name (.object members)).getD .null)) (fun name value held => ?_)
        fun name value held => ?_
      · rw [own?_append, own?_added, held, own?_fillMembers, held]
        rfl
      · rw [held]
        unfold own? at held
        obtain ⟨member, found, rfl⟩ := Option.map_eq_some_iff.mp held
        exact extends_members members member
          (List.mem_reverse.mp (List.mem_of_find?_eq_some found)) (behind name wants)
  | .array items, wants => by
      rw [fill]
      exact .array (extends_fillItems items wants)
  | .null, _ => .same .null
  | .bool value, _ => .same (.bool value)
  | .number value, _ => .same (.number value)
  | .string value, _ => .same (.string value)

theorem extends_fillItems : ∀ (items : List Json) (wants : List Want),
    ExtendsEach items (fillItems wants items)
  | [], _ => .nil
  | item :: rest, wants => .cons (extends_fill item wants) (extends_fillItems rest wants)

theorem extends_members : ∀ (members : List (JsString × Json)), ∀ member ∈ members,
    ∀ wants : List Want, Extends member.2 (fill wants member.2)
  | [], _, inside, _ => nomatch inside
  | first :: rest, member, inside, wants => by
      rcases List.mem_cons.mp inside with same | later
      · rw [same]
        exact extends_fill first.2 wants
      · exact extends_members rest member later wants
end

variable {value : Json}

theorem fanOut_made (path : List JsString) (scalar : isScalar value = true)
    : fanOut (made path value) = [made path value] := by
  cases path with
  | nil =>
      cases value with
      | array => cases scalar
      | _ => rfl
  | cons => rfl

theorem mem_along_made (path : List JsString) (scalar : isScalar value = true)
    : value ∈ along path (made path value) := by
  induction path with
  | nil => exact List.mem_singleton_self value
  | cons segment rest ih =>
      have held : own? segment (.object [(segment, made rest value)]) = some (made rest value) := by
        simp [own?]
      rw [made, along, step, held]
      dsimp only
      rwa [fanOut_made rest scalar, List.flatMap_singleton]

theorem fanOut_fill (wants : List Want) (value : Json)
    : fanOut (fill wants value) = (fanOut value).map (fill wants) := by
  cases value with
  | array items => rw [fill, fanOut, fanOut, fillItems_eq]
  | object members => rfl
  | _ => rfl

theorem mem_behind {wants : List Want} {segment : JsString} {rest : List JsString}
    (wanted : (segment :: rest, value) ∈ wants) : (rest, value) ∈ behind segment wants := by
  refine List.mem_filterMap.mpr ⟨_, wanted, ?_⟩
  exact if_pos rfl

theorem mem_along_fill {path : List JsString} {wanted : Json} {wants : List Want}
    (missing : lacks path value = true) (wants' : (path, wanted) ∈ wants)
    (scalar : isScalar wanted = true) : wanted ∈ along path (fill wants value) := by
  induction path generalizing value wants with
  | nil => cases missing
  | cons segment rest ih =>
      cases value with
      | object members =>
          have inside := mem_behind wants'
          rw [along, List.mem_flatMap, fill, step, own?_append, own?_added, own?_fillMembers]
          unfold lacks at missing
          cases held : own? segment (.object members) with
          | none =>
              have head : segment ∈ wants.filterMap fun want => want.1.head? :=
                List.mem_filterMap.mpr ⟨_, wants', rfl⟩
              rw [if_pos ⟨rfl, head⟩, Option.some_or]
              refine ⟨made rest wanted, ?_, mem_along_made rest scalar⟩
              exact List.mem_map.mpr ⟨_, inside, rfl⟩
          | some next =>
              rw [held] at missing
              obtain ⟨item, member, deeper⟩ := List.any_eq_true.mp missing
              rw [if_neg fun both => absurd both.1 Bool.false_ne_true, Option.none_or,
                Option.map_some]
              refine ⟨fill (behind segment wants) item, ?_, ih deeper inside⟩
              dsimp only
              rw [fanOut_fill]
              exact List.mem_map_of_mem member
      | _ => cases missing

def Test.sample : Test → Json
  | equals value => value
  | among (value :: _) => value
  | among [] => .null
  | present => .null

def Test.Passable (test : Test) : Prop :=
  isScalar test.sample = true ∧ test.passes test.sample = true

def exceptions (predicates : List Predicate) : List Want :=
  predicates.flatMap fun predicate =>
    predicate.path.list.map fun path => (segments path, predicate.test.sample)

/-- The payload in which every exception that a missing field could leave open holds. -/
def SkipRule.filled (rule : SkipRule) (payload : Json) : Json :=
  fill (exceptions (rule.unless.getD [])) payload

/-- A rule that skips, but not firmly, delivers the payload with its fields filled. -/
theorem not_skips_filled {rule : SkipRule} {source : JsString} {payload : Json}
    (single : rule.Single)
    (passable : ∀ predicates, rule.unless = some predicates →
      ∀ predicate ∈ predicates, predicate.test.Passable)
    (infirm : rule.firm payload = false)
    : rule.skips source (rule.filled payload) = false := by
  unfold SkipRule.firm at infirm
  unfold SkipRule.skips ruleSkips SkipRule.filled
  cases known : rule.unless with
  | none =>
      rw [known] at infirm
      cases infirm
  | some predicates =>
      rw [known] at infirm
      refine Bool.and_eq_false_iff.mpr (.inr (Bool.and_eq_false_iff.mpr (.inr ?_)))
      dsimp only [Option.getD_some] at infirm ⊢
      refine List.any_eq_false.mpr fun predicate member => ?_
      obtain ⟨path, one⟩ := single.2 predicates known predicate member
      have notFirm := List.any_eq_false.mp infirm predicate member
      rw [decide_eq_true_eq]
      intro verdict
      cases missing : lacks (segments path) payload with
      | true =>
          obtain ⟨scalar, passes⟩ := passable predicates known predicate member
          have wanted : (segments path, predicate.test.sample) ∈ exceptions predicates := by
            refine List.mem_flatMap.mpr ⟨predicate, member, ?_⟩
            rw [one]
            exact List.mem_singleton_self _
          have found := mem_along_fill missing wanted scalar
          rw [predicateResult_single one] at verdict
          split at verdict
          · cases verdict
          · have none := List.any_eq_false.mp (Option.some.inj verdict) _ found
            exact none passes
      | false =>
          rw [(extends_fill payload (exceptions predicates)).verdict one missing] at verdict
          refine notFirm ?_
          rw [Predicate.firm, one, verdict]
          simp [missing]

end PiFabric.Activation

/-! When a skip rests on what the payload holds, and not on a field that it lacks. -/

namespace PiFabric.Activation

open JsString

theorem Test.Valid.passable {test : Test} (valid : test.Valid) : test.Passable := by
  have equal {value : Json} (scalar : isScalar value = true)
      : Json.strictEqual (some value) (some value) = true := by
    cases value with
    | array => cases scalar
    | object => cases scalar
    | null => rfl
    | _ => exact decide_eq_true rfl
  cases test with
  | equals value => exact ⟨valid, equal valid⟩
  | among values =>
      cases values with
      | nil => exact absurd rfl valid.1
      | cons value rest =>
          have scalar := valid.2.2 value List.mem_cons_self
          exact ⟨scalar, List.any_eq_true.mpr ⟨value, List.mem_cons_self, equal scalar⟩⟩
  | present => exact ⟨rfl, rfl⟩

theorem Preset.valid (preset : Preset) : ∀ rule ∈ preset.rules, ∀ predicates,
    rule.unless = some predicates → ∀ predicate ∈ predicates, predicate.test.Valid := by
  intro rule member predicates known predicate inside
  cases preset with
  | hold =>
      obtain rfl := List.mem_singleton.mp member
      obtain rfl := Option.some.inj known
      rcases List.mem_cons.mp inside with rfl | inside
      · rfl
      · obtain rfl := List.mem_singleton.mp inside
        rfl
  | neverMessageEvents =>
      simp only [Preset.rules, List.mem_cons, List.not_mem_nil, or_false] at member
      rcases member with rfl | rfl | rfl | rfl | rfl <;> cases known

theorem expand_passable {value : Json} {filter : List Entry}
    (checked : normalizeActorActivationFilter value = .ok filter) : ∀ rule ∈ expand filter,
    ∀ predicates, rule.unless = some predicates →
      ∀ predicate ∈ predicates, predicate.test.Passable := by
  intro rule member predicates known predicate inside
  obtain ⟨entry, listed, expanded⟩ := List.mem_flatMap.mp member
  cases entry with
  | preset preset =>
      exact (preset.valid rule expanded predicates known predicate inside).passable
  | rule held =>
      obtain rfl := List.mem_singleton.mp expanded
      have valid := (normalize_valid checked).2.1 _ listed
      exact ((valid.unless predicates known).2.2 predicate inside).test.passable

theorem isSome_activationFilterSkip {filter : List Entry} {source : JsString} {payload : Json}
    : (activationFilterSkip (some filter) source payload).isSome = true
      ↔ ∃ rule ∈ expand filter, rule.skips source payload = true := by
  rw [activationFilterSkip, Option.isSome_map, List.find?_isSome]
  exact Iff.rfl

/-- No skip of a rule rests on a missing field exactly where each rule that skips has no exception,
or one that is known false on a path on which no object lacks a field. A filter skips every payload
with more fields as soon as one rule skips so; for a filter of one rule that is exact. A checked
filter passes the check again as it is.
-/
theorem skip_rests_on_present_fields {value : Json} {filter : List Entry}
    (checked : normalizeActorActivationFilter value = .ok filter)
    (single : ∀ rule ∈ expand filter, rule.Single) (source : JsString) (payload : Json)
    : ((∀ payload', Extends payload payload' → ∀ rule ∈ expand filter,
            rule.skips source payload = true → rule.skips source payload' = true)
        ↔ ∀ rule ∈ expand filter, rule.skips source payload = true → rule.firm payload = true)
      ∧ ((∃ rule ∈ expand filter, rule.skips source payload = true ∧ rule.firm payload = true) →
          ∀ payload', Extends payload payload' →
            (activationFilterSkip (some filter) source payload').isSome = true)
      ∧ (∀ rule, expand filter = [rule] →
          ((∀ payload', Extends payload payload' →
              (activationFilterSkip (some filter) source payload).isSome = true →
              (activationFilterSkip (some filter) source payload').isSome = true)
            ↔ (rule.skips source payload = true → rule.firm payload = true)))
      ∧ normalizeActorActivationFilter (filterJson filter) = .ok filter
      ∧ ∀ again, normalizeActorActivationFilter (filterJson filter) = .ok again →
          ∀ source payload, activationFilterSkip (some again) source payload
            = activationFilterSkip (some filter) source payload := by
  have infirm {rule : SkipRule} (member : rule ∈ expand filter) (weak : rule.firm payload = false)
      : rule.skips source (rule.filled payload) = false :=
    not_skips_filled (single rule member) (expand_passable checked rule member) weak
  refine ⟨⟨fun stands rule member skips => ?_, fun firm payload' extended rule member skips => ?_⟩,
    fun firm payload' extended => ?_, fun rule only => ⟨fun stands skips => ?_, ?_⟩,
    normalize_json checked, fun again read source payload => ?_⟩
  · by_contra weak
    have skips' := stands (rule.filled payload) (extends_fill ..) rule member skips
    rw [infirm member (by simpa using weak)] at skips'
    cases skips'
  · exact extended.skips (single rule member) skips (firm rule member skips)
  · obtain ⟨rule, member, skips, held⟩ := firm
    exact isSome_activationFilterSkip.mpr
      ⟨rule, member, extended.skips (single rule member) skips held⟩
  · have member : rule ∈ expand filter := by
      rw [only]
      exact List.mem_singleton_self rule
    by_contra weak
    have skips' := stands (rule.filled payload) (extends_fill ..)
      (isSome_activationFilterSkip.mpr ⟨rule, member, skips⟩)
    obtain ⟨other, inside, skips'⟩ := isSome_activationFilterSkip.mp skips'
    rw [only, List.mem_singleton] at inside
    rw [inside, infirm member (by simpa using weak)] at skips'
    cases skips'
  · intro firm payload' extended skips
    obtain ⟨other, inside, skips'⟩ := isSome_activationFilterSkip.mp skips
    have same : other = rule := by rwa [only, List.mem_singleton] at inside
    rw [same] at inside skips'
    exact isSome_activationFilterSkip.mpr
      ⟨rule, inside, extended.skips (single rule inside) skips' (firm skips')⟩
  · rw [normalize_json checked] at read
    rw [Except.ok.inj read]

/-- A filter that delivers what is labelled `hold`. -/
def exceptHold : SkipRule where
  id := lit "quiet"
  source := none
  topic := some [lit "ops"]
  kind := none
  «where» := none
  «unless» := some [⟨.one (lit "labels.name"), .equals (.string (lit "hold"))⟩]

def labelled (labels : List Json) : Json :=
  .object [(lit "topic", .string (lit "ops")), (lit "labels", .array labels)]

def label (name : String) : Json :=
  .object [(lit "name", .string (lit name))]

/-- The exception is known false on every label, and none lacks its name: a label may get any
other field.
-/
theorem skip_rests_on_every_name
    : (activationFilterSkip (some [.rule exceptHold]) (lit "mesh:ops")
        (fill [([lit "labels", lit "color"], .string (lit "hold"))]
          (labelled [label "bug", label "idle"]))).isSome = true := by
  have checked : normalizeActorActivationFilter (filterJson [.rule exceptHold])
      = .ok [.rule exceptHold] := by rfl
  have single : ∀ rule ∈ expand [.rule exceptHold], rule.Single := by
    intro rule member
    obtain rfl := List.mem_singleton.mp member
    refine ⟨fun _ known => (nomatch known), fun predicates known predicate inside => ?_⟩
    obtain rfl := Option.some.inj known
    obtain rfl := List.mem_singleton.mp inside
    exact ⟨_, rfl⟩
  refine (skip_rests_on_present_fields checked single (lit "mesh:ops")
    (labelled [label "bug", label "idle"])).2.1 ?_ _ (extends_fill ..)
  exact ⟨exceptHold, List.mem_singleton_self _, by decide, by decide⟩

/-- A label without a name: its name is added, and the event that was skipped is delivered. -/
theorem skip_rests_on_missing_name
    : normalizeActorActivationFilter (filterJson [.rule exceptHold]) = .ok [.rule exceptHold]
      ∧ Extends (labelled [label "bug", .object []]) (labelled [label "bug", label "hold"])
      ∧ activationFilterSkip (some [.rule exceptHold]) (lit "mesh:ops")
          (labelled [label "bug", .object []]) = some (lit "quiet")
      ∧ activationFilterSkip (some [.rule exceptHold]) (lit "mesh:ops")
          (labelled [label "bug", label "hold"]) = none := by
  refine ⟨rfl, ?_, by decide, by decide⟩
  have labels
      : Extends (.array [label "bug", .object []]) (.array [label "bug", label "hold"]) := by
    refine .array (.cons (.same _) (.cons ?_ .nil))
    exact .object (fun _ => .null) (fun _ _ held => nomatch held) fun _ _ held => nomatch held
  refine .object (fun name => (own? name (labelled [label "bug", label "hold"])).getD .null)
    (fun name value held => ?_) fun name value held => ?_
  all_goals
    unfold own? at held
    obtain ⟨member, found, rfl⟩ := Option.map_eq_some_iff.mp held
    have named := List.find?_some found
    simp only [decide_eq_true_eq] at named
    have inside := List.mem_of_find?_eq_some found
    simp only [List.reverse_cons, List.reverse_nil, List.nil_append, List.mem_cons,
      List.cons_append, List.not_mem_nil, or_false] at inside
    rcases inside with rfl | rfl
    all_goals
      rw [← named]
  · rfl
  · rfl
  · exact labels
  · exact .same _

end PiFabric.Activation
