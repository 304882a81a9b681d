import PiFabric.Activation.Filter

/-! Fields that a payload lacks. A value that a path reaches stays reached when fields are added;
what is known false stays so only where no object on the path lacks the next field.
-/

namespace PiFabric.Activation

open JsString

mutual
/-- The second value is the first one with fields added that its objects lack, at any depth. -/
inductive Extends : Json → Json → Prop
  | same (value : Json) : Extends value value
  | array {items items' : List Json} (each : ExtendsEach items items')
    : Extends (.array items) (.array items')
  | object {members members' : List (JsString × Json)} (grown : JsString → Json)
      (kept : ∀ name value, own? name (.object members) = some value →
        own? name (.object members') = some (grown name))
      (deeper : ∀ name value, own? name (.object members) = some value →
        Extends value (grown name))
    : Extends (.object members) (.object members')

inductive ExtendsEach : List Json → List Json → Prop
  | nil : ExtendsEach [] []
  | cons {item item' : Json} {rest rest' : List Json} (first : Extends item item')
      (others : ExtendsEach rest rest')
    : ExtendsEach (item :: rest) (item' :: rest')
end

theorem ExtendsEach.forall₂ {items items' : List Json} (each : ExtendsEach items items')
    : List.Forall₂ Extends items items' := by
  induction items generalizing items' with
  | nil =>
      cases each
      exact .nil
  | cons item rest ih =>
      cases each with
      | cons first others => exact .cons first (ih others)

theorem extends_refl_list (values : List Json) : List.Forall₂ Extends values values :=
  List.forall₂_same.mpr fun value _ => .same value

/-- What is on the left of a relation between lists has something on the right. -/
theorem exists_of_forall₂ {α : Type} {relation : α → α → Prop} {left right : List α}
    (related : List.Forall₂ relation left right) {item : α} (member : item ∈ left)
    : ∃ other ∈ right, relation item other := by
  induction related with
  | nil => cases member
  | cons first _ ih =>
      rcases List.mem_cons.mp member with rfl | later
      · exact ⟨_, List.mem_cons_self, first⟩
      · obtain ⟨other, inside, same⟩ := ih later
        exact ⟨other, List.mem_cons_of_mem _ inside, same⟩

variable {value value' : Json}

/-- A property that is there stays there. -/
theorem Extends.own (extends' : Extends value value') {segment : JsString} {next : Json}
    (held : own? segment value = some next)
    : ∃ next', own? segment value' = some next' ∧ Extends next next' := by
  cases extends' with
  | same => exact ⟨next, held, .same next⟩
  | array => cases held
  | object grown kept deeper =>
      exact ⟨grown segment, kept segment next held, deeper segment next held⟩

theorem Extends.fanOut (extends' : Extends value value')
    : List.Forall₂ Extends (fanOut value) (fanOut value') := by
  cases extends' with
  | same => exact extends_refl_list _
  | array each => exact each.forall₂
  | object grown kept deeper => exact .cons (.object grown kept deeper) .nil

/-- Added fields do not turn a value into another scalar. -/
theorem Extends.strictEqual (extends' : Extends value value') (wanted : Json)
    : Json.strictEqual (some value') (some wanted)
      = Json.strictEqual (some value) (some wanted) := by
  cases extends' with
  | same => rfl
  | array => cases wanted <;> rfl
  | object => cases wanted <;> rfl

theorem Extends.passes (extends' : Extends value value') (test : Test)
    : test.passes value' = test.passes value := by
  cases test with
  | equals wanted => exact extends'.strictEqual wanted
  | among wanted =>
      show wanted.any _ = wanted.any _
      simp only [extends'.strictEqual]
  | present => rfl

def along : List JsString → Json → List Json
  | [], value => [value]
  | segment :: rest, value => (step segment value).flatMap (along rest)

theorem foldl_step (segments : List JsString) (values : List Json)
    : segments.foldl (fun values segment => values.flatMap (step segment)) values
      = values.flatMap (along segments) := by
  induction segments generalizing values with
  | nil => exact (List.flatMap_singleton' values).symm
  | cons segment rest ih =>
      rw [List.foldl_cons, ih, List.flatMap_assoc]
      rfl

theorem valuesAt_eq (payload : Json) (path : JsString)
    : valuesAt payload path = along (segments path) payload := by
  rw [valuesAt, valuesAlong, foldl_step, List.flatMap_singleton]

def lacks : List JsString → Json → Bool
  | [], _ => false
  | segment :: rest, .object members =>
      match own? segment (.object members) with
      | none => true
      | some next => (fanOut next).any (lacks rest)
  | _ :: _, _ => false

/-- Every value along a path stays one when fields are added, by induction over the segments. -/
theorem Extends.mem_along (extends' : Extends value value') {segments : List JsString}
    {found : Json} (member : found ∈ along segments value)
    : ∃ found' ∈ along segments value', Extends found found' := by
  induction segments generalizing value value' with
  | nil =>
      obtain rfl := List.mem_singleton.mp member
      exact ⟨value', List.mem_singleton_self value', extends'⟩
  | cons segment rest ih =>
      obtain ⟨middle, reached, inside⟩ := List.mem_flatMap.mp member
      unfold step at reached
      cases held : own? segment value with
      | none =>
          rw [held] at reached
          cases reached
      | some next =>
          rw [held] at reached
          obtain ⟨next', held', deeper⟩ := extends'.own held
          obtain ⟨middle', reached', further⟩ :=
            exists_of_forall₂ deeper.fanOut reached
          obtain ⟨found', inside', last⟩ := ih further inside
          refine ⟨found', List.mem_flatMap.mpr ⟨middle', ?_, inside'⟩, last⟩
          unfold step
          rwa [held']

/-- Related lists of values have related values along a path, where each value does. -/
theorem forall₂_flatMap {values values' : List Json} {next : Json → List Json}
    (related : List.Forall₂ Extends values values')
    (each : ∀ value ∈ values, ∀ value', Extends value value' →
      List.Forall₂ Extends (next value) (next value'))
    : List.Forall₂ Extends (values.flatMap next) (values'.flatMap next) := by
  induction related with
  | nil => exact .nil
  | cons first _ ih =>
      rw [List.flatMap_cons, List.flatMap_cons]
      refine List.rel_append (each _ List.mem_cons_self _ first) ?_
      exact ih fun value member => each value (List.mem_cons_of_mem _ member)

/-- Where no object lacks a segment the values of a path stay the same ones, by induction over the
segments.
-/
theorem Extends.along_whole (extends' : Extends value value') {segments : List JsString}
    (whole : lacks segments value = false)
    : List.Forall₂ Extends (along segments value) (along segments value') := by
  induction segments generalizing value value' with
  | nil => exact .cons extends' .nil
  | cons segment rest ih =>
      have deeper {values values' : List Json} (related : List.Forall₂ Extends values values')
          (none : values.any (lacks rest) = false)
          : List.Forall₂ Extends (values.flatMap (along rest)) (values'.flatMap (along rest)) := by
        refine forall₂_flatMap related fun item member item' extended => ih extended ?_
        exact Bool.eq_false_iff.mpr (List.any_eq_false.mp none item member)
      cases extends' with
      | same value => exact extends_refl_list _
      | array => exact .nil
      | object grown kept further =>
          rename_i members members'
          unfold lacks at whole
          cases held : own? segment (.object members) with
          | none =>
              rw [held] at whole
              cases whole
          | some next =>
              rw [held] at whole
              have next' := kept segment next held
              simp only [along, step, held, next']
              exact deeper (further segment next held).fanOut whole

def Predicate.Single (predicate : Predicate) (path : JsString) : Prop :=
  predicate.path.list = [path]

variable {predicate : Predicate} {path : JsString}

theorem predicateResult_single (single : predicate.Single path) (payload : Json)
    : predicateResult predicate payload
      = if (along (segments path) payload).isEmpty then none
        else some ((along (segments path) payload).any predicate.test.passes) := by
  have values : firstValues payload predicate.path.list = along (segments path) payload := by
    rw [single, firstValues, firstValues, valuesAt_eq]
    split
    · next empty => exact (List.isEmpty_iff.mp empty).symm
    · rfl
  rw [predicateResult, values]

variable {payload payload' : Json}

theorem Extends.known_true (extends' : Extends payload payload') (single : predicate.Single path)
    (known : predicateResult predicate payload = some true)
    : predicateResult predicate payload' = some true := by
  rw [predicateResult_single single] at known ⊢
  split at known
  · cases known
  · obtain ⟨found, member, passes⟩ := List.any_eq_true.mp (Option.some.inj known)
    obtain ⟨found', member', further⟩ := extends'.mem_along member
    rw [if_neg fun empty => by
      rw [List.isEmpty_iff] at empty
      rw [empty] at member'
      cases member']
    refine congrArg some (List.any_eq_true.mpr ⟨found', member', ?_⟩)
    rw [further.passes, passes]

theorem any_passes {values values' : List Json} (related : List.Forall₂ Extends values values')
    (test : Test) : values'.any test.passes = values.any test.passes := by
  induction related with
  | nil => rfl
  | cons first _ ih => rw [List.any_cons, List.any_cons, first.passes, ih]

/-- The verdict stays where no object on the path lacks a field. -/
theorem Extends.verdict (extends' : Extends payload payload') (single : predicate.Single path)
    (whole : lacks (segments path) payload = false)
    : predicateResult predicate payload' = predicateResult predicate payload := by
  have related := extends'.along_whole whole
  have empty
      : (along (segments path) payload').isEmpty = (along (segments path) payload).isEmpty := by
    rw [Bool.eq_iff_iff, List.isEmpty_iff_length_eq_zero, List.isEmpty_iff_length_eq_zero,
      related.length_eq]
  have passes : (along (segments path) payload').any predicate.test.passes
      = (along (segments path) payload).any predicate.test.passes := any_passes related _
  rw [predicateResult_single single, predicateResult_single single, empty, passes]

def SkipRule.Single (rule : SkipRule) : Prop :=
  (∀ predicates, rule.where = some predicates →
    ∀ predicate ∈ predicates, ∃ path, predicate.Single path)
  ∧ ∀ predicates, rule.unless = some predicates →
    ∀ predicate ∈ predicates, ∃ path, predicate.Single path

def SkipRule.skips (rule : SkipRule) (source : JsString) (payload : Json) : Bool :=
  concerns rule source payload && ruleSkips rule payload

def Predicate.firm (predicate : Predicate) (payload : Json) : Bool :=
  predicateResult predicate payload = some false
    && predicate.path.list.all fun path => !lacks (segments path) payload

/-- Whether the exception of a rule is ruled out, without a field being missing. -/
def SkipRule.firm (rule : SkipRule) (payload : Json) : Bool :=
  match rule.unless with
  | some predicates => predicates.any fun predicate => predicate.firm payload
  | none => true

theorem field?_eq_own? (name : String) (value : Json)
    : Json.field? name value = own? (lit name) value := by
  cases value with
  | object members =>
      simp only [Json.field?, own?, beq_eq_decide]
  | _ => rfl

variable {source : JsString}

/-- The topic or kind of an item, where it has one. -/
theorem Extends.matchesPattern (extends' : Extends payload payload') {name : String}
    {list : Option (List JsString)}
    (held : matchesPattern (meshField name source payload) list = true)
    : Activation.matchesPattern (meshField name source payload') list = true := by
  cases list with
  | none => rfl
  | some list =>
      unfold meshField at held ⊢
      split
      · next mesh =>
          rw [if_pos mesh] at held
          cases found : Json.field? name payload with
          | none =>
              rw [found] at held
              cases held
          | some value =>
              rw [field?_eq_own?] at found
              obtain ⟨value', found', deeper⟩ := extends'.own found
              rw [field?_eq_own?] at held ⊢
              rw [found] at held
              rw [found']
              cases deeper with
              | same => exact held
              | array => cases held
              | object => cases held
      · next other =>
          rw [if_neg other] at held
          cases held

/-- What a rule is about it stays about. -/
theorem Extends.concerns (extends' : Extends payload payload') {rule : SkipRule}
    (held : concerns rule source payload = true)
    : Activation.concerns rule source payload' = true := by
  simp only [Activation.concerns, Bool.and_eq_true] at held ⊢
  exact ⟨⟨held.1.1, extends'.matchesPattern held.1.2⟩, extends'.matchesPattern held.2⟩

/-- A rule that skips firmly skips whatever fields are added. -/
theorem Extends.skips (extends' : Extends payload payload') {rule : SkipRule} (single : rule.Single)
    (skips : rule.skips source payload = true) (firm : rule.firm payload = true)
    : rule.skips source payload' = true := by
  simp only [SkipRule.skips, Bool.and_eq_true] at skips ⊢
  refine ⟨extends'.concerns skips.1, ?_⟩
  have rule' := skips.2
  simp only [ruleSkips, Bool.and_eq_true] at rule' ⊢
  refine ⟨?_, ?_⟩
  · cases known : rule.where with
    | none => rfl
    | some predicates =>
        have all := rule'.1
        rw [known] at all
        refine List.all_eq_true.mpr fun predicate member => decide_eq_true ?_
        obtain ⟨path, one⟩ := single.1 predicates known predicate member
        exact extends'.known_true one (of_decide_eq_true (List.all_eq_true.mp all predicate member))
  · cases known : rule.unless with
    | none => rfl
    | some predicates =>
        rw [SkipRule.firm, known] at firm
        obtain ⟨predicate, member, held⟩ := List.any_eq_true.mp firm
        obtain ⟨path, one⟩ := single.2 predicates known predicate member
        simp only [Predicate.firm, Bool.and_eq_true, decide_eq_true_eq] at held
        have whole : lacks (segments path) payload = false := by
          have all := held.2
          rw [one] at all
          simpa using all
        refine List.any_eq_true.mpr ⟨predicate, member, decide_eq_true ?_⟩
        rw [extends'.verdict one whole, held.1]

end PiFabric.Activation
