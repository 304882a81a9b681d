import PiFabric.Effects.Policy

/-! When the check finds two lists of effects independent, and what its conflicts name. -/

namespace PiFabric.Effects

open JsString

/-- The effect may not be reordered with every other one on its resources. -/
def EffectInfo.ordered (effect : EffectInfo) : Bool :=
  decide (effect.ordering ≠ .commutative)

/-- Effects that may be reordered: one does nothing, both commute, or what they name is known
and disjoint.
-/
def Independent (left right : EffectInfo) : Prop :=
  left.kind = .none ∨ right.kind = .none
    ∨ (left.ordered = false ∧ right.ordered = false)
    ∨ (anyResource ∉ left.resources ∧ anyResource ∉ right.resources
      ∧ ∀ name ∈ left.resources, name ∉ right.resources)

/-- A footprint is unknown, or names resources. -/
def EffectInfo.Normalized (effect : EffectInfo) : Prop :=
  effect.resources = [anyResource]
    ∨ (effect.resources ≠ [] ∧ anyResource ∉ effect.resources ∧ [] ∉ effect.resources)

theorem mem_proposal {declared seen : List (Option JsString)}
    (room : (proposal seen declared).length ≤ 64) (value : Option JsString)
    : value ∈ proposal seen declared ↔ value ∈ seen ∨ value ∈ declared := by
  induction declared generalizing seen with
  | nil => simp [proposal]
  | cons resource rest ih =>
      have members (other : Option JsString)
          : (other ∈ if resource ∈ seen then seen else seen ++ [resource])
            ↔ other ∈ seen ∨ other = resource := by
        by_cases known : resource ∈ seen
        · rw [if_pos known]
          exact ⟨.inl, Or.rec id fun same => same ▸ known⟩
        · rw [if_neg known, List.mem_append, List.mem_singleton]
      simp only [proposal] at room ⊢
      by_cases full : 64 < (if resource ∈ seen then seen else seen ++ [resource]).length
      · rw [if_pos full] at room
        omega
      · rw [if_neg full] at room ⊢
        rw [ih room, members, List.mem_cons, or_assoc]

/-- The declared values all name resources. -/
def WellNamed (declared : List (Option JsString)) : Prop :=
  declared ≠ [] ∧ ∀ value ∈ declared, ∃ name, value = some name ∧ identityValid name = true

theorem identityValid_iff {name : JsString}
    : identityValid name = true ↔ name ≠ [] ∧ name ≠ anyResource := by
  simp [identityValid]

theorem nameValid_iff {name : JsString}
    : nameValid name = true ↔ name ≠ [] ∧ name.length ≤ 256 ∧ name ≠ anyResource := by
  simp [nameValid]

theorem resourceSource_eq {names : List JsString} (some_ : names ≠ [])
    (valid : ∀ name ∈ names, identityValid name = true)
    : resourceSource names = .exact names := by
  simpa [resourceSource, select, some_] using valid

theorem boundedEffectResources_cases (resources : Option (List (Option JsString)))
    : boundedEffectResources resources = [anyResource]
      ∨ ((boundedEffectResources resources ≠ []
          ∧ ∀ name ∈ boundedEffectResources resources, nameValid name = true)
        ∧ WellNamed (resources.getD [])
        ∧ ∀ name, name ∈ boundedEffectResources resources ↔ some name ∈ resources.getD []) := by
  obtain ⟨declared, same⟩ : ∃ declared, resources.getD [] = declared := ⟨_, rfl⟩
  simp only [boundedEffectResources, same]
  by_cases known : WellNamed declared
  · obtain ⟨some_, named⟩ := known
    have source : resourceSource (encodeResourceNames declared)
        = .exact (encodeResourceNames declared) := by
      refine resourceSource_eq (by simpa [encodeResourceNames] using some_) fun name member => ?_
      obtain ⟨value, declares, rfl⟩ := List.mem_map.mp member
      obtain ⟨name, rfl, valid⟩ := named value declares
      exact valid
    by_cases good : accepted (encodeResourceNames declared)
        (encodeResourceNames (proposal [] declared)) = true
    · right
      simp only [source, resourceNormalize, select, good, if_true, decodeResourceScope]
      simp only [accepted, quality, Bool.and_eq_true, Bool.not_eq_true', decide_eq_true_eq,
        List.all_eq_true, List.isEmpty_eq_false_iff] at good
      obtain ⟨⟨filled, bounded, valid⟩, -⟩ := good
      refine ⟨⟨filled, valid⟩, ⟨some_, named⟩, fun name => ?_⟩
      have members := @mem_proposal declared [] (by simpa [encodeResourceNames] using bounded)
      constructor
      · intro member
        obtain ⟨value, proposed, rfl⟩ := List.mem_map.mp member
        have declares : value ∈ declared := by simpa using (members value).mp proposed
        obtain ⟨name, rfl, -⟩ := named value declares
        exact declares
      · intro declares
        exact List.mem_map.mpr ⟨some name, (members _).mpr (.inr declares), rfl⟩
    · left
      simp only [source, resourceNormalize, select, if_neg good, decodeResourceScope]
  · left
    have source : resourceSource (encodeResourceNames declared) = .unknown := by
      rw [resourceSource, select, if_neg]
      simp only [Bool.and_eq_true, Bool.not_eq_true', List.isEmpty_eq_false_iff,
        List.all_eq_true]
      rintro ⟨some_, valid⟩
      refine known ⟨by simpa [encodeResourceNames] using some_, fun value declares => ?_⟩
      have good := valid _ (List.mem_map_of_mem declares)
      cases value with
      | none => exact absurd rfl (identityValid_iff.mp good).1
      | some name => exact ⟨name, rfl, good⟩
    rw [source]
    rfl

theorem normalized_registrationEffect (registration : EffectOptions)
    : (registrationEffect registration).Normalized := by
  obtain unknown | ⟨⟨some_, valid⟩, -, -⟩ :=
    boundedEffectResources_cases registration.resources
  · exact .inl unknown
  · exact .inr ⟨some_, fun member => (nameValid_iff.mp (valid _ member)).2.2 rfl,
      fun member => (nameValid_iff.mp (valid _ member)).1 rfl⟩

theorem EffectInfo.Normalized.source {effect : EffectInfo} (h : effect.Normalized)
    : resourceSource effect.resources
      = if anyResource ∈ effect.resources then .unknown else .exact effect.resources := by
  obtain unknown | ⟨some_, known, named⟩ := h
  · rw [unknown, if_pos (List.mem_singleton_self _)]
    rfl
  · rw [if_neg known]
    refine resourceSource_eq some_ fun name member => identityValid_iff.mpr ⟨?_, ?_⟩
    · rintro rfl
      exact named member
    · rintro rfl
      exact known member

def encodeResourceEffect (effect : EffectInfo) : ResourceEffect :=
  if effect.kind = .none then .quiet
  else .effect effect.ordered (resourceSource effect.resources)

theorem pairConflict_iff {left right : EffectInfo} (hl : left.Normalized)
    (hr : right.Normalized)
    : pairConflict (encodeResourceEffect left) (encodeResourceEffect right) = true
      ↔ ¬Independent left right := by
  by_cases quiet : left.kind = .none
  · simp [encodeResourceEffect, Independent, quiet, pairConflict]
  by_cases still : right.kind = .none
  · simp [encodeResourceEffect, Independent, quiet, still, pairConflict]
  simp only [encodeResourceEffect, Independent, quiet, still, if_false, pairConflict,
    resourceConflict, false_or, hl.source, hr.source]
  by_cases unknown : anyResource ∈ left.resources
  · simp only [if_pos unknown, overlap]
    grind
  · by_cases unknown' : anyResource ∈ right.resources
    · simp only [if_neg unknown, if_pos unknown', overlap]
      grind
    · simp only [if_neg unknown, if_neg unknown', overlap]
      grind

theorem resourceGroups_iff {left right : List EffectInfo}
    (hl : ∀ effect ∈ left, effect.Normalized) (hr : ∀ effect ∈ right, effect.Normalized)
    : resourceGroups (encodeResourceEffects left) (encodeResourceEffects right) = true
      ↔ ∃ one ∈ left, ∃ other ∈ right, ¬Independent one other := by
  have encoded (effects : List EffectInfo)
      : encodeResourceEffects effects = effects.map encodeResourceEffect := rfl
  simp only [resourceGroups, encoded, List.any_map, List.any_eq_true, Function.comp_apply]
  constructor
  · rintro ⟨one, first, other, second, h⟩
    exact ⟨one, first, other, second, (pairConflict_iff (hl _ first) (hr _ second)).mp h⟩
  · rintro ⟨one, first, other, second, h⟩
    exact ⟨one, first, other, second, (pairConflict_iff (hl _ first) (hr _ second)).mpr h⟩

/-- What a summary tells of the resources that some effect names, ordered or not. -/
structure Told (summary : EffectSummary) (named : JsString → Bool → Prop) : Prop where
  unknown : summary.hasUnknown = true ↔ ∃ ordered, named anyResource ordered
  unknownOrdered : summary.hasUnknownNoncommutative = true ↔ named anyResource true
  known : ∀ name, summary.resourceNoncommutative.has name = true
    ↔ name ≠ anyResource ∧ ∃ ordered, named name ordered
  knownOrdered : ∀ name, (summary.resourceNoncommutative.get? name).getD false = true
    ↔ name ≠ anyResource ∧ named name true

variable {summary : EffectSummary} {named : JsString → Bool → Prop}

theorem Told.congr {others : JsString → Bool → Prop} (told : Told summary named)
    (same : ∀ name ordered, named name ordered ↔ others name ordered)
    : Told summary others := by
  have equal : named = others := by
    funext name ordered
    exact propext (same name ordered)
  exact equal ▸ told

/-- One named resource, whether it is the unknown one or not. -/
theorem Told.resource (told : Told summary named) (noncommutative : Bool) (resource : JsString)
    : Told (summarizeResource noncommutative summary resource) fun name ordered =>
        named name ordered ∨ (name = resource ∧ ordered = noncommutative) := by
  obtain ⟨unknown, unknownOrdered, known, knownOrdered⟩ := told
  by_cases any_ : resource = anyResource
  · subst any_
    simp only [summarizeResource, if_true]
    refine ⟨by grind, by grind, fun name => ?_, fun name => ?_⟩
    · rw [known]
      grind
    · rw [knownOrdered]
      grind
  · simp only [summarizeResource, if_neg any_]
    refine ⟨by grind, by grind, fun name => ?_, fun name => ?_⟩
    · have before := known name
      simp only [JsMap.has_iff, JsMap.keys_set] at before ⊢
      grind
    · have before := knownOrdered name
      rw [JsMap.get?_set]
      grind

theorem Told.resources (told : Told summary named) (noncommutative : Bool)
    (resources : List JsString)
    : Told (resources.foldl (summarizeResource noncommutative) summary) fun name ordered =>
        named name ordered ∨ (name ∈ resources ∧ ordered = noncommutative) := by
  induction resources generalizing summary named with
  | nil => exact told.congr (by simp)
  | cons resource rest ih =>
      refine (ih (told.resource noncommutative resource)).congr fun name ordered => ?_
      rw [List.mem_cons, or_assoc, or_and_right]

def Names (effects : List EffectInfo) (name : JsString) (ordered : Bool) : Prop :=
  ∃ effect ∈ effects, effect.kind ≠ .none ∧ name ∈ effect.resources ∧ effect.ordered = ordered

theorem Told.effects (told : Told summary named) (effects : List EffectInfo)
    : Told (effects.foldl summarizeEffect summary) fun name ordered =>
        named name ordered ∨ Names effects name ordered := by
  induction effects generalizing summary named with
  | nil => exact told.congr (by simp [Names])
  | cons effect rest ih =>
      by_cases quiet : effect.kind = .none
      · have same : summarizeEffect summary effect = summary := if_pos quiet
        rw [List.foldl_cons, same]
        exact (ih told).congr fun name ordered => by simp [Names, quiet]
      · rw [List.foldl_cons, summarizeEffect, if_neg quiet]
        have marked : Told { summary with
            hasEffects := true
            hasNoncommutative := summary.hasNoncommutative || effect.ordered } named :=
          ⟨told.unknown, told.unknownOrdered, told.known, told.knownOrdered⟩
        refine (ih (marked.resources effect.ordered effect.resources)).congr fun name ordered => ?_
        simp only [Names, List.mem_cons, exists_eq_or_imp, or_assoc]
        have turn : (ordered = effect.ordered) ↔ (effect.ordered = ordered) := eq_comm
        rw [turn]
        simp [quiet]

theorem told_summarizeEffects (effects : List EffectInfo)
    : Told (summarizeEffects effects) (Names effects) := by
  have start : Told ⟨encodeResourceEffects effects, false, false, false, false, .empty⟩
      fun _ _ => False :=
    ⟨by simp, by simp, by simp [JsMap.has_iff, JsMap.keys, JsMap.empty], by simp⟩
  exact (start.effects effects).congr (by simp)

theorem foldl_summarizeResource_kept (noncommutative : Bool) (resources : List JsString)
    (summary : EffectSummary)
    : (resources.foldl (summarizeResource noncommutative) summary).declarations
        = summary.declarations
      ∧ (resources.foldl (summarizeResource noncommutative) summary).hasNoncommutative
        = summary.hasNoncommutative := by
  induction resources generalizing summary with
  | nil => exact ⟨rfl, rfl⟩
  | cons resource rest ih =>
      obtain ⟨declarations, noncommutative_⟩ := ih (summarizeResource noncommutative summary resource)
      rw [List.foldl_cons, declarations, noncommutative_, summarizeResource]
      split <;> exact ⟨rfl, rfl⟩

theorem foldl_summarizeEffect_kept (effects : List EffectInfo) (summary : EffectSummary)
    : (effects.foldl summarizeEffect summary).declarations = summary.declarations
      ∧ ((effects.foldl summarizeEffect summary).hasNoncommutative = true
        ↔ summary.hasNoncommutative = true
          ∨ ∃ effect ∈ effects, effect.kind ≠ .none ∧ effect.ordered = true) := by
  induction effects generalizing summary with
  | nil => simp
  | cons effect rest ih =>
      obtain ⟨declarations, noncommutative⟩ := ih (summarizeEffect summary effect)
      rw [List.foldl_cons, declarations, noncommutative, summarizeEffect]
      by_cases quiet : effect.kind = .none
      · rw [if_pos quiet]
        simp [quiet]
      · rw [if_neg quiet]
        simp only [foldl_summarizeResource_kept, Bool.or_eq_true, List.mem_cons,
          exists_eq_or_imp, or_assoc, true_and]
        simp [quiet, EffectInfo.ordered]

@[simp] theorem declarations_summarizeEffects (effects : List EffectInfo)
    : (summarizeEffects effects).declarations = encodeResourceEffects effects :=
  (foldl_summarizeEffect_kept effects _).1

theorem hasNoncommutative_iff (effects : List EffectInfo)
    : (summarizeEffects effects).hasNoncommutative = true
      ↔ ∃ effect ∈ effects, effect.kind ≠ .none ∧ effect.ordered = true := by
  rw [summarizeEffects, (foldl_summarizeEffect_kept effects _).2]
  simp

/-- Some effect of the left list may not be reordered with some effect of the right one, and
the two satisfy a condition.
-/
def Clash (left right : List EffectInfo) (condition : EffectInfo → EffectInfo → Prop) : Prop :=
  ∃ one ∈ left, ∃ other ∈ right, ¬Independent one other ∧ condition one other

theorem not_independent_iff {left right : EffectInfo}
    : ¬Independent left right ↔ left.kind ≠ .none ∧ right.kind ≠ .none
      ∧ (left.ordered = true ∨ right.ordered = true)
      ∧ (anyResource ∈ left.resources ∨ anyResource ∈ right.resources
        ∨ ∃ name ∈ left.resources, name ∈ right.resources) := by
  simp only [Independent]
  grind

section
variable {left right : List EffectInfo}

theorem unknownConflict_iff (clash : Clash left right fun _ _ => True)
    : unknownConflict (summarizeEffects left).hasUnknown
        (summarizeEffects left).hasUnknownNoncommutative (summarizeEffects left).hasNoncommutative
        (summarizeEffects right).hasUnknown (summarizeEffects right).hasUnknownNoncommutative
        (summarizeEffects right).hasNoncommutative = true
      ↔ Clash left right fun one other =>
        anyResource ∈ one.resources ∨ anyResource ∈ other.resources := by
  have toldLeft := told_summarizeEffects left
  have toldRight := told_summarizeEffects right
  simp only [unknownConflict, Bool.or_eq_true, Bool.and_eq_true, toldLeft.unknown,
    toldLeft.unknownOrdered, toldRight.unknown, toldRight.unknownOrdered, hasNoncommutative_iff]
  constructor
  · obtain ⟨one, first, other, second, apart, -⟩ := clash
    obtain ⟨acts, acts', -, -⟩ := not_independent_iff.mp apart
    rintro (⟨⟨_, effect, member, active, unknown, -⟩,
        ⟨effect', member', active', unknown', ordered⟩ | ⟨effect', member', active', ordered⟩⟩
      | ⟨⟨_, effect, member, active, unknown, -⟩,
        ⟨effect', member', active', unknown', ordered⟩ | ⟨effect', member', active', ordered⟩⟩)
    · exact ⟨effect', member', other, second, not_independent_iff.mpr
        ⟨active', acts', .inl ordered, .inl unknown'⟩, .inl unknown'⟩
    · exact ⟨effect, member, effect', member', not_independent_iff.mpr
        ⟨active, active', .inr ordered, .inl unknown⟩, .inl unknown⟩
    · exact ⟨one, first, effect', member', not_independent_iff.mpr
        ⟨acts, active', .inr ordered, .inr (.inl unknown')⟩, .inr unknown'⟩
    · exact ⟨effect', member', effect, member, not_independent_iff.mpr
        ⟨active', active, .inl ordered, .inr (.inl unknown)⟩, .inr unknown⟩
  · rintro ⟨one, first, other, second, apart, unknown | unknown⟩
    · obtain ⟨acts, acts', ordered | ordered, -⟩ := not_independent_iff.mp apart
      · exact .inl ⟨⟨_, one, first, acts, unknown, rfl⟩, .inl ⟨one, first, acts, unknown, ordered⟩⟩
      · exact .inl ⟨⟨_, one, first, acts, unknown, rfl⟩, .inr ⟨other, second, acts', ordered⟩⟩
    · obtain ⟨acts, acts', ordered | ordered, -⟩ := not_independent_iff.mp apart
      · exact .inr ⟨⟨_, other, second, acts', unknown, rfl⟩, .inr ⟨one, first, acts, ordered⟩⟩
      · exact .inr ⟨⟨_, other, second, acts', unknown, rfl⟩,
          .inl ⟨other, second, acts', unknown, ordered⟩⟩

/-- The resources of a conflict are those that two effects share which may not be reordered. -/
theorem mem_sharedResources {name : JsString}
    : name ∈ sharedResources (summarizeEffects left) (summarizeEffects right)
      ↔ name ≠ anyResource ∧ Clash left right fun one other =>
        name ∈ one.resources ∧ name ∈ other.resources := by
  have toldLeft := told_summarizeEffects left
  have toldRight := told_summarizeEffects right
  simp only [sharedResources, (perm_sorted _).mem_iff, List.mem_filter, knownConflict,
    Bool.and_eq_true, Bool.or_eq_true, ← JsMap.has_iff, toldLeft.known, toldRight.known,
    toldLeft.knownOrdered, toldRight.knownOrdered]
  constructor
  · rintro ⟨⟨known, _, effect, member, active, names, -⟩,
      ⟨-, _, effect', member', active', names', -⟩, ordered⟩
    refine ⟨known, ?_⟩
    rcases ordered with ⟨-, first, inside, acts, names, ordered⟩
      | ⟨-, second, inside, acts, names', ordered⟩
    · exact ⟨first, inside, effect', member', not_independent_iff.mpr
        ⟨acts, active', .inl ordered, .inr (.inr ⟨name, names, names'⟩)⟩, names, names'⟩
    · exact ⟨effect, member, second, inside, not_independent_iff.mpr
        ⟨active, acts, .inr ordered, .inr (.inr ⟨name, names, names'⟩)⟩, names, names'⟩
  · rintro ⟨known, one, first, other, second, apart, names, names'⟩
    obtain ⟨acts, acts', ordered, -⟩ := not_independent_iff.mp apart
    exact ⟨⟨known, _, one, first, acts, names, rfl⟩, ⟨known, _, other, second, acts', names', rfl⟩,
      ordered.imp (fun ordered => ⟨known, one, first, acts, names, ordered⟩)
        fun ordered => ⟨known, other, second, acts', names', ordered⟩⟩

/-- Where two effects clash, one of the two explanations finds them: the last resort of the check
is not reached.
-/
theorem explained_of_clash (clash : Clash left right fun _ _ => True)
    : (Clash left right fun one other =>
        anyResource ∈ one.resources ∨ anyResource ∈ other.resources)
      ∨ sharedResources (summarizeEffects left) (summarizeEffects right) ≠ [] := by
  obtain ⟨one, first, other, second, apart, -⟩ := clash
  obtain ⟨-, -, -, unknown | unknown | ⟨name, names, names'⟩⟩ := not_independent_iff.mp apart
  · exact .inl ⟨one, first, other, second, apart, .inl unknown⟩
  · exact .inl ⟨one, first, other, second, apart, .inr unknown⟩
  · by_cases known : name = anyResource
    · exact .inl ⟨one, first, other, second, apart, .inl (known ▸ names)⟩
    · have shared := mem_sharedResources.mpr ⟨known, one, first, other, second, apart, names, names'⟩
      exact .inr (List.ne_nil_of_mem shared)

theorem nodup_sharedResources (one other : EffectSummary) : (sharedResources one other).Nodup :=
  (perm_sorted _).nodup_iff.mpr (one.resourceNoncommutative.distinct.filter _)

theorem eq_sharedResources_iff {names : List JsString}
    : names = sharedResources (summarizeEffects left) (summarizeEffects right)
      ↔ names = sorted names ∧ names.Nodup
        ∧ ∀ name, name ∈ names ↔ name ≠ anyResource ∧ Clash left right fun one other =>
          name ∈ one.resources ∧ name ∈ other.resources := by
  constructor
  · rintro rfl
    exact ⟨sorted_congr (perm_sorted _).symm, nodup_sharedResources _ _,
      fun _ => mem_sharedResources⟩
  · rintro ⟨ordered, distinct, members⟩
    have same := (List.perm_ext_iff_of_nodup distinct (nodup_sharedResources _ _)).mpr
      fun name => (members name).trans mem_sharedResources.symm
    rw [ordered, sorted_congr same]
    exact sorted_congr (perm_sorted _)

variable (hl : ∀ effect ∈ left, effect.Normalized) (hr : ∀ effect ∈ right, effect.Normalized)
include hl hr

/-- The conflicts of the check, without its last resort. -/
theorem effectConflictsBetween_eq (names : List JsString) (reason : ConflictReason)
    : (names, reason) ∈ effectConflictsBetween (summarizeEffects left) (summarizeEffects right)
      ↔ match reason with
        | .unknownResource => names = [anyResource] ∧ Clash left right fun one other =>
            anyResource ∈ one.resources ∨ anyResource ∈ other.resources
        | .sharedResource => names ≠ []
            ∧ names = sharedResources (summarizeEffects left) (summarizeEffects right) := by
  by_cases clash : Clash left right fun _ _ => True
  · have grouped : resourceGroups (encodeResourceEffects left) (encodeResourceEffects right)
        = true := by
      obtain ⟨one, first, other, second, apart, -⟩ := clash
      exact (resourceGroups_iff hl hr).mpr ⟨one, first, other, second, apart⟩
    have explained := explained_of_clash clash
    have told := unknownConflict_iff clash
    rw [← told] at explained
    simp only [effectConflictsBetween, declarations_summarizeEffects, grouped, if_true, ← told]
    clear told grouped
    generalize unknownConflict _ _ _ _ _ _ = unknown at *
    generalize sharedResources (summarizeEffects left) (summarizeEffects right) = shared at *
    cases unknown <;> cases shared <;> cases reason <;> simp_all
  · have ungrouped : resourceGroups (encodeResourceEffects left) (encodeResourceEffects right)
        ≠ true := by
      intro grouped
      obtain ⟨one, first, other, second, apart⟩ := (resourceGroups_iff hl hr).mp grouped
      exact clash ⟨one, first, other, second, apart, trivial⟩
    have apart {condition : EffectInfo → EffectInfo → Prop}
        : ¬Clash left right condition := by
      rintro ⟨one, first, other, second, apart, -⟩
      exact clash ⟨one, first, other, second, apart, trivial⟩
    rw [effectConflictsBetween, declarations_summarizeEffects, declarations_summarizeEffects,
      if_neg ungrouped]
    cases reason with
    | unknownResource => simp [apart]
    | sharedResource =>
        simp only [List.not_mem_nil, false_iff, not_and]
        rintro some_ rfl
        obtain ⟨name, member⟩ := List.exists_mem_of_ne_nil _ some_
        exact apart (mem_sharedResources.mp member).2

theorem effectConflictsBetween_nil_iff
    : effectConflictsBetween (summarizeEffects left) (summarizeEffects right) = []
      ↔ ∀ one ∈ left, ∀ other ∈ right, Independent one other := by
  constructor
  · intro none_ one member other inside
    by_contra apart
    rcases explained_of_clash ⟨one, member, other, inside, apart, trivial⟩ with clash | shared
    · exact List.ne_nil_of_mem
        ((effectConflictsBetween_eq hl hr _ .unknownResource).mpr ⟨rfl, clash⟩) none_
    · exact List.ne_nil_of_mem
        ((effectConflictsBetween_eq hl hr _ .sharedResource).mpr ⟨shared, rfl⟩) none_
  · intro all
    refine if_neg fun grouped => ?_
    rw [declarations_summarizeEffects, declarations_summarizeEffects] at grouped
    obtain ⟨one, member, other, inside, apart⟩ := (resourceGroups_iff hl hr).mp grouped
    exact apart (all one member other inside)

end

theorem normalized_registered (registrations : List EffectOptions)
    : ∀ effect ∈ registrations.map registrationEffect, effect.Normalized :=
  List.forall_mem_map.mpr fun registration _ => normalized_registrationEffect registration

/-- The conflicts of two lists of registered effects: there are none exactly when every effect
of one may be reordered with every effect of the other, and otherwise they name exactly why.
-/
theorem effectConflicts_exact (left right : List EffectOptions)
    : let one := left.map registrationEffect
      let other := right.map registrationEffect
      let conflicts := effectConflictsBetween (summarizeEffects one) (summarizeEffects other)
      (conflicts = [] ↔ ∀ effect ∈ one, ∀ peer ∈ other, Independent effect peer)
        ∧ (∀ names, (names, .unknownResource) ∈ conflicts
          ↔ names = [anyResource] ∧ Clash one other fun effect peer =>
            anyResource ∈ effect.resources ∨ anyResource ∈ peer.resources)
        ∧ ∀ names, (names, .sharedResource) ∈ conflicts
          ↔ names ≠ [] ∧ names = sorted names ∧ names.Nodup
            ∧ ∀ name, name ∈ names ↔ name ≠ anyResource ∧ Clash one other fun effect peer =>
              name ∈ effect.resources ∧ name ∈ peer.resources := by
  have hl := normalized_registered left
  have hr := normalized_registered right
  have listed := effectConflictsBetween_eq hl hr
  exact ⟨effectConflictsBetween_nil_iff hl hr, fun names => listed names .unknownResource,
    fun names => (listed names .sharedResource).trans
      (and_congr_right fun _ => eq_sharedResources_iff)⟩

end PiFabric.Effects
