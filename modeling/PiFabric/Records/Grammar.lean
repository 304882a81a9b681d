import PiFabric.Foundation.Outcome
import PiFabric.Records.Kinds

/-! The record grammar: what `validateAppend` accepts, and the names it should not. A field is
looked up by its name in a plain object, so a name that every object inherits finds something that
is no spec.
-/

namespace PiFabric.Records.Kinds

open JsString JsValue Outcome

def Stage (item : JsValue) : Prop :=
  ∃ members, item = .object members ∧ (∃ stage, get members (lit "stage") = .string stage)
    ∧ (∃ time, get members (lit "at") = .string time)
    ∧ ∀ member ∈ members, member.1 = lit "stage" ∨ member.1 = lit "at"

def Fits (spec : FieldSpec) (value : JsValue) : Prop :=
  match spec.type with
  | .string => ∃ text, value = .string text ∧ (∀ values, spec.values = some values → text ∈ values)
      ∧ ∀ pattern, spec.pattern = some pattern → pattern.test text = true
  | .strings => ∃ items, value = .array items ∧ ∀ item ∈ items, ∃ text, item = .string text
  | .number => ∃ number, value = .number number
  | .boolean => ∃ flag, value = .bool flag
  | .uuid => ∃ text, value = .string text ∧ isUuid text = true
  | .eta => (∃ text, value = .string text)
      ∨ ∃ items, value = .array items ∧ ∀ item ∈ items, Stage item

def Listed (kind : RecordKind) (options : AppendOptions) (field : JsString × JsValue) : Prop :=
  if isImport kind field.1 then
    options.importer = true ∧ ∃ text, field.2 = .string text ∧ trim text ≠ []
  else ∃ spec, (kindFields kind).lookup field.1 = some spec ∧ Fits spec field.2

/-- A name that a record of the kind may have. -/
def InTable (kind : RecordKind) (options : AppendOptions) (name : JsString) : Prop :=
  name ∈ (kindFields kind).map Prod.fst ∨ options.importer = true ∧ name ∈ importFields

/-- An append is accepted only by the grammar, and no name outside the table is. -/
structure Grammar (input : JsValue) (options : AppendOptions) : Prop where
  fields : ∀ args, validateAppend input options = .ok args →
    ∀ field ∈ args.data, Listed args.kind options field
  required : ∀ args, validateAppend input options = .ok args →
    ∀ field ∈ kindFields args.kind, field.2.required = true →
      ∃ value, value.isUndefined = false ∧ (field.1, value) ∈ args.data
  refused : ∀ members kind data field, input = .object members →
    get members (lit "kind") = .string kind.text → get members (lit "data") = .object data →
    field ∈ data → ¬InTable kind options field.1 →
    ∃ error, validateAppend input options = .error error

/-- A name of `Object.prototype` is among the fields of an input that every other check accepts. -/
def Slips (input : JsValue) (options : AppendOptions) : Prop :=
  ∃ call, checkCall input = .ok call
    ∧ (∃ field ∈ call.fields, field.1 ∈ objectPrototype)
    ∧ (∀ field ∈ call.fields, field.1 ∉ objectPrototype → checkEntry call.kind options field = .ok ())
    ∧ (∀ field ∈ kindFields call.kind, checkRequired call.kind call.fields field = .ok ())
    ∧ ∃ author, checkRoles call options = .ok author

variable {kind : RecordKind} {options : AppendOptions} {field : JsString × JsValue}
  {input : JsValue} {args : AppendArgs}

theorem isSome_text? {value : JsValue} : value.text?.isSome = true ↔ ∃ text, value = .string text := by
  cases value <;> simp [text?]

theorem isStage_iff {item : JsValue} : isStage item = true ↔ Stage item := by
  unfold isStage Stage
  cases item <;> simp [object?, isSome_text?, and_assoc]

variable {name : JsString}

theorem checkField_eq_ok {kind : JsString} {spec : FieldSpec} {value : JsValue}
    : checkField kind name spec value = .ok () ↔ Fits spec value := by
  cases type : spec.type with
  | string =>
      simp only [checkField, Fits, type]
      cases value <;> simp [text?, argumentError]
      next text =>
        rw [check_then_eq_ok, refuseIf_eq_ok, refuseIf_eq_ok]
        constructor
        · rintro ⟨listed, tested⟩
          refine ⟨fun values same => ?_, fun pattern same => ?_⟩
          · simpa [same] using listed
          · simpa [same] using tested
        · rintro ⟨listed, tested⟩
          constructor
          · cases same : spec.values with
            | none => rfl
            | some values => simpa using listed values same
          · cases same : spec.pattern with
            | none => rfl
            | some pattern => simpa using tested pattern same
  | strings =>
      simp only [checkField, Fits, type]
      cases value <;> simp [argumentError, refuseIf_eq_ok, isSome_text?]
  | number =>
      simp only [checkField, Fits, type]
      cases value <;> simp [argumentError]
  | boolean =>
      simp only [checkField, Fits, type]
      cases value <;> simp [argumentError]
  | uuid =>
      simp only [checkField, Fits, type]
      cases value <;> simp [argumentError, refuseIf_eq_ok]
  | eta =>
      simp only [checkField, Fits, type]
      cases value <;> simp [argumentError, refuseIf_eq_ok, isStage_iff]

/-- An entry passes exactly where it is in the grammar, or an inherited name shadows the lookup. -/
theorem checkEntry_eq_ok
    : checkEntry kind options field = .ok ()
      ↔ Listed kind options field
        ∨ isImport kind field.1 = false ∧ (kindFields kind).lookup field.1 = none
          ∧ field.1 ∈ objectPrototype := by
  unfold checkEntry Listed
  cases imported : isImport kind field.1 with
  | true =>
      simp only [if_true, Bool.true_eq_false, false_and, or_false]
      rw [check_then_eq_ok, refuseIf_eq_ok, refuseIf_eq_ok, Bool.not_eq_false', Bool.not_eq_false']
      cases field.2 <;> simp [text?]
  | false =>
      simp only [Bool.false_eq_true, if_false, true_and, look]
      cases held : (kindFields kind).lookup field.1 with
      | some spec => simp [checkField_eq_ok]
      | none =>
          by_cases inherited : field.1 ∈ objectPrototype
          · simp [inherited]
          · simp [inherited, argumentError]

theorem unlisted_of_inherited (kind : RecordKind) (inherited : name ∈ objectPrototype)
    : isImport kind name = false ∧ (kindFields kind).lookup name = none := by
  have every : objectPrototype.all fun name =>
      !isImport kind name && ((kindFields kind).lookup name).isNone := by
    cases kind <;> decide
  simpa using List.all_eq_true.mp every name inherited

theorem unlisted_of_isImport (imported : isImport kind name = true)
    : (kindFields kind).lookup name = none := by
  have every : importFields.all fun name =>
      !isImport kind name || ((kindFields kind).lookup name).isNone := by
    cases kind <;> decide
  have member : name ∈ importFields := by
    simp only [isImport, Bool.and_eq_true, List.contains_iff_mem] at imported
    exact imported.1
  simpa [imported] using List.all_eq_true.mp every name member

theorem inTable_of_listed (listed : Listed kind options field) : InTable kind options field.1 := by
  unfold Listed at listed
  split at listed
  · next imported =>
      simp only [isImport, Bool.and_eq_true, List.contains_iff_mem] at imported
      exact Or.inr ⟨listed.1, imported.1⟩
  · obtain ⟨spec, held, _⟩ := listed
    obtain ⟨before, after, same, _⟩ := List.lookup_eq_some_iff.mp held
    exact Or.inl (List.mem_map.mpr ⟨(field.1, spec), by simp [same], rfl⟩)

theorem within_iff {first last : Char} {unit : UInt16}
    : within first last unit = true
      ↔ (unitOf first).toNat ≤ unit.toNat ∧ unit.toNat ≤ (unitOf last).toNat := by
  simp [within, UInt16.le_iff_toNat_le]

theorem isHexDigit_iff {unit : UInt16}
    : isHexDigit unit = true ↔ (48 ≤ unit.toNat ∧ unit.toNat ≤ 57)
      ∨ (97 ≤ unit.toNat ∧ unit.toNat ≤ 102) ∨ (65 ≤ unit.toNat ∧ unit.toNat ≤ 70) := by
  have digit : isDigit unit = true ↔ 48 ≤ unit.toNat ∧ unit.toNat ≤ 57 := within_iff
  have lowerFirst : (unitOf 'a').toNat = 97 := rfl
  have lowerLast : (unitOf 'f').toNat = 102 := rfl
  have upperFirst : (unitOf 'A').toNat = 65 := rfl
  have upperLast : (unitOf 'F').toNat = 70 := rfl
  simp only [isHexDigit, Bool.or_eq_true, digit, within_iff, lowerFirst, lowerLast, upperFirst,
    upperLast, or_assoc]

theorem toNat_lowerUnit (unit : UInt16)
    : (lowerUnit unit).toNat
      = if 65 ≤ unit.toNat ∧ unit.toNat ≤ 90 then unit.toNat + 32 else unit.toNat := by
  have first : (unitOf 'A').toNat = 65 := rfl
  have last : (unitOf 'Z').toNat = 90 := rfl
  simp only [lowerUnit, within_iff, first, last]
  split
  · next upper =>
      rw [UInt16.toNat_add]
      exact Nat.mod_eq_of_lt (by change unit.toNat + 32 < _; omega)
  · rfl

theorem isHexDigit_lowerUnit (unit : UInt16) : isHexDigit (lowerUnit unit) = isHexDigit unit := by
  rw [Bool.eq_iff_iff, isHexDigit_iff, isHexDigit_iff, toNat_lowerUnit]
  split <;> omega

theorem dash_lowerUnit (unit : UInt16)
    : (lowerUnit unit == unitOf '-') = (unit == unitOf '-') := by
  have dash : (unitOf '-').toNat = 45 := rfl
  rw [Bool.eq_iff_iff, beq_iff_eq, beq_iff_eq, ← UInt16.toNat_inj, ← UInt16.toNat_inj,
    toNat_lowerUnit, dash]
  split <;> omega

theorem isUuid_lowerCase (text : JsString) : isUuid (lowerCase text) = isUuid text := by
  simp only [isUuid, lowerCase, List.length_map, List.zipIdx_map, List.all_map]
  simp [Function.comp_def, isHexDigit_lowerUnit, dash_lowerUnit]

theorem listed_canonicalField (listed : Listed kind options field)
    : Listed kind options (canonicalField kind field) := by
  obtain ⟨name, value⟩ := field
  cases held : (kindFields kind).lookup name with
  | none =>
      have same : canonicalField kind (name, value) = (name, value) := by
        unfold canonicalField look
        rw [held]
        dsimp only
        split <;> first | rfl | (next h => split at h <;> cases h)
      rw [same]
      exact listed
  | some spec =>
      cases value
      case string text =>
        have made : canonicalField kind (name, .string text)
            = (name, .string (if spec.type = .uuid then lowerCase text else text)) := by
          simp only [canonicalField, look, held]
        rw [made]
        split
        · next uuid =>
            have own : ¬isImport kind name = true := fun imported => by
              simp [unlisted_of_isImport imported] at held
            unfold Listed at listed ⊢
            rw [if_neg own] at listed ⊢
            obtain ⟨_, known, fits⟩ := listed
            obtain rfl := Option.some.inj (held.symm.trans known)
            refine ⟨spec, held, ?_⟩
            simp only [Fits, uuid] at fits ⊢
            obtain ⟨_, same, shaped⟩ := fits
            obtain rfl := JsValue.string.inj same
            exact ⟨_, rfl, (isUuid_lowerCase text).trans shaped⟩
        · exact listed
      all_goals
        simp only [canonicalField, look, held]
        exact listed

theorem name_canonicalField (kind : RecordKind) (field : JsString × JsValue)
    : (canonicalField kind field).1 = field.1 := by
  unfold canonicalField
  split <;> rfl

theorem isUndefined_canonicalField (kind : RecordKind) (field : JsString × JsValue)
    : (canonicalField kind field).2.isUndefined = field.2.isUndefined := by
  unfold canonicalField
  split
  · next same => rw [same]; rfl
  · rfl

theorem validateAppend_eq_ok
    : validateAppend input options = .ok args ↔ ∃ call author, checkCall input = .ok call
      ∧ (∀ field ∈ call.fields, checkEntry call.kind options field = .ok ())
      ∧ (∀ field ∈ kindFields call.kind, checkRequired call.kind call.fields field = .ok ())
      ∧ checkRoles call options = .ok author
      ∧ args = {
          ref := call.ref
          repo := call.repo
          kind := call.kind
          key := call.key
          text := call.text
          data := call.fields.map (canonicalField call.kind)
          supersedes := call.supersedes.map lowerCase
          author } := by
  unfold validateAppend
  constructor
  · intro returned
    obtain ⟨call, called, returned⟩ := bind_eq_ok.mp returned
    obtain ⟨entries, returned⟩ := check_then_eq_ok.mp returned
    obtain ⟨needed, returned⟩ := check_then_eq_ok.mp returned
    obtain ⟨author, allowed, made⟩ := bind_eq_ok.mp returned
    exact ⟨call, author, called, forM_eq_ok.mp entries, forM_eq_ok.mp needed, allowed,
      (Except.ok.inj made).symm⟩
  · rintro ⟨call, author, called, entries, needed, allowed, rfl⟩
    exact bind_eq_ok.mpr ⟨call, called, check_then_eq_ok.mpr ⟨forM_eq_ok.mpr entries,
      check_then_eq_ok.mpr ⟨forM_eq_ok.mpr needed, bind_eq_ok.mpr ⟨author, allowed, rfl⟩⟩⟩⟩

theorem input_of_checkCall {call : AppendCall} (called : checkCall input = .ok call)
    : ∃ members, input = .object members ∧ get members (lit "kind") = .string call.kind.text
      ∧ call.fields = (get members (lit "data")).object?.getD [] := by
  unfold checkCall at called
  split at called
  · next members object =>
      refine ⟨members, object?_eq_some_iff.mp object, ?_⟩
      obtain ⟨_, called⟩ := check_then_eq_ok.mp called
      split at called
      · next kind known =>
          have named := List.find?_some known
          rw [beq_iff_eq, text?_eq_some_iff] at named
          split at called
          · obtain ⟨ref, _, called⟩ := bind_eq_ok.mp called
            obtain ⟨repo, _, called⟩ := bind_eq_ok.mp called
            obtain ⟨_, called⟩ := check_then_eq_ok.mp called
            obtain ⟨text, _, called⟩ := bind_eq_ok.mp called
            -- The checks of the text, of `supersedes`, of the data and of the sizes.
            obtain ⟨_, called⟩ := check_then_eq_ok.mp called
            obtain ⟨_, called⟩ := check_then_eq_ok.mp called
            obtain ⟨_, called⟩ := check_then_eq_ok.mp called
            obtain ⟨_, called⟩ := check_then_eq_ok.mp called
            obtain ⟨_, called⟩ := check_then_eq_ok.mp called
            obtain rfl := Except.ok.inj called
            exact ⟨named, rfl⟩
          · cases called
      · cases called
  · cases called

theorem text_injective {other : RecordKind} (same : kind.text = other.text) : kind = other := by
  revert same
  cases kind <;> cases other <;> decide

theorem grammar_of_not_slips (closed : ¬Slips input options) : Grammar input options := by
  -- Where the check returns, every check has passed, so no name is inherited.
  have listed : ∀ call, checkCall input = .ok call →
      (∀ field ∈ call.fields, checkEntry call.kind options field = .ok ()) →
      (∀ field ∈ kindFields call.kind, checkRequired call.kind call.fields field = .ok ()) →
      (∃ author, checkRoles call options = .ok author) →
      ∀ field ∈ call.fields, Listed call.kind options field := by
    intro call called entries needed allowed field member
    rcases checkEntry_eq_ok.mp (entries field member) with listed | ⟨_, _, inherited⟩
    · exact listed
    · exact absurd ⟨call, called, ⟨field, member, inherited⟩, fun other inside _ =>
        entries other inside, needed, allowed⟩ closed
  constructor
  · intro args returned field member
    obtain ⟨call, author, called, entries, needed, allowed, rfl⟩ := validateAppend_eq_ok.mp returned
    obtain ⟨source, inside, rfl⟩ := List.mem_map.mp member
    exact listed_canonicalField (listed call called entries needed ⟨author, allowed⟩ source inside)
  · intro args returned field member required
    obtain ⟨call, author, called, entries, needed, allowed, rfl⟩ := validateAppend_eq_ok.mp returned
    have present : (get call.fields field.1).isUndefined = false := by
      simpa [required] using refuseIf_eq_ok.mp (needed field member)
    have inside := mem_of_get present
    refine ⟨(canonicalField call.kind (field.1, get call.fields field.1)).2, ?_, ?_⟩
    · rw [isUndefined_canonicalField]
      exact present
    · refine List.mem_map.mpr ⟨_, inside, ?_⟩
      exact Prod.ext (name_canonicalField _ _) rfl
  · intro members kind data field object named held member outside
    cases returned : validateAppend input options with
    | error error => exact ⟨error, rfl⟩
    | ok args =>
        obtain ⟨call, author, called, entries, needed, allowed, rfl⟩ :=
          validateAppend_eq_ok.mp returned
        obtain ⟨others, same, known, fields⟩ := input_of_checkCall called
        obtain rfl := JsValue.object.inj (object.symm.trans same)
        obtain rfl := text_injective (JsValue.string.inj (named.symm.trans known))
        have all : call.fields = data := by rw [fields, held]; rfl
        rw [← all] at member
        exact absurd (inTable_of_listed
          (listed call called entries needed ⟨author, allowed⟩ field member)) outside

theorem not_grammar_of_slips (slips : Slips input options) : ¬Grammar input options := by
  obtain ⟨call, called, ⟨field, member, inherited⟩, others, needed, author, allowed⟩ := slips
  intro grammar
  have entries : ∀ field ∈ call.fields, checkEntry call.kind options field = .ok () := by
    intro other inside
    by_cases shadows : other.1 ∈ objectPrototype
    · obtain ⟨own, unlisted⟩ := unlisted_of_inherited call.kind shadows
      exact checkEntry_eq_ok.mpr (Or.inr ⟨own, unlisted, shadows⟩)
    · exact others other inside shadows
  have returned := validateAppend_eq_ok.mpr ⟨call, author, called, entries, needed, allowed, rfl⟩
  have listed := grammar.fields _ returned _ (List.mem_map_of_mem member)
  obtain ⟨own, unlisted⟩ := unlisted_of_inherited call.kind inherited
  unfold Listed at listed
  rw [name_canonicalField, own, if_neg Bool.false_ne_true] at listed
  obtain ⟨spec, held, _⟩ := listed
  rw [unlisted] at held
  cases held

/-- The grammar holds of an input exactly where no name of `Object.prototype` is among the fields of
data that every other check accepts.
-/
theorem append_grammar_iff (input : JsValue) (options : AppendOptions)
    : Grammar input options ↔ ¬Slips input options :=
  ⟨fun grammar slips => not_grammar_of_slips slips grammar, grammar_of_not_slips⟩

def inheritedField : JsValue :=
  .object [(lit "ref", .string (lit "o/r#1")), (lit "kind", .string (lit "comment")),
    (lit "key", .string (lit "k")), (lit "text", .string (lit "t")),
    (lit "data", .object [(lit "constructor", .null)])]

theorem inherited_field_is_accepted
    : (∃ args, validateAppend inheritedField ⟨false, false⟩ = .ok args
        ∧ (lit "constructor", .null) ∈ args.data)
      ∧ ¬Grammar inheritedField ⟨false, false⟩ := by
  obtain ⟨args, returned, kind, data⟩ : ∃ args,
      validateAppend inheritedField ⟨false, false⟩ = .ok args
      ∧ args.kind = .comment ∧ args.data = [(lit "constructor", .null)] :=
    ⟨_, rfl, rfl, rfl⟩
  refine ⟨⟨args, returned, by simp [data]⟩, fun grammar => ?_⟩
  have inside := inTable_of_listed
    (grammar.fields args returned (lit "constructor", .null) (by simp [data]))
  rw [kind] at inside
  revert inside
  simp only [InTable, Bool.false_eq_true, false_and, or_false]
  decide

end PiFabric.Records.Kinds
