import PiFabric.Foundation.Sha256
import PiFabric.Scope.Authority

/-! Canonical scopes. Validation leaves grants sorted and its result validates to itself, so a scope
that was issued is read back from what is written of it; and its digest is that of one text.
-/

namespace PiFabric.Scope

open JsString Outcome

/-- The form in which grants are sorted, beside what holds of each of them. -/
structure Sorted (grants : List Grant) : Prop where
  sorted : (grants.map Grant.resource).Pairwise fun left right => JsString.le left right = true
  ordered : ∀ grant ∈ grants, allActions.filter (· ∈ grant.actions) = grant.actions
  few : grants.length ≤ maxFabricScopeGrants

theorem le_trans_units {first second third : JsString} (h₁ : JsString.le first second = true)
    (h₂ : JsString.le second third = true) : JsString.le first third = true :=
  decide_eq_true (List.le_trans (of_decide_eq_true h₁) (of_decide_eq_true h₂))

theorem le_total_units (left right : JsString)
    : (JsString.le left right || JsString.le right left) = true := by
  rw [Bool.or_eq_true]
  exact (List.le_total left right).imp decide_eq_true decide_eq_true

variable {merged : JsMap JsString (List Action)}

/-- One more grant merges into at most one more entry. -/
theorem mergeGrant_size {next : JsMap JsString (List Action)} {grant : Json}
    (step : mergeGrant merged grant = .ok next) : next.size ≤ merged.size + 1 := by
  unfold mergeGrant at step
  split at step
  · obtain ⟨-, -, step⟩ := bind_eq_ok.mp step
    obtain ⟨⟨resource, parsed⟩, -, step⟩ := bind_eq_ok.mp step
    obtain ⟨actions, -, step⟩ := bind_eq_ok.mp step
    rw [← Except.ok.inj step, JsMap.size_set]
    split
    · exact Nat.le_succ _
    · exact le_rfl
  · cases step

/-- Grants merge into at most as many entries, by induction over the requested ones. -/
theorem foldlM_mergeGrant_size {items : List Json} {result : JsMap JsString (List Action)}
    (run : items.foldlM mergeGrant merged = .ok result)
    : result.size ≤ merged.size + items.length := by
  induction items generalizing merged with
  | nil =>
      rw [← Except.ok.inj run]
      exact le_rfl
  | cons item rest ih =>
      rw [List.foldlM_cons] at run
      obtain ⟨middle, step, run⟩ := bind_eq_ok.mp run
      have first := mergeGrant_size step
      have others := ih run
      rw [List.length_cons]
      omega

variable {value : Option Json} {grants : NormalGrants}

theorem normalizeGrants_sorted (h : normalizeGrants value = .ok grants) : Sorted grants.val := by
  unfold normalizeGrants at h
  split at h
  swap
  · cases h
  next items =>
  split at h
  · cases h
  next few =>
  split at h
  · cases h
  next merged run =>
  rw [← Except.ok.inj h]
  have size := foldlM_mergeGrant_size run
  have keys : (sortedGrants merged).map Grant.resource = merged.keys.mergeSort JsString.le := by
    rw [sortedGrants, List.map_map]
    exact List.map_id _
  refine ⟨?_, fun grant member => ?_, ?_⟩
  · rw [keys]
    exact @List.pairwise_mergeSort _ JsString.le (fun _ _ _ => le_trans_units) le_total_units _
  · obtain ⟨resource, -, rfl⟩ := List.mem_map.mp member
    dsimp only
    refine List.filter_congr fun action _ => ?_
    simp [List.mem_filter, mem_allActions]
  · change (sortedGrants merged).length ≤ maxFabricScopeGrants
    rw [sortedGrants, List.length_map, List.length_mergeSort, JsMap.keys, List.length_map]
    have empty : (JsMap.empty : JsMap JsString (List Action)).size = 0 := rfl
    have count : merged.entries.length = merged.size := rfl
    omega

def sentGrant (grant : Grant) : Json :=
  .object [
    (lit "resource", .string grant.resource),
    (lit "actions", .array (grant.actions.map fun action => .string action.name))
  ]

theorem actionOf_name (action : Action) : actionOf? (.string action.name) = some action := by
  cases action <;> decide

/-- The actions that are written are read back. -/
theorem mapM_actionOf_names (actions : List Action)
    : (actions.map fun action => Json.string action.name).mapM actionOf? = some actions := by
  induction actions with
  | nil => rfl
  | cons action rest ih =>
      rw [List.map_cons, List.mapM_cons, actionOf_name, ih]
      rfl

theorem parseActions_names {resource : JsString} {actions : List Action} (acts : actions ≠ [])
    (ordered : allActions.filter (· ∈ actions) = actions)
    : parseActions resource (some (.array (actions.map fun action => .string action.name)))
      = .ok actions := by
  have few : actions.length ≤ allActions.length := ordered ▸ List.length_filter_le _ _
  have some_ : 0 < actions.length := List.length_pos_iff.mpr acts
  unfold parseActions
  dsimp only
  rw [List.length_map, if_neg, mapM_actionOf_names]
  simp only [Bool.or_eq_true, decide_eq_true_eq, not_or, not_lt]
  omega

theorem mergeGrant_sent {grant : Grant} {parsed : ParsedResource}
    (parses : parseResource grant.resource = .ok parsed) (acts : grant.actions ≠ [])
    (ordered : allActions.filter (· ∈ grant.actions) = grant.actions)
    (fresh : grant.resource ∉ merged.keys)
    : mergeGrant merged (sentGrant grant) = .ok (merged.set grant.resource grant.actions) := by
  have checked : checkKeys [(lit "resource", .string grant.resource),
      (lit "actions", .array (grant.actions.map fun action => .string action.name))]
      ["resource", "actions"] "Scope grant" = .ok () := rfl
  have resource : (sentGrant grant).field? "resource" = some (.string grant.resource) := rfl
  have actions : (sentGrant grant).field? "actions"
      = some (.array (grant.actions.map fun action => .string action.name)) := rfl
  have absent : merged.get? grant.resource = none := JsMap.get?_eq_none_iff.mpr fresh
  have read : parseResourceValue (some (.string grant.resource))
      = .ok (grant.resource, parsed) := by
    rw [parseResourceValue, parses]
    rfl
  unfold sentGrant at resource actions ⊢
  rw [mergeGrant, checked, resource, actions, read]
  simp only [bind, Except.bind, parseActions_names acts ordered, absent, Option.getD_none,
    List.nil_append]

theorem foldlM_mergeGrant_sent {grants : List Grant} (normalized : Normalized grants)
    (ordered : ∀ grant ∈ grants, allActions.filter (· ∈ grant.actions) = grant.actions)
    (fresh : ∀ grant ∈ grants, grant.resource ∉ merged.keys)
    : (grants.map sentGrant).foldlM mergeGrant merged
      = .ok (JsMap.bindAll Grant.resource Grant.actions merged grants) := by
  induction grants generalizing merged with
  | nil => rfl
  | cons grant rest ih =>
      obtain ⟨parsed, parses⟩ := normalized.parses grant List.mem_cons_self
      have distinct := normalized.distinct
      rw [List.map_cons, List.nodup_cons] at distinct
      have first := mergeGrant_sent parses (normalized.acts grant List.mem_cons_self)
        (ordered grant List.mem_cons_self) (fresh grant List.mem_cons_self)
      have left : Normalized rest :=
        ⟨fun other member => normalized.parses other (List.mem_cons_of_mem _ member),
          fun other member => normalized.acts other (List.mem_cons_of_mem _ member), distinct.2⟩
      rw [List.map_cons, List.foldlM_cons, first]
      refine ih left (fun other member => ordered other (List.mem_cons_of_mem _ member))
        fun other member inside => ?_
      rw [JsMap.keys_set, if_neg (fresh grant List.mem_cons_self), List.mem_append,
        List.mem_singleton] at inside
      rcases inside with old | same
      · exact fresh other (List.mem_cons_of_mem _ member) old
      · exact distinct.1 (List.mem_map.mpr ⟨other, member, same⟩)

/-- Grants in canonical form validate to themselves. -/
theorem normalizeGrants_sent (sorted : Sorted grants.val)
    : normalizeGrants (some (.array (grants.val.map sentGrant))) = .ok grants := by
  have entries := @JsMap.entries_bindAll JsString (List Action) _ JsMap.empty Grant
    Grant.resource Grant.actions grants.val grants.property.distinct fun _ _ none_ => by cases none_
  have keys : (JsMap.bindAll Grant.resource Grant.actions JsMap.empty grants.val).keys
      = grants.val.map Grant.resource := by
    rw [JsMap.keys, entries, JsMap.empty, List.nil_append, List.map_map]
    rfl
  refine normalizeGrants_eq_ok (JsMap.bindAll Grant.resource Grant.actions JsMap.empty grants.val) ?_
    (foldlM_mergeGrant_sent grants.property sorted.ordered fun _ _ none_ => by cases none_) ?_
  · rw [List.length_map]
    exact sorted.few
  · rw [sortedGrants, keys, List.mergeSort_of_pairwise sorted.sorted, List.map_map]
    refine (List.map_id _).symm.trans (List.map_congr_left fun grant member => ?_)
    have bound : (JsMap.bindAll Grant.resource Grant.actions JsMap.empty grants.val).get?
        grant.resource = some grant.actions := by
      rw [JsMap.get?_eq_some_iff, entries]
      exact List.mem_append_right _ (List.mem_map.mpr ⟨grant, member, rfl⟩)
    have actions := sorted.ordered grant member
    cases grant
    dsimp only [Function.comp_apply, id_eq] at bound actions ⊢
    rw [bound, Option.getD_some, actions]

/-- The scopes that the module returns: only those are frozen, and later taken as they are. -/
inductive Issued : FabricScope → Prop
  | normalize {value : Json} {scope : FabricScope}
      (call : normalizeScope Sha256.hex (.value value) = .ok scope)
    : Issued scope
  | derive {parent : ScopeInput} {grants : Option Json} {base scope : FabricScope}
      (read : normalizeScope Sha256.hex parent = .ok base) (issued : Issued base)
      (call : deriveScope Sha256.hex parent grants = .ok scope)
    : Issued scope

def principalJson (id : JsString) : Json :=
  .object [(lit "id", .string id)]

/-- What holds of a scope that was issued. -/
structure Canonical (scope : FabricScope) : Prop where
  principal : parsePrincipal (some (principalJson scope.principalId)) = .ok scope.principalId
  grants : Sorted scope.grants
  digest : scope.digest
    = canonicalDigest Sha256.hex scope.principalId scope.grants scope.parentDigest
  parentDigest : ∀ digest, scope.parentDigest = some digest → isDigest digest = true

theorem isDigest_hex (message : List UInt8) : isDigest (Sha256.hex message) = true := by
  rw [isDigest, Bool.and_eq_true, decide_eq_true_eq, List.all_eq_true]
  exact ⟨Sha256.length_hex message, fun _ member => Sha256.isHexUnit_of_mem_hex member⟩

theorem truthy_of_isDigest {text : Option JsString}
    (valid : ∀ digest, text = some digest → isDigest digest = true) : truthy text = text := by
  cases text with
  | none => rfl
  | some digest =>
      have nonempty : digest ≠ [] := by
        intro empty
        have digits := valid digest rfl
        rw [empty] at digits
        revert digits
        decide
      rw [truthy, Option.filter_some, if_pos (decide_eq_true nonempty)]

theorem parsePrincipal_printable {id : JsString} (h : parsePrincipal value = .ok id)
    : parsePrincipal (some (principalJson id)) = .ok id := by
  unfold parsePrincipal at h
  split at h
  swap
  · cases h
  next members =>
  obtain ⟨-, -, h⟩ := bind_eq_ok.mp h
  dsimp only at h
  split at h
  swap
  · cases h
  next given _ =>
  split at h
  · cases h
  next printable =>
  obtain ⟨read, same, h⟩ := bind_eq_ok.mp h
  obtain rfl := Except.ok.inj same
  obtain rfl : given = id := by
    split at h
    · exact Except.ok.inj h
    · split at h
      · exact Except.ok.inj h
      · cases h
    · cases h
  have checked : checkKeys [(lit "id", Json.string given)] ["id", "issuer"]
      "Fabric scope principal" = .ok () := rfl
  have named : Json.field? "id" (.object [(lit "id", Json.string given)])
      = some (.string given) := rfl
  have hosted : Json.field? "issuer" (.object [(lit "id", Json.string given)]) = none := rfl
  unfold principalJson
  rw [parsePrincipal, checked]
  simp only [bind, Except.bind, named, if_neg printable, hosted]

theorem parseParentDigest_valid {digest : Option JsString}
    (h : parseParentDigest value = .ok digest)
    : digest.map Json.string = value ∧ ∀ text, digest = some text → isDigest text = true := by
  unfold parseParentDigest at h
  split at h
  · obtain rfl := Except.ok.inj h
    exact ⟨rfl, fun _ none_ => by cases none_⟩
  · split at h
    · next valid =>
        obtain rfl := Except.ok.inj h
        refine ⟨rfl, fun text same => ?_⟩
        rw [← Option.some.inj same]
        exact valid
    · cases h
  · cases h

variable {scope : FabricScope}

/-- What a value is validated to: the parts that it has, and a digest that agrees. -/
theorem normalizeScope_value {members : List (JsString × Json)}
    (h : normalizeScope Sha256.hex (.value (.object members)) = .ok scope)
    : parsePrincipal (Json.field? "principal" (.object members)) = .ok scope.principalId
      ∧ (∃ grants : NormalGrants,
          normalizeGrants (Json.field? "grants" (.object members)) = .ok grants
          ∧ grants.val = scope.grants)
      ∧ parseParentDigest (Json.field? "parentDigest" (.object members))
        = .ok scope.parentDigest
      ∧ scope.digest
        = canonicalDigest Sha256.hex scope.principalId scope.grants scope.parentDigest
      ∧ ∀ digest, Json.field? "digest" (.object members) = some digest →
          digest = .string scope.digest := by
  unfold normalizeScope at h
  obtain ⟨-, -, h⟩ := bind_eq_ok.mp h
  dsimp only at h
  split at h
  case h_3 => cases h
  all_goals
    obtain ⟨-, -, h⟩ := bind_eq_ok.mp h
    obtain ⟨principalId, principal, h⟩ := bind_eq_ok.mp h
    obtain ⟨parentDigest, parent, h⟩ := bind_eq_ok.mp h
    obtain ⟨grants, read, h⟩ := bind_eq_ok.mp h
    have kept : truthy parentDigest = parentDigest :=
      truthy_of_isDigest (parseParentDigest_valid parent).2
    have agrees : scope = freeze Sha256.hex principalId grants parentDigest
        ∧ ∀ digest, Json.field? "digest" (.object members) = some digest →
            digest = .string scope.digest := by
      split at h
      · next absent =>
          obtain rfl := Except.ok.inj h
          refine ⟨rfl, fun digest found => ?_⟩
          rw [absent] at found
          cases found
      · next text present =>
          split at h
          · next same =>
              obtain rfl := Except.ok.inj h
              refine ⟨rfl, fun digest found => ?_⟩
              rw [present] at found
              rw [← Option.some.inj found, same]
          · cases h
      · cases h
    obtain ⟨rfl, digest⟩ := agrees
    refine ⟨principal, ⟨grants, read, rfl⟩, ?_, ?_, digest⟩
    · rw [parent]
      exact congrArg Except.ok kept.symm
    · simp only [freeze, kept]

theorem freeze_canonical {principalId : JsString} {parentDigest : Option JsString}
    (principal : parsePrincipal (some (principalJson principalId)) = .ok principalId)
    (sorted : Sorted grants.val)
    (valid : ∀ digest, parentDigest = some digest → isDigest digest = true)
    : Canonical (freeze Sha256.hex principalId grants parentDigest) := by
  have kept := truthy_of_isDigest valid
  refine ⟨principal, sorted, ?_, fun digest same => valid digest (kept.symm.trans same)⟩
  simp only [freeze, kept]

theorem Issued.canonical (issued : Issued scope) : Canonical scope := by
  induction issued with
  | @normalize value scope call =>
      cases value with
      | object members =>
          obtain ⟨principal, ⟨grants, read, same⟩, parent, digest, -⟩ := normalizeScope_value call
          exact ⟨parsePrincipal_printable principal, same ▸ normalizeGrants_sorted read, digest,
            (parseParentDigest_valid parent).2⟩
      | _ => cases call
  | @derive parent grants base scope read _ call ih =>
      obtain ⟨parsed, same, h⟩ := bind_eq_ok.mp call
      obtain rfl : base = parsed := Except.ok.inj (read.symm.trans same)
      obtain ⟨requested, narrowed, h⟩ := bind_eq_ok.mp h
      obtain ⟨-, -, h⟩ := bind_eq_ok.mp h
      obtain rfl := Except.ok.inj h
      have valid : ∀ digest, some base.digest = some digest → isDigest digest = true := by
        intro digest same
        rw [← Option.some.inj same, ih.digest]
        exact isDigest_hex _
      exact freeze_canonical ih.principal (normalizeGrants_sorted narrowed) valid

def FabricScope.content (scope : FabricScope) : Json :=
  .object (
    [(lit "grants", .array (scope.grants.map grantJson))]
    ++ ((truthy scope.parentDigest).toList.map fun digest => (lit "parentDigest", .string digest))
    ++ [(lit "principal",
      .object [(lit "id", .string scope.principalId), (lit "issuer", .string (lit "host"))])])

def FabricScope.text (scope : FabricScope) : List UInt8 :=
  scope.content.bytes

theorem Canonical.digest_eq (canonical : Canonical scope)
    : scope.digest = Sha256.hex scope.text :=
  canonical.digest

theorem Action.name_injective : Function.Injective Action.name := by
  intro left right same
  cases left <;> cases right <;> first | rfl | (revert same; decide)

theorem names_injective
    : Function.Injective fun actions : List Action =>
        actions.map fun action => Json.string action.name :=
  List.map_injective_iff.mpr fun _ _ equal => Action.name_injective (Json.string.inj equal)

theorem grantJson_injective : Function.Injective grantJson := by
  rintro ⟨resource, actions⟩ ⟨resource', actions'⟩ same
  simp only [grantJson, Json.object.injEq, List.cons.injEq, Prod.mk.injEq, Json.array.injEq,
    Json.string.injEq, true_and, and_true] at same
  obtain ⟨names, rfl⟩ := same
  rw [names_injective names]

theorem sentGrant_injective : Function.Injective sentGrant := by
  rintro ⟨resource, actions⟩ ⟨resource', actions'⟩ same
  simp only [sentGrant, Json.object.injEq, List.cons.injEq, Prod.mk.injEq, Json.array.injEq,
    Json.string.injEq, true_and, and_true] at same
  obtain ⟨rfl, names⟩ := same
  rw [names_injective names]

theorem Canonical.eq_of_text {left right : FabricScope} (hl : Canonical left)
    (hr : Canonical right) (same : left.text = right.text) : left = right := by
  have content : left.content = right.content := Json.bytes_injective same
  have digests : left.digest = right.digest := by
    rw [hl.digest_eq, hr.digest_eq, same]
  rw [FabricScope.content, FabricScope.content, truthy_of_isDigest hl.parentDigest,
    truthy_of_isDigest hr.parentDigest] at content
  have parts := Json.object.inj content
  have grants : left.grants = right.grants := by
    have first := (List.cons.inj parts).1
    exact List.map_injective_iff.mpr grantJson_injective (Json.array.inj (Prod.mk.inj first).2)
  have rest := (List.cons.inj parts).2
  have parent : left.parentDigest = right.parentDigest
      ∧ left.principalId = right.principalId := by
    cases leftParent : left.parentDigest <;> cases rightParent : right.parentDigest <;>
      simp_all
  obtain ⟨principalId, grants₁, digest, parentDigest, normalized⟩ := left
  obtain ⟨principalId', grants₂, digest', parentDigest', normalized'⟩ := right
  obtain ⟨rfl, rfl⟩ := parent
  obtain rfl := grants
  obtain rfl := digests
  rfl

end PiFabric.Scope
