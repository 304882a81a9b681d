import PiFabric.Scope.Grants

/-! Scopes, what they allow, and when one is covered by another. -/

namespace PiFabric.Scope

open JsString Outcome

def maxPrincipalChars : Nat := 128

/-- A canonical scope: version 1, issued by the host. -/
structure FabricScope where
  principalId : JsString
  grants : List Grant
  digest : JsString
  parentDigest : Option JsString
  normalized : Normalized grants

/-- What is passed for a scope: one that validation already returned, or any value. -/
inductive ScopeInput where
  | verified (scope : FabricScope)
  | value (json : Json)

def truthy (text : Option JsString) : Option JsString :=
  text.filter (· ≠ [])

def isDigest (text : JsString) : Bool :=
  text.length = 64
    && text.all (fun unit => isDigit unit || unitOf 'a' ≤ unit && unit ≤ unitOf 'f')

section Digest

-- the lower-case hexadecimal SHA-256 of some bytes
variable (sha256Hex : List UInt8 → JsString)

def grantJson (grant : Grant) : Json :=
  .object [
    (lit "actions", .array (grant.actions.map fun action => .string action.name)),
    (lit "resource", .string grant.resource)
  ]

def canonicalDigest (principalId : JsString) (grants : List Grant)
    (parentDigest : Option JsString)
    : JsString :=
  sha256Hex (Json.bytes (.object (
    [(lit "grants", .array (grants.map grantJson))]
    ++ ((truthy parentDigest).toList.map fun digest => (lit "parentDigest", .string digest))
    ++ [(lit "principal",
      .object [(lit "id", .string principalId), (lit "issuer", .string (lit "host"))])])))

def freeze (principalId : JsString) (grants : NormalGrants) (parentDigest : Option JsString)
    : FabricScope where
  principalId
  grants := grants.val
  digest := canonicalDigest sha256Hex principalId grants.val parentDigest
  parentDigest := truthy parentDigest
  normalized := grants.property

def parsePrincipal : Option Json → Except ScopeError JsString
  | some (.object members) => do
      checkKeys members ["id", "issuer"] "Fabric scope principal"
      let id ← match Json.field? "id" (.object members) with
        | some (.string id) =>
            if id = [] || maxPrincipalChars < id.length
                || id.any (fun unit => unit ≤ 0x1F || unit = 0x7F) then
              .error ScopeError.principalId
            else .ok id
        | _ => .error ScopeError.principalId
      match Json.field? "issuer" (.object members) with
      | none => .ok id
      | some (.string issuer) => if issuer = lit "host" then .ok id else .error .issuer
      | _ => .error .issuer
  | _ => .error .principalShape

def parseParentDigest : Option Json → Except ScopeError (Option JsString)
  | none => .ok none
  | some (.string digest) =>
      if isDigest digest then .ok (some digest) else .error .parentDigest
  | _ => .error .parentDigest

def normalizeScope (input : ScopeInput) : Except ScopeError FabricScope :=
  match input with
  | .verified scope => .ok scope
  | .value (.object members) => do
      let field := fun name => Json.field? name (.object members)
      checkKeys members ["version", "principal", "grants", "digest", "parentDigest"]
        "Fabric scope"
      match field "version" with
        | none | some (.number (.int 1)) => Except.ok ()
        | _ => .error ScopeError.version
      let principalId ← parsePrincipal (field "principal")
      let parentDigest ← parseParentDigest (field "parentDigest")
      let grants ← normalizeGrants (field "grants")
      let scope := freeze sha256Hex principalId grants parentDigest
      match field "digest" with
      | none => .ok scope
      | some (.string digest) =>
          if digest = scope.digest then .ok scope else .error .digestMismatch
      | _ => .error .digestMismatch
  | .value _ => .error .scopeShape

def scopeAllows (scope : ScopeInput) (resource : JsString) (action : Action)
    : Except ScopeError Bool := do
  let target ← parseResource resource
  let scope ← normalizeScope sha256Hex scope
  scope.grants.anyM fun grant =>
    if action ∈ grant.actions then do
      let candidate ← parseResource grant.resource
      .ok (covers candidate target)
    else .ok false

def grantCovered (outer : FabricScope) (grant : Grant) : Except ScopeError Bool := do
  let target ← parseResource grant.resource
  outer.grants.anyM fun candidate =>
    if grant.actions.all (· ∈ candidate.actions) then do
      let granted ← parseResource candidate.resource
      .ok (covers granted target)
    else .ok false

/-- Fails with the first requested grant that no grant of `base` covers. -/
def requireCovered (base : FabricScope) (grant : Grant) : Except ScopeError PUnit := do
  if ← grantCovered base grant then .ok ⟨⟩
  else .error (.notCovered grant.resource grant.actions)

def deriveScope (parent : ScopeInput) (grants : Option Json) : Except ScopeError FabricScope := do
  let base ← normalizeScope sha256Hex parent
  let requested ← normalizeGrants grants
  requested.val.forM (requireCovered base)
  .ok (freeze sha256Hex base.principalId requested (some base.digest))

def scopeCovers (outer inner : ScopeInput) : Except ScopeError Bool := do
  let a ← normalizeScope sha256Hex outer
  let b ← normalizeScope sha256Hex inner
  if a.principalId = b.principalId then b.grants.allM (grantCovered a) else .ok false

end Digest

def Grant.Within (grant candidate : Grant) : Prop :=
  (∀ action ∈ grant.actions, action ∈ candidate.actions)
    ∧ ∃ granted target, parseResource candidate.resource = .ok granted
      ∧ parseResource grant.resource = .ok target ∧ covers granted target = true

variable {grant : Grant}

theorem Grant.Within.refl {parsed : ParsedResource}
    (parses : parseResource grant.resource = .ok parsed)
    : grant.Within grant :=
  ⟨fun _ member => member, parsed, parsed, parses, parses, covers_refl parsed⟩

/-- Grants chain: actions by inclusion, resources by coverage. -/
theorem Grant.Within.trans {inner middle outer : Grant} (h₁ : inner.Within middle)
    (h₂ : middle.Within outer)
    : inner.Within outer := by
  obtain ⟨actions₁, granted₁, target₁, read₁, parsed₁, covered₁⟩ := h₁
  obtain ⟨actions₂, granted₂, target₂, read₂, parsed₂, covered₂⟩ := h₂
  refine ⟨fun action member => actions₂ action (actions₁ action member), granted₂, target₁,
    read₂, parsed₁, ?_⟩
  obtain rfl : granted₁ = target₂ := Except.ok.inj (read₁.symm.trans parsed₂)
  exact covers_trans covered₂ covered₁

/-- `later` has the principal of `earlier` and only grants within its grants. -/
structure Narrows (earlier later : FabricScope) : Prop where
  principal : earlier.principalId = later.principalId
  grants : ∀ grant ∈ later.grants, ∃ candidate ∈ earlier.grants, grant.Within candidate

theorem Narrows.refl (scope : FabricScope) : Narrows scope scope where
  principal := rfl
  grants := by
    intro grant member
    obtain ⟨parsed, parses⟩ := scope.normalized.parses grant member
    exact ⟨grant, member, Grant.Within.refl parses⟩

theorem Narrows.trans {first second third : FabricScope} (h₁ : Narrows first second)
    (h₂ : Narrows second third)
    : Narrows first third where
  principal := h₁.principal.trans h₂.principal
  grants := by
    intro grant member
    obtain ⟨middle, inside, within₂⟩ := h₂.grants grant member
    obtain ⟨candidate, outside, within₁⟩ := h₁.grants middle inside
    exact ⟨candidate, outside, within₂.trans within₁⟩

instance : IsTrans FabricScope Narrows := ⟨fun _ _ _ => Narrows.trans⟩

def Allows (scope : FabricScope) (target : ParsedResource) (action : Action) : Prop :=
  ∃ grant ∈ scope.grants, action ∈ grant.actions
    ∧ ∃ granted, parseResource grant.resource = .ok granted ∧ covers granted target = true

variable {target : ParsedResource}

/-- Narrowing never allows more, by coverage of the allowing grant. -/
theorem Allows.of_narrows {earlier later : FabricScope} {action : Action}
    (narrows : Narrows earlier later) (h : Allows later target action)
    : Allows earlier target action := by
  obtain ⟨grant, member, acts, granted, read, covered⟩ := h
  obtain ⟨candidate, inside, actions, outer, inner, parsed, same, within_⟩ :=
    narrows.grants grant member
  refine ⟨candidate, inside, actions action acts, outer, parsed, ?_⟩
  obtain rfl : inner = granted := Except.ok.inj (same.symm.trans read)
  exact covers_trans within_ covered

/-- A normalized grant's resource, parsed; the fallback is never used. -/
def Grant.parsed (grant : Grant) : ParsedResource :=
  match parseResource grant.resource with
  | .ok parsed => parsed
  | .error _ =>
      { ns := [], all := true, absolute := false, segments := [], wildcard := .none }

theorem parse_eq {scope : FabricScope} (member : grant ∈ scope.grants)
    : parseResource grant.resource = .ok grant.parsed := by
  obtain ⟨parsed, parses⟩ := scope.normalized.parses grant member
  rw [Grant.parsed, parses]

/-- Whether a grant is covered is decided without failing, by the grants of the scope. -/
theorem grantCovered_eq {outer : FabricScope} (parses : parseResource grant.resource = .ok target)
    : grantCovered outer grant
      = .ok (outer.grants.any fun candidate =>
          grant.actions.all (· ∈ candidate.actions) && covers candidate.parsed target) := by
  rw [grantCovered, parses]
  apply anyM_eq_ok
  intro candidate member
  cases acts : grant.actions.all (· ∈ candidate.actions) with
  | false => rfl
  | true => simp [parse_eq member, bind, Except.bind]

theorem grantCovered_iff {outer : FabricScope} (parses : parseResource grant.resource = .ok target)
    : grantCovered outer grant = .ok true ↔ ∃ candidate ∈ outer.grants, grant.Within candidate := by
  rw [grantCovered_eq parses]
  simp only [Except.ok.injEq, List.any_eq_true, Bool.and_eq_true, List.all_eq_true,
    decide_eq_true_eq, Grant.Within]
  constructor
  · intro h
    obtain ⟨candidate, member, actions, covered⟩ := h
    exact ⟨candidate, member, actions, candidate.parsed, target, parse_eq member, parses,
      covered⟩
  · intro h
    obtain ⟨candidate, member, actions, granted, target', read, same, covered⟩ := h
    obtain rfl : target' = target := Except.ok.inj (same.symm.trans parses)
    obtain rfl : granted = candidate.parsed :=
      Except.ok.inj (read.symm.trans (parse_eq member))
    exact ⟨candidate, member, actions, covered⟩

section Digest

variable {sha256Hex : List UInt8 → JsString}

theorem scopeAllows_iff {scope : FabricScope} {resource : JsString} {action : Action}
    : scopeAllows sha256Hex (.verified scope) resource action = .ok true
      ↔ ∃ target, parseResource resource = .ok target ∧ Allows scope target action := by
  rw [scopeAllows, bind_eq_ok]
  refine exists_congr fun target => and_congr_right fun parses => ?_
  have decided
      : scope.grants.anyM (m := Except ScopeError) (fun grant =>
          if action ∈ grant.actions then do
            let candidate ← parseResource grant.resource
            .ok (covers candidate target)
          else .ok false)
        = .ok (scope.grants.any fun grant =>
          decide (action ∈ grant.actions) && covers grant.parsed target) := by
    apply anyM_eq_ok
    intro grant member
    by_cases acts : action ∈ grant.actions <;>
      simp [acts, parse_eq member, bind, Except.bind]
  simp only [normalizeScope, bind, Except.bind] at decided ⊢
  rw [decided]
  simp only [Except.ok.injEq, List.any_eq_true, Bool.and_eq_true, decide_eq_true_eq, Allows]
  constructor
  · intro h
    obtain ⟨grant, member, acts, covered⟩ := h
    exact ⟨grant, member, acts, grant.parsed, parse_eq member, covered⟩
  · intro h
    obtain ⟨grant, member, acts, granted, read, covered⟩ := h
    obtain rfl : granted = grant.parsed := Except.ok.inj (read.symm.trans (parse_eq member))
    exact ⟨grant, member, acts, covered⟩

/-- `scopeCovers` on two scopes decides whether the second narrows the first. -/
theorem scopeCovers_iff {outer inner : FabricScope}
    : scopeCovers sha256Hex (.verified outer) (.verified inner) = .ok true
      ↔ Narrows outer inner := by
  have decided : inner.grants.allM (grantCovered outer)
      = .ok (inner.grants.all fun grant => outer.grants.any fun candidate =>
          grant.actions.all (· ∈ candidate.actions) && covers candidate.parsed grant.parsed) :=
    allM_eq_ok fun grant member => grantCovered_eq (parse_eq member)
  simp only [scopeCovers, normalizeScope, bind, Except.bind]
  by_cases principal : outer.principalId = inner.principalId
  · rw [if_pos principal, decided]
    simp only [Except.ok.injEq, List.all_eq_true]
    constructor
    · intro h
      refine ⟨principal, ?_⟩
      intro grant member
      refine (grantCovered_iff (parse_eq member)).mp ?_
      rw [grantCovered_eq (parse_eq member), h grant member]
    · intro h grant member
      have covered := (grantCovered_iff (parse_eq member)).mpr (h.grants grant member)
      rw [grantCovered_eq (parse_eq member)] at covered
      exact Except.ok.inj covered
  · rw [if_neg principal]
    constructor
    · intro h
      simp at h
    · intro h
      exact absurd h.principal principal

theorem deriveScope_narrows {parent : ScopeInput} {base next : FabricScope}
    {grants : Option Json} (parentScope : normalizeScope sha256Hex parent = .ok base)
    (h : deriveScope sha256Hex parent grants = .ok next)
    : Narrows base next := by
  obtain ⟨parsed, same, h⟩ := bind_eq_ok.mp h
  obtain rfl : base = parsed := Except.ok.inj (parentScope.symm.trans same)
  obtain ⟨requested, -, h⟩ := bind_eq_ok.mp h
  obtain ⟨⟨⟩, checked, h⟩ := bind_eq_ok.mp h
  obtain rfl := Except.ok.inj h
  refine ⟨rfl, ?_⟩
  intro grant member
  obtain ⟨target, parses⟩ := requested.property.parses grant member
  have passed := forM_eq_ok.mp checked grant member
  obtain ⟨covered, result, passed⟩ := bind_eq_ok.mp passed
  cases covered with
  | false => simp at passed
  | true => exact (grantCovered_iff parses).mp result

end Digest

end PiFabric.Scope
