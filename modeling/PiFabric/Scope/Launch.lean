import PiFabric.Foundation.Sha256
import PiFabric.Scope.Authority

/-! Scopes of launched children. A launch narrows the session's scope or a forwarded one that
the session's scope covers, so along any chain of launches authority only shrinks.
-/

namespace PiFabric.Scope

open JsString Outcome

structure ScopeHolder where
  sealed : Bool
  scope : Option FabricScope
  error : Option JsString

def sessionScope (state : ScopeHolder) : Except ScopeError (Option FabricScope) :=
  match truthy state.error with
  | some reason => .error (.issuance reason)
  | none => .ok state.scope

def requestLabel : String :=
  "scope (only grants can be narrowed; a program never sets a principal)"

section Digest

variable (sha256Hex : List UInt8 → JsString)

def narrowScope (parent : Option FabricScope) (request : Option Json)
    : Except ScopeError (Option FabricScope) :=
  match request with
  | none => .ok parent
  | some (.object members) => do
      checkKeys members ["grants"] requestLabel
      match parent with
      | none => .error .unscopedParent
      | some parent =>
          (deriveScope sha256Hex (.verified parent) (Json.field? "grants" (.object members))).map
            some
  | some _ => .error .requestShape

def childScope (state : ScopeHolder) (request : Option Json)
    : Except ScopeError (Option FabricScope) := do
  narrowScope sha256Hex (← sessionScope state) request

def forwardedScope (inherited : ScopeInput) : Except ScopeError FabricScope :=
  match normalizeScope sha256Hex inherited with
  | .ok scope => .ok scope
  | .error reason => .error (.invalidForwarded reason)

def requireSession (session : Option FabricScope) (parent : FabricScope)
    : Except ScopeError PUnit :=
  match session with
  | none => .ok ⟨⟩
  | some session => do
      if ← scopeCovers sha256Hex (.verified session) (.verified parent) then .ok ⟨⟩
      else .error .forwardedNotCovered

/-- Scope for a launch whose parent scope may have been forwarded. -/
def launchScope (state : ScopeHolder) (request : Option Json) (inherited : Option ScopeInput)
    : Except ScopeError (Option FabricScope) :=
  match inherited with
  | none => childScope sha256Hex state request
  | some inherited => do
      let parent ← forwardedScope sha256Hex inherited
      let session ← sessionScope state
      requireSession sha256Hex session parent
      narrowScope sha256Hex (some parent) request

/-- One narrowing call that succeeds, from a parent scope to the resulting one. -/
inductive Step : FabricScope → FabricScope → Prop
  /-- `deriveScope` from the scope it is given. -/
  | derive {parent : ScopeInput} {grants : Option Json} {earlier later : FabricScope}
      (base : normalizeScope sha256Hex parent = .ok earlier)
      (call : deriveScope sha256Hex parent grants = .ok later)
      : Step earlier later
  /-- `launchScope` from the scope that was forwarded. -/
  | forwarded {state : ScopeHolder} {request : Option Json} {inherited : ScopeInput}
      {earlier later : FabricScope}
      (base : normalizeScope sha256Hex inherited = .ok earlier)
      (call : launchScope sha256Hex state request (some inherited) = .ok (some later))
      : Step earlier later
  /-- `launchScope` in a session that has a scope, with or without a forwarded one. -/
  | session {state : ScopeHolder} {request : Option Json} {inherited : Option ScopeInput}
      {earlier later : FabricScope}
      (base : state.scope = some earlier)
      (call : launchScope sha256Hex state request inherited = .ok (some later))
      : Step earlier later
  /-- `childScope` in a session that has a scope. -/
  | child {state : ScopeHolder} {request : Option Json} {earlier later : FabricScope}
      (base : state.scope = some earlier)
      (call : childScope sha256Hex state request = .ok (some later))
      : Step earlier later

end Digest

section Narrowing

variable {sha256Hex : List UInt8 → JsString}

variable {state : ScopeHolder}

theorem sessionScope_eq {scope : Option FabricScope} (h : sessionScope state = .ok scope)
    : scope = state.scope := by
  unfold sessionScope at h
  split at h
  · exact absurd h (by simp)
  · exact (Except.ok.inj h).symm

variable {request : Option Json} {later : FabricScope}

theorem narrowScope_narrows {parent : Option FabricScope}
    (h : narrowScope sha256Hex parent request = .ok (some later))
    : ∃ earlier, parent = some earlier ∧ Narrows earlier later := by
  unfold narrowScope at h
  split at h
  · exact ⟨later, Except.ok.inj h, Narrows.refl later⟩
  · next members =>
      obtain ⟨-, -, h⟩ := bind_eq_ok.mp h
      cases parent with
      | none => exact absurd h (by simp)
      | some parent =>
          obtain ⟨scope, derived, same⟩ := map_eq_ok.mp h
          rw [← Option.some.inj same]
          exact ⟨parent, rfl, deriveScope_narrows rfl derived⟩
  · exact absurd h (by simp)

theorem childScope_narrows (h : childScope sha256Hex state request = .ok (some later))
    : ∃ earlier, state.scope = some earlier ∧ Narrows earlier later := by
  obtain ⟨session, read, h⟩ := bind_eq_ok.mp h
  rw [← sessionScope_eq read]
  exact narrowScope_narrows h

theorem launchScope_forwarded_narrows {inherited : ScopeInput}
    (h : launchScope sha256Hex state request (some inherited) = .ok (some later))
    : ∃ forwarded, normalizeScope sha256Hex inherited = .ok forwarded
      ∧ Narrows forwarded later
      ∧ ∀ session, state.scope = some session → Narrows session later := by
  obtain ⟨forwarded, read, h⟩ := bind_eq_ok.mp h
  obtain ⟨session, current, h⟩ := bind_eq_ok.mp h
  obtain ⟨⟨⟩, covered, h⟩ := bind_eq_ok.mp h
  obtain ⟨parent, same, narrows⟩ := narrowScope_narrows h
  obtain rfl := Option.some.inj same
  refine ⟨forwarded, ?_, narrows, ?_⟩
  · unfold forwardedScope at read
    split at read
    · next scope normal => rw [normal, Except.ok.inj read]
    · exact absurd read (by simp)
  · intro scope held
    obtain rfl : session = some scope := (sessionScope_eq current).trans held
    obtain ⟨result, checked, passed⟩ := bind_eq_ok.mp covered
    cases result with
    | false => simp at passed
    | true => exact (scopeCovers_iff.mp checked).trans narrows

theorem Step.narrows {earlier : FabricScope} (step : Step sha256Hex earlier later)
    : Narrows earlier later := by
  cases step with
  | derive base call => exact deriveScope_narrows base call
  | forwarded base call =>
      obtain ⟨forwarded, same, narrows, -⟩ := launchScope_forwarded_narrows call
      obtain rfl := Except.ok.inj (base.symm.trans same)
      exact narrows
  | session base call =>
      rename_i inherited
      cases inherited with
      | none =>
          obtain ⟨scope, held, narrows⟩ := childScope_narrows call
          obtain rfl := Option.some.inj (base.symm.trans held)
          exact narrows
      | some inherited =>
          obtain ⟨-, -, -, narrows⟩ := launchScope_forwarded_narrows call
          exact narrows _ base
  | child base call =>
      obtain ⟨scope, held, narrows⟩ := childScope_narrows call
      obtain rfl := Option.some.inj (base.symm.trans held)
      exact narrows

/-- What one scope grants at most what another does, in the terms of the scope functions. -/
structure AtMost (sha256Hex : List UInt8 → JsString) (earlier later : FabricScope) : Prop where
  allows : ∀ resource action,
    scopeAllows sha256Hex (.verified later) resource action = .ok true
    → scopeAllows sha256Hex (.verified earlier) resource action = .ok true
  principal : earlier.principalId = later.principalId
  covers : scopeCovers sha256Hex (.verified earlier) (.verified later) = .ok true

theorem Narrows.atMost {earlier : FabricScope} (h : Narrows earlier later)
    : AtMost sha256Hex earlier later where
  allows := by
    intro resource action allowed
    obtain ⟨target, parses, allows⟩ := scopeAllows_iff.mp allowed
    exact scopeAllows_iff.mpr ⟨target, parses, allows.of_narrows h⟩
  principal := h.principal
  covers := scopeCovers_iff.mpr h

/-- Along a chain of calls every earlier scope narrows to every later one, by induction over
the chain.
-/
theorem chain_narrows {scopes : List FabricScope} (chain : scopes.IsChain (Step sha256Hex))
    : scopes.Pairwise Narrows :=
  List.isChain_iff_pairwise.mp (chain.imp fun _ _ step => step.narrows)

end Narrowing

/-- Coverage between parsed resources is inclusion of the concrete resources they match, but
for a wildcard without room; and no chain of narrowing calls widens authority.
-/
theorem scope_narrowing (sha256Hex : List UInt8 → JsString)
    : (∀ outerText innerText outer inner,
        parseResource outerText = .ok outer
        → parseResource innerText = .ok inner
        → (covers outer inner = true ↔ Includes outer inner ∧ ¬NoRoom outer inner))
      ∧ ∀ scopes : List FabricScope,
        scopes.IsChain (Step sha256Hex)
        → scopes.Pairwise (AtMost sha256Hex) := by
  refine ⟨?_, ?_⟩
  · intro outerText innerText outer inner _ parsed
    exact covers_iff_includes parsed
  · intro scopes chain
    exact (chain_narrows chain).imp Narrows.atMost

def treeGrants : NormalGrants where
  val := [{ resource := lit "fs:/a/**", actions := [.read, .write] }]
  property :=
    normalized_singleton ⟨lit "fs", false, true, [lit "a"], .any⟩ rfl (by simp)

def pathGrants : NormalGrants where
  val := [{ resource := lit "fs:/a/b", actions := [.read] }]
  property :=
    normalized_singleton ⟨lit "fs", false, true, [lit "a", lit "b"], .none⟩ rfl
      (by simp)

def treeScope : FabricScope :=
  freeze Sha256.hex (lit "p") treeGrants none

def pathScope : FabricScope :=
  freeze Sha256.hex (lit "p") pathGrants (some treeScope.digest)

def pathRequest : List Json :=
  [.object [(lit "resource", .string (lit "fs:/a/b")),
    (lit "actions", .array [.string (lit "read")])]]

theorem deriveScope_pathRequest
    : deriveScope Sha256.hex (.verified treeScope) (some (.array pathRequest))
      = .ok pathScope := by
  have grants : normalizeGrants (some (.array pathRequest)) = .ok pathGrants := by
    refine normalizeGrants_eq_ok (JsMap.empty.set (lit "fs:/a/b") [.read])
      (by decide) rfl ?_
    simp only [sortedGrants, JsMap.keys, JsMap.set, JsMap.empty, JsMap.setEntries, List.map_cons,
      List.map_nil, List.mergeSort_singleton]
    rfl
  rw [deriveScope, grants]
  rfl

/-- Witness: a derivation of one path from the tree above it. -/
theorem scope_narrowing_derive
    : (covers ⟨lit "fs", false, true, [lit "a"], .any⟩
          ⟨lit "fs", false, true, [lit "a", lit "b"], .none⟩ = true
        ↔ Includes ⟨lit "fs", false, true, [lit "a"], .any⟩
            ⟨lit "fs", false, true, [lit "a", lit "b"], .none⟩
          ∧ ¬NoRoom ⟨lit "fs", false, true, [lit "a"], .any⟩
            ⟨lit "fs", false, true, [lit "a", lit "b"], .none⟩)
      ∧ [treeScope, pathScope].Pairwise (AtMost Sha256.hex) := by
  refine ⟨(scope_narrowing Sha256.hex).1 (lit "fs:/a/**") (lit "fs:/a/b") _ _ rfl rfl,
    (scope_narrowing Sha256.hex).2 _ ?_⟩
  simp only [List.isChain_cons_cons, List.isChain_singleton, and_true]
  exact @Step.derive _ (.verified treeScope) _ _ _ rfl deriveScope_pathRequest

end PiFabric.Scope
