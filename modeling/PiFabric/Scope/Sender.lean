import PiFabric.Foundation.JsonObject
import PiFabric.Scope.Canonical
import PiFabric.Scope.Launch

/-! Sender stamps. A host stamps a message with the scope that it is sent with, and an actor trusts
the stamps of scopes that cover its own.
-/

namespace PiFabric.Scope

open JsString Outcome

inductive FabricMessageSender where
  | host
  | scope (principalId digest : JsString) (grants : Option (List Grant))
      (parentDigest : Option JsString)

def FabricMessageSender.json : FabricMessageSender → Json
  | host => .object [(lit "authority", .string (lit "host"))]
  | scope principalId digest grants parentDigest =>
      .object (
        [(lit "authority", .string (lit "scope")), (lit "principalId", .string principalId),
          (lit "digest", .string digest)]
        ++ (grants.toList.map fun grants => (lit "grants", .array (grants.map sentGrant)))
        ++ (parentDigest.toList.map fun digest => (lit "parentDigest", .string digest)))

def maxSenderGrantBytes : Nat := 4 * 1024

def fits (scope : FabricScope) : Bool :=
  (Json.bytes (.array (scope.grants.map sentGrant))).length ≤ maxSenderGrantBytes

def senderStamp : Option FabricScope → FabricMessageSender
  | none => .host
  | some scope =>
      if fits scope then
        .scope scope.principalId scope.digest (some scope.grants) (truthy scope.parentDigest)
      else .scope scope.principalId scope.digest none none

/-- The scope that a stamp with grants stands for, as it is passed to validation. -/
def stampedScope (sender grants : Json) (principalId : JsString) : Json :=
  .object (
    [(lit "principal", principalJson principalId), (lit "grants", grants)]
    ++ ((sender.field? "digest").toList.map fun digest => (lit "digest", digest))
    ++ ((sender.field? "parentDigest").toList.map fun digest => (lit "parentDigest", digest)))

def scopedTrust (actorScope : ScopeInput) (sender : Json) : Except ScopeError Bool := do
  let actor ← normalizeScope Sha256.hex actorScope
  if Json.text? (sender.field? "principalId") ≠ some actor.principalId then .ok false
  else
    match sender.field? "grants" with
    | none => .ok (Json.text? (sender.field? "digest") = some actor.digest)
    | some grants => do
        let stamped ← normalizeScope Sha256.hex (.value (stampedScope sender grants actor.principalId))
        scopeCovers Sha256.hex (.verified stamped) (.verified actor)

def senderTrusted (actorScope : Option ScopeInput) (sender : Option Json) : Bool :=
  match sender with
  | none => actorScope.isNone
  | some (.object members) =>
      let authority := Json.text? (Json.field? "authority" (.object members))
      if authority = some (lit "host") then true
      else if authority ≠ some (lit "scope") then false
      else
        match actorScope with
        | none => false
        | some actorScope =>
            match scopedTrust actorScope (.object members) with
            | .ok trusted => trusted
            | .error _ => false
  | some _ => false

/-- A value is a stamp of a scope, but for what validation does not look at: fields of other names,
and how the grants are split, ordered and repeated. Without grants the digest alone stands for the
scope.
-/
structure Stamps (scope : FabricScope) (value : Json) : Prop where
  authority : Json.text? (value.field? "authority") = some (lit "scope")
  principalId : Json.text? (value.field? "principalId") = some scope.principalId
  digest : value.field? "digest" = some (.string scope.digest)
  grants : value.field? "grants" = none
    ∨ (∃ grants : NormalGrants, normalizeGrants (value.field? "grants") = .ok grants
        ∧ grants.val = scope.grants)
      ∧ value.field? "parentDigest" = scope.parentDigest.map Json.string

variable {actorScope : ScopeInput} {actor : FabricScope} {value : Json}

theorem text_eq_some {found : Option Json} {text : JsString}
    (h : Json.text? found = some text) : found = some (.string text) := by
  unfold Json.text? at h
  split at h
  · rw [Option.some.inj h]
  · cases h

theorem senderTrusted_iff (read : normalizeScope Sha256.hex actorScope = .ok actor)
    (bounded : Json.text? (value.field? "authority") ≠ some (lit "host"))
    : senderTrusted (some actorScope) (some value) = true
      ↔ Json.text? (value.field? "authority") = some (lit "scope")
        ∧ Json.text? (value.field? "principalId") = some actor.principalId
        ∧ (value.field? "grants" = none ∧ Json.text? (value.field? "digest") = some actor.digest
          ∨ ∃ grants stamped, value.field? "grants" = some grants
            ∧ normalizeScope Sha256.hex (.value (stampedScope value grants actor.principalId))
              = .ok stamped
            ∧ Narrows stamped actor) := by
  cases value with
  | object members =>
      rw [senderTrusted, if_neg bounded]
      by_cases named : Json.text? (Json.field? "authority" (.object members)) = some (lit "scope")
      swap
      · rw [if_pos named]
        exact ⟨fun no => (by cases no), fun h => absurd h.1 named⟩
      rw [if_neg (not_not_intro named)]
      unfold scopedTrust
      rw [read]
      simp only [bind, Except.bind]
      by_cases same : Json.text? (Json.field? "principalId" (.object members)) = some actor.principalId
      swap
      · rw [if_pos same]
        exact ⟨fun no => (by cases no), fun h => absurd h.2.1 same⟩
      rw [if_neg (not_not_intro same)]
      cases given : Json.field? "grants" (.object members) with
      | none => simp [named, same]
      | some grants =>
          dsimp only
          simp only [named, same, true_and, reduceCtorEq, false_and, false_or, Option.some.injEq,
            ← @scopeCovers_iff Sha256.hex]
          cases stamped : normalizeScope Sha256.hex
              (.value (stampedScope (.object members) grants actor.principalId)) with
          | error reason =>
              refine ⟨fun no => (by cases no), fun ⟨_, scope, same_, returned, _⟩ => ?_⟩
              subst same_
              rw [stamped] at returned
              cases returned
          | ok scope =>
              constructor
              · intro trusted
                refine ⟨grants, scope, rfl, stamped, ?_⟩
                cases covers : scopeCovers Sha256.hex (.verified scope) (.verified actor) with
                | error reason => simp [covers] at trusted
                | ok covered =>
                    simp only [covers] at trusted
                    rw [trusted]
              · rintro ⟨_, other, rfl, returned, covered⟩
                obtain rfl := Except.ok.inj (stamped.symm.trans returned)
                simp only [covered]
  | _ =>
      refine ⟨fun no => (by cases no), fun h => ?_⟩
      cases h.1

variable {scope : FabricScope}

/-- A canonical scope is what validation makes of its parts. -/
theorem Canonical.freeze_eq (canonical : Canonical scope)
    : freeze Sha256.hex scope.principalId ⟨scope.grants, scope.normalized⟩ scope.parentDigest
      = scope := by
  have digest := canonical.digest
  have kept := truthy_of_isDigest canonical.parentDigest
  cases scope
  simp only [freeze] at digest kept ⊢
  rw [kept, digest]

theorem normalizeScope_of_parts {members : List (JsString × Json)} {principalId : JsString}
    {grants : NormalGrants} {parentDigest : Option JsString}
    (keys : checkKeys members ["version", "principal", "grants", "digest", "parentDigest"]
      "Fabric scope" = .ok ())
    (version : Json.field? "version" (.object members) = none)
    (principal : parsePrincipal (Json.field? "principal" (.object members)) = .ok principalId)
    (parent : parseParentDigest (Json.field? "parentDigest" (.object members)) = .ok parentDigest)
    (read : normalizeGrants (Json.field? "grants" (.object members)) = .ok grants)
    (digest : Json.field? "digest" (.object members)
      = some (.string (freeze Sha256.hex principalId grants parentDigest).digest))
    : normalizeScope Sha256.hex (.value (.object members))
      = .ok (freeze Sha256.hex principalId grants parentDigest) := by
  simp only [normalizeScope, keys, version, principal, parent, read, digest, bind, Except.bind,
    if_true]

theorem Canonical.normalizeScope_stamped (canonical : Canonical scope)
    (digest : value.field? "digest" = some (.string scope.digest))
    (parent : value.field? "parentDigest" = scope.parentDigest.map Json.string)
    : normalizeScope Sha256.hex (.value (stampedScope value (.array (scope.grants.map sentGrant))
        scope.principalId)) = .ok scope := by
  have grants := @normalizeGrants_sent ⟨scope.grants, scope.normalized⟩ canonical.grants
  have frozen := canonical.freeze_eq
  rw [stampedScope, digest, parent]
  have valid : parseParentDigest (scope.parentDigest.map Json.string) = .ok scope.parentDigest := by
    cases same : scope.parentDigest with
    | none => rfl
    | some digest =>
        simp only [Option.map_some, parseParentDigest, canonical.parentDigest digest same, if_true]
  have written : (freeze Sha256.hex scope.principalId ⟨scope.grants, scope.normalized⟩
      scope.parentDigest).digest = scope.digest := by rw [frozen]
  refine (@normalizeScope_of_parts _ scope.principalId ⟨scope.grants, scope.normalized⟩
    scope.parentDigest ?_ ?_ ?_ ?_ ?_ ?_).trans (congrArg Except.ok frozen)
  · cases scope.parentDigest <;> rfl
  · cases scope.parentDigest <;> rfl
  · refine Eq.trans (congrArg parsePrincipal ?_) canonical.principal
    cases scope.parentDigest <;> rfl
  · refine Eq.trans (congrArg parseParentDigest ?_) valid
    cases scope.parentDigest <;> rfl
  · refine Eq.trans (congrArg normalizeGrants ?_) grants
    cases scope.parentDigest <;> rfl
  · rw [written]
    cases scope.parentDigest <;> rfl

theorem senderStamp_fields (scope : FabricScope)
    : Json.text? ((senderStamp (some scope)).json.field? "authority") = some (lit "scope")
      ∧ Json.text? ((senderStamp (some scope)).json.field? "principalId") = some scope.principalId
      ∧ (senderStamp (some scope)).json.field? "digest" = some (.string scope.digest)
      ∧ (senderStamp (some scope)).json.field? "grants"
        = (if fits scope then some (.array (scope.grants.map sentGrant)) else none)
      ∧ (fits scope = true → (senderStamp (some scope)).json.field? "parentDigest"
        = (truthy scope.parentDigest).map Json.string) := by
  unfold senderStamp
  dsimp only
  cases fits scope with
  | false => exact ⟨rfl, rfl, rfl, rfl, fun no => by cases no⟩
  | true => cases truthy scope.parentDigest <;> exact ⟨rfl, rfl, rfl, rfl, fun _ => rfl⟩

theorem senderTrusted_host (sender : Option ScopeInput)
    : senderTrusted sender (some (senderStamp none).json) = true := rfl

/-- The stamp of a scope is trusted where the scope covers the actor's, if its grants are sent, and
only there, if no other scope has its digest.
-/
theorem senderTrusted_senderStamp {sender : FabricScope} (issued : Canonical sender)
    (read : normalizeScope Sha256.hex actorScope = .ok actor)
    : senderTrusted (some actorScope) (some (senderStamp (some sender)).json) = true
      ↔ if fits sender then Narrows sender actor
        else sender.principalId = actor.principalId ∧ sender.digest = actor.digest := by
  obtain ⟨authority, principal, digest, grants, parent⟩ := senderStamp_fields sender
  have bounded : Json.text? ((senderStamp (some sender)).json.field? "authority")
      ≠ some (lit "host") := by
    rw [authority]
    decide
  have stamped : Json.text? ((senderStamp (some sender)).json.field? "digest")
      = some sender.digest := congrArg Json.text? digest
  rw [senderTrusted_iff read bounded]
  simp only [authority, principal, grants, stamped, true_and, Option.some.injEq]
  by_cases small : fits sender = true
  · rw [if_pos small, if_pos small]
    have kept := (parent small).trans
      (congrArg (Option.map Json.string) (truthy_of_isDigest issued.parentDigest))
    constructor
    · rintro ⟨same, ⟨no, _⟩ | ⟨_, stamped, sent, returned, covers⟩⟩
      · cases no
      · obtain rfl := Option.some.inj sent
        rw [← same, issued.normalizeScope_stamped digest kept] at returned
        rw [Except.ok.inj returned]
        exact covers
    · intro covers
      refine ⟨covers.principal, Or.inr ⟨_, sender, rfl, ?_, covers⟩⟩
      rw [← covers.principal]
      exact issued.normalizeScope_stamped digest kept
  · rw [if_neg small, if_neg small]
    simp

theorem exists_stamps (read : normalizeScope Sha256.hex actorScope = .ok actor)
    (bound : Issued actor) (bounded : Json.text? (value.field? "authority") ≠ some (lit "host"))
    (carried : (value.field? "digest").isSome = true)
    (trusted : senderTrusted (some actorScope) (some value) = true)
    : ∃ scope, Issued scope ∧ Narrows scope actor ∧ Stamps scope value
      ∧ (value.field? "grants" = none → scope = actor) := by
  obtain ⟨authority, principal, ⟨absent, digest⟩ | ⟨grants, scope, given, returned, covers⟩⟩ :=
    (senderTrusted_iff read bounded).mp trusted
  · exact ⟨actor, bound, .refl actor,
      ⟨authority, principal, text_eq_some digest, Or.inl absent⟩, fun _ => rfl⟩
  · have parts := normalizeScope_value returned
    have fields : Json.field? "grants" (stampedScope value grants actor.principalId) = some grants
        ∧ Json.field? "digest" (stampedScope value grants actor.principalId)
          = value.field? "digest"
        ∧ Json.field? "parentDigest" (stampedScope value grants actor.principalId)
          = value.field? "parentDigest" := by
      unfold stampedScope
      cases value.field? "digest" <;> cases value.field? "parentDigest" <;> exact ⟨rfl, rfl, rfl⟩
    rw [stampedScope] at fields
    rw [fields.1, fields.2.1, fields.2.2] at parts
    obtain ⟨-, read', parent, -, agrees⟩ := parts
    obtain ⟨digest, found⟩ := Option.isSome_iff_exists.mp carried
    refine ⟨scope, .normalize returned, covers,
      ⟨authority, covers.principal ▸ principal, ?_, Or.inr ⟨?_, ?_⟩⟩, fun absent => ?_⟩
    · rw [found, agrees digest found]
    · rw [given]
      exact read'
    · exact (parseParentDigest_valid parent).1.symm
    · rw [given] at absent
      cases absent

theorem scopeCovers_read {outer : FabricScope}
    (read : normalizeScope Sha256.hex actorScope = .ok actor)
    : scopeCovers Sha256.hex (.verified outer) actorScope = .ok true ↔ Narrows outer actor := by
  rw [← @scopeCovers_iff Sha256.hex, scopeCovers, read, scopeCovers]
  rfl

/-- **A stamp makes an actor trust no scope that does not cover its own**, where SHA-256 has no
collisions: the stamp of a scope is trusted only if the scope covers the actor's, and is trusted if
its grants are sent as well; and any value with a digest that is trusted without being the host's is
a stamp of a covering scope, but for what validation does not look at, or has the digest of the
actor's own scope alone. Whatever grants it lists, it is not trusted with the digest of a scope that
does not cover the actor's.
-/
theorem sender_stamps_are_trusted_of_covering_scopes {texts : Set (List UInt8)}
    (injective : texts.InjOn Sha256.hex) (read : normalizeScope Sha256.hex actorScope = .ok actor)
    (bound : Issued actor) (own : actor.text ∈ texts)
    : (∀ sender : Option FabricScope,
        (∀ scope ∈ sender, Issued scope ∧ scope.text ∈ texts) →
        (senderTrusted (some actorScope) (Json.parse (Json.stringify (senderStamp sender).json))
            = true →
          ∀ scope ∈ sender, scopeCovers Sha256.hex (.verified scope) actorScope = .ok true)
        ∧ ((∀ scope ∈ sender, fits scope = true
            ∧ scopeCovers Sha256.hex (.verified scope) actorScope = .ok true) →
          senderTrusted (some actorScope)
            (Json.parse (Json.stringify (senderStamp sender).json)) = true))
      ∧ ∀ value : Json, senderTrusted (some actorScope) (some value) = true →
        Json.text? (value.field? "authority") ≠ some (lit "host") →
        (value.field? "digest").isSome = true →
        (∃ scope, Issued scope
          ∧ scopeCovers Sha256.hex (.verified scope) actorScope = .ok true
          ∧ Stamps scope value ∧ (value.field? "grants" = none → scope = actor))
        ∧ ∀ scope, Issued scope → scope.text ∈ texts →
          (∀ stamped, Issued stamped → Stamps stamped value → stamped.text ∈ texts) →
          value.field? "digest" = some (.string scope.digest) →
          scopeCovers Sha256.hex (.verified scope) actorScope = .ok true := by
  have same {left right : FabricScope} (hl : Issued left) (hr : Issued right)
      (inside : left.text ∈ texts) (inside' : right.text ∈ texts)
      (digests : left.digest = right.digest) : left = right := by
    rw [hl.canonical.digest_eq, hr.canonical.digest_eq] at digests
    exact hl.canonical.eq_of_text hr.canonical (injective inside inside' digests)
  simp only [scopeCovers_read read, Json.parse_stringify]
  refine ⟨fun sender known => ?_, fun value trusted bounded carried => ?_⟩
  · cases sender with
    | none => exact ⟨fun _ _ none_ => (by cases none_), fun _ => senderTrusted_host _⟩
    | some sender =>
        obtain ⟨issued, inside⟩ := known sender rfl
        rw [senderTrusted_senderStamp issued.canonical read]
        constructor
        · rintro trusted _ ⟨⟩
          by_cases small : fits sender = true
          · rwa [if_pos small] at trusted
          · rw [if_neg small] at trusted
            rw [same issued bound inside own trusted.2]
            exact .refl actor
        · intro covers
          obtain ⟨small, covered⟩ := covers sender rfl
          rw [if_pos small]
          exact covered
  · obtain ⟨scope, issued, covers, stamps, alone⟩ :=
      exists_stamps read bound bounded carried trusted
    refine ⟨⟨scope, issued, covers, stamps, alone⟩, fun other known inside listed digest => ?_⟩
    have digests : other.digest = scope.digest :=
      (Json.string.inj (Option.some.inj (stamps.digest.symm.trans digest))).symm
    rw [same known issued inside (listed scope issued stamps) digests]
    exact covers

theorem Canonical.issued (canonical : Canonical scope) : Issued scope := by
  let value : Json := .object ([(lit "digest", .string scope.digest)]
    ++ (scope.parentDigest.toList.map fun digest => (lit "parentDigest", .string digest)))
  have digest : value.field? "digest" = some (.string scope.digest) := by
    unfold value
    cases scope.parentDigest <;> rfl
  have parent : value.field? "parentDigest" = scope.parentDigest.map Json.string := by
    unfold value
    cases scope.parentDigest <;> rfl
  exact .normalize (canonical.normalizeScope_stamped digest parent)

theorem treeScope_issued : Issued treeScope :=
  (freeze_canonical rfl ⟨by simp [treeGrants], by decide, by decide⟩
    fun _ none_ => by cases none_).issued

theorem sender_stamps_are_trusted_of_covering_scopes_tree
    : senderTrusted (some (.verified treeScope))
        (Json.parse (Json.stringify (senderStamp (some treeScope)).json)) = true := by
  have small : fits treeScope = true := by decide +kernel
  refine ((@sender_stamps_are_trusted_of_covering_scopes _ _ {treeScope.text}
    (Set.injOn_singleton _ _) rfl treeScope_issued rfl).1 (some treeScope) ?_).2 ?_
  · rintro _ ⟨⟩
    exact ⟨treeScope_issued, rfl⟩
  · rintro _ ⟨⟩
    exact ⟨small, scopeCovers_iff.mpr (.refl treeScope)⟩

def editedStamp : FabricMessageSender :=
  .scope (lit "p") treeScope.digest
    (some [{ resource := lit "fs:/a/**", actions := [.write, .read] }]) none

theorem edited_stamp_is_trusted
    : ∃ (actor : FabricScope) (value : Json), Issued actor
      ∧ Json.text? (value.field? "authority") ≠ some (lit "host")
      ∧ (∀ sender : Option FabricScope, (∀ scope ∈ sender, Issued scope) →
          (senderStamp sender).json ≠ value)
      ∧ senderTrusted (some (.verified actor)) (some value) = true := by
  have authority : Json.text? (editedStamp.json.field? "authority") = some (lit "scope") := rfl
  have bounded : Json.text? (editedStamp.json.field? "authority") ≠ some (lit "host") := by
    rw [authority]
    decide
  refine ⟨treeScope, editedStamp.json, treeScope_issued, bounded, fun sender issued same => ?_, ?_⟩
  · have grants : editedStamp.json.field? "grants"
        = some (.array ([⟨lit "fs:/a/**", [.write, .read]⟩].map sentGrant)) := rfl
    rw [← same] at grants authority
    cases sender with
    | none => cases authority
    | some scope =>
        rw [(senderStamp_fields scope).2.2.2.1] at grants
        split at grants
        swap
        · cases grants
        have sorted := (issued scope rfl).canonical.grants
        have edited := List.map_injective_iff.mpr sentGrant_injective
          (Json.array.inj (Option.some.inj grants))
        have ordered := sorted.ordered ⟨lit "fs:/a/**", [.write, .read]⟩ (by simp [edited])
        revert ordered
        decide
  · have merged : normalizeGrants (some (.array
        ([⟨lit "fs:/a/**", [.write, .read]⟩].map sentGrant))) = .ok treeGrants := by
      refine normalizeGrants_eq_ok (JsMap.empty.set (lit "fs:/a/**") [.write, .read])
        (by decide) rfl ?_
      simp only [sortedGrants, JsMap.keys, JsMap.set, JsMap.empty, JsMap.setEntries,
        List.map_cons, List.map_nil, List.mergeSort_singleton]
      rfl
    have digest (digest : JsString) : Json.field? "digest" (stampedScope
        (FabricMessageSender.scope (lit "p") digest
          (some [⟨lit "fs:/a/**", [.write, .read]⟩]) none).json
        (.array ([⟨lit "fs:/a/**", [.write, .read]⟩].map sentGrant)) (lit "p"))
        = some (.string digest) := rfl
    have returned : normalizeScope Sha256.hex (.value (stampedScope editedStamp.json
        (.array ([⟨lit "fs:/a/**", [.write, .read]⟩].map sentGrant)) (lit "p")))
        = .ok treeScope :=
      @normalizeScope_of_parts _ (lit "p") treeGrants none rfl rfl rfl rfl merged
        (digest treeScope.digest)
    have principal : Json.text? (editedStamp.json.field? "principalId") = some (lit "p") := rfl
    have grants : editedStamp.json.field? "grants"
        = some (.array ([⟨lit "fs:/a/**", [.write, .read]⟩].map sentGrant)) := rfl
    exact (@senderTrusted_iff (.verified treeScope) treeScope editedStamp.json rfl bounded).mpr
      ⟨authority, principal, Or.inr ⟨_, treeScope, grants, returned, .refl treeScope⟩⟩

end PiFabric.Scope
