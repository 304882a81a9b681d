import PiFabric.Foundation.JsMap
import PiFabric.Foundation.JsonRoundTrip
import PiFabric.Foundation.Outcome
import PiFabric.Scope.Coverage

/-! Grants and scopes: validation, the canonical form, and what a scope allows.
A scope carries the proof that its grants are in the form validation leaves them in, so the
functions on scopes never fail on a scope that was built.
-/

namespace PiFabric.Scope

open JsString Outcome

def allActions : List Action :=
  [.read, .write, .execute]

def Action.name : Action → JsString
  | .read => lit "read"
  | .write => lit "write"
  | .execute => lit "execute"

structure Grant where
  resource : JsString
  actions : List Action
  deriving DecidableEq

def joinWith (separator : JsString) (texts : List JsString) : JsString :=
  separator.intercalate texts

def ScopeError.message : ScopeError → JsString
  | .resourceLength => lit "Scope resource must be a string of 1-512 characters"
  | .invalidResource resource =>
      lit "Invalid scope resource " ++ Json.quote resource
        ++ lit ": expected <ns>:<path>, <ns>:<path>/*, <ns>:<path>/** or <ns>:*"
  | .unsupportedFields label fields =>
      lit label ++ lit " has unsupported fields: " ++ joinWith (lit ", ") fields
  | .grantsShape => lit "Scope grants must be an array of at most 64 grants"
  | .grantShape => lit "Each scope grant must be an object \x7b resource, actions \x7d"
  | .grantActions resource =>
      lit "Scope grant " ++ resource ++ lit " needs actions from read, write, execute"
  | .scopeShape => lit "A Fabric scope must be an object \x7b principal, grants \x7d"
  | .version => lit "Fabric scope version must be 1"
  | .principalShape =>
      lit "Fabric scope principal must be an object \x7b id, issuer: \"host\" \x7d"
  | .principalId => lit "Fabric scope principal id must be 1-128 printable characters"
  | .issuer => lit "Fabric scope principal issuer must be \"host\""
  | .parentDigest => lit "Fabric scope parentDigest must be a lowercase sha256 hex digest"
  | .digestMismatch => lit "Fabric scope digest does not match its canonical content"
  | .notCovered resource actions =>
      lit "Scope grant " ++ resource ++ lit " ["
        ++ joinWith (lit ", ") (actions.map Action.name)
        ++ lit "] is not covered by the parent scope"
  | .issuance reason =>
      lit "Fabric scope issuance failed; provider calls are refused: " ++ reason
  | .invalidForwarded reason => lit "Invalid forwarded Fabric scope: " ++ reason.message
  | .forwardedNotCovered =>
      lit "A forwarded Fabric scope must be covered by this session's scope"
  | .requestShape => lit "scope must be an object \x7b grants \x7d"
  | .unscopedParent =>
      lit ("scope narrowing requires a scoped parent session; "
        ++ "this session has no host-issued principal")

def checkKeys (members : List (JsString × Json)) (allowed : List String) (label : String)
    : Except ScopeError Unit :=
  let unknown := (members.map Prod.fst).filter (fun key => key ∉ allowed.map lit)
  if unknown.length > 0 then .error (.unsupportedFields label unknown) else .ok ()

def parseResourceValue : Option Json → Except ScopeError (JsString × ParsedResource)
  | some (.string resource) => (parseResource resource).map fun parsed => (resource, parsed)
  | _ => .error .resourceLength

def actionOf? : Json → Option Action
  | .string text => allActions.find? (fun action => action.name = text)
  | _ => none

/-- The actions of one grant: one to six entries, all of them known. -/
def parseActions (resource : JsString) : Option Json → Except ScopeError (List Action)
  | some (.array items) =>
      if items.length = 0 || allActions.length * 2 < items.length then
        .error (.grantActions resource)
      else
        match items.mapM actionOf? with
        | some actions => .ok actions
        | none => .error (.grantActions resource)
  | _ => .error (.grantActions resource)

def mergeGrant (merged : JsMap JsString (List Action)) (grant : Json)
    : Except ScopeError (JsMap JsString (List Action)) :=
  match grant with
  | .object members => do
      checkKeys members ["resource", "actions"] "Scope grant"
      let (resource, _) ← parseResourceValue (grant.field? "resource")
      let actions ← parseActions resource (grant.field? "actions")
      let set := (merged.get? resource).getD []
      .ok (merged.set resource (set ++ actions))
  | _ => .error .grantShape

def mergeGrants (items : List Json) : Except ScopeError (JsMap JsString (List Action)) :=
  items.foldlM mergeGrant JsMap.empty

def sortedGrants (merged : JsMap JsString (List Action)) : List Grant :=
  (merged.keys.mergeSort JsString.le).map fun resource => {
    resource
    actions := allActions.filter (fun action => action ∈ (merged.get? resource).getD [])
  }

/-- What validation guarantees of the grants it returns. -/
structure Normalized (grants : List Grant) : Prop where
  parses : ∀ grant ∈ grants, ∃ parsed, parseResource grant.resource = .ok parsed
  acts : ∀ grant ∈ grants, grant.actions ≠ []
  distinct : (grants.map Grant.resource).Nodup

theorem normalized_singleton {grant : Grant} (parsed : ParsedResource)
    (parses : parseResource grant.resource = .ok parsed) (acts : grant.actions ≠ [])
    : Normalized [grant] where
  parses := by simpa using ⟨parsed, parses⟩
  acts := by simpa using acts
  distinct := by simp

/-- What holds of the grants merged so far. -/
structure Merged (merged : JsMap JsString (List Action)) : Prop where
  parses : ∀ entry ∈ merged.entries, ∃ parsed, parseResource entry.1 = .ok parsed
  acts : ∀ entry ∈ merged.entries, entry.2 ≠ []

theorem actions_nonempty {resource : JsString} {value : Option Json} {actions : List Action}
    (h : parseActions resource value = .ok actions)
    : actions ≠ [] := by
  unfold parseActions at h
  split at h
  · next items =>
      split at h
      · exact absurd h (by simp)
      next count =>
      split at h
      · next read =>
          obtain rfl := Except.ok.inj h
          cases items with
          | nil => simp at count
          | cons item rest =>
              simp only [List.mapM_cons, Option.bind_eq_bind, Option.bind_eq_some_iff,
                Option.pure_def] at read
              obtain ⟨first, -, others, -, same⟩ := read
              rw [← Option.some.inj same]
              exact List.cons_ne_nil first others
      · exact absurd h (by simp)
  · exact absurd h (by simp)

/-- Merging one more grant keeps what holds of the merged ones. -/
theorem Merged.step {merged next : JsMap JsString (List Action)} {grant : Json}
    (h : Merged merged) (step : mergeGrant merged grant = .ok next)
    : Merged next := by
  unfold mergeGrant at step
  split at step
  · next members =>
      obtain ⟨-, -, step⟩ := bind_eq_ok.mp step
      obtain ⟨⟨resource, parsed⟩, read, step⟩ := bind_eq_ok.mp step
      obtain ⟨actions, acts, step⟩ := bind_eq_ok.mp step
      have parses : parseResource resource = .ok parsed := by
        unfold parseResourceValue at read
        split at read
        · next text =>
            obtain ⟨result, value, same⟩ := map_eq_ok.mp read
            simp only [Prod.mk.injEq] at same
            rw [← same.1, value, same.2]
        · exact absurd read (by simp)
      obtain rfl := Except.ok.inj step
      constructor
      · intro entry member
        rcases (JsMap.mem_setEntries merged.distinct).mp member with rfl | ⟨old, -⟩
        · exact ⟨parsed, parses⟩
        · exact h.parses entry old
      · intro entry member
        rcases (JsMap.mem_setEntries merged.distinct).mp member with rfl | ⟨old, -⟩
        · simp [actions_nonempty acts]
        · exact h.acts entry old
  · exact absurd step (by simp)

theorem Merged.run {items : List Json} {merged next : JsMap JsString (List Action)}
    (h : Merged merged) (run : items.foldlM mergeGrant merged = .ok next)
    : Merged next := by
  induction items generalizing merged with
  | nil =>
      simp only [List.foldlM_nil] at run
      rwa [← Except.ok.inj run]
  | cons item rest ih =>
      rw [List.foldlM_cons] at run
      obtain ⟨middle, step, run⟩ := bind_eq_ok.mp run
      exact ih (h.step step) run

theorem mem_allActions (action : Action) : action ∈ allActions := by
  cases action <;> decide

theorem sortedGrants_normalized {merged : JsMap JsString (List Action)} (h : Merged merged)
    : Normalized (sortedGrants merged) := by
  have entry {resource : JsString} (member : resource ∈ merged.keys)
      : ∃ actions, (resource, actions) ∈ merged.entries := by
    obtain ⟨⟨key, actions⟩, inside, same⟩ := List.mem_map.mp member
    simp only at same
    exact ⟨actions, same ▸ inside⟩
  constructor
  · intro grant member
    obtain ⟨resource, key, rfl⟩ := List.mem_map.mp member
    obtain ⟨actions, inside⟩ := entry (List.mem_mergeSort.mp key)
    exact h.parses _ inside
  · intro grant member
    obtain ⟨resource, key, rfl⟩ := List.mem_map.mp member
    obtain ⟨actions, inside⟩ := entry (List.mem_mergeSort.mp key)
    obtain ⟨action, act⟩ := List.exists_mem_of_ne_nil actions (h.acts _ inside)
    simp only [JsMap.get?_eq_some_iff.mpr inside, Option.getD_some]
    exact List.ne_nil_of_mem
      (List.mem_filter.mpr ⟨mem_allActions action, decide_eq_true act⟩)
  · have keys : (sortedGrants merged).map Grant.resource = merged.keys.mergeSort JsString.le := by
      rw [sortedGrants, List.map_map]
      exact List.map_id _
    rw [keys]
    exact (List.mergeSort_perm merged.keys JsString.le).nodup_iff.mpr merged.distinct

abbrev NormalGrants := { grants : List Grant // Normalized grants }

def normalizeGrants (value : Option Json) : Except ScopeError NormalGrants :=
  match value with
  | some (.array items) =>
      if maxFabricScopeGrants < items.length then .error .grantsShape
      else
        match run : mergeGrants items with
        | .error reason => .error reason
        | .ok merged =>
            .ok ⟨sortedGrants merged,
              sortedGrants_normalized (Merged.run ⟨by simp [JsMap.empty], by simp [JsMap.empty]⟩ run)⟩
  | _ => .error .grantsShape

/-- Validation returns the sorted grants of what merges without an error. -/
theorem normalizeGrants_eq_ok {items : List Json} {grants : NormalGrants}
    (merged : JsMap JsString (List Action)) (few : items.length ≤ maxFabricScopeGrants)
    (run : mergeGrants items = .ok merged) (sorted : grants.val = sortedGrants merged)
    : normalizeGrants (some (.array items)) = .ok grants := by
  simp only [normalizeGrants, if_neg (Nat.not_lt.mpr few)]
  split
  · next reason failed =>
      rw [run] at failed
      exact absurd failed (by simp)
  · next result found =>
      obtain rfl := Except.ok.inj (run.symm.trans found)
      exact congrArg Except.ok (Subtype.ext sorted.symm)

end PiFabric.Scope
