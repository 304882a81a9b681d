import PiFabric.Foundation.Json
import PiFabric.Foundation.PathPattern

/-! Scope resources: `<ns>:<path>`, `<ns>:<path>/*`, `<ns>:<path>/**` and `<ns>:*`.
Parsing is inverted by writing the parsed resource out, and coverage is decided on the
namespace and the pattern of segments.
-/

namespace PiFabric.Scope

open JsString

def maxFabricScopeGrants : Nat := 64

def maxFabricScopeResourceChars : Nat := 512

inductive Action where
  | read
  | write
  | execute
  deriving DecidableEq

inductive ScopeError where
  | resourceLength
  | invalidResource (resource : JsString)
  | unsupportedFields (label : String) (fields : List JsString)
  | grantsShape
  | grantShape
  | grantActions (resource : JsString)
  | scopeShape
  | version
  | principalShape
  | principalId
  | issuer
  | parentDigest
  | digestMismatch
  | notCovered (resource : JsString) (actions : List Action)
  | issuance (reason : JsString)
  | invalidForwarded (reason : ScopeError)
  | forwardedNotCovered
  | requestShape
  | unscopedParent

structure ParsedResource where
  ns : JsString
  /-- `ns:*`: every resource in the namespace. -/
  all : Bool
  absolute : Bool
  segments : List JsString
  wildcard : Tail
  deriving DecidableEq

def isLower (unit : UInt16) : Bool :=
  unitOf 'a' ≤ unit && unit ≤ unitOf 'z'

def isNamespaceUnit (unit : UInt16) : Bool :=
  isLower unit || isDigit unit || unit = unitOf '.' || unit = unitOf '_' || unit = unitOf '-'

def isNamespace : JsString → Bool
  | [] => false
  | head :: rest => isLower head && rest.length ≤ 63 && rest.all isNamespaceUnit

def isWhiteSpace (unit : UInt16) : Bool :=
  (0x09 ≤ unit && unit ≤ 0x0D) || unit = 0x20 || unit = 0xA0 || unit = 0x1680
    || (0x2000 ≤ unit && unit ≤ 0x200A) || unit = 0x2028 || unit = 0x2029 || unit = 0x202F
    || unit = 0x205F || unit = 0x3000 || unit = 0xFEFF

/-- `[^\s/*\u0000-\u001f\u007f]`; every code point above the basic plane is admitted, and so
are surrogates.
-/
def isSegmentUnit (unit : UInt16) : Bool :=
  !(isWhiteSpace unit || unit = unitOf '/' || unit = unitOf '*' || unit ≤ 0x1F || unit = 0x7F)

/-- `SEGMENT`, and not a relative step. -/
def isSegment (segment : JsString) : Bool :=
  segment ≠ [] && segment.all isSegmentUnit && segment ≠ lit "." && segment ≠ lit ".."

def wildcardOf (last : Option JsString) : Tail :=
  if last = some (lit "**") then .any else if last = some (lit "*") then .one else .none

def isAbsolute (path : JsString) : Bool :=
  path.head? = some (unitOf '/')

/-- The path between its slashes, without the one that makes it absolute. -/
def partsOf (path : JsString) : List JsString :=
  (if isAbsolute path then path.tail else path).splitOn (unitOf '/')

def segmentsOf (parts : List JsString) : List JsString :=
  if wildcardOf parts.getLast? ≠ .none then parts.dropLast else parts

/-- `parseResource` after the colon: the path of a resource whose namespace is split off. -/
def parsePath (resource ns path : JsString) : Except ScopeError ParsedResource :=
  if ns = [] || !isNamespace ns || path = [] then .error (.invalidResource resource)
  else if path = lit "*" then
    .ok { ns, all := true, absolute := false, segments := [], wildcard := .none }
  else if !isAbsolute path && segmentsOf (partsOf path) = []
      || (segmentsOf (partsOf path)).any (!isSegment ·) then
    .error (.invalidResource resource)
  else
    .ok {
      ns
      all := false
      absolute := isAbsolute path
      segments := segmentsOf (partsOf path)
      wildcard := wildcardOf (partsOf path).getLast?
    }

def parseResource (resource : JsString) : Except ScopeError ParsedResource :=
  if resource.length = 0 || maxFabricScopeResourceChars < resource.length then
    .error .resourceLength
  else
    match resource.dropWhile (· != unitOf ':') with
    | [] => .error (.invalidResource resource)
    | _ :: path => parsePath resource (resource.takeWhile (· != unitOf ':')) path

/-- What `outer` and `inner` must share, and how `inner` may go on. -/
def covers (outer inner : ParsedResource) : Bool :=
  if outer.ns ≠ inner.ns then false
  else if outer.all then true
  else if inner.all || outer.absolute ≠ inner.absolute then false
  else if inner.segments.length < outer.segments.length
      || outer.segments.zipIdx.any (fun entry => inner.segments[entry.2]? ≠ some entry.1) then
    false
  else
    let extra := inner.segments.length - outer.segments.length
    match outer.wildcard with
    | .none => inner.wildcard = .none && extra = 0
    | .one =>
        if inner.wildcard = .none then extra = 1 else inner.wildcard = .one && extra = 0
    | .any => if inner.wildcard = .none then decide (1 ≤ extra) else true

def wildcardSegment : Tail → List JsString
  | .none => []
  | .one => [lit "*"]
  | .any => [lit "**"]

namespace ParsedResource

def path (resource : ParsedResource) : JsString :=
  if resource.all then lit "*"
  else (if resource.absolute then [unitOf '/'] else [])
    ++ [unitOf '/'].intercalate (resource.segments ++ wildcardSegment resource.wildcard)

def text (resource : ParsedResource) : JsString :=
  resource.ns ++ unitOf ':' :: resource.path

/-- What parsing guarantees of its result. -/
structure Shaped (resource : ParsedResource) : Prop where
  ns : isNamespace resource.ns = true
  segments : ∀ segment ∈ resource.segments, isSegment segment = true
  all : resource.all = true →
    resource.absolute = false ∧ resource.segments = [] ∧ resource.wildcard = .none
  nonempty : resource.all = false → resource.segments = [] →
    resource.absolute = true ∧ resource.wildcard ≠ .none

/-- A resource that names one thing: no wildcard of either kind. -/
def Concrete (resource : ParsedResource) : Prop :=
  resource.all = false ∧ resource.wildcard = .none

def pattern (resource : ParsedResource) : PathPattern JsString where
  stem := resource.segments
  tail := resource.wildcard

/-- The concrete resources a grant stands for: exactly its own, one more segment under `/*`,
one or more under `/**`, the whole namespace under `ns:*`.
-/
def Matches (grant concrete : ParsedResource) : Prop :=
  grant.ns = concrete.ns
    ∧ (grant.all = true
      ∨ grant.all = false ∧ grant.absolute = concrete.absolute
        ∧ grant.pattern.Matches concrete.segments)

end ParsedResource

open ParsedResource

/-- A separator splits a text at its first occurrence. -/
theorem splitAt_separator {before : JsString} {unit : UInt16} (after : JsString) (h : unit ∉ before)
    : (before ++ unit :: after).takeWhile (· != unit) = before
      ∧ (before ++ unit :: after).dropWhile (· != unit) = unit :: after := by
  have all : ∀ other ∈ before, (other != unit) = true := by
    intro other member
    simp only [bne_iff_ne]
    intro same
    rw [same] at member
    exact h member
  rw [List.takeWhile_append_of_pos all, List.dropWhile_append_of_pos all]
  simp

theorem colon_not_mem_namespace {ns : JsString} (h : isNamespace ns = true)
    : unitOf ':' ∉ ns := by
  intro member
  cases ns with
  | nil => simp at member
  | cons head rest =>
      simp only [isNamespace, Bool.and_eq_true] at h
      rcases List.mem_cons.mp member with same | inside
      · rw [← same] at h
        revert h
        simp [isLower, unitOf]
      · have unit := List.all_eq_true.mp h.2 _ inside
        revert unit
        decide

/-- A unit of a segment is neither the separator nor a wildcard. -/
theorem isSegmentUnit_ne {unit : UInt16} (h : isSegmentUnit unit = true)
    : unit ≠ unitOf '/' ∧ unit ≠ unitOf '*' := by
  constructor
  · intro same
    rw [same] at h
    revert h
    decide
  · intro same
    rw [same] at h
    revert h
    decide

theorem isSegment_units {segment : JsString} (h : isSegment segment = true)
    : segment ≠ [] ∧ ∀ unit ∈ segment, isSegmentUnit unit = true := by
  simp only [isSegment, Bool.and_eq_true, decide_eq_true_eq, List.all_eq_true] at h
  exact ⟨h.1.1.1, h.1.1.2⟩

/-- The wildcard is read from the last segment written, by its kinds. -/
theorem wildcardOf_written {segments : List JsString} {wildcard : Tail}
    (h : ∀ segment ∈ segments, isSegment segment = true)
    : wildcardOf (segments ++ wildcardSegment wildcard).getLast? = wildcard := by
  cases wildcard with
  | one => simp [wildcardSegment, wildcardOf]; decide
  | any => simp [wildcardSegment, wildcardOf]
  | none =>
      simp only [wildcardSegment, List.append_nil]
      cases last : segments.getLast? with
      | none => rfl
      | some segment =>
          have valid := (isSegment_units (h segment (List.mem_of_getLast? last))).2
          have free {text : JsString} (star : unitOf '*' ∈ text) : some segment ≠ some text := by
            intro same
            rw [← Option.some.inj same] at star
            exact (isSegmentUnit_ne (valid _ star)).2 rfl
          simp only [wildcardOf, if_neg (free (show unitOf '*' ∈ lit "**" by decide)),
            if_neg (free (show unitOf '*' ∈ lit "*" by decide))]

theorem segmentsOf_written {segments : List JsString} {wildcard : Tail}
    (h : ∀ segment ∈ segments, isSegment segment = true)
    : segmentsOf (segments ++ wildcardSegment wildcard) = segments := by
  rw [segmentsOf, wildcardOf_written h]
  cases wildcard <;> simp [wildcardSegment]

/-- Taking the wildcard off the parts leaves what it was added to. -/
theorem segmentsOf_append_wildcard (parts : List JsString)
    : segmentsOf parts ++ wildcardSegment (wildcardOf parts.getLast?) = parts := by
  unfold segmentsOf
  have split {last : JsString} (h : parts.getLast? = some last)
      : parts.dropLast ++ [last] = parts :=
    List.dropLast_append_getLast? last h
  by_cases any : parts.getLast? = some (lit "**")
  · simp [wildcardOf, any, wildcardSegment, split any]
  · by_cases one : parts.getLast? = some (lit "*")
    · have other : lit "*" ≠ lit "**" := by decide
      simp [wildcardOf, one, wildcardSegment, split one, other]
    · simp [wildcardOf, any, one, wildcardSegment]

variable {parsed : ParsedResource}

/-- No part of a written path holds the separator. -/
theorem slash_not_mem_parts (shaped : parsed.Shaped)
    : ∀ part ∈ parsed.segments ++ wildcardSegment parsed.wildcard, unitOf '/' ∉ part := by
  intro part member
  rcases List.mem_append.mp member with segment | wildcard
  · intro slash
    exact (isSegmentUnit_ne ((isSegment_units (shaped.segments _ segment)).2 _ slash)).1 rfl
  · cases same : parsed.wildcard with
    | none => simp [same, wildcardSegment] at wildcard
    | one =>
        simp only [same, wildcardSegment, List.mem_singleton] at wildcard
        rw [wildcard]
        decide
    | any =>
        simp only [same, wildcardSegment, List.mem_singleton] at wildcard
        rw [wildcard]
        decide

/-- A relative path starts with a unit of its first segment. -/
theorem relative_head (shaped : parsed.Shaped) (some_ : parsed.all = false)
    (relative : parsed.absolute = false)
    : ∃ unit rest,
        [unitOf '/'].intercalate (parsed.segments ++ wildcardSegment parsed.wildcard)
          = unit :: rest
        ∧ isSegmentUnit unit = true := by
  cases same : parsed.segments with
  | nil =>
      have absolute := (shaped.nonempty some_ same).1
      rw [relative] at absolute
      exact Bool.noConfusion absolute
  | cons first more =>
      obtain ⟨nonempty, units⟩ := isSegment_units (shaped.segments first (by simp [same]))
      obtain ⟨unit, tail, rfl⟩ := List.exists_cons_of_ne_nil nonempty
      cases others : more ++ wildcardSegment parsed.wildcard with
      | nil =>
          refine ⟨unit, tail, ?_, units unit (by simp)⟩
          simp [others]
      | cons next rest =>
          refine ⟨unit, tail ++ unitOf '/' :: [unitOf '/'].intercalate (next :: rest), ?_,
            units unit (by simp)⟩
          simp [others, List.intercalate]

/-- The parts of a path that does not stand for its whole namespace. -/
theorem path_split (shaped : parsed.Shaped) (some_ : parsed.all = false)
    : parsed.path ≠ [] ∧ parsed.path ≠ lit "*"
      ∧ isAbsolute parsed.path = parsed.absolute
      ∧ partsOf parsed.path = parsed.segments ++ wildcardSegment parsed.wildcard := by
  have nonempty : parsed.segments ++ wildcardSegment parsed.wildcard ≠ [] := by
    intro empty
    obtain ⟨segments, wildcard⟩ := List.append_eq_nil_iff.mp empty
    have wild := (shaped.nonempty some_ segments).2
    cases same : parsed.wildcard with
    | none => exact wild same
    | one => simp [same, wildcardSegment] at wildcard
    | any => simp [same, wildcardSegment] at wildcard
  have back := List.splitOn_intercalate (unitOf '/') (slash_not_mem_parts shaped) nonempty
  cases absolute : parsed.absolute with
  | true =>
      have path : parsed.path = unitOf '/'
          :: [unitOf '/'].intercalate (parsed.segments ++ wildcardSegment parsed.wildcard) := by
        simp [ParsedResource.path, some_, absolute]
      rw [path]
      refine ⟨by simp, ?_, by simp [isAbsolute], by simpa [partsOf, isAbsolute] using back⟩
      intro star
      exact absurd (List.cons.inj star).1 (by decide)
  | false =>
      obtain ⟨unit, rest, head, inside⟩ := relative_head shaped some_ absolute
      have path : parsed.path
          = [unitOf '/'].intercalate (parsed.segments ++ wildcardSegment parsed.wildcard) := by
        simp [ParsedResource.path, some_, absolute]
      have slash : unit ≠ unitOf '/' := (isSegmentUnit_ne inside).1
      rw [head] at back path
      rw [path]
      refine ⟨by simp, ?_, by simpa [isAbsolute] using slash,
        by simpa [partsOf, isAbsolute, slash] using back⟩
      intro star
      exact (isSegmentUnit_ne inside).2 (List.cons.inj star).1

/-- A written path parses, by the two kinds of resources. -/
theorem parsePath_path (shaped : parsed.Shaped) (resource : JsString)
    : parsePath resource parsed.ns parsed.path = .ok parsed := by
  have named : parsed.ns ≠ [] := by
    intro empty
    have ns := shaped.ns
    rw [empty] at ns
    exact Bool.noConfusion ns
  rw [parsePath]
  cases all : parsed.all with
  | true =>
      obtain ⟨absolute, segments, wildcard⟩ := shaped.all all
      have path : parsed.path = lit "*" := by simp [ParsedResource.path, all]
      have nonempty : lit "*" ≠ [] := by decide
      rw [path, if_neg (by simp [named, shaped.ns, nonempty]), if_pos rfl, ← absolute,
        ← wildcard, ← segments, ← all]
  | false =>
      obtain ⟨nonempty, star, absolute, parts⟩ := path_split shaped all
      have valid : parsed.segments.any (!isSegment ·) = false := by
        rw [List.any_eq_false]
        intro segment member
        simp [shaped.segments segment member]
      have rooted : (!parsed.absolute && decide (parsed.segments = [])) = false := by
        rw [Bool.eq_false_iff]
        intro both
        simp only [Bool.and_eq_true, Bool.not_eq_true', decide_eq_true_eq] at both
        have absolute := (shaped.nonempty all both.2).1
        rw [both.1] at absolute
        exact Bool.noConfusion absolute
      rw [if_neg (by simp [named, shaped.ns, nonempty]), if_neg star, absolute, parts,
        segmentsOf_written shaped.segments, wildcardOf_written shaped.segments, rooted, valid]
      simp only [Bool.or_self, Bool.false_eq_true, if_false]
      rw [← all]

theorem parseResource_text (shaped : parsed.Shaped)
    (short : parsed.text.length ≤ maxFabricScopeResourceChars)
    : parseResource parsed.text = .ok parsed := by
  obtain ⟨before, after⟩ :=
    splitAt_separator parsed.path (colon_not_mem_namespace shaped.ns)
  have fits : ¬(parsed.text.length = 0 ∨ maxFabricScopeResourceChars < parsed.text.length) := by
    simp only [ParsedResource.text, List.length_append, List.length_cons] at short ⊢
    omega
  unfold parseResource
  rw [if_neg (by simpa using fits)]
  simp only [ParsedResource.text, before, after]
  exact parsePath_path shaped _

/-- The path that parses is the path of its result, by the two kinds of results. -/
theorem parsePath_sound {resource ns path : JsString} (h : parsePath resource ns path = .ok parsed)
    : parsed.Shaped ∧ parsed.ns = ns ∧ parsed.path = path := by
  unfold parsePath at h
  split at h
  · exact absurd h (by simp)
  next plain =>
  simp only [Bool.or_eq_true, decide_eq_true_eq, Bool.not_eq_true', not_or,
    Bool.not_eq_false] at plain
  split at h
  · next star =>
      obtain rfl := Except.ok.inj h
      refine ⟨⟨plain.1.2, by simp, fun _ => ⟨rfl, rfl, rfl⟩, by simp⟩, rfl, ?_⟩
      rw [star]
      rfl
  split at h
  · exact absurd h (by simp)
  next valid =>
  obtain rfl := Except.ok.inj h
  simp only [Bool.or_eq_true, Bool.and_eq_true, Bool.not_eq_true', decide_eq_true_eq, not_or,
    not_and, List.any_eq_true, not_exists, Bool.not_eq_false] at valid
  have back : (if isAbsolute path then [unitOf '/'] else [])
      ++ [unitOf '/'].intercalate (partsOf path) = path := by
    cases path with
    | nil => exact absurd rfl plain.2
    | cons unit rest =>
        unfold partsOf
        rw [List.intercalate_splitOn]
        by_cases slash : unit = unitOf '/' <;> simp [isAbsolute, slash]
  refine ⟨⟨plain.1.2, valid.2, by simp, ?_⟩, rfl, ?_⟩
  · intro _ empty
    -- a path has a part, so one without segments is only a wildcard
    have parts := segmentsOf_append_wildcard (partsOf path)
    refine ⟨by simpa using fun relative => valid.1 relative empty, ?_⟩
    intro exact_
    simp only at empty exact_
    rw [empty, exact_] at parts
    exact List.splitOn_ne_nil _ _ parts.symm
  · simp only [ParsedResource.path, Bool.false_eq_true, if_false, segmentsOf_append_wildcard]
    exact back

theorem parseResource_sound {resource : JsString} (h : parseResource resource = .ok parsed)
    : parsed.Shaped ∧ resource = parsed.text
      ∧ resource.length ≤ maxFabricScopeResourceChars := by
  unfold parseResource at h
  split at h
  · exact absurd h (by simp)
  next fits =>
  simp only [Bool.or_eq_true, decide_eq_true_eq, not_or] at fits
  split at h
  · exact absurd h (by simp)
  next unit path rest =>
  obtain ⟨shaped, ns, path⟩ := parsePath_sound h
  refine ⟨shaped, ?_, by omega⟩
  have colon : unit = unitOf ':' := by
    have head :=
      List.head_dropWhile_not (l := resource) (· != unitOf ':') (by rw [rest]; simp)
    simpa [rest] using head
  rw [colon] at rest
  rw [ParsedResource.text, ns, path, ← rest, List.takeWhile_append_dropWhile]

/-- The entries of `outer` stand at their places in `inner` exactly where it is a prefix. -/
theorem prefix_iff_entries {outer inner : List JsString}
    : outer <+: inner
      ↔ outer.zipIdx.any (fun entry => inner[entry.2]? ≠ some entry.1) = false := by
  rw [List.prefix_iff_getElem?, List.any_eq_false]
  constructor
  · intro h entry member
    have place := List.mem_zipIdx_iff_getElem?.mp member
    obtain ⟨bound, value⟩ := List.getElem?_eq_some_iff.mp place
    simp [h _ bound, value]
  · intro h index bound
    have entry := h (outer[index], index)
      (List.mem_zipIdx_iff_getElem?.mpr (List.getElem?_eq_getElem bound))
    simpa using entry

variable {outer inner : ParsedResource}

/-- The stems and the wildcards of two resources with one namespace and kind of path. -/
theorem covers_pattern (ns : outer.ns = inner.ns) (someOuter : outer.all = false)
    (someInner : inner.all = false) (absolute : outer.absolute = inner.absolute)
    : covers outer inner = outer.pattern.covers inner.pattern := by
  rw [covers, if_neg (not_not_intro ns), if_neg (by simp [someOuter]),
    if_neg (by simp [someInner, absolute])]
  by_cases extended : outer.segments <+: inner.segments
  · have length : ¬inner.segments.length < outer.segments.length :=
      Nat.not_lt.mpr extended.length_le
    rw [if_neg (by simp only [length, prefix_iff_entries.mp extended]; decide),
      PathPattern.covers_of_prefix extended]
    rfl
  · have entries
        : outer.segments.zipIdx.any (fun entry => inner.segments[entry.2]? ≠ some entry.1)
          = true := by
      rw [← Bool.not_eq_false]
      exact fun none => extended (prefix_iff_entries.mpr none)
    rw [if_pos (by rw [entries, Bool.or_true]), PathPattern.covers_of_not_prefix extended]

/-- Coverage is coverage of the patterns within a namespace and a kind of path. -/
theorem covers_iff
    : covers outer inner = true
      ↔ outer.ns = inner.ns
        ∧ (outer.all = true
          ∨ outer.all = false ∧ inner.all = false ∧ outer.absolute = inner.absolute
            ∧ outer.pattern.covers inner.pattern = true) := by
  by_cases ns : outer.ns = inner.ns
  · cases someOuter : outer.all with
    | true => simp [covers, ns, someOuter]
    | false =>
        cases someInner : inner.all with
        | true => simp [covers, someOuter, someInner]
        | false =>
            by_cases absolute : outer.absolute = inner.absolute
            · simp [covers_pattern ns someOuter someInner absolute, ns, absolute]
            · simp [covers, someOuter, absolute]
  · simp [covers, ns]

theorem covers_refl (resource : ParsedResource) : covers resource resource = true := by
  cases all : resource.all <;> simp [covers_iff, all, PathPattern.covers_refl]

/-- Coverage chains, by which of the resources stand for their whole namespace. -/
theorem covers_trans {middle : ParsedResource} (h₁ : covers outer middle = true)
    (h₂ : covers middle inner = true)
    : covers outer inner = true := by
  obtain ⟨ns₁, kind₁⟩ := covers_iff.mp h₁
  obtain ⟨ns₂, kind₂⟩ := covers_iff.mp h₂
  refine covers_iff.mpr ⟨ns₁.trans ns₂, ?_⟩
  rcases kind₁ with all | ⟨some₁, middle₁, absolute₁, pattern₁⟩
  · exact .inl all
  rcases kind₂ with all | ⟨-, some₂, absolute₂, pattern₂⟩
  · rw [all] at middle₁
    exact Bool.noConfusion middle₁
  · exact .inr ⟨some₁, some₂, absolute₁.trans absolute₂,
      PathPattern.covers_trans pattern₁ pattern₂⟩

theorem matches_iff_covers {grant concrete : ParsedResource} (h : concrete.Concrete)
    : grant.Matches concrete ↔ covers grant concrete = true := by
  rw [covers_iff, ParsedResource.Matches]
  have path := PathPattern.matches_iff_covers grant.pattern concrete.pattern h.2
  rw [← path]
  simp only [h.1, true_and]
  rfl

theorem matches_of_covers {concrete : ParsedResource} (exact_ : concrete.Concrete)
    (covered : covers outer inner = true) (h : inner.Matches concrete)
    : outer.Matches concrete :=
  (matches_iff_covers exact_).mpr (covers_trans covered ((matches_iff_covers exact_).mp h))

end PiFabric.Scope
