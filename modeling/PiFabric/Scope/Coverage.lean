import PiFabric.Scope.Resource

/-! What coverage of one resource by another means for the concrete resources they match.
Coverage is sound; it is complete except for `P/*` against a `P/**` so long that no resource
under `P` has room for two more segments.
-/

namespace PiFabric.Scope

open JsString ParsedResource

/-- A resource that parses and names one thing. -/
def IsConcrete (concrete : ParsedResource) : Prop :=
  ∃ resource, parseResource resource = .ok concrete ∧ concrete.Concrete

def Includes (outer inner : ParsedResource) : Prop :=
  ∀ concrete, IsConcrete concrete → inner.Matches concrete → outer.Matches concrete

/-- `outer` is `P/*` and `inner` is `P/**`, written with as many characters as are allowed. -/
structure NoRoom (outer inner : ParsedResource) : Prop where
  ns : outer.ns = inner.ns
  absolute : outer.absolute = inner.absolute
  someOuter : outer.all = false
  someInner : inner.all = false
  pattern : PathPattern.OneWithinAny outer.pattern inner.pattern
  full : inner.text.length = maxFabricScopeResourceChars

/-- The concrete resource that adds segments to those of another. -/
def ParsedResource.extended (resource : ParsedResource) (more : List JsString)
    : ParsedResource where
  ns := resource.ns
  all := false
  absolute := resource.absolute
  segments := resource.segments ++ more
  wildcard := .none

theorem isConcrete_of_shaped {concrete : ParsedResource} (shaped : concrete.Shaped)
    (exact_ : concrete.Concrete) (short : concrete.text.length ≤ maxFabricScopeResourceChars)
    : IsConcrete concrete :=
  ⟨concrete.text, parseResource_text shaped short, exact_⟩

theorem isSegment_a : isSegment (lit "a") = true := by decide

theorem isSegment_b : isSegment (lit "b") = true := by decide

def stemLength : List JsString → Nat
  | [] => 0
  | segment :: rest => segment.length + 1 + stemLength rest

/-- The length of a path with a last part, by induction over the segments before it. -/
theorem intercalate_length (segments : List JsString) (last : JsString)
    : ([unitOf '/'].intercalate (segments ++ [last])).length
      = stemLength segments + last.length := by
  induction segments with
  | nil => simp [stemLength]
  | cons segment rest ih =>
      cases others : rest ++ [last] with
      | nil => simp at others
      | cons next more =>
          rw [others] at ih
          simp only [List.cons_append, others, List.intercalate, List.intersperse,
            List.flatten_cons, List.nil_append, List.length_append, List.length_cons,
            stemLength] at ih ⊢
          omega

theorem stemLength_append (first second : List JsString)
    : stemLength (first ++ second) = stemLength first + stemLength second := by
  induction first with
  | nil => simp [stemLength]
  | cons head rest ih =>
      simp only [List.cons_append, stemLength, ih]
      omega

theorem text_length (resource : ParsedResource) (segments : List JsString) (last : JsString)
    (some_ : resource.all = false)
    (parts : resource.segments ++ wildcardSegment resource.wildcard = segments ++ [last])
    : resource.text.length
      = resource.ns.length + 1 + resource.absolute.toNat + stemLength segments
        + last.length := by
  have length := intercalate_length segments last
  simp only [ParsedResource.text, ParsedResource.path, some_, parts, List.length_append,
    List.length_cons, length, Bool.false_eq_true, if_false]
  cases resource.absolute <;> simp <;> omega

variable {resource : ParsedResource}

theorem extended_shaped {more : List JsString} (shaped : resource.Shaped)
    (valid : ∀ segment ∈ more, isSegment segment = true) (nonempty : resource.segments ++ more ≠ [])
    : (resource.extended more).Shaped where
  ns := shaped.ns
  segments := by
    intro segment member
    rcases List.mem_append.mp member with inside | inside
    · exact shaped.segments segment inside
    · exact valid segment inside
  all := by simp [ParsedResource.extended]
  nonempty := by
    intro _ empty
    exact absurd empty nonempty

theorem isConcrete_segment {segment : JsString} (shaped : resource.Shaped)
    (short : resource.text.length ≤ maxFabricScopeResourceChars) (wild : resource.wildcard ≠ .none)
    (valid : isSegment segment = true) (single : segment.length = 1)
    : IsConcrete (resource.extended [segment]) := by
  have some_ : resource.all = false := by
    rw [Bool.eq_false_iff]
    intro all
    exact wild (shaped.all all).2.2
  refine isConcrete_of_shaped (extended_shaped shaped (by simpa using valid) (by simp))
    ⟨rfl, rfl⟩ ?_
  have length := text_length (resource.extended [segment]) resource.segments segment rfl
    (by simp [ParsedResource.extended, wildcardSegment])
  obtain ⟨last, same, pos⟩ :
      ∃ last, wildcardSegment resource.wildcard = [last] ∧ 1 ≤ last.length := by
    cases kind : resource.wildcard with
    | none => exact absurd kind wild
    | one => exact ⟨lit "*", rfl, by decide⟩
    | any => exact ⟨lit "**", rfl, by decide⟩
  have whole := text_length resource resource.segments last some_ (by rw [same])
  simp only [ParsedResource.extended] at length ⊢
  omega

/-- A `/**` that is not written with every allowed character leaves room for two segments. -/
theorem isConcrete_two (shaped : resource.Shaped) (any : resource.wildcard = .any)
    (room : resource.text.length < maxFabricScopeResourceChars)
    : IsConcrete (resource.extended [lit "a", lit "a"]) := by
  have some_ : resource.all = false := by
    rw [Bool.eq_false_iff]
    intro all
    rw [(shaped.all all).2.2] at any
    exact Tail.noConfusion any
  refine isConcrete_of_shaped
    (extended_shaped shaped (by simp [isSegment_a]) (by simp)) ⟨rfl, rfl⟩ ?_
  have length := text_length (resource.extended [lit "a", lit "a"])
    (resource.segments ++ [lit "a"]) (lit "a") rfl
    (by simp [ParsedResource.extended, wildcardSegment])
  have whole := text_length resource resource.segments (lit "**") some_
    (by rw [any]; rfl)
  have one : (lit "a").length = 1 := by decide
  have two : (lit "**").length = 2 := by decide
  simp only [ParsedResource.extended, stemLength_append, stemLength] at length ⊢
  omega

theorem isConcrete_namespace {ns : JsString} (named : isNamespace ns = true) (absolute : Bool)
    : IsConcrete
        { ns, all := false, absolute, segments := [lit "a"], wildcard := .none } := by
  have bound : ns.length ≤ 64 := by
    cases ns with
    | nil => simp
    | cons head rest =>
        simp only [isNamespace, Bool.and_eq_true, decide_eq_true_eq] at named
        simp only [List.length_cons]
        omega
  refine isConcrete_of_shaped ⟨named, by simp [isSegment_a], by simp, by simp⟩ ⟨rfl, rfl⟩ ?_
  rw [text_length _ [] (lit "a") rfl rfl]
  have one : (lit "a").length = 1 := by decide
  simp only [stemLength, maxFabricScopeResourceChars, one]
  cases absolute <;> simp <;> omega

/-- Every parsed resource matches a concrete one of its own namespace and kind of path, by
its wildcards.
-/
theorem exists_matched (shaped : resource.Shaped)
    (short : resource.text.length ≤ maxFabricScopeResourceChars)
    : ∃ concrete, IsConcrete concrete ∧ resource.Matches concrete
      ∧ (resource.all = false → concrete.absolute = resource.absolute) := by
  cases all : resource.all with
  | true =>
      exact ⟨_, isConcrete_namespace shaped.ns true, ⟨rfl, .inl all⟩, by simp⟩
  | false =>
      by_cases exact_ : resource.wildcard = .none
      · have concrete : resource.Concrete := ⟨all, exact_⟩
        exact ⟨resource, isConcrete_of_shaped shaped concrete short,
          (matches_iff_covers concrete).mpr (covers_refl resource), fun _ => rfl⟩
      · refine ⟨resource.extended [lit "a"],
          isConcrete_segment shaped short exact_ isSegment_a (by decide), ?_, fun _ => rfl⟩
        exact ⟨rfl, .inr ⟨all, rfl,
          PathPattern.matches_segment resource.pattern exact_ (lit "a")⟩⟩

variable {outer inner : ParsedResource}

theorem includes_of_covers (h : covers outer inner = true)
    : Includes outer inner := by
  intro concrete exists_ matched
  obtain ⟨-, -, exact_⟩ := exists_
  exact matches_of_covers exact_ h matched

/-- Inclusion shows in the namespaces, the kinds of paths and, with room to spare, the
patterns.
-/
theorem covers_of_includes (shaped : inner.Shaped)
    (short : inner.text.length ≤ maxFabricScopeResourceChars) (included : Includes outer inner)
    (room : ¬NoRoom outer inner)
    : covers outer inner = true := by
  obtain ⟨sample, real, matched, absolute⟩ := exists_matched shaped short
  have ns : outer.ns = inner.ns :=
    (included sample real matched).1.trans matched.1.symm
  refine covers_iff.mpr ⟨ns, ?_⟩
  cases someOuter : outer.all with
  | true => exact .inl rfl
  | false =>
      right
      -- a whole namespace holds paths of the other kind
      have someInner : inner.all = false := by
        rw [Bool.eq_false_iff]
        intro all
        have other := included _ (isConcrete_namespace shaped.ns (!outer.absolute))
          ⟨rfl, .inl all⟩
        rcases other.2 with all_ | ⟨-, same, -⟩
        · rw [someOuter] at all_
          exact Bool.noConfusion all_
        · simp at same
      have kind : outer.absolute = inner.absolute := by
        rcases (included sample real matched).2 with all | ⟨-, same, -⟩
        · rw [someOuter] at all
          exact Bool.noConfusion all
        · exact same.trans (absolute someInner)
      refine ⟨rfl, someInner, kind, ?_⟩
      have path {concrete : ParsedResource} (h : outer.Matches concrete)
          : outer.pattern.Matches concrete.segments := by
        rcases h.2 with all | ⟨-, -, path⟩
        · rw [someOuter] at all
          exact Bool.noConfusion all
        · exact path
      by_cases exact_ : inner.wildcard = .none
      · have concrete : inner.Concrete := ⟨someInner, exact_⟩
        have self := included inner (isConcrete_of_shaped shaped concrete short)
          ((matches_iff_covers concrete).mpr (covers_refl inner))
        exact (PathPattern.matches_iff_covers outer.pattern inner.pattern exact_).mp (path self)
      · have inside (more : List JsString) (h : inner.pattern.Matches (inner.segments ++ more))
            : inner.Matches (inner.extended more) :=
          ⟨rfl, .inr ⟨someInner, rfl, h⟩⟩
        have differ : lit "a" ≠ lit "b" := by decide
        rw [← Bool.not_eq_false]
        intro uncovered
        by_cases apart : PathPattern.OneWithinAny outer.pattern inner.pattern
        · -- two more segments fit under the longer wildcard only
          have space : inner.text.length < maxFabricScopeResourceChars := by
            refine Nat.lt_of_le_of_ne short ?_
            intro full
            exact room ⟨ns, kind, someOuter, someInner, apart, full⟩
          have two := included _ (isConcrete_two shaped apart.any space)
            (inside _ ((PathPattern.matches_append inner.pattern _).mpr (by rw [apart.any]; rfl)))
          have admitted := path two
          rw [ParsedResource.extended] at admitted
          have stem : inner.segments = outer.pattern.stem := apart.stem.symm
          rw [stem, PathPattern.matches_append, apart.one] at admitted
          exact Bool.noConfusion admitted
        · obtain ⟨segment, choice, unmatched⟩ :=
            PathPattern.exists_uncovered differ exact_ uncovered apart
          have real : IsConcrete (inner.extended [segment]) := by
            rcases choice with rfl | rfl
            · exact isConcrete_segment shaped short exact_ isSegment_a (by decide)
            · exact isConcrete_segment shaped short exact_ isSegment_b (by decide)
          exact unmatched (path (included _ real
            (inside _ (PathPattern.matches_segment inner.pattern exact_ segment))))

theorem not_covers_of_noRoom (h : NoRoom outer inner)
    : covers outer inner = false := by
  rw [covers_pattern h.ns h.someOuter h.someInner h.absolute,
    PathPattern.covers_of_prefix (by rw [h.pattern.stem]), h.pattern.stem, h.pattern.one,
    h.pattern.any, Nat.sub_self]
  rfl

/-- Segments are nonempty, so each takes two characters with its slash. -/
theorem two_mul_length_le_stemLength (segments : List JsString)
    (h : ∀ segment ∈ segments, isSegment segment = true)
    : 2 * segments.length ≤ stemLength segments := by
  induction segments with
  | nil => simp
  | cons segment rest ih =>
      have others := ih fun other member => h other (List.mem_cons_of_mem _ member)
      have pos : 0 < segment.length :=
        List.length_pos_iff.mpr (isSegment_units (h segment (by simp))).1
      simp only [List.length_cons, stemLength]
      omega

theorem includes_of_noRoom (h : NoRoom outer inner)
    : Includes outer inner := by
  intro concrete exists_ matched
  obtain ⟨resource, parsed, exact_⟩ := exists_
  obtain ⟨shaped, text, short⟩ := parseResource_sound parsed
  rw [text] at short
  obtain ⟨ns, all | ⟨-, absolute, path⟩⟩ := matched
  · rw [h.someInner] at all
    exact Bool.noConfusion all
  obtain ⟨more, same, admitted⟩ := path
  refine ⟨h.ns.trans ns, .inr ⟨h.someOuter, h.absolute.trans absolute, more, ?_, ?_⟩⟩
  · rw [h.pattern.stem]
    exact same
  rw [h.pattern.any] at admitted
  rw [h.pattern.one]
  simp only [Tail.admits, decide_eq_true_eq] at admitted ⊢
  -- two segments and more are longer than the wildcard they replace
  obtain ⟨front, last, rfl⟩ : ∃ front last, more = front ++ [last] :=
    ⟨more.dropLast, more.getLast (List.ne_nil_of_length_pos admitted),
      (List.dropLast_append_getLast _).symm⟩
  have segments : concrete.segments = (inner.segments ++ front) ++ [last] := by
    simpa [pattern] using same
  have valid {segment : JsString} (member : segment ∈ front ++ [last])
      : isSegment segment = true :=
    shaped.segments segment (by
      rw [same]
      exact List.mem_append_right _ member)
  have whole := text_length inner inner.segments (lit "**") h.someInner (by
    rw [show inner.wildcard = .any from h.pattern.any]
    rfl)
  have longer := text_length concrete (inner.segments ++ front) last exact_.1 (by
    rw [segments, exact_.2]
    simp [wildcardSegment])
  have stems := two_mul_length_le_stemLength front fun segment member =>
    valid (by simp [member])
  have pos : 0 < last.length :=
    List.length_pos_iff.mpr (isSegment_units (valid (by simp))).1
  have two : (lit "**").length = 2 := by decide
  rw [stemLength_append, ← ns, ← absolute] at longer
  rw [h.full] at whole
  simp only [List.length_append, List.length_singleton]
  omega

/-- Between parsed resources coverage is inclusion, but for a wildcard without room. -/
theorem covers_iff_includes {innerText : JsString}
    (innerParsed : parseResource innerText = .ok inner)
    : covers outer inner = true ↔ Includes outer inner ∧ ¬NoRoom outer inner := by
  obtain ⟨shaped, text, short⟩ := parseResource_sound innerParsed
  rw [text] at short
  constructor
  · intro covered
    refine ⟨includes_of_covers covered, ?_⟩
    intro full
    rw [not_covers_of_noRoom full] at covered
    exact Bool.noConfusion covered
  · intro h
    exact covers_of_includes shaped short h.1 h.2

/-- The longest segment that leaves `/**` on a resource of a one-letter namespace. -/
def longSegment : JsString :=
  List.replicate 507 (unitOf 'x')

/-- `a:x…x/*` and `a:x…x/**`, the second as long as a resource may be. -/
def longest (wildcard : Tail) : ParsedResource where
  ns := lit "a"
  all := false
  absolute := false
  segments := [longSegment]
  wildcard

theorem longSegment_length : longSegment.length = 507 := List.length_replicate

theorem isSegment_longSegment : isSegment longSegment = true := by
  have unit : isSegmentUnit (unitOf 'x') = true := by decide
  have units : longSegment.all isSegmentUnit = true := by
    rw [longSegment, List.all_replicate, unit]
    rfl
  have short {text : JsString} (h : text.length < 507) : longSegment ≠ text := by
    intro same
    rw [← same, longSegment_length] at h
    exact Nat.lt_irrefl _ h
  simp only [isSegment, units, Bool.and_eq_true, decide_eq_true_eq]
  exact ⟨⟨⟨short (by decide), trivial⟩, short (by decide)⟩, short (by decide)⟩

theorem longest_shaped (wildcard : Tail) : (longest wildcard).Shaped where
  ns := show isNamespace (lit "a") = true by decide
  segments := by
    intro segment member
    rw [List.mem_singleton.mp member]
    exact isSegment_longSegment
  all := fun all => Bool.noConfusion all
  nonempty := fun _ empty => absurd empty (List.cons_ne_nil _ _)

theorem longest_length (wildcard : Tail) (last : JsString)
    (written : wildcardSegment wildcard = [last])
    : (longest wildcard).text.length = 510 + last.length := by
  have name : (lit "a").length = 1 := by decide
  rw [text_length (longest wildcard) [longSegment] last rfl
    (congrArg ([longSegment] ++ ·) written)]
  simp only [longest, name, stemLength, longSegment_length, Bool.toNat_false]

/-- At full length coverage says no although `/*` matches all that `/**` can match. -/
theorem longest_not_covered
    : parseResource (longest .one).text = .ok (longest .one)
      ∧ parseResource (longest .any).text = .ok (longest .any)
      ∧ covers (longest .one) (longest .any) = false
      ∧ Includes (longest .one) (longest .any) := by
  have one : (longest .one).text.length = 511 :=
    longest_length .one (lit "*") rfl
  have any : (longest .any).text.length = 512 :=
    longest_length .any (lit "**") rfl
  have full : NoRoom (longest .one) (longest .any) := ⟨rfl, rfl, rfl, rfl, ⟨rfl, rfl, rfl⟩, any⟩
  refine ⟨parseResource_text (longest_shaped _) ?_, parseResource_text (longest_shaped _) ?_,
    not_covers_of_noRoom full, includes_of_noRoom full⟩
  · rw [one]
    decide
  · rw [any]
    decide

end PiFabric.Scope
