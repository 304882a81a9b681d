import PiFabric.Speculation.Extractor

/-! What the extractor extracts from the text of an object: the value of the first string member,
at any depth, whose written key ends in `"code`.
-/

namespace PiFabric.Speculation

open JsString Json

/-- What stands between a key and the content of a string member. -/
def Between (gap : JsString) : Prop :=
  ∃ before after, gap = before ++ unitOf ':' :: after ++ [unitOf '"']
    ∧ (∀ unit ∈ before, isBlank unit = true) ∧ ∀ unit ∈ after, isBlank unit = true

variable {rest : JsString} {unit : UInt16}

variable {before : JsString}

theorem dropWhile_blank (blank : ∀ unit ∈ before, isBlank unit = true)
    (other : isBlank unit = false)
    : (before ++ unit :: rest).dropWhile isBlank = unit :: rest := by
  rw [List.dropWhile_append_of_pos blank, List.dropWhile_cons_of_neg (by simp [other])]

variable {text : JsString}

/-- A text whose first unit that is not blank is given. -/
theorem blank_split (first : text.dropWhile isBlank = unit :: rest)
    : ∃ before, text = before ++ unit :: rest ∧ ∀ unit ∈ before, isBlank unit = true :=
  ⟨text.takeWhile isBlank, by rw [← first, List.takeWhile_append_dropWhile],
    fun _ member => List.mem_takeWhile_imp member⟩

theorem afterColon_eq_some
    : afterColon text = some rest ↔ ∃ gap, Between gap ∧ text = gap ++ rest := by
  constructor
  · intro found
    rw [afterColon] at found
    split at found
    · cases found
    · next colon value first =>
        split at found
        · next mark =>
            split at found
            · cases found
            · next opening after second =>
                split at found
                · next quoted =>
                    obtain rfl := Option.some.inj found
                    obtain ⟨before, rfl, blank⟩ := blank_split first
                    obtain ⟨after', rfl, blank'⟩ := blank_split second
                    refine ⟨before ++ unitOf ':' :: after' ++ [unitOf '"'],
                      ⟨before, after', rfl, blank, blank'⟩, ?_⟩
                    simp [mark, quoted]
                · cases found
        · cases found
  · rintro ⟨gap, ⟨before, after, rfl, blank, blank'⟩, rfl⟩
    have first : (before ++ unitOf ':' :: after ++ [unitOf '"'] ++ rest).dropWhile isBlank
        = unitOf ':' :: (after ++ unitOf '"' :: rest) := by
      have same : before ++ unitOf ':' :: after ++ [unitOf '"'] ++ rest
          = before ++ unitOf ':' :: (after ++ unitOf '"' :: rest) := by simp
      rw [same, dropWhile_blank blank (by decide)]
    rw [afterColon, first]
    dsimp only
    rw [if_pos rfl, dropWhile_blank blank' (by decide)]
    exact if_pos rfl

theorem afterCodeKey_eq_some
    : afterCodeKey text = some rest ↔ ∃ gap, Between gap ∧ text = codeKey ++ (gap ++ rest) := by
  rw [afterCodeKey]
  constructor
  · intro found
    split at found
    · next front =>
        obtain ⟨after, rfl⟩ := List.isPrefixOf_iff_prefix.mp front
        rw [List.drop_left' rfl] at found
        obtain ⟨gap, between, rfl⟩ := afterColon_eq_some.mp found
        exact ⟨gap, between, rfl⟩
    · cases found
  · rintro ⟨gap, between, rfl⟩
    rw [if_pos (List.isPrefixOf_iff_prefix.mpr (List.prefix_append _ _)), List.drop_left' rfl]
    exact afterColon_eq_some.mpr ⟨gap, between, rfl⟩

/-- A match needs the quote before a key and its first letter. -/
theorem afterCodeKey_eq_none (other : unit ≠ unitOf '"' ∨ rest.head? ≠ some (unitOf 'c'))
    : afterCodeKey (unit :: rest) = none := by
  by_contra found
  obtain ⟨after, matched⟩ := Option.ne_none_iff_exists'.mp found
  obtain ⟨gap, _, same⟩ := afterCodeKey_eq_some.mp matched
  have units : codeKey ++ (gap ++ after)
      = unitOf '"' :: unitOf 'c' :: (lit "ode\"" ++ (gap ++ after)) := rfl
  rw [units] at same
  obtain ⟨first, second⟩ := List.cons.inj same
  rcases other with differs | differs
  · exact differs first
  · exact differs (by rw [second]; rfl)

theorem findCode_skip (other : unit ≠ unitOf '"' ∨ rest.head? ≠ some (unitOf 'c'))
    : findCode (unit :: rest) = findCode rest := by
  rw [findCode, afterCodeKey_eq_none other, Option.none_or]

/-- Nothing is found where no quote stands before the letter, by induction over the text. -/
theorem findCode_eq_none
    (nowhere : ∀ before after, text ≠ before ++ unitOf '"' :: unitOf 'c' :: after)
    : findCode text = none := by
  induction text with
  | nil => rfl
  | cons unit rest ih =>
      rw [findCode_skip]
      · exact ih fun before after same => nowhere (unit :: before) after (by rw [same]; rfl)
      · by_contra both
        rw [not_or, not_not, not_not] at both
        obtain ⟨rfl, head⟩ := both
        obtain ⟨after, rfl⟩ := List.head?_eq_some_iff.mp head
        exact nowhere [] after rfl

theorem findCode_suffix (found : findCode text = some rest)
    : ∃ front, text = front ++ rest := by
  induction text with
  | nil => cases found
  | cons unit more ih =>
      rw [findCode] at found
      cases matched : afterCodeKey (unit :: more) with
      | none =>
          rw [matched, Option.none_or] at found
          obtain ⟨front, rfl⟩ := ih found
          exact ⟨unit :: front, rfl⟩
      | some after =>
          rw [matched, Option.some_or] at found
          obtain rfl := Option.some.inj found
          obtain ⟨gap, _, same⟩ := afterCodeKey_eq_some.mp matched
          exact ⟨codeKey ++ gap, by rw [same, List.append_assoc]⟩

theorem codeKey_eq : codeKey = unitOf '"' :: lit "code\"" := rfl

/-- A match has no other one before its last quote. -/
theorem findCode_inside {after : JsString} (blank : ∀ unit ∈ before, isBlank unit = true)
    (blank' : ∀ unit ∈ after, isBlank unit = true)
    (cut : text <+: lit "code\"" ++ (before ++ unitOf ':' :: after)) : findCode text = none := by
  refine findCode_eq_none fun front back same => ?_
  obtain ⟨more, whole⟩ := cut
  have gap : ∀ unit ∈ before ++ unitOf ':' :: after, unit ≠ unitOf '"' ∧ unit ≠ unitOf 'c' := by
    have plain : ∀ unit, isBlank unit = true → unit ≠ unitOf '"' ∧ unit ≠ unitOf 'c' := by
      intro unit space
      constructor
      · rintro rfl
        exact absurd space (by decide)
      · rintro rfl
        exact absurd space (by decide)
    intro unit member
    rcases List.mem_append.mp member with early | later
    · exact plain unit (blank unit early)
    · rcases List.mem_cons.mp later with rfl | late
      · exact ⟨by decide, by decide⟩
      · exact plain unit (blank' unit late)
  rw [same] at whole
  have quoted : (lit "code\"" ++ (before ++ unitOf ':' :: after))[front.length]?
      = some (unitOf '"') := by
    rw [← whole, List.append_assoc, List.getElem?_append_right le_rfl, Nat.sub_self]
    rfl
  have letter : (lit "code\"" ++ (before ++ unitOf ':' :: after))[front.length + 1]?
      = some (unitOf 'c') := by
    rw [← whole, List.append_assoc, List.getElem?_append_right (by omega), Nat.add_sub_cancel_left]
    rfl
  have five : (lit "code\"").length = 5 := by decide
  rcases Nat.lt_or_ge front.length 5 with within | past
  · rw [List.getElem?_append_left (by omega)] at quoted
    by_cases last : front.length = 4
    · rw [last, List.getElem?_append_right (by omega)] at letter
      exact (gap _ (List.mem_of_getElem? letter)).2 rfl
    · have small : front.length < 4 := by omega
      interval_cases front.length <;> exact absurd quoted (by decide)
  · rw [List.getElem?_append_right (by omega)] at quoted
    exact (gap _ (List.mem_of_getElem? quoted)).1 rfl

/-- What is found stays found when the text goes on, by induction over the text. -/
theorem findCode_append (found : findCode text = some rest) (more : JsString)
    : findCode (text ++ more) = some (rest ++ more) := by
  induction text with
  | nil => cases found
  | cons unit tail ih =>
      rw [findCode] at found
      rw [List.cons_append, findCode]
      cases matched : afterCodeKey (unit :: tail) with
      | some after =>
          rw [matched, Option.some_or] at found
          obtain rfl := Option.some.inj found
          obtain ⟨gap, between, same⟩ := afterCodeKey_eq_some.mp matched
          have longer : afterCodeKey (unit :: (tail ++ more)) = some (after ++ more) :=
            afterCodeKey_eq_some.mpr ⟨gap, between, by
              rw [← List.cons_append, same]
              simp⟩
          rw [longer, Option.some_or]
      | none =>
          rw [matched, Option.none_or] at found
          cases longer : afterCodeKey (unit :: (tail ++ more)) with
          | none => rw [Option.none_or, ih found]
          | some after =>
              -- an earlier match that the text had not ended leaves no later one in it
              obtain ⟨gap, ⟨before, behind, rfl, blank, blank'⟩, same⟩ :=
                afterCodeKey_eq_some.mp longer
              have units : codeKey ++ (before ++ unitOf ':' :: behind ++ [unitOf '"'] ++ after)
                  = unitOf '"' :: ((lit "code\"" ++ (before ++ unitOf ':' :: behind))
                    ++ unitOf '"' :: after) := by
                rw [codeKey_eq]
                simp
              rw [units] at same
              obtain ⟨rfl, rest'⟩ := List.cons.inj same
              have nothing : ∀ cut, tail <+: cut →
                  cut = lit "code\"" ++ (before ++ unitOf ':' :: behind) → False := by
                rintro cut front rfl
                rw [findCode_inside blank blank' front] at found
                cases found
              rcases List.append_eq_append_iff.mp rest' with ⟨between, parts, _⟩ | ⟨between, parts, ends⟩
              · exact (nothing _ ⟨between, parts.symm⟩ rfl).elim
              · cases between with
                | nil =>
                    rw [List.append_nil] at parts
                    exact (nothing _ (List.prefix_refl _) parts).elim
                | cons quote_ between =>
                    obtain ⟨rfl, _⟩ := List.cons.inj ends
                    have full : afterCodeKey (unitOf '"' :: tail) = some between :=
                      afterCodeKey_eq_some.mpr ⟨before ++ unitOf ':' :: behind ++ [unitOf '"'],
                        ⟨before, behind, rfl, blank, blank'⟩, by
                          rw [parts, codeKey_eq]
                          simp⟩
                    rw [matched] at full
                    cases full

/-- Whether a written key ends in `"code`, where the quote opens the key or is an escaped one. -/
def endsInCode (written : JsString) : Bool :=
  (lit "\"code").isSuffixOf written

/-- The members of a text whose values are strings, at any depth and in order: each key as it is
written, with its opening quote, and the value.
-/
def stringMembers : Nat → JsString → List (JsString × JsString)
  | 0, _ => []
  | _ + 1, [] => []
  | fuel + 1, unit :: rest =>
      if unit = unitOf '"' then
        match unquote rest with
        | none => []
        | some (_, after) =>
            let written := unit :: rest.take (rest.length - after.length - 1)
            ((afterColon after).bind unquote).toList.map (fun read => (written, read.1))
              ++ stringMembers fuel after
      else stringMembers fuel rest

/-- The value of the first string member of a text whose written key ends in `"code`. -/
def firstCode (text : JsString) : Option JsString :=
  ((stringMembers text.length text).find? fun member => endsInCode member.1).map Prod.snd

theorem endsInCode_cons {written : JsString}
    : endsInCode (unit :: written)
      = (unit = unitOf '"' && written = lit "code" || endsInCode written) := by
  rw [endsInCode, endsInCode, Bool.eq_iff_iff]
  simp only [List.isSuffixOf_iff_suffix, List.suffix_cons_iff, Bool.or_eq_true, Bool.and_eq_true,
    decide_eq_true_eq]
  have units : lit "\"code" = unitOf '"' :: lit "code" := rfl
  rw [units, List.cons.injEq]
  exact or_congr ⟨fun same => ⟨same.1.symm, same.2.symm⟩, fun same => ⟨same.1.symm, same.2.symm⟩⟩
    Iff.rfl

theorem endsInCode_skip {written : JsString} (other : unit ≠ unitOf '"')
    : endsInCode (unit :: written) = endsInCode written := by
  rw [endsInCode_cons, decide_eq_false other, Bool.false_and, Bool.false_or]

variable {content value : JsString}

/-- The match at the opening quote of a literal needs the literal to be the key. -/
theorem afterCodeKey_literal {body : JsString} (literal : Literal content value rest)
    (written : content = body ++ unitOf '"' :: rest)
    : afterCodeKey (unitOf '"' :: content)
      = if body = lit "code" then afterColon rest else none := by
  by_cases key : body = lit "code"
  · have whole : unitOf '"' :: content = codeKey ++ rest := by
      rw [written, key]
      rfl
    rw [whole, afterCodeKey, if_pos (List.isPrefixOf_iff_prefix.mpr (List.prefix_append _ _)),
      List.drop_left' rfl, if_pos key]
  · rw [afterCodeKey, if_neg key, if_neg]
    intro front
    obtain ⟨after, same⟩ := List.isPrefixOf_iff_prefix.mp front
    rw [codeKey_eq, List.cons_append, List.cons.injEq] at same
    have letters : lit "code\"" ++ after = unitOf 'c' :: unitOf 'o' :: unitOf 'd' :: unitOf 'e'
        :: unitOf '"' :: after := rfl
    have read := literal.unquote
    rw [← same.2, letters, unquote_plain (by decide) (by decide) (by decide),
      unquote_plain (by decide) (by decide) (by decide),
      unquote_plain (by decide) (by decide) (by decide),
      unquote_plain (by decide) (by decide) (by decide), unquote_close] at read
    obtain ⟨_, rfl⟩ := Prod.mk.inj (Option.some.inj read)
    have closed : lit "code\"" ++ after = lit "code" ++ unitOf '"' :: after := rfl
    rw [written, closed] at same
    exact key (List.append_cancel_right same.2).symm

/-- What is found from the opening quote of a literal on, where it is known what is found after it.
-/
theorem findCode_opening {body : JsString} (literal : Literal content value rest)
    (written : content = body ++ unitOf '"' :: rest) (inside : findCode content
      = if endsInCode body then (afterColon rest).or (findCode rest) else findCode rest)
    : findCode (unitOf '"' :: content)
      = if endsInCode (unitOf '"' :: body) then (afterColon rest).or (findCode rest)
        else findCode rest := by
  rw [findCode, afterCodeKey_literal literal written, inside, endsInCode_cons]
  by_cases key : body = lit "code"
  · have none_ : endsInCode (lit "code") = false := by decide
    rw [key, none_]
    simp
  · simp [key]

theorem ne_quote_of_hexUnit {a b c d : UInt16} (hex : hexUnit a b c d = some unit)
    : a ≠ unitOf '"' ∧ b ≠ unitOf '"' ∧ c ≠ unitOf '"' ∧ d ≠ unitOf '"' := by
  have digit : hexValue (unitOf '"') = none := by decide
  simp only [hexUnit, Option.bind_eq_bind, Option.bind_eq_some_iff] at hex
  obtain ⟨_, first, _, second, _, third, _, fourth, _⟩ := hex
  refine ⟨?_, ?_, ?_, ?_⟩ <;> rintro rfl
  · rw [digit] at first
    cases first
  · rw [digit] at second
    cases second
  · rw [digit] at third
    cases third
  · rw [digit] at fourth
    cases fourth

/-- A literal holds a match exactly if what is written of it ends in `"code`, by induction over it.
-/
theorem findCode_literal (literal : Literal content value rest)
    (next : rest.head? ≠ some (unitOf 'c'))
    : ∃ body, content = body ++ unitOf '"' :: rest
      ∧ findCode content
        = if endsInCode body then (afterColon rest).or (findCode rest) else findCode rest := by
  induction literal with
  | close => exact ⟨[], rfl, findCode_skip (Or.inr next)⟩
  | @unicode a b c d unit more value rest hex onward ih =>
      obtain ⟨body, rfl, same⟩ := ih next
      obtain ⟨first, second, third, fourth⟩ := ne_quote_of_hexUnit hex
      refine ⟨unitOf '\\' :: unitOf 'u' :: a :: b :: c :: d :: body, rfl, ?_⟩
      rw [findCode_skip (Or.inl (by decide)), findCode_skip (Or.inl (by decide)),
        findCode_skip (Or.inl first), findCode_skip (Or.inl second), findCode_skip (Or.inl third),
        findCode_skip (Or.inl fourth), same, endsInCode_skip (by decide), endsInCode_skip (by decide),
        endsInCode_skip first, endsInCode_skip second, endsInCode_skip third, endsInCode_skip fourth]
  | @letter letter unit more value rest other escaped onward ih =>
      obtain ⟨body, rfl, same⟩ := ih next
      refine ⟨unitOf '\\' :: letter :: body, rfl, ?_⟩
      rw [findCode_skip (Or.inl (by decide)), endsInCode_skip (by decide)]
      by_cases quoted : letter = unitOf '"'
      · rw [quoted]
        exact findCode_opening onward rfl same
      · rw [findCode_skip (Or.inl quoted), endsInCode_skip quoted, same]
  | @plain unit more value rest quoteFree unescaped printable onward ih =>
      obtain ⟨body, rfl, same⟩ := ih next
      refine ⟨unit :: body, rfl, ?_⟩
      rw [findCode_skip (Or.inl quoteFree), endsInCode_skip quoteFree, same]

/-- No mark and no quote is the first letter of the key. -/
theorem head?_of_lexed (lexed : Lexed text)
    : text.head? ≠ some (unitOf 'c') := by
  cases lexed with
  | done => simp
  | mark plain _ =>
      rw [List.head?_cons]
      intro same
      rw [Option.some.inj same] at plain
      exact absurd plain (by decide)
  | literal _ _ =>
      rw [List.head?_cons]
      decide

/-- What follows units other than quotes is lexed, by induction over them. -/
theorem lexed_drop (plain : ∀ unit ∈ before, unit ≠ unitOf '"') (lexed : Lexed (before ++ text))
    : Lexed text := by
  induction before with
  | nil => exact lexed
  | cons unit before ih =>
      have others := fun unit member => plain unit (List.mem_cons_of_mem _ member)
      generalize whole : unit :: before ++ text = written at lexed
      cases lexed with
      | done => cases whole
      | mark _ more =>
          obtain ⟨_, rfl⟩ := List.cons.inj whole
          exact ih others more
      | literal _ _ => exact absurd (List.cons.inj whole).1 (plain unit List.mem_cons_self)

theorem unquote_afterColon (lexed : Lexed text) (found : afterColon text = some content)
    : ∃ value rest, unquote content = some (value, rest) := by
  obtain ⟨gap, ⟨before, after, rfl, blank, blank'⟩, rfl⟩ := afterColon_eq_some.mp found
  have plain : ∀ unit ∈ before ++ unitOf ':' :: after, unit ≠ unitOf '"' := by
    rintro unit member rfl
    rcases List.mem_append.mp member with early | later
    · exact absurd (blank _ early) (by decide)
    · rcases List.mem_cons.mp later with colon | late
      · exact absurd colon (by decide)
      · exact absurd (blank' _ late) (by decide)
  rw [List.append_assoc] at lexed
  have opened := lexed_drop plain lexed
  rw [List.singleton_append] at opened
  generalize whole : unitOf '"' :: content = written at opened
  cases opened with
  | done => cases whole
  | mark mark _ =>
      obtain ⟨rfl, _⟩ := List.cons.inj whole
      exact absurd mark (by decide)
  | @literal content' value rest closed _ =>
      obtain ⟨_, rfl⟩ := List.cons.inj whole
      exact ⟨value, rest, closed⟩

/-- The search of the raw text finds the first string member whose written key ends in `"code`, by
induction over the text of a value.
-/
theorem find?_stringMembers (lexed : Lexed text) {fuel : Nat} (enough : text.length ≤ fuel)
    : (((stringMembers fuel text).find? fun member => endsInCode member.1).map Prod.snd
        = (findCode text).bind fun content => (unquote content).map Prod.fst)
      ∧ ∀ content, findCode text = some content →
        ∃ value rest, unquote content = some (value, rest) := by
  induction lexed generalizing fuel with
  | done => cases fuel <;> exact ⟨rfl, fun _ found => by cases found⟩
  | @mark unit rest plain more ih =>
      obtain ⟨fuel, rfl⟩ : ∃ n, fuel = n + 1 := ⟨fuel - 1, by
        rw [List.length_cons] at enough
        omega⟩
      have other : unit ≠ unitOf '"' := by
        rintro rfl
        exact absurd plain (by decide)
      rw [findCode_skip (Or.inl other), stringMembers, if_neg other]
      exact ih (by rw [List.length_cons] at enough; omega)
  | @literal content value rest closed more ih =>
      obtain ⟨fuel, rfl⟩ : ∃ n, fuel = n + 1 := ⟨fuel - 1, by
        rw [List.length_cons] at enough
        omega⟩
      have literal := literal_of_unquote closed
      obtain ⟨body, written, inside⟩ := findCode_literal literal (head?_of_lexed more)
      have key : content.take (content.length - rest.length - 1) = body := by
        have count : content.length - rest.length - 1 = body.length := by
          rw [written, List.length_append, List.length_cons]
          omega
        rw [count, written, List.take_left' rfl]
      have later := @ih fuel (by
        rw [List.length_cons, written, List.length_append, List.length_cons] at enough
        omega)
      rw [findCode_opening literal written inside, stringMembers, if_pos rfl, closed]
      dsimp only
      rw [key]
      cases value' : afterColon rest with
      | none =>
          rw [Option.bind_none, Option.toList_none, List.map_nil, List.nil_append, Option.none_or,
            ite_self]
          exact later
      | some content' =>
          obtain ⟨string, after, unquoted⟩ := unquote_afterColon more value'
          rw [Option.bind_some, unquoted, Option.toList_some, List.map_singleton,
            List.singleton_append, Option.some_or, List.find?_cons]
          cases ends : endsInCode (unitOf '"' :: body) with
          | true =>
              refine ⟨by simp [unquoted], fun content found => ?_⟩
              obtain rfl := Option.some.inj found
              exact ⟨string, after, unquoted⟩
          | false => exact later

/-- An extractor that has been given the first part of a text whose match begins a literal. -/
inductive Extracting (value rest given more : JsString) : Extractor → Prop
  | searching (absent : findCode given = none)
    : Extracting value rest given more ⟨given, none, 0, [], false, false⟩
  | reading {start cursor : Nat} {front back : JsString} (missing : more ≠ [])
      (parts : value = front ++ back) (inside : cursor ≤ given.length)
      (left : Literal (given.drop cursor ++ more) back rest)
    : Extracting value rest given more ⟨given, some start, cursor, front, false, false⟩
  | complete {raw : JsString} {start cursor : Nat}
    : Extracting value rest given more ⟨raw, some start, cursor, value, true, false⟩

variable {given more : JsString} {extractor : Extractor}

theorem Extracting.of_decoded {front back : JsString} {start cursor : Nat}
    (parts : value = front ++ back) (inside : cursor ≤ given.length)
    (decoded : Decoded (given.drop cursor) more ⟨given, some start, cursor, front, false, false⟩
      back rest extractor)
    : Extracting value rest given more extractor := by
  cases decoded with
  | whole =>
      rw [parts]
      exact .complete
  | @part read left width missing parts' within literal =>
      refine @Extracting.reading _ _ _ _ _ _ _ left missing ?_ ?_ ?_
      · rw [parts, parts', List.append_assoc]
      · dsimp only
        rw [List.length_drop] at within
        omega
      · rw [List.drop_drop] at literal
        exact literal

/-- Each piece keeps the extractor on the literal that the text's first match begins. -/
theorem Extracting.push {delta : JsString} {maxBytes : Nat} (found : findCode text = some content)
    (literal : Literal content value rest) (whole : text = given ++ (delta ++ more))
    (short : text.length ≤ maxBytes)
    (extracting : Extracting value rest given (delta ++ more) extractor)
    : Extracting value rest (given ++ delta) more (extractor.push maxBytes delta) := by
  have room : ¬maxBytes < given.length + delta.length := by
    rw [whole, List.length_append, List.length_append] at short
    omega
  cases extracting with
  | complete => exact .complete
  | searching absent =>
      simp only [Extractor.push, Bool.or_self, Bool.false_eq_true, if_false, if_neg room]
      cases match_ : findCode (given ++ delta) with
      | none => exact .searching match_
      | some tail =>
          obtain ⟨front, same⟩ := findCode_suffix match_
          have longer := findCode_append match_ more
          rw [List.append_assoc, ← whole, found] at longer
          obtain rfl := Option.some.inj longer
          have start : (given ++ delta).length - tail.length = front.length := by
            rw [same, List.length_append]
            omega
          dsimp only
          rw [start]
          refine .of_decoded (List.nil_append _).symm ?_ (decode_literal literal ?_ _)
          · rw [same, List.length_append]
            omega
          · rw [same, List.drop_left' rfl]
  | @reading start cursor front back missing parts inside left =>
      simp only [Extractor.push, Bool.or_self, Bool.false_eq_true, if_false, if_neg room]
      refine .of_decoded parts ?_ (decode_literal left ?_ _)
      · rw [List.length_append]
        omega
      · rw [List.drop_append_of_le_length inside, List.append_assoc]

/-- However a text is cut, the extractor stays on the literal, by induction over the pieces. -/
theorem extracting_pushAll {maxBytes : Nat} (found : findCode text = some content)
    (literal : Literal content value rest) (short : text.length ≤ maxBytes) (chunks : List JsString)
    (more : JsString) (whole : text = chunks.flatten ++ more)
    : Extracting value rest chunks.flatten more (pushAll maxBytes chunks) := by
  induction chunks using List.reverseRecOn generalizing more with
  | nil => exact .searching rfl
  | append_singleton chunks delta ih =>
      rw [List.flatten_append, List.flatten_singleton] at whole ⊢
      rw [List.append_assoc] at whole
      rw [pushAll, List.foldl_append]
      exact (ih (delta ++ more) whole).push found literal whole short

/-- However the text is cut into pieces, after the last one the extractor is complete and has the
value, and before that it has a prefix of it.
-/
def Agrees (text value : JsString) : Prop :=
  ∀ maxBytes chunks, List.flatten chunks = text → text.length ≤ maxBytes →
    (pushAll maxBytes chunks).complete = true
    ∧ (pushAll maxBytes chunks).code = some value
    ∧ ∀ before, before <+: chunks → ∀ code ∈ (pushAll maxBytes before).code, code <+: value

theorem Extracting.code_front (extracting : Extracting value rest given more extractor)
    : ∀ code ∈ extractor.code, code <+: value := by
  cases extracting with
  | searching => intro code none_; cases none_
  | reading missing parts =>
      intro code same
      obtain rfl := Option.some.inj same
      exact ⟨_, parts.symm⟩
  | complete =>
      intro code same
      obtain rfl := Option.some.inj same
      exact List.prefix_refl _

/-- A match that begins a literal is extracted, however the text is cut. -/
theorem agrees_of_literal (found : findCode text = some content)
    (literal : Literal content value rest)
    : Agrees text value := by
  intro maxBytes chunks whole short
  have ended := extracting_pushAll found literal short chunks [] (by rw [List.append_nil, whole])
  refine ⟨?_, ?_, fun before front code given => ?_⟩
  · rw [whole] at ended
    generalize pushAll maxBytes chunks = extractor at ended
    cases ended with
    | searching absent => rw [found] at absent; cases absent
    | reading missing => exact absurd rfl missing
    | complete => rfl
  · rw [whole] at ended
    generalize pushAll maxBytes chunks = extractor at ended
    cases ended with
    | searching absent => rw [found] at absent; cases absent
    | reading missing => exact absurd rfl missing
    | complete => rfl
  · obtain ⟨after, rfl⟩ := front
    rw [List.flatten_append] at whole
    exact (extracting_pushAll found literal short before after.flatten whole.symm).code_front
      code given

/-- Without a match, nothing is extracted. -/
theorem code_of_no_match (absent : findCode text = none)
    : (pushAll text.length [text]).code = none := by
  simp [pushAll, Extractor.push, Extractor.start, absent, Extractor.code]

/-- The extractor agrees with the parser on the text of an object with a string `code` exactly if
the first string member whose written key ends in `"code` has the same value.
-/
theorem extractor_agrees_iff (text : JsString) (members : List (JsString × Json)) (value : JsString)
    (parsed : parse text = some (.object members))
    (top : (Json.object members).field? "code" = some (.string value))
    : Agrees text value ↔ firstCode text = some value := by
  obtain ⟨first, closed⟩ := find?_stringMembers (lexed_of_parse parsed) (le_refl text.length)
  rw [firstCode, first]
  cases found : findCode text with
  | none =>
      refine ⟨fun agrees => ?_, fun none_ => by cases none_⟩
      have code := (agrees text.length [text] (by simp) le_rfl).2.1
      rw [code_of_no_match found] at code
      cases code
  | some content =>
      obtain ⟨own, rest, unquoted⟩ := closed content found
      have extracted := agrees_of_literal found (literal_of_unquote unquoted)
      rw [Option.bind_some, unquoted, Option.map_some, Option.some.injEq]
      constructor
      · intro agrees
        have left := (agrees text.length [text] (by simp) le_rfl).2.1
        have right := (extracted text.length [text] (by simp) le_rfl).2.1
        exact Option.some.inj (right.symm.trans left)
      · rintro rfl
        exact extracted

def plainArguments : List (JsString × Json) :=
  [(lit "code", .string (lit "done()\n"))]

/-- Their text, as it is written, is extracted. -/
theorem extractor_agrees_iff_plain
    : Agrees (stringify (.object plainArguments)) (lit "done()\n")
      ↔ firstCode (stringify (.object plainArguments)) = some (lit "done()\n") :=
  extractor_agrees_iff (stringify (.object plainArguments)) plainArguments (lit "done()\n")
    (parse_stringify _) rfl

def nestedArguments : List (JsString × Json) :=
  [(lit "strings", .object [(lit "code", .string (lit "x"))]), (lit "code", .string (lit "y"))]

theorem extractor_takes_nested_code
    : parse (stringify (.object nestedArguments)) = some (.object nestedArguments)
      ∧ (Json.object nestedArguments).field? "code" = some (.string (lit "y"))
      ∧ (pushAll 100 [stringify (.object nestedArguments)]).complete = true
      ∧ (pushAll 100 [stringify (.object nestedArguments)]).code = some (lit "x")
      ∧ ¬Agrees (stringify (.object nestedArguments)) (lit "y") := by
  have extracted : (pushAll 100 [stringify (.object nestedArguments)]).code = some (lit "x") := by
    decide +kernel
  refine ⟨parse_stringify _, rfl, by decide +kernel, extracted, fun agrees => ?_⟩
  have code := (agrees 100 [stringify (.object nestedArguments)] (by simp) (by decide +kernel)).2.1
  rw [extracted] at code
  exact absurd code (by decide)

end PiFabric.Speculation
