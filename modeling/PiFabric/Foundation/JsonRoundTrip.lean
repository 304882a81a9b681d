import PiFabric.Foundation.Json

/-! `JSON.parse` reads back what `JSON.stringify` wrote.
The text it writes is well-formed and has no control unit, so it fits on one line.
-/

namespace PiFabric.Json

open JsString

theorem hexValue_hexDigit {n : Nat} (h : n < 16) : hexValue (hexDigit n) = some n := by
  interval_cases n <;> decide

/-- The four digits of a unicode escape name its unit. -/
theorem hexUnit_digits (unit : UInt16)
    : hexUnit (hexDigit (unit.toNat / 0x1000)) (hexDigit (unit.toNat / 0x100 % 16))
        (hexDigit (unit.toNat / 0x10 % 16)) (hexDigit (unit.toNat % 16))
      = some unit := by
  have bound := unit.toNat_lt
  have value
      : unit.toNat / 0x1000 * 0x1000 + unit.toNat / 0x100 % 16 * 0x100
          + unit.toNat / 0x10 % 16 * 0x10 + unit.toNat % 16
        = unit.toNat := by
    omega
  simp only [hexUnit, hexValue_hexDigit (show unit.toNat / 0x1000 < 16 by omega),
    hexValue_hexDigit (Nat.mod_lt _ (by decide)), Option.pure_def, Option.bind_eq_bind,
    Option.bind_some, value]
  simp

theorem unquote_close (rest : JsString) : unquote (unitOf '"' :: rest) = some ([], rest) := by
  rw [unquote.eq_def]
  simp only [if_true]

/-- A unit that needs no escape is read as itself. -/
theorem unquote_plain {unit : UInt16} (quoteFree : unit ≠ unitOf '"')
    (slashFree : unit ≠ unitOf '\\') (printable : ¬unit < 0x20) (rest : JsString)
    : unquote (unit :: rest) = (unquote rest).map fun read => (unit :: read.1, read.2) := by
  rw [unquote.eq_def]
  simp only [if_neg quoteFree, if_neg slashFree, if_neg printable]

theorem unquote_unicodeEscape (unit : UInt16) (rest : JsString)
    : unquote (unicodeEscape unit ++ rest)
      = (unquote rest).map fun read => (unit :: read.1, read.2) := by
  have notQuote : unitOf '\\' ≠ unitOf '"' := by decide
  simp only [unicodeEscape, List.cons_append, List.nil_append]
  rw [unquote.eq_def]
  simp only [if_neg notQuote, if_true, hexUnit_digits, Option.bind_some]

theorem unquote_letter {unit letter : UInt16} (notUnicode : letter ≠ unitOf 'u')
    (value : escapedUnit letter = some unit) (rest : JsString)
    : unquote (unitOf '\\' :: letter :: rest)
      = (unquote rest).map fun read => (unit :: read.1, read.2) := by
  have notQuote : unitOf '\\' ≠ unitOf '"' := by decide
  rw [unquote.eq_def]
  simp only [if_neg notQuote, if_true, if_neg notUnicode, value, Option.bind_some]

/-- A one-letter escape is read back as the unit it stands for. -/
theorem escapedUnit_shortEscape {unit letter : UInt16}
    (h : shortEscapes.lookup unit = some letter)
    : letter ≠ unitOf 'u' ∧ escapedUnit letter = some unit := by
  have member : (unit, letter) ∈ shortEscapes := by
    simp only [shortEscapes, List.lookup] at h ⊢
    grind
  revert member
  simp only [shortEscapes, List.mem_cons, List.not_mem_nil, or_false, Prod.mk.injEq]
  intro member
  rcases member with ⟨rfl, rfl⟩ | ⟨rfl, rfl⟩ | ⟨rfl, rfl⟩ | ⟨rfl, rfl⟩ | ⟨rfl, rfl⟩
    | ⟨rfl, rfl⟩ | ⟨rfl, rfl⟩ <;> decide

/-- Reading an escaped unit gives the unit, by the three ways it can be written. -/
theorem unquote_escapeUnit (unit : UInt16) (rest : JsString)
    : unquote (escapeUnit unit ++ rest)
      = (unquote rest).map fun read => (unit :: read.1, read.2) := by
  cases short : shortEscapes.lookup unit with
  | some letter =>
      obtain ⟨notUnicode, value⟩ := escapedUnit_shortEscape short
      simp only [escapeUnit, short, List.cons_append, List.nil_append]
      exact unquote_letter notUnicode value rest
  | none =>
      simp only [escapeUnit, short]
      split
      · exact unquote_unicodeEscape unit rest
      · next plain =>
          simp only [Bool.or_eq_true, decide_eq_true_eq, not_or] at plain
          refine unquote_plain ?_ ?_ plain.1.1 rest
          · intro same
            rw [same] at short
            revert short
            decide
          · intro same
            rw [same] at short
            revert short
            decide

/-- Half of a surrogate pair needs no escape of its own. -/
theorem unquote_surrogate {unit : UInt16} (half : 0xD800 ≤ unit.toNat) (rest : JsString)
    : unquote (unit :: rest) = (unquote rest).map fun read => (unit :: read.1, read.2) := by
  refine unquote_plain ?_ ?_ ?_ rest
  · intro same
    rw [same] at half
    revert half
    decide
  · intro same
    rw [same] at half
    revert half
    decide
  · rw [UInt16.lt_iff_toNat_lt]
    have : (0x20 : UInt16).toNat = 0x20 := rfl
    omega

/-- The content of a string literal reads back, by induction along its code points. -/
theorem unquote_escape (text rest : JsString)
    : unquote (escape text ++ unitOf '"' :: rest) = some (text, rest) := by
  induction text using escape.induct with
  | case1 => simp [escape, unquote_close]
  | case2 unit => simp [escape, unquote_escapeUnit, unquote_close]
  | case3 first second text pair ih =>
      have halves := pair
      simp only [Bool.and_eq_true, Utf8.isHigh_iff, Utf8.isLow_iff] at halves
      simp only [escape, pair, if_true, List.cons_append]
      rw [unquote_surrogate halves.1.1, unquote_surrogate (by omega), ih]
      rfl
  | case4 first second text single ih =>
      simp only [escape, single, List.append_assoc, Bool.false_eq_true, if_false]
      rw [unquote_escapeUnit, ih]
      rfl

theorem toNat_unitOf {c : Char} (h : c.isDigit) : (unitOf c).toNat = c.toNat := by
  have bounds : c.toNat ≤ 57 := (Char.isDigit_iff_toNat.mp h).2
  simp only [unitOf, Nat.toUInt16, UInt16.toNat_ofNat']
  exact Nat.mod_eq_of_lt (by omega)

theorem isDigit_unitOf {c : Char} (h : c.isDigit) : isDigit (unitOf c) = true := by
  have bounds := Char.isDigit_iff_toNat.mp h
  simp only [isDigit, Bool.and_eq_true, decide_eq_true_eq, UInt16.le_iff_toNat_le,
    toNat_unitOf h]
  exact ⟨bounds.1, bounds.2⟩

theorem all_isDigit_digits (n : Nat) : (digits n).all isDigit = true := by
  rw [List.all_eq_true]
  intro unit member
  obtain ⟨c, inside, rfl⟩ := List.mem_map.mp member
  exact isDigit_unitOf (Nat.isDigit_of_mem_toDigits (by decide) (by decide) inside)

theorem natValue_digits (n : Nat) : natValue (digits n) = n := by
  have back
      : (digits n).map (fun unit => Char.ofNat unit.toNat) = Nat.toDigits 10 n := by
    simp only [digits, List.map_map]
    conv => rhs; rw [← List.map_id (Nat.toDigits 10 n)]
    apply List.map_congr_left
    intro c inside
    have digit := Nat.isDigit_of_mem_toDigits (by decide) (by decide) inside
    simp [toNat_unitOf digit]
  rw [natValue, back]
  exact Nat.ofDigitChars_ten_toDigits

/-- The digits of a positive number do not start with zero, by induction along its digits. -/
theorem digits_head {n : Nat} (pos : 0 < n)
    : ∃ head tail, digits n = head :: tail ∧ head ≠ unitOf '0' := by
  induction n using Nat.strongRecOn with
  | ind n ih =>
      rcases Nat.lt_or_ge n 10 with small | large
      · refine ⟨unitOf (Nat.digitChar n), [], ?_, ?_⟩
        · rw [digits, Nat.toDigits_of_lt_base small]
          rfl
        · interval_cases n <;> decide
      · obtain ⟨head, tail, same, nonzero⟩ := ih (n / 10) (by omega) (by omega)
        refine ⟨head, tail ++ [unitOf (Nat.digitChar (n % 10))], ?_, nonzero⟩
        rw [digits, Nat.toDigits_of_base_le (by decide) large, List.map_append]
        exact congrArg (· ++ [unitOf (Nat.digitChar (n % 10))]) same

theorem isDigits_digits (n : Nat) : isDigits (digits n) = true := by
  rcases Nat.eq_zero_or_pos n with zero | pos
  · rw [zero]
    decide
  · obtain ⟨head, tail, same, nonzero⟩ := digits_head pos
    have all := all_isDigit_digits n
    rw [same] at all ⊢
    cases tail with
    | nil => simpa [isDigits] using all
    | cons next rest =>
        simp only [List.all_cons, Bool.and_eq_true] at all
        simp [isDigits, all.1, all.2.1, all.2.2, nonzero]

/-- A digit is neither a sign nor the start of another kind of value. -/
theorem digit_bounds {unit : UInt16} (h : isDigit unit = true)
    : 48 ≤ unit.toNat ∧ unit.toNat ≤ 57 := by
  simpa [isDigit, UInt16.le_iff_toNat_le, unitOf] using h

theorem isNumberUnit_of_isDigit {unit : UInt16} (h : isDigit unit = true)
    : isNumberUnit unit = true := by
  simp only [isDigit] at h
  simp only [isNumberUnit, h, Bool.true_or]

theorem ne_minus_of_isDigit {unit : UInt16} (h : isDigit unit = true)
    : unit ≠ unitOf '-' := by
  intro same
  rw [same] at h
  revert h
  decide

/-- An integer's token is an integer token of number units, and names that integer. -/
theorem integerToken_spec (value : Int)
    : isIntegerToken (integerToken value) = true
      ∧ (integerToken value).all isNumberUnit = true
      ∧ integerValue (integerToken value) = value := by
  have numeric (n : Nat) : (digits n).all isNumberUnit = true := by
    rw [List.all_eq_true]
    intro unit member
    exact isNumberUnit_of_isDigit (List.all_eq_true.mp (all_isDigit_digits n) unit member)
  cases value with
  | ofNat n =>
      have shaped := isDigits_digits n
      have all := all_isDigit_digits n
      have value := natValue_digits n
      refine ⟨?_, numeric n, ?_⟩
      · simp only [integerToken]
        cases same : digits n with
        | nil => simp [same, isDigits] at shaped
        | cons head tail =>
            rw [same] at shaped all
            simp only [List.all_cons, Bool.and_eq_true] at all
            simp only [isIntegerToken, if_neg (ne_minus_of_isDigit all.1), shaped]
      · simp only [integerToken]
        cases same : digits n with
        | nil => simp [same, isDigits] at shaped
        | cons head tail =>
            rw [same] at all value
            simp only [List.all_cons, Bool.and_eq_true] at all
            simp only [integerValue, if_neg (ne_minus_of_isDigit all.1), value]
            rfl
  | negSucc n =>
      refine ⟨?_, ?_, ?_⟩
      · simp only [integerToken, isIntegerToken, if_true, isDigits_digits]
      · have minus : isNumberUnit (unitOf '-') = true := by decide
        simp only [integerToken, List.all_cons, minus, numeric, Bool.and_self]
      · simp only [integerToken, integerValue, if_true, natValue_digits]
        omega

/-- Where a number ends: no number unit comes next. -/
def NumberEnd (rest : JsString) : Prop :=
  ∀ unit, rest.head? = some unit → isNumberUnit unit = false

theorem NumberEnd.cons {unit : UInt16} (h : isNumberUnit unit = false) (rest : JsString)
    : NumberEnd (unit :: rest) := by
  intro next head
  simp only [List.head?_cons, Option.some.injEq] at head
  rwa [← head]

theorem takeWhile_number {token rest : JsString} (h : token.all isNumberUnit = true)
    (stop : NumberEnd rest)
    : (token ++ rest).takeWhile isNumberUnit = token
      ∧ (token ++ rest).dropWhile isNumberUnit = rest := by
  have all := List.all_eq_true.mp h
  rw [List.takeWhile_append_of_pos all, List.dropWhile_append_of_pos all]
  cases rest with
  | nil => simp
  | cons unit rest => simp [stop unit rfl]

/-- A number reads back where its token ends, by its two kinds. -/
theorem parseNumber_token (value : JsNumber) {rest : JsString} (stop : NumberEnd rest)
    : parseNumber (numberToken value ++ rest) = some (number value, rest) := by
  cases value with
  | int value =>
      obtain ⟨shaped, numeric, same⟩ := integerToken_spec value
      obtain ⟨token, after⟩ := takeWhile_number numeric stop
      simp only [parseNumber, numberToken, token, after, shaped, if_true, same]
  | decimal token =>
      have shaped := token.shaped
      simp only [isDecimalToken, Bool.and_eq_true, Bool.not_eq_true'] at shaped
      obtain ⟨units, after⟩ := takeWhile_number shaped.1.1.1 stop
      simp only [parseNumber, numberToken, units, after, shaped.1.1.2, token.shaped,
        Bool.false_eq_true, if_false, dif_pos]

/-- A number's token starts with a number unit. -/
theorem numberToken_head (value : JsNumber)
    : ∃ unit tail, numberToken value = unit :: tail ∧ isNumberUnit unit = true := by
  have nonempty : numberToken value ≠ [] ∧ (numberToken value).all isNumberUnit = true := by
    cases value with
    | int value =>
        obtain ⟨shaped, numeric, -⟩ := integerToken_spec value
        refine ⟨?_, numeric⟩
        intro empty
        simp only [numberToken] at empty
        simp [empty, isIntegerToken] at shaped
    | decimal token =>
        have shaped := token.shaped
        simp only [isDecimalToken, Bool.and_eq_true] at shaped
        refine ⟨?_, shaped.1.1.1⟩
        intro empty
        simp only [numberToken] at empty
        simp [empty, isDigits] at shaped
  obtain ⟨unit, tail, same⟩ := List.exists_cons_of_ne_nil nonempty.1
  rw [same] at nonempty
  exact ⟨unit, tail, same, by simpa using (List.all_eq_true.mp nonempty.2 unit (by simp))⟩

theorem isSpace_of_isNumberUnit {unit : UInt16} (h : isNumberUnit unit = true)
    : isSpace unit = false := by
  rw [Bool.eq_false_iff]
  intro space
  simp only [isSpace, Bool.or_eq_true, decide_eq_true_eq] at space
  rcases space with ((same | same) | same) | same <;>
    · rw [same] at h
      revert h
      decide

theorem skipSpace_cons {unit : UInt16} (h : isSpace unit = false) (rest : JsString)
    : skipSpace (unit :: rest) = unit :: rest := by
  simp [skipSpace, h]

/-- The text of a value starts with a unit that is no space and closes nothing. -/
theorem stringify_head (value : Json)
    : ∃ unit tail,
        stringify value = unit :: tail ∧ isSpace unit = false ∧ unit ≠ unitOf ']' := by
  cases value with
  | null => exact ⟨unitOf 'n', lit "ull", by decide, by decide, by decide⟩
  | bool value =>
      cases value with
      | false => exact ⟨unitOf 'f', lit "alse", by decide, by decide, by decide⟩
      | true => exact ⟨unitOf 't', lit "rue", by decide, by decide, by decide⟩
  | number value =>
      obtain ⟨unit, tail, same, numeric⟩ := numberToken_head value
      refine ⟨unit, tail, same, isSpace_of_isNumberUnit numeric, ?_⟩
      intro close
      rw [close] at numeric
      revert numeric
      decide
  | string text => exact ⟨unitOf '"', _, rfl, by decide, by decide⟩
  | array items =>
      cases items with
      | nil => exact ⟨unitOf '[', _, rfl, by decide, by decide⟩
      | cons item rest => exact ⟨unitOf '[', _, rfl, by decide, by decide⟩
  | object members =>
      cases members with
      | nil => exact ⟨unitOf '\x7b', _, rfl, by decide, by decide⟩
      | cons member rest => exact ⟨unitOf '\x7b', _, rfl, by decide, by decide⟩

theorem stringify_items (item : Json) (rest : List Json)
    : stringify (array (item :: rest))
      = unitOf '[' :: (stringifyItems (item :: rest)).tail := by
  simp [stringify, stringifyItems]

theorem stringify_members (member : JsString × Json) (rest : List (JsString × Json))
    : stringify (object (member :: rest))
      = unitOf '\x7b' :: (stringifyMembers (member :: rest)).tail := by
  simp [stringify, stringifyMembers]

/-- A list of items goes on with a comma or ends with the bracket. -/
theorem stringifyItems_end (items : List Json) (rest : JsString)
    : NumberEnd (stringifyItems items ++ rest) := by
  cases items with
  | nil => exact NumberEnd.cons (by decide) rest
  | cons item more => exact NumberEnd.cons (by decide) _

theorem stringifyMembers_end (members : List (JsString × Json)) (rest : JsString)
    : NumberEnd (stringifyMembers members ++ rest) := by
  cases members with
  | nil => exact NumberEnd.cons (by decide) rest
  | cons member more => exact NumberEnd.cons (by decide) _

theorem parseValue_string (text : JsString) (fuel : Nat) (rest : JsString)
    : parseValue (fuel + 1) (quote text ++ rest) = some (string text, rest) := by
  have read := unquote_escape text rest
  simp only [quote, List.cons_append, List.append_assoc, List.nil_append, parseValue,
    skipSpace_cons (show isSpace (unitOf '"') = false by decide), if_true, read]
  rfl

theorem parseValue_number (value : JsNumber) (fuel : Nat) {rest : JsString}
    (stop : NumberEnd rest)
    : parseValue (fuel + 1) (numberToken value ++ rest) = some (number value, rest) := by
  obtain ⟨unit, tail, same, numeric⟩ := numberToken_head value
  have read := parseNumber_token value stop
  have other {c : Char} (h : isNumberUnit (unitOf c) = false) : unit ≠ unitOf c := by
    intro equal
    rw [equal, h] at numeric
    exact Bool.noConfusion numeric
  rw [same, List.cons_append] at read ⊢
  simp only [parseValue, skipSpace_cons (isSpace_of_isNumberUnit numeric),
    if_neg (other (show isNumberUnit (unitOf '"') = false by decide)),
    if_neg (other (show isNumberUnit (unitOf '[') = false by decide)),
    if_neg (other (show isNumberUnit (unitOf '\x7b') = false by decide)), numeric, if_true, read]

/-- A keyword reads back wherever its first unit selects `parseWord`. -/
theorem parseValue_word {word : JsString} {value : Json} {rest : JsString} (fuel : Nat)
    (read : parseWord (word ++ rest) = some (value, rest))
    (first : ∃ unit tail,
        word = unit :: tail ∧ isSpace unit = false ∧ unit ≠ unitOf '"' ∧ unit ≠ unitOf '['
        ∧ unit ≠ unitOf '\x7b' ∧ isNumberUnit unit = false)
    : parseValue (fuel + 1) (word ++ rest) = some (value, rest) := by
  obtain ⟨unit, tail, same, space, quoted, bracket, brace, numeric⟩ := first
  rw [same, List.cons_append] at read ⊢
  simp only [parseValue, skipSpace_cons space, if_neg quoted, if_neg bracket, if_neg brace,
    numeric, Bool.false_eq_true, if_false, read]

theorem parseWord_stringify {value : Json} (rest : JsString)
    (word : value = null ∨ value = bool true ∨ value = bool false)
    : parseWord (stringify value ++ rest) = some (value, rest) := by
  rcases word with rfl | rfl | rfl
  · simp [parseWord, stringify, lit, ofChar]
  · simp [parseWord, stringify, lit, ofChar]
  · simp [parseWord, stringify, lit, ofChar]

theorem parseValue_array {text rest : JsString} {items : List Json} {fuel : Nat}
    (first : ∃ unit tail, text = unit :: tail ∧ isSpace unit = false ∧ unit ≠ unitOf ']')
    (read : parseItems fuel text = some (items, rest))
    : parseValue (fuel + 1) (unitOf '[' :: text) = some (array items, rest) := by
  obtain ⟨unit, tail, rfl, space, close⟩ := first
  have notQuote : unitOf '[' ≠ unitOf '"' := by decide
  have head : some unit ≠ some (unitOf ']') := fun same => close (Option.some.inj same)
  simp only [parseValue, skipSpace_cons (show isSpace (unitOf '[') = false by decide),
    if_neg notQuote, if_true, skipSpace_cons space, List.head?_cons, if_neg head, read]
  rfl

/-- The last item of an array. -/
theorem parseItems_last {text rest : JsString} {item : Json} {fuel : Nat}
    (read : parseValue fuel text = some (item, unitOf ']' :: rest))
    : parseItems (fuel + 1) text = some ([item], rest) := by
  simp only [parseItems, read, Option.bind_some,
    skipSpace_cons (show isSpace (unitOf ']') = false by decide), if_true]

/-- An item before others. -/
theorem parseItems_more {text after rest : JsString} {item : Json} {items : List Json}
    {fuel : Nat} (read : parseValue fuel text = some (item, unitOf ',' :: after))
    (more : parseItems fuel after = some (items, rest))
    : parseItems (fuel + 1) text = some (item :: items, rest) := by
  have notClose : unitOf ',' ≠ unitOf ']' := by decide
  simp only [parseItems, read, Option.bind_some,
    skipSpace_cons (show isSpace (unitOf ',') = false by decide), if_neg notClose, if_true,
    more]
  rfl

theorem parseValue_object {text rest : JsString} {members : List (JsString × Json)}
    {fuel : Nat} (read : parseMembers fuel (unitOf '"' :: text) = some (members, rest))
    : parseValue (fuel + 1) (unitOf '\x7b' :: unitOf '"' :: text)
      = some (object members, rest) := by
  have notQuote : unitOf '\x7b' ≠ unitOf '"' := by decide
  have notBracket : unitOf '\x7b' ≠ unitOf '[' := by decide
  have head : some (unitOf '"') ≠ some (unitOf '\x7d') := by decide
  simp only [parseValue, skipSpace_cons (show isSpace (unitOf '\x7b') = false by decide),
    skipSpace_cons (show isSpace (unitOf '"') = false by decide), if_neg notQuote,
    if_neg notBracket, if_true, List.head?_cons, if_neg head, read]
  rfl

/-- The last member of an object. -/
theorem parseMembers_last {name value rest : JsString} {item : Json} {fuel : Nat}
    (read : parseValue fuel value = some (item, unitOf '\x7d' :: rest))
    : parseMembers (fuel + 1) (quote name ++ unitOf ':' :: value) = some ([(name, item)], rest) := by
  have key := unquote_escape name (unitOf ':' :: value)
  simp only [parseMembers, quote, List.cons_append, List.append_assoc, List.nil_append,
    skipSpace_cons (show isSpace (unitOf '"') = false by decide), if_true, key,
    Option.bind_some, skipSpace_cons (show isSpace (unitOf ':') = false by decide), read,
    skipSpace_cons (show isSpace (unitOf '\x7d') = false by decide)]

/-- A member before others. -/
theorem parseMembers_more {name value after rest : JsString} {item : Json}
    {members : List (JsString × Json)} {fuel : Nat}
    (read : parseValue fuel value = some (item, unitOf ',' :: after))
    (more : parseMembers fuel after = some (members, rest))
    : parseMembers (fuel + 1) (quote name ++ unitOf ':' :: value)
      = some ((name, item) :: members, rest) := by
  have key := unquote_escape name (unitOf ':' :: value)
  have notClose : unitOf ',' ≠ unitOf '\x7d' := by decide
  simp only [parseMembers, quote, List.cons_append, List.append_assoc, List.nil_append,
    skipSpace_cons (show isSpace (unitOf '"') = false by decide), if_true, key,
    Option.bind_some, skipSpace_cons (show isSpace (unitOf ':') = false by decide), read,
    skipSpace_cons (show isSpace (unitOf ',') = false by decide), if_neg notClose, more]
  rfl

mutual
/-- A value reads back from its text, by induction over the value. -/
theorem parseValue_stringify (value : Json) {fuel : Nat} {rest : JsString}
    (stop : NumberEnd rest) (enough : (stringify value).length ≤ fuel)
    : parseValue fuel (stringify value ++ rest) = some (value, rest) := by
  obtain ⟨first, tail, same, -, -⟩ := stringify_head value
  obtain ⟨less, rfl⟩ : ∃ less, fuel = less + 1 := by
    simp only [same, List.length_cons] at enough
    exact ⟨fuel - 1, by omega⟩
  cases value with
  | null =>
      exact parseValue_word less (parseWord_stringify rest (.inl rfl))
        ⟨unitOf 'n', lit "ull", by decide, by decide, by decide, by decide, by decide,
          by decide⟩
  | bool value =>
      cases value with
      | false =>
          exact parseValue_word less (parseWord_stringify rest (.inr (.inr rfl)))
            ⟨unitOf 'f', lit "alse", by decide, by decide, by decide, by decide, by decide,
              by decide⟩
      | true =>
          exact parseValue_word less (parseWord_stringify rest (.inr (.inl rfl)))
            ⟨unitOf 't', lit "rue", by decide, by decide, by decide, by decide, by decide,
              by decide⟩
  | number value => exact parseValue_number value less stop
  | string text => exact parseValue_string text less rest
  | array items =>
      cases items with
      | nil => rfl
      | cons item more =>
          rw [stringify_items, List.cons_append]
          rw [stringify_items, List.length_cons] at enough
          refine parseValue_array ?_
            (parseItems_stringify (item :: more) (List.cons_ne_nil _ _) less rest (by omega))
          obtain ⟨unit, tail, head, space, close⟩ := stringify_head item
          refine ⟨unit, tail ++ stringifyItems more ++ rest, ?_, space, close⟩
          simp [stringifyItems, head]
  | object members =>
      cases members with
      | nil => rfl
      | cons member more =>
          have read :=
            parseMembers_stringify (member :: more) (List.cons_ne_nil _ _) less rest (by
                rw [stringify_members, List.length_cons] at enough
                omega)
          rw [stringify_members, List.cons_append]
          simp only [stringifyMembers, quote, List.tail_cons, List.cons_append] at read ⊢
          exact parseValue_object read

/-- Items read back up to the closing bracket, by induction over the list. -/
theorem parseItems_stringify (items : List Json) (nonempty : items ≠ []) (fuel : Nat)
    (rest : JsString) (enough : (stringifyItems items).tail.length ≤ fuel)
    : parseItems fuel ((stringifyItems items).tail ++ rest) = some (items, rest) := by
  cases items with
  | nil => exact absurd rfl nonempty
  | cons item more =>
      simp only [stringifyItems, List.cons_append, List.tail_cons, List.length_append,
        List.append_assoc] at enough ⊢
      have item_read {less : Nat} (spare : (stringify item).length ≤ less) :=
        parseValue_stringify item (stringifyItems_end more rest) spare
      cases more with
      | nil =>
          simp only [stringifyItems, List.length_singleton] at enough item_read ⊢
          obtain ⟨less, rfl⟩ : ∃ less, fuel = less + 1 := ⟨fuel - 1, by omega⟩
          exact parseItems_last (item_read (by omega))
      | cons next others =>
          have more_read (less : Nat) :=
            parseItems_stringify (next :: others) (List.cons_ne_nil _ _) less rest
          simp only [stringifyItems, List.cons_append, List.tail_cons, List.length_cons]
            at enough item_read more_read ⊢
          obtain ⟨less, rfl⟩ : ∃ less, fuel = less + 1 := ⟨fuel - 1, by omega⟩
          exact parseItems_more (item_read (by omega)) (more_read less (by omega))

/-- Members read back up to the closing brace, by induction over the list. -/
theorem parseMembers_stringify (members : List (JsString × Json)) (nonempty : members ≠ [])
    (fuel : Nat) (rest : JsString)
    (enough : (stringifyMembers members).tail.length ≤ fuel)
    : parseMembers fuel ((stringifyMembers members).tail ++ rest) = some (members, rest) := by
  cases members with
  | nil => exact absurd rfl nonempty
  | cons member more =>
      simp only [stringifyMembers, List.cons_append, List.tail_cons, List.length_append,
        List.append_assoc, List.length_cons] at enough ⊢
      have item_read {less : Nat} (spare : (stringify member.2).length ≤ less) :=
        parseValue_stringify member.2 (stringifyMembers_end more rest) spare
      cases more with
      | nil =>
          simp only [stringifyMembers, List.length_singleton] at enough item_read ⊢
          obtain ⟨less, rfl⟩ : ∃ less, fuel = less + 1 := ⟨fuel - 1, by omega⟩
          exact parseMembers_last (item_read (by omega))
      | cons next others =>
          have more_read (less : Nat) :=
            parseMembers_stringify (next :: others) (List.cons_ne_nil _ _) less rest
          simp only [stringifyMembers, List.cons_append, List.tail_cons, List.length_cons]
            at enough item_read more_read ⊢
          obtain ⟨less, rfl⟩ : ∃ less, fuel = less + 1 := ⟨fuel - 1, by omega⟩
          exact parseMembers_more (item_read (by omega)) (more_read less (by omega))
end

/-- `JSON.parse(JSON.stringify(value))` is the value. -/
theorem parse_stringify (value : Json) : parse (stringify value) = some value := by
  have stop : NumberEnd [] := by
    intro unit head
    simp at head
  have read := parseValue_stringify value stop (Nat.le_succ (stringify value).length)
  rw [List.append_nil] at read
  have spaces : skipSpace [] = [] := rfl
  simp only [parse, read, Option.bind_some, spaces, if_true]

theorem stringify_injective {left right : Json} (h : stringify left = stringify right)
    : left = right := by
  have same := parse_stringify left
  rw [h, parse_stringify right] at same
  exact (Option.some.inj same).symm

/-- Well-formed text without control units. -/
structure Printable (text : JsString) : Prop where
  wellFormed : WellFormed text
  noControl : ∀ unit ∈ text, 0x20 ≤ unit.toNat

theorem Printable.append {left right : JsString} (hl : Printable left) (hr : Printable right)
    : Printable (left ++ right) := by
  refine ⟨hl.wellFormed.append hr.wellFormed, ?_⟩
  intro unit member
  rcases List.mem_append.mp member with member | member
  · exact hl.noControl unit member
  · exact hr.noControl unit member

def isVisible (unit : UInt16) : Bool :=
  0x20 ≤ unit.toNat && unit.toNat < 0x80

theorem printable_of_ascii {text : JsString} (h : text.all isVisible = true)
    : Printable text := by
  have bounds (unit : UInt16) (member : unit ∈ text)
      : 0x20 ≤ unit.toNat ∧ unit.toNat < 0x80 := by
    simpa [isVisible] using List.all_eq_true.mp h unit member
  exact {
    wellFormed := wellFormed_of_ascii fun unit member =>
      UInt16.lt_iff_toNat_lt.mpr (bounds unit member).2
    noControl := fun unit member => (bounds unit member).1
  }

theorem Printable.cons {unit : UInt16} {text : JsString} (ascii : isVisible unit = true)
    (h : Printable text)
    : Printable (unit :: text) := by
  have single : Printable [unit] := printable_of_ascii (by simp [ascii])
  exact single.append h

theorem isVisible_hexDigit {n : Nat} (h : n < 16) : isVisible (hexDigit n) = true := by
  interval_cases n <;> decide

theorem printable_unicodeEscape (unit : UInt16) : Printable (unicodeEscape unit) := by
  have bound := unit.toNat_lt
  have digits {n : Nat} : isVisible (hexDigit (n % 16)) = true :=
    isVisible_hexDigit (Nat.mod_lt _ (by decide))
  have first : isVisible (hexDigit (unit.toNat / 0x1000)) = true :=
    isVisible_hexDigit (by omega)
  have slash : isVisible (unitOf '\\') = true := by decide
  have letter : isVisible (unitOf 'u') = true := by decide
  apply printable_of_ascii
  simp only [unicodeEscape, List.all_cons, List.all_nil, slash, letter, first, digits,
    Bool.and_self]

theorem printable_escapeUnit (unit : UInt16) : Printable (escapeUnit unit) := by
  cases short : shortEscapes.lookup unit with
  | some letter =>
      have member : letter ∈ shortEscapes.map Prod.snd := by
        simp only [shortEscapes, List.lookup] at short ⊢
        grind
      have ascii : (shortEscapes.map Prod.snd).all isVisible = true := by decide
      have last : Printable [letter] :=
        printable_of_ascii (by simp [List.all_eq_true.mp ascii letter member])
      simp only [escapeUnit, short]
      exact last.cons (by decide)
  | none =>
      simp only [escapeUnit, short]
      split
      · exact printable_unicodeEscape unit
      · next plain =>
          simp only [Bool.or_eq_true, decide_eq_true_eq, not_or, Bool.not_eq_true] at plain
          have visible : (0x20 : UInt16).toNat ≤ unit.toNat := by
            simpa [UInt16.lt_iff_toNat_lt] using plain.1.1
          refine ⟨⟨plain.1.2, plain.2⟩, ?_⟩
          intro u member
          rw [List.mem_singleton.mp member]
          exact visible

/-- The content of a string literal, by induction along its code points. -/
theorem printable_escape (text : JsString) : Printable (escape text) := by
  induction text using escape.induct with
  | case1 => exact ⟨trivial, by simp [escape]⟩
  | case2 unit => exact printable_escapeUnit unit
  | case3 first second rest pair ih =>
      have halves := pair
      simp only [Bool.and_eq_true] at halves
      have high := Utf8.isHigh_iff.mp halves.1
      have low := Utf8.isLow_iff.mp halves.2
      have head : Printable [first, second] := by
        refine ⟨WellFormed.pair halves.1 halves.2 trivial, ?_⟩
        intro unit member
        simp only [List.mem_cons, List.not_mem_nil, or_false] at member
        rcases member with rfl | rfl <;> omega
      simp only [escape, pair, if_true]
      exact head.append ih
  | case4 first second rest single ih =>
      simp only [escape, single, Bool.false_eq_true, if_false]
      exact (printable_escapeUnit first).append ih

theorem printable_quote (text : JsString) : Printable (quote text) := by
  have close : Printable [unitOf '"'] := printable_of_ascii (by decide)
  exact ((printable_escape text).append close).cons (by decide)

theorem printable_numberToken (value : JsNumber) : Printable (numberToken value) := by
  have numeric : (numberToken value).all isNumberUnit = true := by
    cases value with
    | int value => exact (integerToken_spec value).2.1
    | decimal token =>
        have shaped := token.shaped
        simp only [isDecimalToken, Bool.and_eq_true] at shaped
        exact shaped.1.1.1
  apply printable_of_ascii
  rw [List.all_eq_true]
  intro unit member
  have kind := List.all_eq_true.mp numeric unit member
  simp only [isNumberUnit, Bool.or_eq_true, Bool.and_eq_true, decide_eq_true_eq] at kind
  rcases kind with ((((digit | rfl) | rfl) | rfl) | rfl) | rfl
  · have shaped : isDigit unit = true := by simpa [isDigit] using digit
    have bounds := digit_bounds shaped
    simp only [isVisible, Bool.and_eq_true, decide_eq_true_eq]
    omega
  all_goals decide

mutual
/-- The text of a value, by induction over the value. -/
theorem printable_stringify (value : Json) : Printable (stringify value) := by
  cases value with
  | null => exact printable_of_ascii (by decide)
  | bool value => cases value <;> exact printable_of_ascii (by decide)
  | number value => exact printable_numberToken value
  | string text => exact printable_quote text
  | array items =>
      cases items with
      | nil => exact printable_of_ascii (by decide)
      | cons item rest =>
          have body := (printable_stringify item).append (printable_stringifyItems rest)
          exact body.cons (by decide)
  | object members =>
      cases members with
      | nil => exact printable_of_ascii (by decide)
      | cons member rest =>
          have body := (printable_member member).append (printable_stringifyMembers rest)
          exact body.cons (by decide)

theorem printable_stringifyItems (items : List Json) : Printable (stringifyItems items) := by
  cases items with
  | nil => exact printable_of_ascii (by decide)
  | cons item rest =>
      have body := (printable_stringify item).append (printable_stringifyItems rest)
      exact body.cons (by decide)

theorem printable_member (member : JsString × Json)
    : Printable (quote member.1 ++ unitOf ':' :: stringify member.2) := by
  cases member with
  | mk name value =>
      have body : Printable (unitOf ':' :: stringify value) :=
        (printable_stringify value).cons (by decide)
      exact (printable_quote name).append body

theorem printable_stringifyMembers (members : List (JsString × Json))
    : Printable (stringifyMembers members) := by
  cases members with
  | nil => exact printable_of_ascii (by decide)
  | cons member rest =>
      have body := (printable_member member).append (printable_stringifyMembers rest)
      exact body.cons (by decide)
end

/-- `Buffer.from(JSON.stringify(value), "utf8")`. -/
def bytes (value : Json) : List UInt8 :=
  Utf8.encode (stringify value)

/-- `JSON.parse(buffer.toString("utf8"))`. -/
def ofBytes (data : List UInt8) : Option Json :=
  parse (Utf8.decode data)

/-- A value reads back from its bytes. -/
theorem ofBytes_bytes (value : Json) : ofBytes (bytes value) = some value := by
  rw [ofBytes, bytes, Utf8.decode_encode (printable_stringify value).wellFormed]
  exact parse_stringify value

theorem bytes_injective {left right : Json} (h : bytes left = bytes right) : left = right := by
  have same := ofBytes_bytes left
  rw [h, ofBytes_bytes right] at same
  exact (Option.some.inj same).symm

/-- The bytes of a value hold no line end. -/
theorem newline_not_mem_bytes (value : Json) : (0x0A : UInt8) ∉ bytes value := by
  intro member
  obtain ⟨unit, inside, same⟩ := Utf8.ascii_of_mem_encode member (by decide)
  have visible := (printable_stringify value).noControl unit inside
  rw [same] at visible
  revert visible
  decide

end PiFabric.Json
