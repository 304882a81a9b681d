import PiFabric.Foundation.Utf8

/-! JSON values, `JSON.stringify` and `JSON.parse`.
Objects keep their properties in enumeration order. A number that is not an integer is
carried as the token `JSON.stringify` writes for it. Every value survives the round trip.
-/

namespace PiFabric

open JsString

def unitOf (c : Char) : UInt16 :=
  c.toNat.toUInt16

def isNumberUnit (unit : UInt16) : Bool :=
  unitOf '0' ≤ unit && unit ≤ unitOf '9'
    || unit = unitOf '-' || unit = unitOf '+' || unit = unitOf '.'
    || unit = unitOf 'e' || unit = unitOf 'E'

def isDigit (unit : UInt16) : Bool :=
  unitOf '0' ≤ unit && unit ≤ unitOf '9'

def isHexUnit (unit : UInt16) : Bool :=
  isDigit unit || unitOf 'a' ≤ unit && unit ≤ unitOf 'f'

/-- An integer token without its sign: `0`, or digits that do not start with `0`. -/
def isDigits : JsString → Bool
  | [] => false
  | [unit] => isDigit unit
  | unit :: rest => isDigit unit && unit != unitOf '0' && rest.all isDigit

def isIntegerToken : JsString → Bool
  | [] => false
  | unit :: rest => if unit = unitOf '-' then isDigits rest else isDigits (unit :: rest)

/-- An exponent part: `e` or `E`, an optional sign and digits. -/
def isExponent : JsString → Bool
  | [] => true
  | unit :: rest =>
      (unit = unitOf 'e' || unit = unitOf 'E')
        && match rest with
          | [] => false
          | sign :: digits =>
              if sign = unitOf '-' || sign = unitOf '+' then
                !digits.isEmpty && digits.all isDigit
              else rest.all isDigit

/-- What may follow the integer part: a fraction, an exponent, or both. -/
def isFraction : JsString → Bool
  | [] => true
  | unit :: rest =>
      if unit = unitOf '.' then
        !(rest.takeWhile isDigit).isEmpty && isExponent (rest.dropWhile isDigit)
      else isExponent (unit :: rest)

/-- A number token of JSON's grammar that is no integer token. -/
def isDecimalToken (token : JsString) : Bool :=
  let unsigned := if token.head? = some (unitOf '-') then token.tail else token
  token.all isNumberUnit && !isIntegerToken token
    && isDigits (unsigned.takeWhile isDigit) && isFraction (unsigned.dropWhile isDigit)

/-- The token of a number that is not an integer. -/
structure DecimalToken where
  units : JsString
  shaped : isDecimalToken units = true
  deriving DecidableEq

/-- A finite JavaScript number, as JSON carries it. -/
inductive JsNumber where
  | int (value : Int)
  | decimal (token : DecimalToken)
  deriving DecidableEq

/-- A JSON value. -/
inductive Json where
  | null
  | bool (value : Bool)
  | number (value : JsNumber)
  | string (value : JsString)
  | array (items : List Json)
  | object (members : List (JsString × Json))

namespace Json

def digits (n : Nat) : JsString :=
  (Nat.toDigits 10 n).map unitOf

/-- `String(value)` of an integer. -/
def integerToken : Int → JsString
  | .ofNat n => digits n
  | .negSucc n => unitOf '-' :: digits (n + 1)

def numberToken : JsNumber → JsString
  | .int value => integerToken value
  | .decimal token => token.units

def hexDigit (n : Nat) : UInt16 :=
  unitOf (Nat.digitChar n)

/-- `\uXXXX`. -/
def unicodeEscape (unit : UInt16) : JsString :=
  [unitOf '\\', unitOf 'u', hexDigit (unit.toNat / 0x1000), hexDigit (unit.toNat / 0x100 % 16),
    hexDigit (unit.toNat / 0x10 % 16), hexDigit (unit.toNat % 16)]

def shortEscapes : List (UInt16 × UInt16) :=
  [(unitOf '"', unitOf '"'), (unitOf '\\', unitOf '\\'), (0x08, unitOf 'b'),
    (0x0C, unitOf 'f'), (0x0A, unitOf 'n'), (0x0D, unitOf 'r'), (0x09, unitOf 't')]

/-- A unit outside a surrogate pair as a string literal holds it. -/
def escapeUnit (unit : UInt16) : JsString :=
  match shortEscapes.lookup unit with
  | some letter => [unitOf '\\', letter]
  | none => if unit < 0x20 || isHigh unit || isLow unit then unicodeEscape unit else [unit]

def escape : JsString → JsString
  | [] => []
  | [unit] => escapeUnit unit
  | first :: second :: rest =>
      if isHigh first && isLow second then first :: second :: escape rest
      else escapeUnit first ++ escape (second :: rest)

def quote (text : JsString) : JsString :=
  unitOf '"' :: escape text ++ [unitOf '"']

mutual
/-- `JSON.stringify(value)`. -/
def stringify : Json → JsString
  | null => lit "null"
  | bool true => lit "true"
  | bool false => lit "false"
  | number value => numberToken value
  | string text => quote text
  | array [] => lit "[]"
  | array (item :: rest) => unitOf '[' :: stringify item ++ stringifyItems rest
  | object [] => lit "\x7b\x7d"
  | object (member :: rest) =>
      unitOf '\x7b' :: quote member.1 ++ unitOf ':' :: stringify member.2 ++ stringifyMembers rest

def stringifyItems : List Json → JsString
  | [] => [unitOf ']']
  | item :: rest => unitOf ',' :: stringify item ++ stringifyItems rest

def stringifyMembers : List (JsString × Json) → JsString
  | [] => [unitOf '\x7d']
  | member :: rest =>
      unitOf ',' :: quote member.1 ++ unitOf ':' :: stringify member.2 ++ stringifyMembers rest
end

theorem escapeUnit_length_le (unit : UInt16) : (escapeUnit unit).length ≤ 6 := by
  unfold escapeUnit
  split
  · simp
  · split
    · exact le_refl 6
    · simp

/-- A string literal takes at most six units for each unit it holds, by induction along the
pairs.
-/
theorem escape_length_le (text : JsString) : (escape text).length ≤ 6 * text.length := by
  induction text using escape.induct with
  | case1 => exact Nat.zero_le _
  | case2 unit => exact escapeUnit_length_le unit
  | case3 first second rest pair ih =>
      simp only [escape, pair, if_true, List.length_cons]
      omega
  | case4 first second rest pair ih =>
      have head := escapeUnit_length_le first
      simp only [escape, pair, Bool.false_eq_true, if_false, List.length_append,
        List.length_cons] at ih ⊢
      omega

theorem quote_length_le (text : JsString) : (quote text).length ≤ 6 * text.length + 2 := by
  have content := escape_length_le text
  simp only [quote, List.length_cons, List.length_append, List.length_nil]
  omega

def isSpace (unit : UInt16) : Bool :=
  unit = 0x20 || unit = 0x09 || unit = 0x0A || unit = 0x0D

def skipSpace (text : JsString) : JsString :=
  text.dropWhile isSpace

def hexValue (unit : UInt16) : Option Nat :=
  if isDigit unit then some (unit.toNat - 48)
  else if unitOf 'a' ≤ unit && unit ≤ unitOf 'f' then some (unit.toNat - 97 + 10)
  else if unitOf 'A' ≤ unit && unit ≤ unitOf 'F' then some (unit.toNat - 65 + 10)
  else none

def hexUnit (a b c d : UInt16) : Option UInt16 := do
  let high ← hexValue a
  let second ← hexValue b
  let third ← hexValue c
  let low ← hexValue d
  pure (high * 0x1000 + second * 0x100 + third * 0x10 + low).toUInt16

/-- The unit a one-letter escape names; `\/` is read but never written. -/
def escapedUnit (letter : UInt16) : Option UInt16 :=
  if letter = unitOf '/' then some letter
  else (shortEscapes.map Prod.swap).lookup letter

/-- The content of a string literal after its opening quote, and the text after it. -/
def unquote : JsString → Option (JsString × JsString)
  | [] => none
  | unit :: rest =>
      if unit = unitOf '"' then some ([], rest)
      else if unit = unitOf '\\' then
        match rest with
        | [] => none
        | letter :: after =>
            if letter = unitOf 'u' then
              match after with
              | a :: b :: c :: d :: more =>
                  (hexUnit a b c d).bind fun unit =>
                    (unquote more).map fun read => (unit :: read.1, read.2)
              | _ => none
            else
              (escapedUnit letter).bind fun unit =>
                (unquote after).map fun read => (unit :: read.1, read.2)
      else if unit < 0x20 then none
      else (unquote rest).map fun read => (unit :: read.1, read.2)

def natValue (token : JsString) : Nat :=
  Nat.ofDigitChars 10 (token.map fun unit => Char.ofNat unit.toNat) 0

def integerValue : JsString → Int
  | [] => 0
  | unit :: rest =>
      if unit = unitOf '-' then -(natValue rest : Int) else (natValue (unit :: rest) : Int)

/-- A number: the longest run of number units, if it is a token of the grammar. -/
def parseNumber (text : JsString) : Option (Json × JsString) :=
  let token := text.takeWhile isNumberUnit
  let rest := text.dropWhile isNumberUnit
  if isIntegerToken token then some (number (.int (integerValue token)), rest)
  else if h : isDecimalToken token = true then some (number (.decimal ⟨token, h⟩), rest)
  else none

def parseWord (text : JsString) : Option (Json × JsString) :=
  if (lit "null").isPrefixOf text then some (null, text.drop 4)
  else if (lit "true").isPrefixOf text then some (bool true, text.drop 4)
  else if (lit "false").isPrefixOf text then some (bool false, text.drop 5)
  else none

mutual
/-- One value and the text after it; each nested read spends one unit of `fuel`. -/
def parseValue : Nat → JsString → Option (Json × JsString)
  | 0, _ => none
  | fuel + 1, text =>
      match skipSpace text with
      | [] => none
      | unit :: rest =>
          if unit = unitOf '"' then (unquote rest).map fun read => (string read.1, read.2)
          else if unit = unitOf '[' then
            if (skipSpace rest).head? = some (unitOf ']') then
              some (array [], (skipSpace rest).tail)
            else (parseItems fuel rest).map fun read => (array read.1, read.2)
          else if unit = unitOf '\x7b' then
            if (skipSpace rest).head? = some (unitOf '\x7d') then
              some (object [], (skipSpace rest).tail)
            else (parseMembers fuel rest).map fun read => (object read.1, read.2)
          else if isNumberUnit unit then parseNumber (unit :: rest)
          else parseWord (unit :: rest)

def parseItems : Nat → JsString → Option (List Json × JsString)
  | 0, _ => none
  | fuel + 1, text =>
      (parseValue fuel text).bind fun read =>
        match skipSpace read.2 with
        | [] => none
        | unit :: rest =>
            if unit = unitOf ']' then some ([read.1], rest)
            else if unit = unitOf ',' then
              (parseItems fuel rest).map fun more => (read.1 :: more.1, more.2)
            else none

/-- The members of a nonempty object up to its closing brace. -/
def parseMembers : Nat → JsString → Option (List (JsString × Json) × JsString)
  | 0, _ => none
  | fuel + 1, text =>
      match skipSpace text with
      | [] => none
      | opening :: name =>
          if opening = unitOf '"' then
            (unquote name).bind fun key =>
              match skipSpace key.2 with
              | [] => none
              | colon :: value =>
                  if colon = unitOf ':' then
                    (parseValue fuel value).bind fun read =>
                      match skipSpace read.2 with
                      | [] => none
                      | unit :: rest =>
                          if unit = unitOf '\x7d' then some ([(key.1, read.1)], rest)
                          else if unit = unitOf ',' then
                            (parseMembers fuel rest).map fun more =>
                              ((key.1, read.1) :: more.1, more.2)
                          else none
                  else none
          else none
end

/-- `JSON.parse(text)`; `none` where it throws. -/
def parse (text : JsString) : Option Json :=
  (parseValue (text.length + 1) text).bind fun read =>
    if skipSpace read.2 = [] then some read.1 else none

/-- `value[name]`: the last member of that name, as `JSON.parse` keeps it. -/
def field? (name : String) : Json → Option Json
  | object members => (members.reverse.find? (fun member => member.1 == lit name)).map Prod.snd
  | _ => none

end Json

end PiFabric
