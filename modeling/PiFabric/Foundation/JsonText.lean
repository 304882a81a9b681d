import PiFabric.Foundation.JsonRoundTrip

/-! What the text of a JSON value is made of: marks, which are neither quotes nor letters of a key,
and string literals.
-/

namespace PiFabric.Json

open JsString

/-- A string literal after its opening quote: its value, and what follows its closing quote. -/
inductive Literal : JsString → JsString → JsString → Prop
  | close {rest : JsString} : Literal (unitOf '"' :: rest) [] rest
  | unicode {a b c d unit : UInt16} {more value rest : JsString}
      (hex : hexUnit a b c d = some unit) (onward : Literal more value rest)
    : Literal (unitOf '\\' :: unitOf 'u' :: a :: b :: c :: d :: more) (unit :: value) rest
  | letter {letter unit : UInt16} {more value rest : JsString} (other : letter ≠ unitOf 'u')
      (escaped : escapedUnit letter = some unit) (onward : Literal more value rest)
    : Literal (unitOf '\\' :: letter :: more) (unit :: value) rest
  | plain {unit : UInt16} {more value rest : JsString} (quoteFree : unit ≠ unitOf '"')
      (unescaped : unit ≠ unitOf '\\') (printable : ¬unit < 0x20)
      (onward : Literal more value rest)
    : Literal (unit :: more) (unit :: value) rest

variable {content rest : JsString}

/-- What is read after an opening quote is a literal, by induction over its length. -/
theorem literal_of_unquote {value : JsString} (read : unquote content = some (value, rest))
    : Literal content value rest := by
  induction count : content.length using Nat.strong_induction_on generalizing content value with
  | h bound ih =>
      cases content with
      | nil => cases read
      | cons unit more =>
          rw [unquote.eq_def] at read
          dsimp only at read
          split at read
          · next closing =>
              obtain ⟨rfl, rfl⟩ := Prod.mk.inj (Option.some.inj read)
              exact closing ▸ .close
          split at read
          · next quoteFree escape =>
              cases more with
              | nil => cases read
              | cons letter after =>
                  dsimp only at read
                  split at read
                  · next unicode =>
                      split at read
                      · obtain ⟨unit', hex, next⟩ := Option.bind_eq_some_iff.mp read
                        obtain ⟨later, unquoted, pair⟩ := Option.map_eq_some_iff.mp next
                        obtain ⟨rfl, rfl⟩ := Prod.mk.inj pair
                        rw [escape, unicode]
                        simp only [List.length_cons] at count
                        exact .unicode hex (ih _ (by omega) unquoted rfl)
                      · cases read
                  · next other =>
                      obtain ⟨unit', escaped, next⟩ := Option.bind_eq_some_iff.mp read
                      obtain ⟨later, unquoted, pair⟩ := Option.map_eq_some_iff.mp next
                      obtain ⟨rfl, rfl⟩ := Prod.mk.inj pair
                      rw [escape]
                      simp only [List.length_cons] at count
                      exact .letter other escaped (ih _ (by omega) unquoted rfl)
          split at read
          · cases read
          · next quoteFree unescaped printable =>
              obtain ⟨later, unquoted, pair⟩ := Option.map_eq_some_iff.mp read
              obtain ⟨rfl, rfl⟩ := Prod.mk.inj pair
              rw [List.length_cons] at count
              exact .plain quoteFree unescaped printable (ih _ (by omega) unquoted rfl)

/-- A literal is read back, by induction over it. -/
theorem Literal.unquote {value : JsString} (literal : Literal content value rest)
    : unquote content = some (value, rest) := by
  induction literal with
  | close => exact unquote_close _
  | unicode hex _ ih =>
      rw [unquote.eq_def]
      simp only [if_neg (show unitOf '\\' ≠ unitOf '"' by decide), if_true, hex, Option.bind_some,
        ih, Option.map_some]
  | letter other escaped _ ih => rw [unquote_letter other escaped, ih, Option.map_some]
  | plain quoteFree unescaped printable _ ih =>
      rw [unquote_plain quoteFree unescaped printable, ih, Option.map_some]

def isMark (unit : UInt16) : Bool :=
  isSpace unit || isNumberUnit unit || (lit "[]\x7b\x7d,:truefalsn").contains unit

/-- A text of marks and string literals. -/
inductive Lexed : JsString → Prop
  | done : Lexed []
  | mark {unit : UInt16} {rest : JsString} (plain : isMark unit = true) (more : Lexed rest)
    : Lexed (unit :: rest)
  | literal {content value rest : JsString} (closed : unquote content = some (value, rest))
      (more : Lexed rest)
    : Lexed (unitOf '"' :: content)

variable {unit : UInt16}

theorem isMark_of_isSpace (space : isSpace unit = true) : isMark unit = true := by
  rw [isMark, space, Bool.true_or, Bool.true_or]

theorem isMark_of_isNumberUnit (number : isNumberUnit unit = true)
    : isMark unit = true := by
  rw [isMark, number, Bool.or_true, Bool.true_or]

/-- Marks before a text, by induction over them. -/
theorem Lexed.marks {before : JsString} (plain : ∀ unit ∈ before, isMark unit = true)
    (more : Lexed rest) : Lexed (before ++ rest) := by
  induction before with
  | nil => exact more
  | cons unit before ih =>
      exact .mark (plain unit List.mem_cons_self)
        (ih fun other member => plain other (List.mem_cons_of_mem _ member))

variable {text : JsString}

theorem Lexed.of_dropWhile {passes : UInt16 → Bool}
    (plain : ∀ unit, passes unit = true → isMark unit = true) (more : Lexed (text.dropWhile passes))
    : Lexed text := by
  rw [← List.takeWhile_append_dropWhile (p := passes) (l := text)]
  exact more.marks fun unit member => plain unit (List.mem_takeWhile_imp member)

theorem Lexed.of_skipSpace (more : Lexed (skipSpace text)) : Lexed text :=
  more.of_dropWhile fun _ => isMark_of_isSpace

/-- A mark after spaces. -/
theorem Lexed.of_mark (first : skipSpace text = unit :: rest) (plain : isMark unit = true)
    (more : Lexed rest) : Lexed text := by
  refine .of_skipSpace ?_
  rw [first]
  exact .mark plain more

/-- A string literal after spaces. -/
theorem Lexed.of_literal {value : JsString} (first : skipSpace text = unitOf '"' :: content)
    (closed : unquote content = some (value, rest)) (more : Lexed rest) : Lexed text := by
  refine .of_skipSpace ?_
  rw [first]
  exact .literal closed more

variable {value : Json}

theorem Lexed.of_parseNumber (read : parseNumber text = some (value, rest)) (more : Lexed rest)
    : Lexed text := by
  have left : rest = text.dropWhile isNumberUnit := by
    rw [parseNumber] at read
    split at read
    · exact (Prod.mk.inj (Option.some.inj read)).2.symm
    · split at read
      · exact (Prod.mk.inj (Option.some.inj read)).2.symm
      · cases read
  exact (left ▸ more).of_dropWhile fun _ => isMark_of_isNumberUnit

/-- A word of marks before a text. -/
theorem Lexed.of_word {word : JsString} (front : word.isPrefixOf text = true)
    (plain : word.all isMark = true) (left : text.drop word.length = rest) (more : Lexed rest)
    : Lexed text := by
  obtain ⟨after, rfl⟩ := List.isPrefixOf_iff_prefix.mp front
  rw [List.drop_left' rfl] at left
  exact (left ▸ more).marks fun unit member => List.all_eq_true.mp plain unit member

theorem Lexed.of_parseWord (read : parseWord text = some (value, rest)) (more : Lexed rest)
    : Lexed text := by
  rw [parseWord] at read
  split at read
  · exact @of_word _ _ (lit "null") ‹_› (by decide)
      (Prod.mk.inj (Option.some.inj read)).2 more
  · split at read
    · exact @of_word _ _ (lit "true") ‹_› (by decide)
        (Prod.mk.inj (Option.some.inj read)).2 more
    · split at read
      · exact @of_word _ _ (lit "false") ‹_› (by decide)
          (Prod.mk.inj (Option.some.inj read)).2 more
      · cases read

/-- What the parser reads before a lexed text is lexed. -/
structure Reads (fuel : Nat) : Prop where
  value : ∀ text value rest, parseValue fuel text = some (value, rest) → Lexed rest → Lexed text
  items : ∀ text items rest, parseItems fuel text = some (items, rest) → Lexed rest → Lexed text
  members : ∀ text members rest, parseMembers fuel text = some (members, rest) → Lexed rest →
    Lexed text

variable {fuel : Nat}

theorem Reads.next_value (reads : Reads fuel)
    (read : parseValue (fuel + 1) text = some (value, rest)) (more : Lexed rest) : Lexed text := by
  rw [parseValue] at read
  cases first : skipSpace text with
  | nil =>
      rw [first] at read
      cases read
  | cons unit after =>
      rw [first] at read
      dsimp only at read
      split at read
      · next opening =>
          obtain ⟨content, closed, pair⟩ := Option.map_eq_some_iff.mp read
          obtain ⟨rfl, rfl⟩ := Prod.mk.inj pair
          exact .of_literal (opening ▸ first) closed more
      split at read
      · next opening =>
          have bracket : isMark unit = true := by rw [opening]; decide
          split at read
          · next closing =>
              obtain ⟨tail, ends⟩ := List.head?_eq_some_iff.mp closing
              rw [ends] at read
              obtain rfl := (Prod.mk.inj (Option.some.inj read)).2
              exact .of_mark first bracket (.of_mark ends (by decide) more)
          · obtain ⟨inner, parsed, pair⟩ := Option.map_eq_some_iff.mp read
            obtain ⟨rfl, rfl⟩ := Prod.mk.inj pair
            exact .of_mark first bracket (reads.items after inner.1 inner.2 parsed more)
      split at read
      · next opening =>
          have brace : isMark unit = true := by rw [opening]; decide
          split at read
          · next closing =>
              obtain ⟨tail, ends⟩ := List.head?_eq_some_iff.mp closing
              rw [ends] at read
              obtain rfl := (Prod.mk.inj (Option.some.inj read)).2
              exact .of_mark first brace (.of_mark ends (by decide) more)
          · obtain ⟨inner, parsed, pair⟩ := Option.map_eq_some_iff.mp read
            obtain ⟨rfl, rfl⟩ := Prod.mk.inj pair
            exact .of_mark first brace (reads.members after inner.1 inner.2 parsed more)
      refine .of_skipSpace ?_
      rw [first]
      split at read
      · exact .of_parseNumber read more
      · exact .of_parseWord read more

theorem Reads.next_items (reads : Reads fuel) {items : List Json}
    (read : parseItems (fuel + 1) text = some (items, rest)) (more : Lexed rest)
    : Lexed text := by
  rw [parseItems] at read
  obtain ⟨item, parsed, next⟩ := Option.bind_eq_some_iff.mp read
  refine reads.value text item.1 item.2 parsed ?_
  cases first : skipSpace item.2 with
  | nil =>
      rw [first] at next
      cases next
  | cons unit after =>
      rw [first] at next
      dsimp only at next
      split at next
      · next closing =>
          obtain rfl := (Prod.mk.inj (Option.some.inj next)).2
          exact .of_mark first (by rw [closing]; decide) more
      split at next
      · next comma =>
          obtain ⟨others, parsed', pair⟩ := Option.map_eq_some_iff.mp next
          obtain ⟨_, rfl⟩ := Prod.mk.inj pair
          exact .of_mark first (by rw [comma]; decide)
            (reads.items after others.1 others.2 parsed' more)
      · cases next

theorem Reads.next_members (reads : Reads fuel) {members : List (JsString × Json)}
    (read : parseMembers (fuel + 1) text = some (members, rest)) (more : Lexed rest)
    : Lexed text := by
  rw [parseMembers] at read
  cases first : skipSpace text with
  | nil =>
      rw [first] at read
      cases read
  | cons opening name =>
      rw [first] at read
      dsimp only at read
      split at read
      swap
      · cases read
      next quoted =>
      obtain ⟨key, closed, named⟩ := Option.bind_eq_some_iff.mp read
      refine .of_literal (quoted ▸ first) closed ?_
      cases second : skipSpace key.2 with
      | nil =>
          rw [second] at named
          cases named
      | cons colon value =>
          rw [second] at named
          dsimp only at named
          split at named
          swap
          · cases named
          next between =>
          refine .of_mark second (by rw [between]; decide) ?_
          obtain ⟨item, parsed, next⟩ := Option.bind_eq_some_iff.mp named
          refine reads.value value item.1 item.2 parsed ?_
          cases third : skipSpace item.2 with
          | nil =>
              rw [third] at next
              cases next
          | cons unit after =>
              rw [third] at next
              dsimp only at next
              split at next
              · next closing =>
                  obtain rfl := (Prod.mk.inj (Option.some.inj next)).2
                  exact .of_mark third (by rw [closing]; decide) more
              split at next
              · next comma =>
                  obtain ⟨others, parsed', pair⟩ := Option.map_eq_some_iff.mp next
                  obtain ⟨_, rfl⟩ := Prod.mk.inj pair
                  exact .of_mark third (by rw [comma]; decide)
                    (reads.members after others.1 others.2 parsed' more)
              · cases next

/-- The parser reads lexed texts, by induction over its fuel. -/
theorem reads (fuel : Nat) : Reads fuel := by
  induction fuel with
  | zero =>
      exact ⟨fun _ _ _ read => (by cases read), fun _ _ _ read => (by cases read),
        fun _ _ _ read => (by cases read)⟩
  | succ fuel ih =>
      exact ⟨fun _ _ _ read more => ih.next_value read more,
        fun _ _ _ read more => ih.next_items read more,
        fun _ _ _ read more => ih.next_members read more⟩

/-- The text of a value is lexed. -/
theorem lexed_of_parse (parsed : parse text = some value)
    : Lexed text := by
  obtain ⟨read, one, rest⟩ := Option.bind_eq_some_iff.mp parsed
  split at rest
  · next spaces =>
      refine (reads _).value text read.1 read.2 one (.of_skipSpace ?_)
      rw [spaces]
      exact .done
  · cases rest

end PiFabric.Json
