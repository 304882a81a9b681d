import PiFabric.Foundation.JsonText

/-! The extractor of the `code` field from the arguments of a call that is still being streamed. It
looks for the key in the raw text and decodes the string after it as its pieces arrive.
-/

namespace PiFabric.Speculation

open JsString Json

def codeKey : JsString :=
  lit "\"code\""

/-- `\s*:\s*"` at the start of a text: what follows it. -/
def afterColon (text : JsString) : Option JsString :=
  match text.dropWhile isBlank with
  | [] => none
  | colon :: value =>
      if colon = unitOf ':' then
        match value.dropWhile isBlank with
        | [] => none
        | opening :: rest => if opening = unitOf '"' then some rest else none
      else none

/-- `CODE_KEY_PATTERN` at the start of a text: what follows its match. -/
def afterCodeKey (text : JsString) : Option JsString :=
  if codeKey.isPrefixOf text then afterColon (text.drop codeKey.length) else none

/-- `CODE_KEY_PATTERN.exec(text)`: what follows the first match. -/
def findCode : JsString → Option JsString
  | [] => none
  | unit :: rest => (afterCodeKey (unit :: rest)).or (findCode rest)

def escapes : List (UInt16 × UInt16) :=
  [(unitOf '"', unitOf '"'), (unitOf '\\', unitOf '\\'), (unitOf '/', unitOf '/'),
    (unitOf 'b', 0x08), (unitOf 'f', 0x0C), (unitOf 'n', 0x0A), (unitOf 'r', 0x0D),
    (unitOf 't', 0x09)]

/-- `PartialCodeFieldExtractor`; `codeStart` is `none` for -1. -/
structure Extractor where
  raw : JsString
  codeStart : Option Nat
  cursor : Nat
  decoded : JsString
  complete : Bool
  failed : Bool

def Extractor.start : Extractor where
  raw := []
  codeStart := none
  cursor := 0
  decoded := []
  complete := false
  failed := false

def Extractor.code (extractor : Extractor) : Option JsString :=
  extractor.codeStart.map fun _ => extractor.decoded

/-- A unit of the content, and the cursor past what stands for it. -/
def Extractor.append (unit : UInt16) (width : Nat) (extractor : Extractor) : Extractor :=
  { extractor with decoded := extractor.decoded ++ [unit], cursor := extractor.cursor + width }

/-- The loop of `push` over the raw text from the cursor on. -/
def decode : JsString → Extractor → Extractor
  | [], extractor => extractor
  | unit :: rest, extractor =>
      if unit = unitOf '"' then
        { extractor with complete := true, cursor := extractor.raw.length }
      else if unit = unitOf '\\' then
        match rest with
        | [] => extractor
        | esc :: after =>
            if esc = unitOf 'u' then
              match after with
              | a :: b :: c :: d :: more =>
                  match hexUnit a b c d with
                  | some unit => decode more (extractor.append unit 6)
                  | none => { extractor with failed := true }
              | _ => extractor
            else
              match escapes.lookup esc with
              | some mapped => decode after (extractor.append mapped 2)
              | none => { extractor with failed := true }
      else if unit < 0x20 then { extractor with failed := true }
      else decode rest (extractor.append unit 1)

def Extractor.push (maxBytes : Nat) (extractor : Extractor) (delta : JsString) : Extractor :=
  if extractor.complete || extractor.failed then extractor
  else if maxBytes < extractor.raw.length + delta.length then { extractor with failed := true }
  else
    let raw := extractor.raw ++ delta
    match extractor.codeStart with
    | some _ => decode (raw.drop extractor.cursor) { extractor with raw }
    | none =>
        match findCode raw with
        | none => { extractor with raw }
        | some rest =>
            let codeStart := raw.length - rest.length
            decode (raw.drop codeStart)
              { extractor with raw, codeStart := some codeStart, cursor := codeStart }

def pushAll (maxBytes : Nat) (chunks : List JsString) : Extractor :=
  chunks.foldl (Extractor.push maxBytes) .start

/-- The escapes of the extractor are those of the parser. -/
theorem lookup_escapes (letter : UInt16) : escapes.lookup letter = escapedUnit letter := by
  simp only [escapes, escapedUnit, shortEscapes, List.map_cons, List.map_nil, Prod.swap, List.lookup]
  by_cases slash : letter = unitOf '/'
  · subst slash
    decide
  · rw [if_neg slash]
    have other : (letter == unitOf '/') = false := beq_eq_false_iff_ne.mpr slash
    rw [other]

/-- A literal ends the loop, or what is there of it leaves the rest of the literal to be read. -/
inductive Decoded (text more : JsString) (extractor : Extractor) (value rest : JsString)
    : Extractor → Prop
  | whole : Decoded text more extractor value rest
      { extractor with
        decoded := extractor.decoded ++ value, complete := true, cursor := extractor.raw.length }
  | part {front back : JsString} {width : Nat} (missing : more ≠ []) (parts : value = front ++ back)
      (inside : width ≤ text.length) (left : Literal (text.drop width ++ more) back rest)
    : Decoded text more extractor value rest
      { extractor with
        decoded := extractor.decoded ++ front, cursor := extractor.cursor + width }

/-- Nothing of the literal can be read yet. -/
theorem Decoded.waiting {text more value rest : JsString} (extractor : Extractor)
    (missing : more ≠ []) (literal : Literal (text ++ more) value rest)
    : Decoded text more extractor value rest extractor := by
  have kept := @Decoded.part text more extractor value rest [] value 0 missing rfl
    (Nat.zero_le _) literal
  rw [List.append_nil, Nat.add_zero] at kept
  exact kept

theorem Decoded.append {before text more value rest : JsString} {unit : UInt16}
    {extractor after : Extractor} {width : Nat} (long : before.length = width)
    (decoded : Decoded text more (extractor.append unit width) value rest after)
    : Decoded (before ++ text) more extractor (unit :: value) rest after := by
  cases decoded with
  | whole =>
      have same : (extractor.append unit width).decoded ++ value
          = extractor.decoded ++ unit :: value := by simp [Extractor.append]
      rw [same]
      exact .whole
  | @part front back width' missing parts inside left =>
      have same : (extractor.append unit width).decoded ++ front
          = extractor.decoded ++ unit :: front := by simp [Extractor.append]
      have moved : (extractor.append unit width).cursor + width'
          = extractor.cursor + (width + width') := by simp [Extractor.append, Nat.add_assoc]
      rw [same, moved]
      refine .part missing (by rw [parts]; rfl) ?_ ?_
      · rw [List.length_append]
        omega
      · rw [← long, List.drop_append, List.drop_of_length_le (by omega), List.nil_append,
          Nat.add_sub_cancel_left]
        exact left

/-- The loop reads a literal, or the part of it that is there, by induction over the literal. -/
theorem decode_literal {content value rest : JsString} (literal : Literal content value rest)
    {text more : JsString} (parts : content = text ++ more) (extractor : Extractor)
    : Decoded text more extractor value rest (decode text extractor) := by
  induction literal generalizing text extractor with
  | @close rest =>
      cases text with
      | nil =>
          rw [List.nil_append] at parts
          exact .waiting extractor (parts ▸ List.cons_ne_nil _ _) (parts ▸ .close)
      | cons unit text =>
          obtain ⟨rfl, _⟩ := List.cons.inj parts
          rw [decode.eq_def]
          simp only [if_true]
          have same := @Decoded.whole (unitOf '"' :: text) more extractor [] rest
          rw [List.append_nil] at same
          exact same
  | @unicode a b c d unit more' value rest hex onward ih =>
      have wait : ∀ text, unitOf '\\' :: unitOf 'u' :: a :: b :: c :: d :: more' = text ++ more →
          text.length < 6 → Decoded text more extractor (unit :: value) rest extractor := by
        intro text parts short
        refine .waiting extractor (fun none_ => ?_) (parts ▸ .unicode hex onward)
        have lengths := congrArg List.length parts
        rw [none_] at lengths
        simp only [List.length_append, List.length_cons, List.length_nil] at lengths
        omega
      match text, parts with
      | [], parts => exact wait _ parts (by simp)
      | [_], parts =>
          obtain ⟨rfl, _⟩ := List.cons.inj parts
          exact wait _ parts (by simp)
      | [_, _], parts =>
          have whole := parts
          simp only [List.cons_append, List.cons.injEq] at parts
          obtain ⟨rfl, rfl, _⟩ := parts
          exact wait _ whole (by simp)
      | [_, _, _], parts =>
          have whole := parts
          simp only [List.cons_append, List.cons.injEq] at parts
          obtain ⟨rfl, rfl, rfl, _⟩ := parts
          exact wait _ whole (by simp)
      | [_, _, _, _], parts =>
          have whole := parts
          simp only [List.cons_append, List.cons.injEq] at parts
          obtain ⟨rfl, rfl, rfl, rfl, _⟩ := parts
          exact wait _ whole (by simp)
      | [_, _, _, _, _], parts =>
          have whole := parts
          simp only [List.cons_append, List.cons.injEq] at parts
          obtain ⟨rfl, rfl, rfl, rfl, rfl, _⟩ := parts
          exact wait _ whole (by simp)
      | _ :: _ :: _ :: _ :: _ :: _ :: text, parts =>
          simp only [List.cons_append, List.cons.injEq] at parts
          obtain ⟨rfl, rfl, rfl, rfl, rfl, rfl, same⟩ := parts
          have next := ih same (extractor.append unit 6)
          rw [decode.eq_def]
          simp only [if_neg (show unitOf '\\' ≠ unitOf '"' by decide), if_true, hex]
          exact @Decoded.append [unitOf '\\', unitOf 'u', a, b, c, d] _ _ _ _ _ _ _ _ rfl next
  | @letter letter unit more' value rest other escaped onward ih =>
      match text, parts with
      | [], parts =>
          rw [List.nil_append] at parts
          exact .waiting extractor (parts ▸ List.cons_ne_nil _ _)
            (parts ▸ .letter other escaped onward)
      | [_], parts =>
          obtain ⟨rfl, same⟩ := List.cons.inj parts
          have same : letter :: more' = more := same
          exact .waiting extractor (same ▸ List.cons_ne_nil _ _)
            (parts ▸ .letter other escaped onward)
      | _ :: _ :: text, parts =>
          simp only [List.cons_append, List.cons.injEq] at parts
          obtain ⟨rfl, rfl, same⟩ := parts
          have next := ih same (extractor.append unit 2)
          rw [decode.eq_def]
          simp only [if_neg (show unitOf '\\' ≠ unitOf '"' by decide), if_true, if_neg other,
            lookup_escapes, escaped]
          exact @Decoded.append [unitOf '\\', letter] _ _ _ _ _ _ _ _ rfl next
  | @plain unit more' value rest quoteFree unescaped printable onward ih =>
      match text, parts with
      | [], parts =>
          rw [List.nil_append] at parts
          exact .waiting extractor (parts ▸ List.cons_ne_nil _ _)
            (parts ▸ .plain quoteFree unescaped printable onward)
      | _ :: text, parts =>
          simp only [List.cons_append, List.cons.injEq] at parts
          obtain ⟨rfl, same⟩ := parts
          have next := ih same (extractor.append unit 1)
          rw [decode.eq_def]
          simp only [if_neg quoteFree, if_neg unescaped, if_neg printable]
          exact @Decoded.append [unit] _ _ _ _ _ _ _ _ rfl next

end PiFabric.Speculation
