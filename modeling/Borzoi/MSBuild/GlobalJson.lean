import Borzoi.MSBuild.ConditionTokens
import Borzoi.Program.Descent
import Borzoi.Text.Slice

/-
  The reader of `global.json`.

  Comments are stripped first; what is left is parsed. A position is the
  number of bytes before what is left, so a parser carries only the rest
  of the text and the `total` of its bytes.
-/

namespace Borzoi

namespace MSBuild

namespace Json

open Program.Descent (bind_ok map_ok)
open Text (utf8)

inductive GlobalJsonError
  | Syntax (message : String) (position : Nat)
  deriving DecidableEq, Repr

inductive JsonFault
  | Refused (error : GlobalJsonError)
  | OutOfFuel
  deriving DecidableEq, Repr

inductive JsonValue
  | String (s : List Char)
  | Bool (b : Bool)
  | Object (fields : List (List Char × JsonValue))
  | Array (items : List JsonValue)
  | Number
  | Null

/- A string literal behind its opening quote: what is copied, and what is
   left. -/
def copyString :
    List Char → List Char × List Char
  | [] => ([], [])
  | c :: rest =>
      if c = '\\' then
        match rest with
        | [] => ([c], [])
        | d :: rest => (c :: d :: (copyString rest).1, (copyString rest).2)
      else if c = '"' then
        ([c], rest)
      else
        (c :: (copyString rest).1, (copyString rest).2)

/- What is left behind the first `*/`. -/
def skipBlock :
    List Char → Option (List Char)
  | '*' :: '/' :: rest => some rest
  | _ :: rest => skipBlock rest
  | [] => none

/- A syntax error in front of `rest`. -/
def syntaxAt
    {α : Type}
    (total : Nat)
    (rest : List Char)
    (message : String) :
    Except JsonFault α :=
  .error (.Refused (.Syntax message (total - (utf8 rest).length)))

theorem copyString_length
    (text : List Char) :
    (copyString text).2.length ≤ text.length := by
  induction h : text.length using Nat.strongRecOn generalizing text with
  | ind n ih =>
      subst h
      rw [copyString.eq_def]
      split
      · exact Nat.le_refl _
      · rename_i c rest
        split
        · split
          · exact Nat.zero_le _
          · rename_i d rest
            have hRest := ih rest.length
              (by simp only [List.length_cons]; omega) rest rfl
            simp only [List.length_cons]
            omega
        · split
          · exact Nat.le_succ _
          · have hRest := ih rest.length (by simp) rest rfl
            simp only [List.length_cons]
            omega

variable {c : Char} {rest text : List Char} {total : Nat}

theorem skipBlock_length
    (hSkip : skipBlock text = some rest) :
    rest.length ≤ text.length := by
  fun_induction skipBlock text with
  | case1 rest' =>
      cases hSkip
      simp only [List.length_cons]
      omega
  | case2 c rest' _ ih =>
      have hLe := ih hSkip
      simp only [List.length_cons]
      omega
  | case3 => cases hSkip

/- The walk of `strip_jsonc_comments` over what is left. -/
def stripFrom
    (total : Nat)
    (text : List Char) :
    Except JsonFault (List Char) :=
  match text with
  | [] => .ok []
  | '"' :: rest =>
      (fun out => '"' :: (copyString rest).1 ++ out) <$>
        stripFrom total (copyString rest).2
  | '/' :: '/' :: rest =>
      stripFrom total (rest.dropWhile (· != '\n'))
  | '/' :: '*' :: rest =>
      match _ : skipBlock rest with
      | some rest' => (' ' :: ·) <$> stripFrom total rest'
      | none =>
          syntaxAt total ('/' :: '*' :: rest) "unterminated block comment"
  | c :: rest => (c :: ·) <$> stripFrom total rest
termination_by text.length
decreasing_by
  · have hLe := copyString_length rest
    simp only [List.length_cons]
    omega
  · have hLe := (List.dropWhile_sublist (l := rest) (· != '\n')).length_le
    simp only [List.length_cons]
    omega
  · have hLe := skipBlock_length ‹skipBlock _ = some _›
    simp only [List.length_cons]
    omega
  · simp only [List.length_cons]
    omega

def stripJsoncComments
    (input : List Char) :
    Except JsonFault (List Char) :=
  stripFrom (utf8 input).length input

def skipWs
    (text : List Char) :
    List Char :=
  text.dropWhile isAsciiWhitespace

/- The first byte of a character. -/
def byteOf
    (c : Char) :
    Nat :=
  ((String.utf8EncodeChar c).headD 0).toNat

/- A number as `{:#x}` shows it. -/
def showHex
    (n : Nat) :
    String :=
  "0x" ++ String.ofList (Nat.toDigits 16 n)

/- The first byte of `c`, as a character in `{:?}`. -/
def debugByte
    (c : Char) :
    String :=
  let byte := byteOf c
  let shown :=
    if byte = 0 then "\\0"
    else if byte = 9 then "\\t"
    else if byte = 10 then "\\n"
    else if byte = 13 then "\\r"
    else if byte = 39 then "\\'"
    else if byte = 92 then "\\\\"
    else if byte < 32 ∨ byte = 127 then
      "\\u\x7b" ++ String.ofList (Nat.toDigits 16 byte) ++ "\x7d"
    else String.ofList [Char.ofNat byte]
  "'" ++ shown ++ "'"

def expect
    (total : Nat)
    (c : Char)
    (text : List Char) :
    Except JsonFault (List Char) :=
  match text with
  | d :: rest =>
      if d = c then
        .ok rest
      else
        syntaxAt total (d :: rest)
          ("expected " ++ debugByte c ++ " but saw " ++ debugByte d)
  | [] =>
      syntaxAt total []
        ("expected " ++ debugByte c ++ " but reached end of input")

def hexDigit
    (c : Char) :
    Option Nat :=
  if '0' ≤ c ∧ c ≤ '9' then
    some (c.toNat - '0'.toNat)
  else if 'a' ≤ c ∧ c ≤ 'f' then
    some (10 + (c.toNat - 'a'.toNat))
  else if 'A' ≤ c ∧ c ≤ 'F' then
    some (10 + (c.toNat - 'A'.toNat))
  else
    none

/- An error behind the first byte of `c`. -/
def syntaxBehind
    {α : Type}
    (total : Nat)
    (c : Char)
    (rest : List Char)
    (message : String) :
    Except JsonFault α :=
  .error
    (.Refused (.Syntax message (total - (utf8 (c :: rest)).length + 1)))

def readHexDigits
    (total : Nat) :
    Nat → Nat → List Char → Except JsonFault (Nat × List Char)
  | 0, acc, text => .ok (acc, text)
  | _ + 1, _, [] => syntaxAt total [] "unterminated \\u escape"
  | n + 1, acc, c :: rest =>
      match hexDigit c with
      | some digit => readHexDigits total n (acc <<< 4 ||| digit) rest
      | none =>
          syntaxBehind total c rest
            ("non-hex digit " ++ debugByte c ++ " in \\u escape")

def readUnicodeEscape
    (total : Nat)
    (text : List Char) :
    Except JsonFault (Nat × List Char) :=
  readHexDigits total 4 0 text

/- `char::from_u32`. -/
def charFromU32
    (n : Nat) :
    Option Char :=
  if h : n.isValidChar then
    some (Char.ofNatAux n h)
  else
    none

/- The scalar value behind an escape; a high surrogate needs another
   escape with a low one. -/
def readSurrogates
    (total cp : Nat)
    (rest : List Char) :
    Except JsonFault (Nat × List Char) :=
  if 0xD800 ≤ cp ∧ cp ≤ 0xDBFF then do
    let rest ← expect total '\\' rest
    let rest ← expect total 'u' rest
    let (low, rest) ← readUnicodeEscape total rest
    if 0xDC00 ≤ low ∧ low ≤ 0xDFFF then
      .ok (0x10000 + ((cp - 0xD800) <<< 10 ||| (low - 0xDC00)), rest)
    else
      syntaxAt total rest "expected low surrogate after high surrogate"
  else if 0xDC00 ≤ cp ∧ cp ≤ 0xDFFF then
    syntaxAt total rest
      "unexpected low surrogate without preceding high"
  else
    .ok (cp, rest)

def readScalar
    (total : Nat)
    (text : List Char) :
    Except JsonFault (Char × List Char) := do
  let (cp, rest) ← readUnicodeEscape total text
  let (scalar, rest) ← readSurrogates total cp rest
  match charFromU32 scalar with
  | some c => .ok (c, rest)
  | none =>
      syntaxAt total rest ("invalid Unicode scalar value " ++ showHex scalar)

/- The character an escape other than `\u` stands for. -/
def simpleEscape
    (c : Char) :
    Option Char :=
  match c with
  | '"' => some '"'
  | '\\' => some '\\'
  | '/' => some '/'
  | 'b' => some '\x08'
  | 'f' => some '\x0c'
  | 'n' => some '\n'
  | 'r' => some '\r'
  | 't' => some '\t'
  | _ => none

def parseEscape
    (total : Nat)
    (text : List Char) :
    Except JsonFault (Char × List Char) :=
  match text with
  | [] => syntaxAt total [] "escape at end of input"
  | c :: rest =>
      match simpleEscape c with
      | some d => .ok (d, rest)
      | none =>
          if c = 'u' then
            readScalar total rest
          else
            syntaxBehind total c rest
              ("unknown escape \\" ++ debugByte c)

/- One turn of the loop of `parse_string`; nothing is the closing
   quote. -/
def stringStep
    (total : Nat)
    (text : List Char) :
    Except JsonFault (Option Char × List Char) :=
  match text with
  | [] => syntaxAt total [] "unterminated string literal"
  | c :: rest =>
      if c = '"' then
        .ok (none, rest)
      else if c = '\\' then
        (fun (d, rest) => (some d, rest)) <$> parseEscape total rest
      else if c.toNat < 0x20 then
        syntaxAt total rest
          ("unescaped control byte " ++ showHex c.toNat ++ " in string")
      else
        .ok (some c, rest)

theorem readHexDigits_length
    {total n acc cp : Nat}
    (hRead : readHexDigits total n acc text = .ok (cp, rest)) :
    rest.length ≤ text.length := by
  fun_induction readHexDigits total n acc text with
  | case1 acc text =>
      cases hRead
      exact Nat.le_refl _
  | case2 => cases hRead
  | case3 acc n c tail digit hDigit ih =>
      exact Nat.le_succ_of_le (ih hRead)
  | case4 => cases hRead

theorem expect_ok
    {text rest : List Char} :
    expect total c text = .ok rest ↔ text = c :: rest := by
  cases text with
  | nil =>
      constructor
      · intro hExpect
        cases hExpect
      · intro hText
        cases hText
  | cons d tail =>
      rw [expect]
      split
      · rename_i hEq
        subst hEq
        simp
      · rename_i hNe
        constructor
        · intro hExpect
          cases hExpect
        · intro hText
          exact absurd (List.cons.inj hText).1 hNe

theorem readSurrogates_length
    {total cp scalar : Nat}
    (hRead : readSurrogates total cp text = .ok (scalar, rest)) :
    rest.length ≤ text.length := by
  unfold readSurrogates at hRead
  split at hRead
  · rcases bind_ok.1 hRead with ⟨text₁, hFirst, hRead⟩
    rcases bind_ok.1 hRead with ⟨text₂, hSecond, hRead⟩
    rcases bind_ok.1 hRead with ⟨⟨low, text₃⟩, hLow, hRead⟩
    have hLe := readHexDigits_length hLow
    rw [expect_ok.1 hFirst, expect_ok.1 hSecond]
    dsimp only at hRead
    split at hRead
    · cases hRead
      simp only [List.length_cons]
      omega
    · cases hRead
  · split at hRead
    · cases hRead
    · cases hRead
      exact Nat.le_refl _

theorem parseEscape_length
    (hEscape : parseEscape total text = .ok (c, rest)) :
    rest.length < text.length := by
  unfold parseEscape at hEscape
  split at hEscape
  · cases hEscape
  · split at hEscape
    · cases hEscape
      exact Nat.lt_succ_self _
    · split at hEscape
      · rcases bind_ok.1 hEscape with ⟨⟨cp, rest₁⟩, hCp, hEscape⟩
        rcases bind_ok.1 hEscape with ⟨⟨scalar, rest₂⟩, hScalar, hEscape⟩
        have hLe := readHexDigits_length hCp
        have hLe' := readSurrogates_length hScalar
        dsimp only at hEscape
        split at hEscape
        · cases hEscape
          simp only [List.length_cons]
          omega
        · cases hEscape
      · cases hEscape

theorem stringStep_length
    {found : Option Char}
    (hStep : stringStep total text = .ok (found, rest)) :
    rest.length < text.length := by
  unfold stringStep at hStep
  split at hStep
  · cases hStep
  · split at hStep
    · cases hStep
      exact Nat.lt_succ_self _
    · split at hStep
      · rcases map_ok.1 hStep with ⟨⟨d, rest'⟩, hEscape, hEq⟩
        cases hEq
        exact Nat.lt_succ_of_lt (parseEscape_length hEscape)
      · split at hStep
        · cases hStep
        · cases hStep
          exact Nat.lt_succ_self _

/- The loop of `parse_string`. -/
def stringLoop
    (total : Nat)
    (text : List Char) :
    Except JsonFault (List Char × List Char) :=
  match _ : stringStep total text with
  | .error fault => .error fault
  | .ok (none, rest) => .ok ([], rest)
  | .ok (some c, rest) =>
      (fun (out, rest) => (c :: out, rest)) <$> stringLoop total rest
termination_by text.length
decreasing_by exact stringStep_length ‹_›

def parseString
    (total : Nat)
    (text : List Char) :
    Except JsonFault (List Char × List Char) := do
  let rest ← expect total '"' text
  stringLoop total rest

------------------------------------------------------------
-- Words and numbers
------------------------------------------------------------

/- What is left behind `word`, where the text starts with it. -/
def afterWord
    (word text : List Char) :
    Option (List Char) :=
  if word.isPrefixOf text then
    some (text.drop word.length)
  else
    none

def parseBool
    (total : Nat)
    (text : List Char) :
    Except JsonFault (Bool × List Char) :=
  match afterWord "true".toList text, afterWord "false".toList text with
  | some rest, _ => .ok (true, rest)
  | none, some rest => .ok (false, rest)
  | none, none => syntaxAt total text "expected `true` or `false`"

def parseNull
    (total : Nat)
    (text : List Char) :
    Except JsonFault (List Char) :=
  match afterWord "null".toList text with
  | some rest => .ok rest
  | none => syntaxAt total text "expected `null`"

def skipDigits
    (text : List Char) :
    List Char :=
  text.dropWhile Char.isDigit

def skipSign
    (isSign : Char → Bool)
    (text : List Char) :
    List Char :=
  match text with
  | c :: rest => if isSign c then rest else c :: rest
  | [] => []

/- The integer part of a number. -/
def parseWhole
    (total : Nat)
    (text : List Char) :
    Except JsonFault (List Char) :=
  match text with
  | c :: rest =>
      if c = '0' then
        .ok rest
      else if c.isDigit then
        .ok (skipDigits rest)
      else
        syntaxAt total text "expected digit in number"
  | [] => syntaxAt total text "expected digit in number"

/- At least one digit. -/
def parseDigits
    (total : Nat)
    (message : String)
    (text : List Char) :
    Except JsonFault (List Char) :=
  if (skipDigits text).length = text.length then
    syntaxAt total text message
  else
    .ok (skipDigits text)

def parseFraction
    (total : Nat)
    (text : List Char) :
    Except JsonFault (List Char) :=
  match text with
  | '.' :: rest =>
      parseDigits total "expected digit after '.' in number" rest
  | text => .ok text

def parseExponent
    (total : Nat)
    (text : List Char) :
    Except JsonFault (List Char) :=
  match text with
  | [] => .ok []
  | c :: rest =>
      if c = 'e' ∨ c = 'E' then
        parseDigits total "expected digit in number exponent"
          (skipSign (fun c => c == '+' || c == '-') rest)
      else
        .ok (c :: rest)

def parseNumber
    (total : Nat)
    (text : List Char) :
    Except JsonFault (List Char) := do
  let rest ← parseWhole total (skipSign (· == '-') text)
  let rest ← parseFraction total rest
  parseExponent total rest

mutual

def parseValue
    (total fuel : Nat)
    (text : List Char) :
    Except JsonFault (JsonValue × List Char) :=
  match fuel with
  | 0 => .error .OutOfFuel
  | fuel + 1 =>
      match skipWs text with
      | [] =>
          syntaxAt total []
            "unexpected end of input while reading a JSON value"
      | c :: rest =>
          if c = '{' then
            (fun (fields, rest) => (.Object fields, rest)) <$>
              parseObject total fuel rest
          else if c = '[' then
            (fun (items, rest) => (.Array items, rest)) <$>
              parseArray total fuel rest
          else if c = '"' then
            (fun (s, rest) => (.String s, rest)) <$>
              parseString total (c :: rest)
          else if c = 't' ∨ c = 'f' then
            (fun (b, rest) => (.Bool b, rest)) <$>
              parseBool total (c :: rest)
          else if c = 'n' then
            (fun rest => (.Null, rest)) <$> parseNull total (c :: rest)
          else if c = '-' ∨ c.isDigit then
            (fun rest => (.Number, rest)) <$> parseNumber total (c :: rest)
          else
            syntaxAt total (c :: rest)
              ("unexpected character " ++ debugByte c ++ " in JSON value")

/- `parse_object` behind its brace. -/
def parseObject
    (total fuel : Nat)
    (text : List Char) :
    Except JsonFault (List (List Char × JsonValue) × List Char) :=
  match fuel with
  | 0 => .error .OutOfFuel
  | fuel + 1 =>
      match skipWs text with
      | '}' :: rest => .ok ([], rest)
      | rest => objectLoop total fuel rest

def objectLoop
    (total fuel : Nat)
    (text : List Char) :
    Except JsonFault (List (List Char × JsonValue) × List Char) :=
  match fuel with
  | 0 => .error .OutOfFuel
  | fuel + 1 => do
      let (key, rest) ← parseString total (skipWs text)
      let rest ← expect total ':' (skipWs rest)
      let (value, rest) ← parseValue total fuel rest
      match skipWs rest with
      | [] => syntaxAt total [] "unterminated object"
      | c :: rest =>
          if c = ',' then
            (fun (fields, rest) => ((key, value) :: fields, rest)) <$>
              objectLoop total fuel rest
          else if c = '}' then
            .ok ([(key, value)], rest)
          else
            syntaxAt total (c :: rest)
              ("expected ',' or '\x7d' in object, saw " ++ debugByte c)

/- `parse_array` behind its bracket. -/
def parseArray
    (total fuel : Nat)
    (text : List Char) :
    Except JsonFault (List JsonValue × List Char) :=
  match fuel with
  | 0 => .error .OutOfFuel
  | fuel + 1 =>
      match skipWs text with
      | ']' :: rest => .ok ([], rest)
      | rest => arrayLoop total fuel rest

def arrayLoop
    (total fuel : Nat)
    (text : List Char) :
    Except JsonFault (List JsonValue × List Char) :=
  match fuel with
  | 0 => .error .OutOfFuel
  | fuel + 1 => do
      let (value, rest) ← parseValue total fuel text
      match skipWs rest with
      | [] => syntaxAt total [] "unterminated array"
      | c :: rest =>
          if c = ',' then
            (fun (items, rest) => (value :: items, rest)) <$>
              arrayLoop total fuel rest
          else if c = ']' then
            .ok ([value], rest)
          else
            syntaxAt total (c :: rest)
              ("expected ',' or ']' in array, saw " ++ debugByte c)

end

/- Every character takes at most three levels of the parser. -/
def parserFuel
    (text : List Char) :
    Nat :=
  3 * text.length + 3

/- `Parser::new` starts behind a byte order mark. -/
def withoutBom
    (text : List Char) :
    List Char :=
  match text with
  | '\uFEFF' :: rest => rest
  | text => text

/- A stripped text as one value. -/
def parseStripped
    (text : List Char) :
    Except JsonFault JsonValue := do
  let total := (utf8 text).length
  let start := skipWs (withoutBom text)
  let (value, rest) ← parseValue total (parserFuel start) start
  match skipWs rest with
  | [] => .ok value
  | c :: rest =>
      syntaxAt total (c :: rest)
        ("unexpected trailing input after JSON value: byte " ++
          showHex (byteOf c))

/- `parse_global_json`, up to the value it takes its fields from. -/
def parseJsonc
    (text : List Char) :
    Except JsonFault JsonValue := do
  let stripped ← stripJsoncComments text
  parseStripped stripped

end Json

end MSBuild

end Borzoi
