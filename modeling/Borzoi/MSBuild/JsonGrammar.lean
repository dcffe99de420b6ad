import Borzoi.MSBuild.GlobalJson
import Mathlib.Data.List.Infix

/-
  The spellings of a value.

  `Reads gap piece text rest` says that `text` spells the piece and goes on
  with `rest`, where `gap` says what may stand between two tokens: white
  space, or comments too.
-/

namespace Borzoi

namespace MSBuild

namespace Json

def IsStandardSpace
    (c : Char) :
    Prop :=
  c = ' ' ∨ c = '\t' ∨ c = '\n' ∨ c = '\r'

def IsAsciiSpace
    (c : Char) :
    Prop :=
  IsStandardSpace c ∨ c = '\x0c'

/- White space only. -/
inductive Blank
    (space : Char → Prop) :
    List Char → List Char → Prop
  | done (rest : List Char) : Blank space rest rest
  | step
      {c : Char}
      {text rest : List Char}
      (hSpace : space c)
      (hMore : Blank space text rest) :
      Blank space (c :: text) rest

def AtLineEnd
    (text : List Char) :
    Prop :=
  text = [] ∨ ∃ rest, text = '\n' :: rest

/- White space, comments to the end of a line and comments in `/*` and
   `*/`. -/
inductive Commented
    (space : Char → Prop) :
    List Char → List Char → Prop
  | done (rest : List Char) : Commented space rest rest
  | step
      {c : Char}
      {text rest : List Char}
      (hSpace : space c)
      (hMore : Commented space text rest) :
      Commented space (c :: text) rest
  | line
      {body text rest : List Char}
      (hBody : ∀ c ∈ body, c ≠ '\n')
      (hEnd : AtLineEnd text)
      (hMore : Commented space text rest) :
      Commented space ('/' :: '/' :: (body ++ text)) rest
  | block
      {body text rest : List Char}
      (hBody : ¬ ['*', '/'] <:+: body)
      (hMore : Commented space text rest) :
      Commented space ('/' :: '*' :: (body ++ '*' :: '/' :: text)) rest

def SimpleEscape
    (e c : Char) :
    Prop :=
  (e, c) ∈
    [('"', '"'), ('\\', '\\'), ('/', '/'), ('b', '\x08'), ('f', '\x0c'),
      ('n', '\n'), ('r', '\r'), ('t', '\t')]

def HexValue
    (c : Char)
    (v : Nat) :
    Prop :=
  "0123456789abcdef".toList[v]? = some c ∨
    "0123456789ABCDEF".toList[v]? = some c

/- `n` in `count` hexadecimal digits. -/
def HexNumber
    (count : Nat)
    (digits : List Char)
    (n : Nat) :
    Prop :=
  digits.length = count ∧
    ∃ values, List.Forall₂ HexValue digits values ∧
      n = values.foldl (fun acc v => 16 * acc + v) 0

/- A string behind its opening quote, up to its closing one. -/
inductive StringBody :
    List Char → List Char → List Char → Prop
  | close (rest : List Char) : StringBody [] ('"' :: rest) rest
  | plain
      {c : Char}
      {s text rest : List Char}
      (hControl : 0x20 ≤ c.toNat)
      (hQuote : c ≠ '"')
      (hBackslash : c ≠ '\\')
      (hMore : StringBody s text rest) :
      StringBody (c :: s) (c :: text) rest
  | escape
      {e c : Char}
      {s text rest : List Char}
      (hEscape : SimpleEscape e c)
      (hMore : StringBody s text rest) :
      StringBody (c :: s) ('\\' :: e :: text) rest
  | unicode
      {c : Char}
      {digits s text rest : List Char}
      (hDigits : HexNumber 4 digits c.toNat)
      (hMore : StringBody s text rest) :
      StringBody (c :: s) ('\\' :: 'u' :: (digits ++ text)) rest
  | surrogates
      {c : Char}
      {high low : Nat}
      {digits digits' s text rest : List Char}
      (hDigits : HexNumber 4 digits high)
      (hDigits' : HexNumber 4 digits' low)
      (hHigh : 0xD800 ≤ high ∧ high ≤ 0xDBFF)
      (hLow : 0xDC00 ≤ low ∧ low ≤ 0xDFFF)
      (hChar :
        c.toNat = 0x10000 + (high - 0xD800) * 0x400 + (low - 0xDC00))
      (hMore : StringBody s text rest) :
      StringBody (c :: s)
        ('\\' :: 'u' :: (digits ++ '\\' :: 'u' :: (digits' ++ text))) rest

def Digits
    (text : List Char) :
    Prop :=
  text ≠ [] ∧ ∀ c ∈ text, c.isDigit = true

def WholeForm
    (text : List Char) :
    Prop :=
  text = ['0'] ∨ (Digits text ∧ text.head? ≠ some '0')

def FractionForm
    (text : List Char) :
    Prop :=
  text = [] ∨ ∃ digits, Digits digits ∧ text = '.' :: digits

def ExponentForm
    (text : List Char) :
    Prop :=
  text = [] ∨
    ∃ e sign digits, (e = 'e' ∨ e = 'E') ∧
      (sign = [] ∨ sign = ['+'] ∨ sign = ['-']) ∧
      Digits digits ∧ text = e :: (sign ++ digits)

def NumberForm
    (text : List Char) :
    Prop :=
  ∃ sign whole fraction exponent,
    (sign = [] ∨ sign = ['-']) ∧ WholeForm whole ∧
    FractionForm fraction ∧ ExponentForm exponent ∧
    text = sign ++ (whole ++ (fraction ++ exponent))

inductive Word :
    JsonValue → List Char → Prop
  | null : Word .Null "null".toList
  | true : Word (.Bool true) "true".toList
  | false : Word (.Bool false) "false".toList
  | number
      {text : List Char}
      (hForm : NumberForm text) :
      Word .Number text

/- A value, the same with gaps around it, a key and its value, and what
   stands between brackets and braces. -/
inductive Piece
  | value (v : JsonValue)
  | item (v : JsonValue)
  | field (key : List Char) (v : JsonValue)
  | elements (items : List JsonValue)
  | members (fields : List (List Char × JsonValue))

inductive Reads
    (gap : List Char → List Char → Prop) :
    Piece → List Char → List Char → Prop
  | word
      {v : JsonValue}
      {text rest : List Char}
      (hWord : Word v text) :
      Reads gap (.value v) (text ++ rest) rest
  | string
      {s text rest : List Char}
      (hBody : StringBody s text rest) :
      Reads gap (.value (.String s)) ('"' :: text) rest
  | emptyArray
      {text rest : List Char}
      (hGap : gap text (']' :: rest)) :
      Reads gap (.value (.Array [])) ('[' :: text) rest
  | array
      {items : List JsonValue}
      {text rest : List Char}
      (hItems : Reads gap (.elements items) text (']' :: rest)) :
      Reads gap (.value (.Array items)) ('[' :: text) rest
  | emptyObject
      {text rest : List Char}
      (hGap : gap text ('}' :: rest)) :
      Reads gap (.value (.Object [])) ('{' :: text) rest
  | object
      {fields : List (List Char × JsonValue)}
      {text rest : List Char}
      (hFields : Reads gap (.members fields) text ('}' :: rest)) :
      Reads gap (.value (.Object fields)) ('{' :: text) rest
  | item
      {v : JsonValue}
      {text start stop rest : List Char}
      (hBefore : gap text start)
      (hValue : Reads gap (.value v) start stop)
      (hAfter : gap stop rest) :
      Reads gap (.item v) text rest
  | field
      {key : List Char}
      {v : JsonValue}
      {text body stop colon rest : List Char}
      (hBefore : gap text ('"' :: body))
      (hKey : StringBody key body stop)
      (hColon : gap stop (':' :: colon))
      (hValue : Reads gap (.item v) colon rest) :
      Reads gap (.field key v) text rest
  | lastElement
      {v : JsonValue}
      {text rest : List Char}
      (hItem : Reads gap (.item v) text rest) :
      Reads gap (.elements [v]) text rest
  | moreElements
      {v : JsonValue}
      {items : List JsonValue}
      {text comma rest : List Char}
      (hItem : Reads gap (.item v) text (',' :: comma))
      (hItems : Reads gap (.elements items) comma rest) :
      Reads gap (.elements (v :: items)) text rest
  | lastMember
      {key : List Char}
      {v : JsonValue}
      {text rest : List Char}
      (hField : Reads gap (.field key v) text rest) :
      Reads gap (.members [(key, v)]) text rest
  | moreMembers
      {key : List Char}
      {v : JsonValue}
      {fields : List (List Char × JsonValue)}
      {text comma rest : List Char}
      (hField : Reads gap (.field key v) text (',' :: comma))
      (hFields : Reads gap (.members fields) comma rest) :
      Reads gap (.members ((key, v) :: fields)) text rest

/- A whole text. -/
def Spelling
    (gap : List Char → List Char → Prop)
    (v : JsonValue)
    (text : List Char) :
    Prop :=
  Reads gap (.item v) text []

variable {space : Char → Prop} {text middle rest : List Char}

theorem Commented.trans
    (hFirst : Commented space text middle)
    (hSecond : Commented space middle rest) :
    Commented space text rest := by
  induction hFirst with
  | done => exact hSecond
  | step hSpace _ ih => exact .step hSpace (ih hSecond)
  | line hBody hEnd _ ih => exact .line hBody hEnd (ih hSecond)
  | block hBody _ ih => exact .block hBody (ih hSecond)

theorem Commented.mono
    {space' : Char → Prop}
    (hSpaces : ∀ c, space c → space' c)
    (hGap : Commented space text rest) :
    Commented space' text rest := by
  induction hGap with
  | done => exact .done _
  | step hSpace _ ih => exact .step (hSpaces _ hSpace) ih
  | line hBody hEnd _ ih => exact .line hBody hEnd ih
  | block hBody _ ih => exact .block hBody ih

/- More gaps give more spellings. -/
theorem Reads.mono
    {gap gap' : List Char → List Char → Prop}
    {piece : Piece}
    (hGaps : ∀ a b, gap a b → gap' a b)
    (hReads : Reads gap piece text rest) :
    Reads gap' piece text rest := by
  induction hReads with
  | word hWord => exact .word hWord
  | string hBody => exact .string hBody
  | emptyArray hGap => exact .emptyArray (hGaps _ _ hGap)
  | array _ ih => exact .array ih
  | emptyObject hGap => exact .emptyObject (hGaps _ _ hGap)
  | object _ ih => exact .object ih
  | item hBefore _ hAfter ih =>
      exact .item (hGaps _ _ hBefore) ih (hGaps _ _ hAfter)
  | field hBefore hKey hColon _ ih =>
      exact .field (hGaps _ _ hBefore) hKey (hGaps _ _ hColon) ih
  | lastElement _ ih => exact .lastElement ih
  | moreElements _ _ ih ih' => exact .moreElements ih ih'
  | lastMember _ ih => exact .lastMember ih
  | moreMembers _ _ ih ih' => exact .moreMembers ih ih'

end Json

end MSBuild

end Borzoi
