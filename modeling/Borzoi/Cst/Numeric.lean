import Borzoi.Program.Panic
import Borzoi.Text.Decimal

/-
  The checks of integer literals.

  A literal has a folded sign, a body of digits and underscores, in
  decimal or behind the mark of a radix, and a suffix for its type.  It
  is accepted when its underscores lie between digits and its value fits.
-/

namespace Borzoi

namespace Cst

open Program

/- `char::to_digit`. -/
def toDigit
    (radix : Nat)
    (c : Char) :
    Option Nat :=
  let digit :=
    if '0' ≤ c ∧ c ≤ '9' then some (c.toNat - '0'.toNat)
    else if 'a' ≤ c ∧ c ≤ 'z' then some (c.toNat - 'a'.toNat + 10)
    else if 'A' ≤ c ∧ c ≤ 'Z' then some (c.toNat - 'A'.toNat + 10)
    else none
  digit.filter fun d => decide (d < radix)

/- `char::is_digit`. -/
def isRadixDigit
    (radix : Nat)
    (c : Char) :
    Bool :=
  (toDigit radix c).isSome

/- The digits of a number, with the checked steps of `from_str_radix`. -/
def checkedDigits
    (bits radix : Nat) :
    Nat → List Char → Option Nat
  | acc, [] => some acc
  | acc, c :: rest =>
      match toDigit radix c with
      | none => none
      | some d =>
          if acc * radix < 2 ^ bits ∧ acc * radix + d < 2 ^ bits then
            checkedDigits bits radix (acc * radix + d) rest
          else
            none

/- `from_str_radix` of an unsigned type. -/
def fromStrRadix
    (bits radix : Nat) :
    List Char → Option Nat
  | [] => none
  | ['+'] => none
  | '+' :: rest => checkedDigits bits radix 0 rest
  | text => checkedDigits bits radix 0 text

/- The start of the run of underscores that ends before an index. -/
def runStart
    (chars : List Char) :
    Nat → Nat
  | 0 => 0
  | left + 1 =>
      if chars[left]? = some '_' then runStart chars left else left + 1

/- The end of the run of underscores from an index on. -/
def runEnd
    (chars : List Char)
    (right : Nat) :
    Nat :=
  if right + 1 < chars.length ∧ chars[right + 1]? = some '_' then
    runEnd chars (right + 1)
  else
    right
termination_by chars.length - right

def separatorsWellPlaced
    (chars : List Char)
    (isDigit : Char → Bool) :
    Bool :=
  (List.range chars.length).all fun i =>
    if chars[i]? ≠ some '_' then
      true
    else
      let left := runStart chars i
      let right := runEnd chars i
      (decide (0 < left) && chars[left - 1]?.any isDigit) &&
        (decide (right + 1 < chars.length) && chars[right + 1]?.any isDigit)

/- Whether a minus is folded, and the rest. -/
def splitFoldSign
    (text : List Char) :
    Bool × List Char :=
  match text with
  | '-' :: rest => (true, rest)
  | '+' :: rest => (false, rest)
  | _ => (false, text)

/- `text.chars().filter(|c| *c != '_')`. -/
def withoutSeparators
    (body : List Char) :
    List Char :=
  body.filter fun c => c != '_'

/- The radix and the digits behind its mark. -/
def xintSplit
    {ε : Type}
    (text : List Char) :
    Run ε (Nat × List Char) :=
  match text with
  | '0' :: 'x' :: rest => .ok (16, rest)
  | '0' :: 'X' :: rest => .ok (16, rest)
  | '0' :: 'o' :: rest => .ok (8, rest)
  | '0' :: 'O' :: rest => .ok (8, rest)
  | '0' :: 'b' :: rest => .ok (2, rest)
  | '0' :: 'B' :: rest => .ok (2, rest)
  | _ => .error (.panic .Expectation)

/- The kinds of typed integer literals. -/
inductive IntKind
  | SBYTE_LIT
  | BYTE_LIT
  | INT16_LIT
  | UINT16_LIT
  | INT32_LIT
  | UINT32_LIT
  | INT64_LIT
  | UINT64_LIT
  | INTPTR_LIT
  | UINTPTR_LIT
  deriving DecidableEq, Repr

/- `str::strip_suffix`. -/
def stripSuffix
    (suffix text : List Char) :
    Option (List Char) :=
  if suffix.isSuffixOf text then
    some (text.take (text.length - suffix.length))
  else
    none

/- The suffixes, in the order that they are tried in. -/
def suffixTable :
    List (List Char × IntKind) :=
  [(['u', 'y'], .BYTE_LIT),
    (['u', 's'], .UINT16_LIT),
    (['u', 'l'], .UINT32_LIT),
    (['u', 'L'], .UINT64_LIT),
    (['U', 'L'], .UINT64_LIT),
    (['u', 'n'], .UINTPTR_LIT),
    (['y'], .SBYTE_LIT),
    (['s'], .INT16_LIT),
    (['l'], .INT32_LIT),
    (['u'], .UINT32_LIT),
    (['L'], .INT64_LIT),
    (['n'], .INTPTR_LIT)]

def splitIntSuffix
    (text : List Char) :
    Option (IntKind × List Char) :=
  suffixTable.findSome? fun entry =>
    (stripSuffix entry.1 text).map fun body => (entry.2, body)

def intValueInRange
    (kind : IntKind)
    (value : Nat)
    (hexBitPattern : Bool) :
    Bool :=
  match kind with
  | .SBYTE_LIT =>
      if hexBitPattern then decide (value ≤ 2 ^ 8 - 1)
      else decide (value ≤ 2 ^ 7 - 1)
  | .BYTE_LIT => decide (value ≤ 2 ^ 8 - 1)
  | .INT16_LIT =>
      if hexBitPattern then decide (value ≤ 2 ^ 16 - 1)
      else decide (value ≤ 2 ^ 15 - 1)
  | .UINT16_LIT => decide (value ≤ 2 ^ 16 - 1)
  | .INT32_LIT =>
      if hexBitPattern then decide (value ≤ 2 ^ 32 - 1)
      else decide (value ≤ 2 ^ 31 - 1)
  | .UINT32_LIT => decide (value ≤ 2 ^ 32 - 1)
  | .INT64_LIT => if hexBitPattern then true else decide (value ≤ 2 ^ 63 - 1)
  | .UINT64_LIT => true
  | .INTPTR_LIT => if hexBitPattern then true else decide (value ≤ 2 ^ 63 - 1)
  | .UINTPTR_LIT => true

/- `INT32_BAD_MAX`. -/
def int32BadMax :
    List Char :=
  "2147483648".toList

/- `INT64_BAD_MAX`. -/
def int64BadMax :
    List Char :=
  "9223372036854775808".toList

def isSignedMinValue
    (kind : IntKind)
    (cleaned : List Char)
    (value : Nat) :
    Bool :=
  match kind with
  | .SBYTE_LIT => decide (value = 2 ^ 7)
  | .INT16_LIT => decide (value = 2 ^ 15)
  | .INT32_LIT => decide (cleaned = int32BadMax)
  | .INT64_LIT => decide (cleaned = int64BadMax)
  | .INTPTR_LIT => decide (cleaned = int64BadMax)
  | _ => false

inductive DecimalIntError
  | Malformed
  | OutOfRangeInt32
  deriving DecidableEq, Repr

def validateDecimalInt
    (text : List Char) :
    Except DecimalIntError Unit :=
  let (minus, body) := splitFoldSign text
  if !separatorsWellPlaced body Char.isDigit then
    .error .Malformed
  else
    let cleaned := withoutSeparators body
    if (fromStrRadix 64 10 cleaned).any fun v => decide (v ≤ 2 ^ 31 - 1) then
      .ok ()
    else if minus && decide (cleaned = int32BadMax) then
      .ok ()
    else
      .error .OutOfRangeInt32

def validateXintInt32
    (text : List Char) :
    Run Unit Unit := do
  let (_, body) := splitFoldSign text
  let (radix, body) ← xintSplit body
  if !separatorsWellPlaced body (isRadixDigit radix) then
    refuseWith ()
  else
    match fromStrRadix 32 radix (withoutSeparators body) with
    | some _ => .ok ()
    | none => refuseWith ()

inductive IntSuffixedError
  | UnsupportedSuffix
  | OutOfRange
  deriving DecidableEq, Repr

def classifyIntSuffixed
    (text : List Char) :
    Run IntSuffixedError IntKind := do
  let (minus, body) := splitFoldSign text
  let (kind, body) ← orFail .UnsupportedSuffix (splitIntSuffix body)
  if !separatorsWellPlaced body Char.isDigit then
    refuseWith .OutOfRange
  else
    let cleaned := withoutSeparators body
    let value ← orFail .OutOfRange (fromStrRadix 64 10 cleaned)
    if intValueInRange kind value false ||
        (minus && isSignedMinValue kind cleaned value) then
      .ok kind
    else
      refuseWith .OutOfRange

def classifyXintSuffixed
    (text : List Char) :
    Run IntSuffixedError IntKind := do
  let (_, body) := splitFoldSign text
  let (kind, body) ← orFail .UnsupportedSuffix (splitIntSuffix body)
  let (radix, digits) ← xintSplit body
  if !separatorsWellPlaced digits (isRadixDigit radix) then
    refuseWith .OutOfRange
  else
    let cleaned := withoutSeparators digits
    let value ← orFail .OutOfRange (fromStrRadix 64 radix cleaned)
    if intValueInRange kind value true then
      .ok kind
    else
      refuseWith .OutOfRange

def classifySuffixedInt
    (text : List Char) :
    Run IntSuffixedError IntKind :=
  let (_, body) := splitFoldSign text
  let isXint := ["0x", "0X", "0o", "0O", "0b", "0B"].any fun mark =>
    mark.toList.isPrefixOf body
  if isXint then
    classifyXintSuffixed text
  else
    classifyIntSuffixed text

end Cst

end Borzoi
