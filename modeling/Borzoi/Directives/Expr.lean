import Mathlib.Data.List.Basic

/-
  The expressions of `#if` and `#elif`.

  The input is a list of bytes.  The parser reads its tokens one at a
  time, so the first error on the way is the one reported.  Its
  functions take a bound on the calls that are still allowed.
-/

namespace Borzoi

namespace Directives

/- A parsed condition.  Identifiers are their bytes. -/
inductive Expr
  | Ident (name : List UInt8)
  | Not (e : Expr)
  | And (a b : Expr)
  | Or (a b : Expr)
  deriving DecidableEq, Repr

/- `Expr::eval`. -/
def Expr.eval
    (lookup : List UInt8 → Bool) :
    Expr → Bool
  | .Ident name => lookup name
  | .Not e => !e.eval lookup
  | .And a b => a.eval lookup && b.eval lookup
  | .Or a b => a.eval lookup || b.eval lookup

/- `InvalidChar` carries the bytes of the character. -/
inductive ParseErrorKind
  | UnexpectedEof
  | UnexpectedToken
  | UnclosedParen
  | UnexpectedTrailingTokens
  | InvalidChar (char : List UInt8)
  | BlockCommentNotAllowed
  deriving DecidableEq, Repr

structure ParseError where
  pos : Nat
  kind : ParseErrorKind
  deriving DecidableEq, Repr

/- The byte of an ASCII character. -/
def byte
    (c : Char) :
    UInt8 :=
  UInt8.ofNat c.toNat

/- `[' ' '\t']`. -/
def isBlank
    (b : UInt8) :
    Bool :=
  b == byte ' ' || b == byte '\t'

/- `u8::is_ascii_alphabetic`. -/
def isAsciiAlphabetic
    (b : UInt8) :
    Bool :=
  (byte 'a' ≤ b && b ≤ byte 'z') || (byte 'A' ≤ b && b ≤ byte 'Z')

/- `u8::is_ascii_digit`. -/
def isAsciiDigit
    (b : UInt8) :
    Bool :=
  byte '0' ≤ b && b ≤ byte '9'

def isIdentStart
    (b : UInt8) :
    Bool :=
  isAsciiAlphabetic b || b == byte '_'

def isIdentContinue
    (b : UInt8) :
    Bool :=
  isAsciiAlphabetic b || isAsciiDigit b || b == byte '_' ||
    b == byte '\''

/- The bytes of the first character of a UTF-8 text. -/
def firstChar
    (rest : List UInt8) :
    List UInt8 :=
  match rest with
  | [] => []
  | b :: tail => b :: tail.takeWhile fun c => 0x80 ≤ c && c < 0xC0

/-
  The first place at or behind `pos` where a byte does not satisfy
  `p`, or the place `stop`.
-/
def scanWhile
    (p : UInt8 → Bool)
    (bytes : List UInt8)
    (pos stop : Nat) :
    Nat :=
  pos + (((bytes.drop pos).take (stop - pos)).takeWhile p).length

/- `&bytes[a..b]`. -/
def slice
    (bytes : List UInt8)
    (a b : Nat) :
    List UInt8 :=
  (bytes.drop a).take (b - a)

inductive Tok
  | Ident (name : List UInt8)
  | Not
  | And
  | Or
  | LParen
  | RParen
  | Eof
  deriving DecidableEq, Repr

def invalidCharHere
    (input : List UInt8)
    (pos : Nat) :
    ParseError :=
  ⟨pos, .InvalidChar (firstChar (input.drop pos))⟩

/- `Tokenizer::next_token`: a token, its place and the place behind. -/
def nextToken
    (input : List UInt8)
    (pos : Nat) :
    Except ParseError (Tok × Nat × Nat) :=
  let start := scanWhile isBlank input pos input.length
  match input[start]? with
  | none => .ok (.Eof, start, start)
  | some b =>
      if b = byte '!' then
        .ok (.Not, start, start + 1)
      else if b = byte '&' then
        if input[start + 1]? = some (byte '&') then
          .ok (.And, start, start + 2)
        else
          .error (invalidCharHere input start)
      else if b = byte '|' then
        if input[start + 1]? = some (byte '|') then
          .ok (.Or, start, start + 2)
        else
          .error (invalidCharHere input start)
      else if b = byte '(' then
        if input[start + 1]? = some (byte '*') then
          .error ⟨start, .BlockCommentNotAllowed⟩
        else
          .ok (.LParen, start, start + 1)
      else if b = byte ')' then
        .ok (.RParen, start, start + 1)
      else if b = byte '/' then
        if input[start + 1]? = some (byte '/') then
          .ok (.Eof, start, input.length)
        else
          .error (invalidCharHere input start)
      else if isIdentStart b then
        let stop := scanWhile isIdentContinue input (start + 1)
          input.length
        .ok (.Ident (slice input start stop), start, stop)
      else
        .error (invalidCharHere input start)

/- The tokenizer's place and a token that was peeked at. -/
structure Parser where
  pos : Nat
  peeked : Option (Tok × Nat)
  deriving DecidableEq, Repr

namespace Parser

def peek
    (input : List UInt8)
    (p : Parser) :
    Except ParseError (Tok × Parser) :=
  match p.peeked with
  | some (tok, _) => .ok (tok, p)
  | none =>
      match nextToken input p.pos with
      | .error e => .error e
      | .ok (tok, start, stop) => .ok (tok, ⟨stop, some (tok, start)⟩)

def bump
    (input : List UInt8)
    (p : Parser) :
    Except ParseError (Tok × Nat × Parser) :=
  match p.peeked with
  | some (tok, start) => .ok (tok, start, ⟨p.pos, none⟩)
  | none =>
      match nextToken input p.pos with
      | .error e => .error e
      | .ok (tok, start, stop) => .ok (tok, start, ⟨stop, none⟩)

end Parser

/- What a parsing function returns, `none` past its bound. -/
abbrev Parsed := Option (Except ParseError (Expr × Parser))

mutual

/- `parse_or` from its first operand on. -/
def parseOr
    (input : List UInt8) :
    Nat → Parser → Parsed
  | 0, _ => none
  | fuel + 1, p =>
      match parseAnd input fuel p with
      | none => none
      | some (.error e) => some (.error e)
      | some (.ok (left, p₁)) => parseOrRest input fuel left p₁

/- The loop of `parse_or`. -/
def parseOrRest
    (input : List UInt8) :
    Nat → Expr → Parser → Parsed
  | 0, _, _ => none
  | fuel + 1, left, p =>
      match p.peek input with
      | .error e => some (.error e)
      | .ok (.Or, p₁) =>
          match p₁.bump input with
          | .error e => some (.error e)
          | .ok (_, _, p₂) =>
              match parseAnd input fuel p₂ with
              | none => none
              | some (.error e) => some (.error e)
              | some (.ok (right, p₃)) =>
                  parseOrRest input fuel (.Or left right) p₃
      | .ok (_, p₁) => some (.ok (left, p₁))

/- `parse_and` from its first operand on. -/
def parseAnd
    (input : List UInt8) :
    Nat → Parser → Parsed
  | 0, _ => none
  | fuel + 1, p =>
      match parseNot input fuel p with
      | none => none
      | some (.error e) => some (.error e)
      | some (.ok (left, p₁)) => parseAndRest input fuel left p₁

/- The loop of `parse_and`. -/
def parseAndRest
    (input : List UInt8) :
    Nat → Expr → Parser → Parsed
  | 0, _, _ => none
  | fuel + 1, left, p =>
      match p.peek input with
      | .error e => some (.error e)
      | .ok (.And, p₁) =>
          match p₁.bump input with
          | .error e => some (.error e)
          | .ok (_, _, p₂) =>
              match parseNot input fuel p₂ with
              | none => none
              | some (.error e) => some (.error e)
              | some (.ok (right, p₃)) =>
                  parseAndRest input fuel (.And left right) p₃
      | .ok (_, p₁) => some (.ok (left, p₁))

/- `parse_not`. -/
def parseNot
    (input : List UInt8) :
    Nat → Parser → Parsed
  | 0, _ => none
  | fuel + 1, p =>
      match p.peek input with
      | .error e => some (.error e)
      | .ok (.Not, p₁) =>
          match p₁.bump input with
          | .error e => some (.error e)
          | .ok (_, _, p₂) =>
              match parseNot input fuel p₂ with
              | none => none
              | some (.error e) => some (.error e)
              | some (.ok (inner, p₃)) => some (.ok (.Not inner, p₃))
      | .ok (_, p₁) => parsePrimary input fuel p₁

/- `parse_primary`. -/
def parsePrimary
    (input : List UInt8) :
    Nat → Parser → Parsed
  | 0, _ => none
  | fuel + 1, p =>
      match p.bump input with
      | .error e => some (.error e)
      | .ok (.Ident name, _, p₁) => some (.ok (.Ident name, p₁))
      | .ok (.LParen, start, p₁) =>
          match parseOr input fuel p₁ with
          | none => none
          | some (.error e) => some (.error e)
          | some (.ok (inner, p₂)) =>
              match p₂.bump input with
              | .error e => some (.error e)
              | .ok (.RParen, _, p₃) => some (.ok (inner, p₃))
              | .ok (.Eof, _, _) =>
                  some (.error ⟨start, .UnclosedParen⟩)
              | .ok (_, close, _) =>
                  some (.error ⟨close, .UnexpectedToken⟩)
      | .ok (.Eof, start, _) => some (.error ⟨start, .UnexpectedEof⟩)
      | .ok (_, start, _) => some (.error ⟨start, .UnexpectedToken⟩)

end

/- `Parser::expect_eof`. -/
def expectEof
    (input : List UInt8)
    (p : Parser) :
    Except ParseError Unit :=
  match p.bump input with
  | .error e => .error e
  | .ok (.Eof, _, _) => .ok ()
  | .ok (_, start, _) => .error ⟨start, .UnexpectedTrailingTokens⟩

/-
  `parse_if_expr`.  Each byte is the first of at most one token, and a
  token takes at most four calls, so the bound is never reached.
-/
def parseIfExpr
    (input : List UInt8) :
    Except ParseError Expr :=
  match parseOr input (5 * (input.length + 1)) ⟨0, none⟩ with
  | none => .error ⟨0, .UnexpectedEof⟩
  | some (.error e) => .error e
  | some (.ok (expr, p)) =>
      match expectEof input p with
      | .error e => .error e
      | .ok () => .ok expr

end Directives

end Borzoi
