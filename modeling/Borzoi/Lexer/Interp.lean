import Borzoi.Directives.Expr
import Borzoi.Lexer.Token

/-
  Interpolated strings over the generated lexer.

  The generated lexer is a parameter: `logos text pos` is the next
  token of a lexer over `text` that stands at `pos`, with its span.
  The wrapper keeps a stack of open strings.  A `}` that closes a fill
  starts the next fragment of the string, which is read byte by byte.
-/

namespace Borzoi

namespace Lexer

open Directives

/- The generated lexer. -/
abbrev Logos :=
  List UInt8 → Nat → Option (Except LexError Token × Span)

/- The tokens of the generated lexer tile its input. -/
structure Logos.Tiles
    (logos : Logos) :
    Prop where
  more : ∀ text pos, pos < text.length →
    ∃ tok stop, logos text pos = some (tok, ⟨pos, stop⟩) ∧
      pos < stop ∧ stop ≤ text.length
  last : ∀ text pos, text.length ≤ pos → logos text pos = none

/- A lexer and its place. -/
structure SpannedIter where
  text : List UInt8
  pos : Nat

def SpannedIter.next
    (logos : Logos)
    (iter : SpannedIter) :
    Option ((Except LexError Token × Span) × SpannedIter) :=
  match logos iter.text iter.pos with
  | none => none
  | some (tok, span) => some ((tok, span), { iter with pos := span.stop })

/- `u8::is_ascii_hexdigit`. -/
def isAsciiHexdigit
    (b : UInt8) :
    Bool :=
  isAsciiDigit b || (byte 'a' ≤ b && b ≤ byte 'f') ||
    (byte 'A' ≤ b && b ≤ byte 'F')

/- `len` bytes from `start` on, each of which satisfies `p`. -/
def bytesAre
    (p : UInt8 → Bool)
    (bytes : List UInt8)
    (start len : Nat) :
    Bool :=
  start + len ≤ bytes.length && (slice bytes start (start + len)).all p

def lineContinuationLen
    (bytes : List UInt8)
    (start newlineLen : Nat) :
    Nat :=
  scanWhile isBlank bytes (start + newlineLen) bytes.length - start

/- `single_quote_escape_len`. -/
def singleQuoteEscapeLen
    (bytes : List UInt8)
    (i : Nat) :
    Option Nat :=
  match bytes[i + 1]? with
  | none => none
  | some next =>
      if ("\\\"'afvntbr".toList.map byte).contains next then
        some 2
      else if next = byte '\n' then
        some (lineContinuationLen bytes i 2)
      else if next = byte '\r' ∧ bytes[i + 2]? = some (byte '\n') then
        some (lineContinuationLen bytes i 3)
      else if isAsciiDigit next ∧ bytesAre isAsciiDigit bytes (i + 1) 3
          then
        some 4
      else if next = byte 'x' ∧ bytesAre isAsciiHexdigit bytes (i + 2) 2
          then
        some 4
      else if next = byte 'u' ∧ bytesAre isAsciiHexdigit bytes (i + 2) 4
          then
        some 6
      else if next = byte 'U' ∧ bytesAre isAsciiHexdigit bytes (i + 2) 8
          then
        some 10
      else
        none

/- The delimiters of an interpolated string. -/
inductive InterpStyle
  | Single
  | Triple
  | Verbatim
  | Extended (n : Nat)
  deriving DecidableEq, Repr

/- One open string. -/
structure Frame where
  braceDepth : Nat
  style : InterpStyle
  deriving DecidableEq, Repr

/- The closer of a string at the quote `i`, if it is one. -/
def closerAt
    (bytes : List UInt8)
    (style : InterpStyle)
    (i : Nat) :
    Option (InterpKind × Nat) :=
  match style with
  | .Single =>
      let isByte := bytes[i + 1]? == some (byte 'B')
      some (.End isByte, i + 1 + isByte.toNat)
  | .Verbatim =>
      if bytes[i + 1]? = some (byte '"') then
        none
      else
        let isByte := bytes[i + 1]? == some (byte 'B')
        some (.End isByte, i + 1 + isByte.toNat)
  | .Triple =>
      if bytes[i + 1]? = some (byte '"') ∧
          bytes[i + 2]? = some (byte '"') then
        let isByte := bytes[i + 3]? == some (byte 'B')
        some (.End isByte, i + 3 + isByte.toNat)
      else
        none
  | .Extended _ => none

/- How far a quote that does not close moves the scan. -/
def quoteSkip
    (style : InterpStyle) :
    Nat :=
  match style with
  | .Verbatim => 2
  | .Single | .Triple | .Extended _ => 1

/- The loop of `scan_cont`.  Every turn reads at least one byte. -/
def scanContLoop
    (bytes : List UInt8)
    (style : InterpStyle) :
    Nat → Nat → Except LexError InterpKind × Nat
  | 0, _ => (.error .UnterminatedString, bytes.length)
  | fuel + 1, i =>
      match bytes[i]? with
      | none => (.error .UnterminatedString, bytes.length)
      | some b =>
          if b = byte '\\' ∧ style = .Single then
            match singleQuoteEscapeLen bytes i with
            | some len => scanContLoop bytes style fuel (i + len)
            | none => scanContLoop bytes style fuel (i + 1)
          else if b = byte '{' then
            if bytes[i + 1]? = some (byte '{') then
              scanContLoop bytes style fuel (i + 2)
            else
              (.ok .Part, i + 1)
          else if b = byte '}' then
            if bytes[i + 1]? = some (byte '}') then
              scanContLoop bytes style fuel (i + 2)
            else
              scanContLoop bytes style fuel (i + 1)
          else if b = byte '"' then
            match closerAt bytes style i with
            | some (kind, stop) => (.ok kind, stop)
            | none => scanContLoop bytes style fuel (i + quoteSkip style)
          else
            scanContLoop bytes style fuel (i + 1)

/- The number of bytes `b` from `start` on. -/
def runLength
    (b : UInt8)
    (bytes : List UInt8)
    (start : Nat) :
    Nat :=
  ((bytes.drop start).takeWhile fun c => c == b).length

/- The loop of `scan_cont_extended`. -/
def scanContExtendedLoop
    (bytes : List UInt8)
    (n : Nat) :
    Nat → Nat → Except LexError InterpKind × Nat
  | 0, _ => (.error .UnterminatedString, bytes.length)
  | fuel + 1, i =>
      match bytes[i]? with
      | none => (.error .UnterminatedString, bytes.length)
      | some b =>
          if b = byte '{' then
            let run := runLength (byte '{') bytes i
            if n ≤ run then
              (.ok .Part, i + run)
            else
              scanContExtendedLoop bytes n fuel (i + run)
          else if b = byte '"' ∧ bytes[i + 1]? = some (byte '"') ∧
              bytes[i + 2]? = some (byte '"') then
            (.ok (.End false), i + 3)
          else
            scanContExtendedLoop bytes n fuel (i + 1)

/- `scan_cont`. -/
def scanCont
    (bytes : List UInt8)
    (start : Nat)
    (style : InterpStyle) :
    Except LexError InterpKind × Nat :=
  match style with
  | .Extended n =>
      scanContExtendedLoop bytes n bytes.length
        (start + min (runLength (byte '}') bytes start) n)
  | _ => scanContLoop bytes style bytes.length (start + 1)

/- The lexer of a text with its open strings, innermost first. -/
structure InterpDriver where
  source : List UInt8
  inner : SpannedIter
  base : Nat
  frames : List Frame

namespace InterpDriver

/- `InterpDriver::new_with_frames`. -/
def newWithFrames
    (source : List UInt8)
    (frames : List Frame) :
    InterpDriver :=
  ⟨source, ⟨source, 0⟩, 0, frames⟩

/- `restart_inner`. -/
def restartInner
    (d : InterpDriver)
    (pos : Nat) :
    InterpDriver :=
  { d with inner := ⟨d.source.drop pos, 0⟩, base := pos }

/- The style an opening fragment starts a fill of. -/
def openedStyle
    (kind : InterpKind) :
    Option InterpStyle :=
  match kind with
  | .Begin => some .Single
  | .TripleBegin => some .Triple
  | .VerbatimBegin => some .Verbatim
  | .ExtendedBegin n => some (.Extended n)
  | _ => none

/- Whether a fragment ends its string. -/
def endsString
    (kind : Except LexError InterpKind) :
    Bool :=
  match kind with
  | .ok (.End _) => true
  | .ok _ => false
  | .error _ => true

/- Whether an extended string stays open at a `}`. -/
def staysOpen
    (source : List UInt8)
    (closeAt : Nat)
    (style : InterpStyle) :
    Bool :=
  match style with
  | .Extended n => runLength (byte '}') source closeAt < n
  | .Single | .Triple | .Verbatim => false

/- The `}` at the place `closeAt`, with the innermost frame `top`. -/
def closeBrace
    (d : InterpDriver)
    (span : Span)
    (top : Frame)
    (below : List Frame) :
    (Except LexError Token × Span) × InterpDriver :=
  if 0 < top.braceDepth then
    ((.ok .RBrace, span),
      { d with
        frames := { top with braceDepth := top.braceDepth - 1 } ::
          below })
  else if staysOpen d.source span.start top.style then
    ((.ok .RBrace, span), d)
  else
    match scanCont d.source span.start top.style with
    | (kind, stop) =>
        let frames := if endsString kind then below else top :: below
        ((kind.map .InterpString, ⟨span.start, stop⟩),
          ({ d with frames := frames }).restartInner stop)

/- `InterpDriver::next`. -/
def next
    (logos : Logos)
    (d : InterpDriver) :
    Option ((Except LexError Token × Span) × InterpDriver) :=
  match d.inner.next logos with
  | none => none
  | some ((tok, rel), inner) =>
      let span : Span := ⟨rel.start + d.base, rel.stop + d.base⟩
      let moved := { d with inner := inner }
      match tok, d.frames with
      | .ok (.InterpString kind), _ =>
          match openedStyle kind with
          | some style =>
              some ((tok, span),
                { moved with frames := ⟨0, style⟩ :: d.frames })
          | none => some ((tok, span), moved)
      | .ok .LBrace, top :: below =>
          some ((tok, span),
            { moved with
              frames := { top with braceDepth := top.braceDepth + 1 } ::
                below })
      | .ok .RBrace, top :: below =>
          some (moved.closeBrace span top below)
      | _, _ => some ((tok, span), moved)

end InterpDriver

------------------------------------------------------------
-- Places
------------------------------------------------------------

section Places

variable {bytes : List UInt8} {style : InterpStyle} {lo i : Nat}

variable {b : UInt8}

theorem lt_length_of_getElem?
    (hByte : bytes[i]? = some b) :
    i < bytes.length :=
  (List.getElem?_eq_some_iff.1 hByte).1

theorem closerAt_stop
    {kind : InterpKind}
    {stop : Nat}
    (hByte : bytes[i]? = some b)
    (hCloser : closerAt bytes style i = some (kind, stop)) :
    i < stop ∧ stop ≤ bytes.length := by
  have hIn := lt_length_of_getElem? hByte
  -- a trailing `B` is there when it is counted
  have hSuffix : ∀ k, i + k ≤ bytes.length →
      i + k + (bytes[i + k]? == some (byte 'B')).toNat ≤
        bytes.length := by
    intro k hk
    cases hB : bytes[i + k]? == some (byte 'B') with
    | false =>
        exact hk
    | true =>
        exact lt_length_of_getElem? (eq_of_beq hB)
  cases style with
  | Single =>
      cases hCloser
      constructor
      · omega
      · exact hSuffix 1 hIn
  | Verbatim =>
      unfold closerAt at hCloser
      dsimp only at hCloser
      split at hCloser
      · cases hCloser
      · cases hCloser
        constructor
        · omega
        · exact hSuffix 1 hIn
  | Triple =>
      unfold closerAt at hCloser
      dsimp only at hCloser
      split at hCloser
      · next hQuotes =>
          cases hCloser
          have hLast := lt_length_of_getElem? hQuotes.2
          constructor
          · omega
          · exact hSuffix 3 hLast
      · cases hCloser
  | Extended n =>
      cases hCloser

/- A fragment ends behind its start, and in the text. -/
theorem scanContLoop_stop
    {fuel : Nat}
    (hLo : lo ≤ i)
    (hIn : lo < bytes.length) :
    lo < (scanContLoop bytes style fuel i).2 ∧
      (scanContLoop bytes style fuel i).2 ≤ bytes.length := by
  induction fuel generalizing i with
  | zero =>
      exact ⟨hIn, Nat.le_refl _⟩
  | succ fuel ih =>
      have hSkip : ∀ n, lo < (scanContLoop bytes style fuel (i + n)).2 ∧
          (scanContLoop bytes style fuel (i + n)).2 ≤ bytes.length :=
        fun n => ih (Nat.le_trans hLo (Nat.le_add_right i n))
      unfold scanContLoop
      cases hByte : bytes[i]? with
      | none =>
          exact ⟨hIn, Nat.le_refl _⟩
      | some b =>
          have hHere := lt_length_of_getElem? hByte
          dsimp only
          split
          · split
            · exact hSkip _
            · exact hSkip 1
          split
          · split
            · exact hSkip 2
            · exact ⟨Nat.lt_succ_of_le hLo, hHere⟩
          split
          · split
            · exact hSkip 2
            · exact hSkip 1
          split
          · split
            · next kind stop hCloser =>
                have hStop := closerAt_stop hByte hCloser
                exact ⟨Nat.lt_of_le_of_lt hLo hStop.1, hStop.2⟩
            · exact hSkip _
          · exact hSkip 1

theorem runLength_le
    (b : UInt8)
    (hIn : i ≤ bytes.length) :
    i + runLength b bytes i ≤ bytes.length := by
  unfold runLength
  have hLength : ((bytes.drop i).takeWhile fun c => c == b).length ≤
      (bytes.drop i).length := (List.takeWhile_sublist _).length_le
  rw [List.length_drop] at hLength
  omega

theorem runLength_pos
    (hByte : bytes[i]? = some b) :
    0 < runLength b bytes i := by
  have hHere := lt_length_of_getElem? hByte
  have hGet : bytes[i] = b := by
    rw [List.getElem?_eq_getElem hHere] at hByte
    exact Option.some.inj hByte
  unfold runLength
  rw [List.drop_eq_getElem_cons hHere, hGet, List.takeWhile_cons,
    beq_self_eq_true b]
  exact Nat.succ_pos _

theorem scanContExtendedLoop_stop
    {n fuel : Nat}
    (hLo : lo ≤ i)
    (hIn : lo < bytes.length) :
    lo < (scanContExtendedLoop bytes n fuel i).2 ∧
      (scanContExtendedLoop bytes n fuel i).2 ≤ bytes.length := by
  induction fuel generalizing i with
  | zero =>
      exact ⟨hIn, Nat.le_refl _⟩
  | succ fuel ih =>
      have hSkip : ∀ k,
          lo < (scanContExtendedLoop bytes n fuel (i + k)).2 ∧
            (scanContExtendedLoop bytes n fuel (i + k)).2 ≤
              bytes.length :=
        fun k => ih (Nat.le_trans hLo (Nat.le_add_right i k))
      unfold scanContExtendedLoop
      cases hByte : bytes[i]? with
      | none =>
          exact ⟨hIn, Nat.le_refl _⟩
      | some b =>
          have hHere := lt_length_of_getElem? hByte
          dsimp only
          split
          · next hBrace =>
              rw [hBrace] at hByte
              have hRun := runLength_pos hByte
              have hEnd := runLength_le (byte '{') (Nat.le_of_lt hHere)
              split
              · constructor
                · dsimp only
                  omega
                · exact hEnd
              · exact hSkip _
          split
          · next hQuotes =>
              have hLast := lt_length_of_getElem? hQuotes.2.2
              constructor
              · dsimp only
                omega
              · exact hLast
          · exact hSkip 1

theorem scanCont_stop
    {start : Nat}
    (hIn : start < bytes.length) :
    start < (scanCont bytes start style).2 ∧
      (scanCont bytes start style).2 ≤ bytes.length := by
  cases style with
  | Extended n =>
      exact scanContExtendedLoop_stop (Nat.le_add_right _ _) hIn
  | _ =>
      exact scanContLoop_stop (Nat.le_add_right _ _) hIn

end Places

namespace InterpDriver

variable {logos : Logos} {d : InterpDriver}

/- The place of the next token. -/
def place
    (d : InterpDriver) :
    Nat :=
  d.base + d.inner.pos

/- The inner lexer reads the text from its base on. -/
def Ready
    (d : InterpDriver) :
    Prop :=
  d.inner.text = d.source.drop d.base

/- What one step of the wrapper yields. -/
structure Steps
    (d : InterpDriver)
    (span : Span)
    (d' : InterpDriver) :
    Prop where
  start : span.start = d.place
  nonempty : span.start < span.stop
  stop : span.stop ≤ d.source.length
  ready : d'.Ready
  place : d'.place = span.stop
  source : d'.source = d.source

theorem closeBrace_steps
    {span : Span}
    {top : Frame}
    {below : List Frame}
    {moved : InterpDriver}
    (hSteps : Steps d span moved) :
    ∃ tok span' d', moved.closeBrace span top below =
        ((tok, span'), d') ∧ Steps d span' d' := by
  have hSource := hSteps.source
  unfold closeBrace
  split
  · exact ⟨_, _, _, rfl, hSteps.start, hSteps.nonempty, hSteps.stop,
      hSteps.ready, hSteps.place, hSteps.source⟩
  split
  · exact ⟨_, _, _, rfl, hSteps⟩
  · have hIn : span.start < moved.source.length := by
      rw [hSource]
      exact Nat.lt_of_lt_of_le hSteps.nonempty hSteps.stop
    have hStop : span.start <
          (scanCont moved.source span.start top.style).2 ∧
        (scanCont moved.source span.start top.style).2 ≤
          moved.source.length := scanCont_stop hIn
    have hEnd : (scanCont moved.source span.start top.style).2 ≤
        d.source.length := by
      rw [← hSource]
      exact hStop.2
    exact ⟨_, _, _, rfl, hSteps.start, hStop.1, hEnd, rfl, rfl, hSource⟩

/- The wrapper tiles its text as the generated lexer does. -/
theorem next_steps
    (hTiles : logos.Tiles)
    (hReady : d.Ready)
    (hMore : d.place < d.source.length) :
    ∃ tok span d', d.next logos = some ((tok, span), d') ∧
      Steps d span d' := by
  have hInner : d.inner.pos < d.inner.text.length := by
    rw [hReady, List.length_drop]
    unfold place at hMore
    omega
  rcases hTiles.more _ _ hInner with ⟨tok, stop, hNext, hLt, hLe⟩
  have hStop : stop + d.base ≤ d.source.length := by
    rw [hReady, List.length_drop] at hLe
    unfold place at hMore
    omega
  have hSteps : ∀ frames, Steps d ⟨d.inner.pos + d.base, stop + d.base⟩
      { d with inner := { d.inner with pos := stop },
               frames := frames } := by
    intro frames
    refine ⟨Nat.add_comm _ _, ?_, hStop, hReady, Nat.add_comm _ _, rfl⟩
    exact Nat.add_lt_add_right hLt _
  have hIter : d.inner.next logos =
      some ((tok, ⟨d.inner.pos, stop⟩),
        { d.inner with pos := stop }) := by
    unfold SpannedIter.next
    rw [hNext]
  unfold next
  rw [hIter]
  dsimp only
  split
  · split
    · exact ⟨_, _, _, rfl, hSteps _⟩
    · exact ⟨_, _, _, rfl, hSteps _⟩
  · exact ⟨_, _, _, rfl, hSteps _⟩
  · rcases closeBrace_steps (hSteps d.frames) with
      ⟨tok', span', d', hClose, hSteps'⟩
    rw [hClose]
    exact ⟨_, _, _, rfl, hSteps'⟩
  · exact ⟨_, _, _, rfl, hSteps _⟩

end InterpDriver

end Lexer

end Borzoi
