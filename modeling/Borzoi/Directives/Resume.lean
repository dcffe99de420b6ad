import Borzoi.Directives.Lossless

/-
  Resumed lexing.

  A lexer over the rest of a text, with the frames of the lexer that
  read up to there, yields the tokens that the first lexer yields from
  there on.  The scan of a fragment looks at no byte before its start,
  so it is the same in every text with the same rest.

  Main declarations:
    * `Logos.Stateless`
    * `Resumes`
    * `Resumes.next`
    * `InterpDriver.read`
    * `read_resumes`
    * `nextLogosToken_relex`
    * `restart_changes_no_token`
-/

namespace Borzoi

variable {logos : Logos}

namespace Lexer

open Directives
open Text

/- A span of the rest of a text, from the byte `k` on. -/
def Span.shift
    (k : Nat)
    (span : Span) :
    Span :=
  ⟨span.start + k, span.stop + k⟩

/- The generated lexer keeps no state between tokens. -/
def Logos.Stateless
    (logos : Logos) :
    Prop :=
  ∀ text pos, logos text pos =
    (logos (text.drop pos) 0).map fun next => (next.1, next.2.shift pos)

section Fragments

variable {bytes : List UInt8} {style : InterpStyle} {k : Nat}

theorem getElem?_rest
    (bytes : List UInt8)
    (k i : Nat) :
    (bytes.drop k)[i]? = bytes[i + k]? := by
  rw [List.getElem?_drop, Nat.add_comm]

theorem bytesAre_rest
    (p : UInt8 → Bool)
    (start len : Nat)
    (hStart : start + k ≤ bytes.length) :
    bytesAre p (bytes.drop k) start len =
      bytesAre p bytes (start + k) len := by
  have hSlice : slice (bytes.drop k) start (start + len) =
      slice bytes (start + k) (start + k + len) := by
    unfold slice
    rw [List.drop_drop, Nat.add_comm k start]
    simp
  have hBound : start + len ≤ (bytes.drop k).length ↔
      start + k + len ≤ bytes.length := by
    rw [List.length_drop]
    omega
  unfold bytesAre
  rw [hSlice, decide_eq_decide.2 hBound]

theorem lineContinuationLen_rest
    (start newlineLen : Nat) :
    lineContinuationLen (bytes.drop k) start newlineLen =
      lineContinuationLen bytes (start + k) newlineLen := by
  unfold lineContinuationLen scanWhile
  have hRest : ((bytes.drop k).drop (start + newlineLen)).take
        ((bytes.drop k).length - (start + newlineLen)) =
      (bytes.drop (start + k + newlineLen)).take
        (bytes.length - (start + k + newlineLen)) := by
    rw [List.drop_drop, List.length_drop]
    have hPlace : k + (start + newlineLen) = start + k + newlineLen := by
      omega
    rw [hPlace]
    congr 1
    omega
  rw [hRest]
  omega

theorem singleQuoteEscapeLen_rest
    (i : Nat) :
    singleQuoteEscapeLen (bytes.drop k) i =
      singleQuoteEscapeLen bytes (i + k) := by
  unfold singleQuoteEscapeLen
  rw [getElem?_rest, Nat.add_right_comm i 1 k]
  cases hNext : bytes[i + k + 1]? with
  | none => rfl
  | some next =>
      have hIn : i + k + 1 < bytes.length := lt_length_of_getElem? hNext
      dsimp only
      rw [getElem?_rest, bytesAre_rest _ _ _ (by omega),
        bytesAre_rest _ _ _ (by omega), bytesAre_rest _ _ _ (by omega),
        bytesAre_rest _ _ _ (by omega), lineContinuationLen_rest,
        lineContinuationLen_rest, Nat.add_right_comm i 1 k,
        Nat.add_right_comm i 2 k]

theorem singleQuoteEscapeLen_pos
    {i len : Nat}
    (hLen : singleQuoteEscapeLen bytes i = some len) :
    0 < len := by
  have hContinuation (newlineLen : Nat) (hPos : 0 < newlineLen) :
      0 < lineContinuationLen bytes i newlineLen := by
    unfold lineContinuationLen scanWhile
    omega
  unfold singleQuoteEscapeLen at hLen
  cases hNext : bytes[i + 1]? with
  | none =>
      rw [hNext] at hLen
      cases hLen
  | some next =>
      rw [hNext] at hLen
      dsimp only at hLen
      split_ifs at hLen <;> cases hLen
      · decide
      · exact hContinuation 2 (by decide)
      · exact hContinuation 3 (by decide)
      · decide
      · decide
      · decide
      · decide

/- The end of a scan of the rest, as a place of the text. -/
def shiftStop
    {ρ : Type}
    (k : Nat)
    (scanned : ρ × Nat) :
    ρ × Nat :=
  (scanned.1, scanned.2 + k)

theorem closerAt_rest
    (i : Nat) :
    closerAt bytes style (i + k) =
      (closerAt (bytes.drop k) style i).map (shiftStop k) := by
  have hAt : ∀ j, bytes[i + k + j]? = (bytes.drop k)[i + j]? := by
    intro j
    rw [getElem?_rest, Nat.add_right_comm]
  unfold closerAt
  cases style with
  | Single =>
      rw [hAt 1]
      simp [shiftStop]
      omega
  | Verbatim =>
      rw [hAt 1]
      dsimp only
      split
      · rfl
      · simp [shiftStop]
        omega
  | Triple =>
      rw [hAt 1, hAt 2, hAt 3]
      dsimp only
      split
      · simp [shiftStop]
        omega
      · rfl
  | Extended n => rfl

theorem quoteSkip_pos :
    0 < quoteSkip style := by
  cases style <;> simp [quoteSkip]

/- With enough fuel, the rest is scanned as the text is. -/
theorem scanContLoop_rest
    {fuel fuel' i : Nat}
    (hRest : k ≤ bytes.length)
    (hFuel : bytes.length ≤ fuel + i + k)
    (hFuel' : bytes.length ≤ fuel' + i + k) :
    scanContLoop bytes style fuel' (i + k) =
      shiftStop k (scanContLoop (bytes.drop k) style fuel i) := by
  have hEnd : bytes.length - k + k = bytes.length :=
    Nat.sub_add_cancel hRest
  induction fuel generalizing fuel' i with
  | zero =>
      have hNone : bytes[i + k]? = none := by
        apply List.getElem?_eq_none
        omega
      cases fuel' with
      | zero => simp [scanContLoop, shiftStop, hEnd]
      | succ fuel' => simp [scanContLoop, shiftStop, hEnd, hNone]
  | succ fuel ih =>
      cases fuel' with
      | zero =>
          have hNone : (bytes.drop k)[i]? = none := by
            apply List.getElem?_eq_none
            rw [List.length_drop]
            omega
          simp [scanContLoop, shiftStop, hEnd, hNone]
      | succ fuel' =>
          have hSkip : ∀ n, 0 < n →
              scanContLoop bytes style fuel' (i + k + n) =
                shiftStop k
                  (scanContLoop (bytes.drop k) style fuel (i + n)) := by
            intro n hPos
            rw [Nat.add_right_comm]
            apply ih
            · omega
            · omega
          unfold scanContLoop
          rw [← getElem?_rest]
          cases hByte : (bytes.drop k)[i]? with
          | none => simp [shiftStop, hEnd]
          | some b =>
              have hNext : bytes[i + k + 1]? = (bytes.drop k)[i + 1]? := by
                rw [getElem?_rest, Nat.add_right_comm]
              dsimp only
              rw [hNext, ← singleQuoteEscapeLen_rest]
              split
              · cases hLen : singleQuoteEscapeLen (bytes.drop k) i with
                | none => exact hSkip 1 (by decide)
                | some len =>
                    exact hSkip len (singleQuoteEscapeLen_pos hLen)
              split
              · split
                · exact hSkip 2 (by decide)
                · simp [shiftStop, Nat.add_right_comm]
              split
              · split
                · exact hSkip 2 (by decide)
                · exact hSkip 1 (by decide)
              split
              · rw [closerAt_rest]
                cases hCloser : closerAt (bytes.drop k) style i with
                | none => exact hSkip _ quoteSkip_pos
                | some closer => rfl
              · exact hSkip 1 (by decide)

theorem runLength_rest
    (b : UInt8)
    (i : Nat) :
    runLength b (bytes.drop k) i = runLength b bytes (i + k) := by
  unfold runLength
  rw [List.drop_drop, Nat.add_comm k i]

theorem scanContExtendedLoop_rest
    {n fuel fuel' i : Nat}
    (hRest : k ≤ bytes.length)
    (hFuel : bytes.length ≤ fuel + i + k)
    (hFuel' : bytes.length ≤ fuel' + i + k) :
    scanContExtendedLoop bytes n fuel' (i + k) =
      shiftStop k (scanContExtendedLoop (bytes.drop k) n fuel i) := by
  have hEnd : bytes.length - k + k = bytes.length :=
    Nat.sub_add_cancel hRest
  induction fuel generalizing fuel' i with
  | zero =>
      have hNone : bytes[i + k]? = none := by
        apply List.getElem?_eq_none
        omega
      cases fuel' with
      | zero => simp [scanContExtendedLoop, shiftStop, hEnd]
      | succ fuel' => simp [scanContExtendedLoop, shiftStop, hEnd, hNone]
  | succ fuel ih =>
      cases fuel' with
      | zero =>
          have hNone : (bytes.drop k)[i]? = none := by
            apply List.getElem?_eq_none
            rw [List.length_drop]
            omega
          simp [scanContExtendedLoop, shiftStop, hEnd, hNone]
      | succ fuel' =>
          have hSkip : ∀ m, 0 < m →
              scanContExtendedLoop bytes n fuel' (i + k + m) =
                shiftStop k
                  (scanContExtendedLoop (bytes.drop k) n fuel (i + m)) := by
            intro m hPos
            rw [Nat.add_right_comm]
            apply ih
            · omega
            · omega
          unfold scanContExtendedLoop
          rw [← getElem?_rest]
          cases hByte : (bytes.drop k)[i]? with
          | none => simp [shiftStop, hEnd]
          | some b =>
              have hAt : ∀ j,
                  bytes[i + k + j]? = (bytes.drop k)[i + j]? := by
                intro j
                rw [getElem?_rest, Nat.add_right_comm]
              dsimp only
              rw [hAt 1, hAt 2, ← runLength_rest]
              by_cases hBrace : b = byte '{'
              · have hRun : 0 < runLength (byte '{') (bytes.drop k) i := by
                  rw [hBrace] at hByte
                  exact runLength_pos hByte
                rw [if_pos hBrace, if_pos hBrace]
                split
                · simp [shiftStop, Nat.add_right_comm]
                · exact hSkip _ hRun
              rw [if_neg hBrace, if_neg hBrace]
              split
              · simp [shiftStop, Nat.add_right_comm]
              · exact hSkip 1 (by decide)

/- The scan of a fragment that starts in the rest. -/
theorem scanCont_rest
    (start : Nat)
    (style : InterpStyle)
    (hRest : k ≤ bytes.length) :
    scanCont bytes (start + k) style =
      shiftStop k (scanCont (bytes.drop k) start style) := by
  have hLength : (bytes.drop k).length = bytes.length - k :=
    List.length_drop
  cases style with
  | Extended n =>
      unfold scanCont
      dsimp only
      rw [← runLength_rest, Nat.add_right_comm]
      apply scanContExtendedLoop_rest hRest
      · omega
      · omega
  | _ =>
      unfold scanCont
      dsimp only
      rw [Nat.add_right_comm]
      apply scanContLoop_rest hRest
      · omega
      · omega

end Fragments

------------------------------------------------------------
-- The Wrapper over the Rest
------------------------------------------------------------

/- The lexer `e` reads the rest of the text of `d`, from its byte `k` on. -/
structure Resumes
    (k : Nat)
    (d e : InterpDriver) :
    Prop where
  start : k ≤ d.source.length
  source : e.source = d.source.drop k
  place : d.place = e.place + k
  frames : e.frames = d.frames
  ready : d.Ready
  resumed : e.Ready

/- A token of the rest, as a token of the text. -/
def shiftItem
    (k : Nat)
    (item : Except LexError Token × Span) :
    Except LexError Token × Span :=
  (item.1, item.2.shift k)

namespace InterpDriver

variable {logos : Logos} {d : InterpDriver}

/- What `next` makes of a token of the inner lexer. -/
def wrap
    (d : InterpDriver)
    (tok : Except LexError Token)
    (span : Span) :
    (Except LexError Token × Span) × InterpDriver :=
  match tok, d.frames with
  | .ok (.InterpString kind), _ =>
      match openedStyle kind with
      | some style => ((tok, span), { d with frames := ⟨0, style⟩ :: d.frames })
      | none => ((tok, span), d)
  | .ok .LBrace, top :: below =>
      ((tok, span),
        { d with
          frames := { top with braceDepth := top.braceDepth + 1 } ::
            below })
  | .ok .RBrace, top :: below => d.closeBrace span top below
  | _, _ => ((tok, span), d)

/- The inner lexer, moved to a place. -/
def seek
    (d : InterpDriver)
    (pos : Nat) :
    InterpDriver :=
  { d with inner := { d.inner with pos := pos } }

/- The next token is that of the rest, at the place of the lexer. -/
theorem next_eq
    (hStateless : logos.Stateless)
    (hReady : d.Ready) :
    d.next logos =
      (logos (d.source.drop d.place) 0).map fun raw =>
        (d.seek (raw.2.stop + d.inner.pos)).wrap raw.1
          (raw.2.shift d.place) := by
  have hText : d.inner.text.drop d.inner.pos = d.source.drop d.place := by
    rw [hReady, List.drop_drop]
    rfl
  have hAbs (span : Span) :
      span.shift d.place =
        ⟨span.start + d.inner.pos + d.base,
          span.stop + d.inner.pos + d.base⟩ := by
    unfold Span.shift place
    rw [Nat.add_comm d.base, ← Nat.add_assoc, ← Nat.add_assoc]
  unfold next SpannedIter.next
  rw [hStateless, hText]
  cases logos (d.source.drop d.place) 0 with
  | none => rfl
  | some raw =>
      rw [Option.map_some, Option.map_some, hAbs]
      unfold wrap seek
      rcases raw with ⟨tok, rel⟩
      cases tok with
      | error e => rfl
      | ok token =>
          cases token with
          | InterpString kind =>
              dsimp only
              cases openedStyle kind <;> rfl
          | LBrace => cases d.frames <;> rfl
          | RBrace => cases d.frames <;> rfl
          | _ => rfl

end InterpDriver

namespace Resumes

variable {logos : Logos} {k : Nat} {d e : InterpDriver}

/- A suspended lexer and the one that resumes it. -/
theorem suspended
    (hReady : d.Ready)
    (hPlace : d.place ≤ d.source.length) :
    Resumes d.place d
      (.newWithFrames (d.source.drop d.place) d.frames) :=
  ⟨hPlace, rfl, (Nat.zero_add _).symm, rfl, hReady, rfl⟩

theorem closeBrace
    (hResumes : Resumes k d e)
    (span : Span)
    (top : Frame)
    (below : List Frame) :
    (d.closeBrace (span.shift k) top below).1 =
        shiftItem k (e.closeBrace span top below).1 ∧
      Resumes k (d.closeBrace (span.shift k) top below).2
        (e.closeBrace span top below).2 := by
  rcases hResumes with ⟨hStart, hSource, hPlace, hSame, hReady, hResumed⟩
  have hStays : InterpDriver.staysOpen d.source (span.start + k) top.style =
      InterpDriver.staysOpen e.source span.start top.style := by
    unfold InterpDriver.staysOpen
    rw [hSource]
    cases top.style with
    | Extended n =>
        dsimp only
        rw [runLength_rest]
    | _ => rfl
  have hScan : scanCont d.source (span.start + k) top.style =
      shiftStop k (scanCont e.source span.start top.style) := by
    rw [hSource]
    exact scanCont_rest _ _ hStart
  unfold InterpDriver.closeBrace
  by_cases hDeep : 0 < top.braceDepth
  · rw [if_pos hDeep, if_pos hDeep]
    exact ⟨rfl, hStart, hSource, hPlace, rfl, hReady, hResumed⟩
  rw [if_neg hDeep, if_neg hDeep]
  have hShifted : (span.shift k).start = span.start + k := rfl
  rw [hShifted, hStays]
  by_cases hOpen : InterpDriver.staysOpen e.source span.start top.style = true
  · rw [if_pos hOpen, if_pos hOpen]
    exact ⟨rfl, hStart, hSource, hPlace, hSame, hReady, hResumed⟩
  · rw [if_neg hOpen, if_neg hOpen, hScan]
    exact ⟨rfl, hStart, hSource, rfl, rfl, rfl, rfl⟩

/- What the wrapper makes of a token of the inner lexer. -/
theorem wrap
    (hResumes : Resumes k d e)
    (tok : Except LexError Token)
    (span : Span) :
    (d.wrap tok (span.shift k)).1 = shiftItem k (e.wrap tok span).1 ∧
      Resumes k (d.wrap tok (span.shift k)).2 (e.wrap tok span).2 := by
  have hSame := hResumes.frames
  have hKeeps : ∀ frames, Resumes k { d with frames := frames }
      { e with frames := frames } :=
    fun _ => ⟨hResumes.start, hResumes.source, hResumes.place, rfl,
      hResumes.ready, hResumes.resumed⟩
  unfold InterpDriver.wrap
  rw [hSame]
  split
  · split
    · exact ⟨rfl, hKeeps _⟩
    · exact ⟨rfl, hResumes⟩
  · exact ⟨rfl, hKeeps _⟩
  · exact hResumes.closeBrace span _ _
  · exact ⟨rfl, hResumes⟩

theorem seek
    (hResumes : Resumes k d e)
    (pos : Nat) :
    Resumes k (d.seek (pos + d.inner.pos)) (e.seek (pos + e.inner.pos)) := by
  have hPlace := hResumes.place
  refine ⟨hResumes.start, hResumes.source, ?_, hResumes.frames,
    hResumes.ready, hResumes.resumed⟩
  unfold InterpDriver.place at hPlace ⊢
  dsimp only [InterpDriver.seek]
  omega

/- One token of the text is one token of the rest. -/
theorem next
    (hStateless : logos.Stateless)
    (hResumes : Resumes k d e) :
    (e.next logos = none → d.next logos = none) ∧
      ∀ item e', e.next logos = some (item, e') →
        ∃ d', d.next logos = some (shiftItem k item, d') ∧
          Resumes k d' e' := by
  have hRest : e.source.drop e.place = d.source.drop d.place := by
    rw [hResumes.source, List.drop_drop, hResumes.place, Nat.add_comm]
  rw [InterpDriver.next_eq hStateless hResumes.ready,
    InterpDriver.next_eq hStateless hResumes.resumed, hRest]
  cases logos (d.source.drop d.place) 0 with
  | none => simp
  | some raw =>
      constructor
      · intro hNone
        cases hNone
      · intro item e' hNext
        have hMoved : Resumes k (d.seek (raw.2.stop + d.inner.pos))
            (e.seek (raw.2.stop + e.inner.pos)) :=
          hResumes.seek raw.2.stop
        have hSpan : raw.2.shift d.place = (raw.2.shift e.place).shift k := by
          rw [hResumes.place]
          simp [Span.shift, Nat.add_assoc]
        have hStep := hMoved.wrap raw.1 (raw.2.shift e.place)
        rw [Option.map_some, Option.some.injEq] at hNext
        rw [hNext, ← hSpan] at hStep
        refine ⟨_, ?_, hStep.2⟩
        rw [Option.map_some, ← hStep.1]

end Resumes

namespace InterpDriver

/- The next `n` tokens, if the text has as many. -/
def read
    (logos : Logos) :
    Nat → InterpDriver →
      List (Except LexError Token × Span) × InterpDriver
  | 0, d => ([], d)
  | n + 1, d =>
      match d.next logos with
      | none => ([], d)
      | some (item, d') => (item :: (read logos n d').1, (read logos n d').2)

variable {logos : Logos} {d : InterpDriver}

theorem read_of_none
    (hNext : d.next logos = none)
    (n : Nat) :
    d.read logos n = ([], d) := by
  cases n with
  | zero => rfl
  | succ n => simp [read, hNext]

theorem read_of_some
    {item : Except LexError Token × Span}
    {d' : InterpDriver}
    (hNext : d.next logos = some (item, d'))
    (n : Nat) :
    d.read logos (n + 1) =
      (item :: (d'.read logos n).1, (d'.read logos n).2) := by
  simp [read, hNext]

theorem read_add
    (n m : Nat) :
    d.read logos (n + m) =
      ((d.read logos n).1 ++ ((d.read logos n).2.read logos m).1,
        ((d.read logos n).2.read logos m).2) := by
  induction n generalizing d with
  | zero => simp [read]
  | succ n ih =>
      cases hNext : d.next logos with
      | none => simp [read_of_none hNext]
      | some step =>
          rw [Nat.add_right_comm, read_of_some hNext, read_of_some hNext, ih]
          rfl

theorem next_of_end
    (hTiles : logos.Tiles)
    (hReady : d.Ready)
    (hEnd : d.source.length ≤ d.place) :
    d.next logos = none := by
  have hInner : d.inner.text.length ≤ d.inner.pos := by
    unfold place at hEnd
    rw [hReady, List.length_drop]
    omega
  unfold next SpannedIter.next
  rw [hTiles.last _ _ hInner]

/- The lexer stops at the end of its text only. -/
theorem next_eq_none_iff
    (hTiles : logos.Tiles)
    (hReady : d.Ready)
    (hPlace : d.place ≤ d.source.length) :
    d.next logos = none ↔ d.place = d.source.length := by
  constructor
  · intro hNone
    by_contra hNe
    have hMore := Nat.lt_of_le_of_ne hPlace hNe
    rcases next_steps hTiles hReady hMore with ⟨tok, span, d', hStep, -⟩
    rw [hNone] at hStep
    cases hStep
  · intro hEnd
    exact next_of_end hTiles hReady (Nat.le_of_eq hEnd.symm)

/- The tokens that are read tile the text up to the lexer's place. -/
theorem read_tiles
    (hTiles : logos.Tiles)
    (n : Nat)
    (hReady : d.Ready)
    (hPlace : d.place ≤ d.source.length) :
    Tiles (fun item => item.2.start) (fun item => item.2.stop) d.place
        (d.read logos n).1 (d.read logos n).2.place ∧
      (d.read logos n).2.Ready ∧
      (d.read logos n).2.source = d.source ∧
      (d.read logos n).2.place ≤ d.source.length := by
  induction n generalizing d with
  | zero => exact ⟨rfl, hReady, rfl, hPlace⟩
  | succ n ih =>
      cases hNext : d.next logos with
      | none =>
          rw [read_of_none hNext]
          exact ⟨rfl, hReady, rfl, hPlace⟩
      | some step =>
          rcases step with ⟨item, d'⟩
          rw [read_of_some hNext]
          have hMore : d.place < d.source.length := by
            by_contra hEnd
            rw [next_of_end hTiles hReady (Nat.le_of_not_lt hEnd)] at hNext
            cases hNext
          rcases next_steps hTiles hReady hMore with
            ⟨tok, span, d'', hStep, hSteps⟩
          rw [hNext] at hStep
          cases hStep
          have hLe : d'.place ≤ d'.source.length := by
            rw [hSteps.place, hSteps.source]
            exact hSteps.stop
          have hAdvance : d.place < span.stop := by
            rw [← hSteps.start]
            exact hSteps.nonempty
          have hRun := ih hSteps.ready hLe
          rw [hSteps.place, hSteps.source] at hRun
          exact ⟨⟨hSteps.start, hAdvance, hRun.1⟩, hRun.2⟩

end InterpDriver

/- A run over the text is a run over the rest. -/
theorem Resumes.read
    {k : Nat}
    {d e : InterpDriver}
    (hStateless : logos.Stateless)
    (hResumes : Resumes k d e)
    (m : Nat) :
    (d.read logos m).1 = (e.read logos m).1.map (shiftItem k) ∧
      Resumes k (d.read logos m).2 (e.read logos m).2 := by
  induction m generalizing d e with
  | zero => exact ⟨rfl, hResumes⟩
  | succ m ih =>
      rcases hResumes.next hStateless with ⟨hNone, hSome⟩
      cases hNext : e.next logos with
      | none =>
          rw [InterpDriver.read_of_none hNext,
            InterpDriver.read_of_none (hNone hNext)]
          exact ⟨rfl, hResumes⟩
      | some step =>
          rcases hSome step.1 step.2 hNext with ⟨d', hStep, hAfter⟩
          rw [InterpDriver.read_of_some hNext,
            InterpDriver.read_of_some hStep]
          rcases ih hAfter with ⟨hTokens, hEnd⟩
          refine ⟨?_, hEnd⟩
          dsimp only
          rw [hTokens, List.map_cons]

/-
  Lexing may be suspended at every token boundary: the lexer of the
  rest, with the frames of that boundary, yields the tokens to come.
-/
theorem interp_resumes_at_boundary
    (logos : Logos)
    (hTiles : logos.Tiles)
    (hStateless : logos.Stateless)
    (source : List UInt8)
    (frames : List Frame)
    (n m : Nat) :
    let start := InterpDriver.newWithFrames source frames
    let d := (start.read logos n).2
    let resumed := InterpDriver.newWithFrames (source.drop d.place) d.frames
    let whole := start.read logos (n + m)
    let rest := resumed.read logos m
    whole.1 = (start.read logos n).1 ++ rest.1.map (shiftItem d.place) ∧
      whole.2.place = rest.2.place + d.place ∧
      whole.2.frames = rest.2.frames ∧
      (whole.2.next logos = none ↔ rest.2.next logos = none) ∧
      Tiles (fun item => item.2.start) (fun item => item.2.stop) 0 whole.1
        whole.2.place ∧
      (whole.2.next logos = none ↔ whole.2.place = source.length) := by
  intro start d resumed whole rest
  have hStart := start.read_tiles hTiles n rfl (Nat.zero_le _)
  have hWhole := start.read_tiles hTiles (n + m) rfl (Nat.zero_le _)
  rcases hStart with ⟨-, hReady, hSource, hPlace⟩
  have hResumes : Resumes d.place d resumed := by
    have hSuspended := Resumes.suspended hReady (hSource.symm ▸ hPlace)
    rw [hSource] at hSuspended
    exact hSuspended
  rcases hResumes.read hStateless m with ⟨hTokens, hEnd⟩
  have hAdd : whole = ((start.read logos n).1 ++ (d.read logos m).1,
      (d.read logos m).2) := InterpDriver.read_add n m
  have hState : whole.2 = (d.read logos m).2 := by rw [hAdd]
  rw [← hState] at hEnd
  have hStops : whole.2.next logos = none ↔ rest.2.next logos = none := by
    rcases hEnd.next hStateless with ⟨hNone, hSome⟩
    constructor
    · intro hWholeNone
      cases hRest : rest.2.next logos with
      | none => rfl
      | some step =>
          rcases hSome step.1 step.2 hRest with ⟨d', hStep, -⟩
          rw [hWholeNone] at hStep
          cases hStep
    · exact hNone
  have hLast := InterpDriver.next_eq_none_iff hTiles hWhole.2.1
    (hWhole.2.2.1.symm ▸ hWhole.2.2.2)
  rw [hWhole.2.2.1] at hLast
  refine ⟨?_, hEnd.place, hEnd.frames.symm, hStops, hWhole.1, hLast⟩
  rw [hAdd, hTokens]

/- A lexer of fills with names of one letter. -/
def fills : Logos :=
  fun text pos =>
    match text.drop pos with
    | [] => none
    | b :: rest =>
        if (ascii "$\x22\x7b").isPrefixOf (b :: rest) then
          some (.ok (.InterpString .Begin), ⟨pos, pos + 3⟩)
        else
          let token : Except LexError Token :=
            if b = byte '{' then
              .ok .LBrace
            else if b = byte '}' then
              .ok .RBrace
            else if byte 'a' ≤ b ∧ b ≤ byte 'z' then
              .ok (.Ident [Char.ofNat b.toNat])
            else
              .error .Unknown
          some (token, ⟨pos, pos + 1⟩)

theorem fills_stateless : fills.Stateless := by
  intro text pos
  unfold fills
  rw [List.drop_zero]
  cases text.drop pos with
  | nil => rfl
  | cons b rest =>
      dsimp only
      split
      · simp [Span.shift, Nat.add_comm pos]
      · simp [Span.shift, Nat.add_comm pos]

theorem fills_tiles : fills.Tiles where
  more := by
    intro text pos hLt
    unfold fills
    rw [List.drop_eq_getElem_cons hLt]
    dsimp only
    split
    · next hBegin =>
        have hLength := (List.isPrefixOf_iff_prefix.1 hBegin).length_le
        rw [← List.drop_eq_getElem_cons hLt, List.length_drop] at hLength
        have hThree : (ascii "$\x22\x7b").length = 3 := rfl
        refine ⟨_, pos + 3, rfl, ?_, ?_⟩ <;> omega
    · exact ⟨_, pos + 1, rfl, Nat.lt_succ_self pos, hLt⟩
  last := by
    intro text pos hLe
    unfold fills
    rw [List.drop_eq_nil_of_le hLe]

/- `$"{a}b"`, suspended in front of the closing brace. -/
theorem interp_resumes_at_boundary_fill :
    let start := InterpDriver.newWithFrames (ascii "$\x22\x7ba\x7db\x22") []
    let d := (start.read fills 2).2
    let resumed := InterpDriver.newWithFrames
      ((ascii "$\x22\x7ba\x7db\x22").drop d.place) d.frames
    (start.read fills 3).1 = (start.read fills 2).1 ++
        (resumed.read fills 1).1.map (shiftItem d.place) ∧
      (resumed.read fills 1).1 =
        [(.ok (.InterpString (.End false)), ⟨0, 3⟩)] := by
  constructor
  · exact (interp_resumes_at_boundary fills fills_tiles fills_stateless
      (ascii "$\x22\x7ba\x7db\x22") [] 2 1).1
  · decide

end Lexer

namespace Directives

open Lexer

/- Restarting the lexer at the driver's place changes no token. -/
theorem nextLogosToken_relex
    {d : DriverCore}
    {state : LexerState}
    (hStateless : logos.Stateless)
    (hLexer : d.lexer = some state)
    (hSynced : Synced d.source state)
    (hPos : state.nextPos = d.pos)
    (hWithin : d.pos ≤ d.source.length) :
    (d.invalidateLexer.nextLogosToken logos).1 =
      (d.nextLogosToken logos).1 := by
  have hPlace := hSynced.place
  rw [hPos] at hPlace
  have hInside : state.iter.place ≤ state.iter.source.length := by
    rw [hSynced.source, List.length_drop]
    omega
  have hRest : state.iter.source.drop state.iter.place =
      d.source.drop d.pos := by
    rw [hSynced.source, List.drop_drop, hPlace]
  have hResumes := Resumes.suspended hSynced.ready hInside
  rw [hRest] at hResumes
  rcases hResumes.next hStateless with ⟨hNone, hSome⟩
  have hFresh : d.freshLexer = (state, d) := by
    unfold DriverCore.freshLexer
    rw [hLexer]
    exact if_pos hPos
  have hInvalid : d.invalidateLexer =
      { d with pendingInterpFrames := state.iter.frames, lexer := none } := by
    unfold DriverCore.invalidateLexer
    rw [hLexer]
  unfold DriverCore.nextLogosToken
  rw [hFresh, hInvalid]
  dsimp only [DriverCore.freshLexer]
  cases hNext : (InterpDriver.newWithFrames (d.source.drop d.pos)
      state.iter.frames).next logos with
  | none => rw [hNone hNext]
  | some step =>
      rcases step with ⟨⟨tok, rel⟩, iter⟩
      rcases hSome _ _ hNext with ⟨iter', hStep, -⟩
      rw [hStep]
      dsimp only [shiftItem, Span.shift]
      rw [Nat.add_assoc, Nat.add_assoc, Nat.add_comm state.iter.place, hPlace]

/- A lexer that the driver keeps stands at the driver's place. -/
def Aligned
    (d : DriverCore) :
    Prop :=
  ∀ state, d.lexer = some state → state.nextPos = d.pos

section Runs

variable {logos : Logos} {d : DriverCore}

theorem aligned_of_none
    (hNone : d.lexer = none) :
    Aligned d := by
  intro state hSome
  rw [hNone] at hSome
  cases hSome

theorem aligned_invalidated
    (d : DriverCore) :
    Aligned d.invalidateLexer := by
  apply aligned_of_none
  unfold DriverCore.invalidateLexer
  cases hLexer : d.lexer with
  | none => exact hLexer
  | some state => rfl

/- Every directive ends with a jump behind it. -/
theorem aligned_directive
    (d : DriverCore)
    (result : Except DirectiveError Recognised) :
    Aligned (d.handleDirectiveResult result) := by
  unfold DriverCore.handleDirectiveResult
  cases result with
  | error e => exact aligned_invalidated _
  | ok r =>
      dsimp only
      cases r.directive.kind with
      | some kind => exact aligned_invalidated _
      | none =>
          dsimp only
          unfold DriverCore.handleTrivia
          split
          · exact aligned_invalidated _
          · exact aligned_invalidated _

theorem freshLexer_aligned
    (d : DriverCore) :
    d.freshLexer.1.nextPos = d.pos ∧ d.freshLexer.2.pos = d.pos := by
  unfold DriverCore.freshLexer
  dsimp only
  split
  · exact ⟨rfl, rfl⟩
  · split
    · next hPos => exact ⟨hPos, rfl⟩
    · exact ⟨rfl, rfl⟩

theorem aligned_lexHere
    (logos : Logos)
    (d : DriverCore) :
    Aligned (d.lexHere logos).2 := by
  rcases freshLexer_aligned d with ⟨hNext, hPos⟩
  unfold DriverCore.lexHere DriverCore.nextLogosToken
  generalize d.freshLexer = fresh at hNext hPos ⊢
  rcases fresh with ⟨state, d₁⟩
  dsimp only at hNext hPos ⊢
  cases state.iter.next logos with
  | none =>
      intro state' hSome
      cases hSome
      exact hNext.trans hPos.symm
  | some step =>
      rcases step with ⟨⟨tok, rel⟩, iter⟩
      dsimp only
      split
      · intro state' hSome
        rw [(DriverCore.cover_fields _).1]
        rw [(DriverCore.cover_fields _).2.2.1] at hSome
        cases hSome
        rfl
      · intro state' hSome
        cases hSome
        rfl

theorem Aligned.iterate
    (hAligned : Aligned d) :
    Aligned (d.iterate logos).2 := by
  unfold DriverCore.iterate
  split
  · exact hAligned
  · unfold DriverCore.work
    split
    · exact aligned_directive d _
    · split
      · split
        · exact hAligned
        · intro state hSome
          have hSame := @DriverCore.fillInactiveGap_fields
            { d with eofDone := true } d.source.length
          change (DriverCore.fillInactiveGap _ _).lexer = _ at hSome
          rw [hSame.2.2.1] at hSome
          exact (hAligned state hSome).trans hSame.1.symm
      · split
        · exact aligned_lexHere logos d
        · exact aligned_invalidated _

/-
  In every state of a run the lexer can be given up: restarted at the
  driver's place, with the frames that were kept of it, it yields the
  token that it would have yielded.
-/
theorem restart_changes_no_token
    {source : List UInt8}
    {symbols : List UInt8 → Bool}
    {c : Config}
    (hTiles : logos.Tiles)
    (hStateless : logos.Stateless)
    (hReach : (driverMachine logos).Reaches
      (.initial source symbols true) c) :
    (c.core.invalidateLexer.nextLogosToken logos).1 =
      (c.core.nextLogosToken logos).1 := by
  have hStep : ∀ s t, Covered s ∧ Aligned s.core →
      (driverMachine logos).done s = false →
      (driverMachine logos).step s = .ok t → Covered t ∧ Aligned t.core := by
    rintro s t ⟨hCovered, hAligned⟩ hMore hNext
    cases hNext
    refine ⟨(hCovered.step hTiles hMore).1, ?_⟩
    have hCore : (s.after (s.core.iterate logos)).core =
        (s.core.iterate logos).2 := by
      unfold Config.after
      split
      · next hTurn => rw [hTurn]
      · next hTurn => rw [hTurn]
      · next hTurn => rw [hTurn]
    rw [hCore]
    exact hAligned.iterate
  have hInv := Program.Machine.reaches_invariant hStep hReach
    ⟨Covered.initial source symbols, aligned_of_none rfl⟩
  rcases hInv with ⟨hCovered, hAligned⟩
  cases hLexer : c.core.lexer with
  | none =>
      unfold DriverCore.invalidateLexer
      rw [hLexer]
  | some state =>
      exact nextLogosToken_relex hStateless hLexer
        (hCovered.placed.lexer state hLexer) (hAligned state hLexer)
        hCovered.placed.within

/- `$"{a}"`, behind the opening of the fill. -/
theorem restart_changes_no_token_fill :
    let start := Config.initial (ascii "$\x22\x7ba\x7d\x22")
      (fun _ => false) true
    let c := start.after (start.core.iterate fills)
    c.core.pos = 3 ∧
      (c.core.invalidateLexer.nextLogosToken fills).1 =
        (c.core.nextLogosToken fills).1 := by
  refine ⟨by decide, ?_⟩
  exact restart_changes_no_token fills_tiles fills_stateless
    (.tail (.refl _) rfl rfl)

end Runs

end Directives

end Borzoi
