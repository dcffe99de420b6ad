import Borzoi.LexFilter.Refinement.Decisions

/-
  Lookahead puts back what it took.

  Looking for a long identifier leaves the pending tokens alone.  A
  scan for a type application may cut the tokens it crossed.
-/

namespace Borzoi

namespace LexFilter

open Lexer
open FilterM

section Lookahead

variable {trusted : Prop} {bounded : Pos → Prop} {t : Abs} {tt : TokenTup}

/- No pending token is marked to pass through. -/
def Unmarked
    (pending : List Delayed) :
    Prop :=
  ∀ d ∈ pending, d.passThrough = false

variable {u : Abs} {indentation res : Bool}
variable {stack taken : List (TokenTup × Bool)} {text : List Char}
variable {base pending rest : List Delayed} {count fuel : Nat}
variable {content : TokenContent} {entry : TokenTup × Bool} {scan : TyparScan}
variable {Q : Unit → Abs → Prop}

theorem Unmarked.head
    {d : Delayed}
    (hUnmarked : Unmarked (d :: rest)) :
    d = fresh d.tup := by
  have hMark := hUnmarked d List.mem_cons_self
  cases d
  simp only at hMark
  rw [hMark]
  rfl

theorem Unmarked.tail
    {d : Delayed}
    {rest : List Delayed}
    (hUnmarked : Unmarked (d :: rest)) :
    Unmarked rest :=
  fun d' hMem => hUnmarked d' (List.mem_cons_of_mem _ hMem)

/- The loop puts every token back. -/
theorem wp_isLongIdentEqualsLoop
    {Q : Bool → Abs → Prop}
    (hFuel : t.pending.length < fuel)
    (hUnmarked : Unmarked t.pending)
    (hPost : ∀ b u, t.Frames u → u.pending = t.pending → Q b u) :
    wp trusted bounded (isLongIdentEqualsLoop fuel) Q t := by
  induction fuel generalizing t Q with
  | zero =>
      omega
  | succ fuel ih =>
      rw [isLongIdentEqualsLoop, wp_bind]
      refine wp_take ?_ ?_
      · intro hEmpty u hFrame hPending
        exact hPost _ u hFrame (hPending.trans hEmpty.symm)
      · intro d rest hPending u hFrame hRest hGood hFenced
        rw [hPending] at hUnmarked hFuel hPost
        -- putting the token back at once
        have hBack : ∀ b, wp trusted bounded
            (do delayToken d.tup; return b) Q u := by
          intro b
          rw [wp_bind, wp_delayToken]
          refine ⟨hGood, hFenced, hPost b _
            (hFrame.trans (.delay u _)) ?_⟩
          rw [Abs.delay, hRest, hUnmarked.head]
          rfl
        dsimp only
        split
        · exact hBack true
        · split
          · next hDot =>
              have hDotNe : d.tup.token ≠ .Real .SemiSemi := by
                rw [hDot]
                simp
              rw [wp_bind]
              refine wp_take ?_ ?_
              · intro hEmpty w hFrame' hPending'
                rw [wp_bind, wp_delayToken]
                refine ⟨hGood.mono hFrame'.known, .of_ne hDotNe,
                  hPost _ _ ((hFrame.trans hFrame').trans
                    (.delay w _)) ?_⟩
                rw [Abs.delay, hPending', ← hEmpty, hRest,
                  hUnmarked.head]
                rfl
              · intro d' rest' hPending' w hFrame' hRest' hGood'
                  hFenced'
                rw [hRest] at hPending'
                rw [hPending'] at hUnmarked hFuel hPost
                -- the rest of the loop, from any state that kept
                -- what follows the two tokens
                have hEnd : ∀ b x, w.Frames x → x.pending = rest' →
                    x.Fenced d'.tup →
                    wp trusted bounded (do
                      delayToken d'.tup
                      delayToken d.tup
                      return b) Q x := by
                  intro b x hFrame'' hPending'' hFenced''
                  rw [wp_bind, wp_delayToken, wp_bind, wp_delayToken]
                  refine ⟨hGood'.mono hFrame''.known, hFenced'',
                    (hGood.mono hFrame'.known).mono hFrame''.known,
                    .of_ne hDotNe, hPost b _ (((hFrame.trans
                      hFrame').trans hFrame'').trans ((Abs.Frames.delay
                        x _).trans (.delay _ _))) ?_⟩
                  simp only [Abs.delay, hPending'']
                  rw [hUnmarked.head, hUnmarked.tail.head]
                  rfl
                dsimp only
                split
                · next hIdent =>
                    rw [wp_bind]
                    refine ih ?_ ?_ ?_
                    · rw [hRest']
                      simp only [List.length_cons] at hFuel
                      omega
                    · rw [hRest']
                      exact hUnmarked.tail.tail
                    · intro b x hFrame'' hPending''
                      exact hEnd b x hFrame'' (hPending''.trans hRest')
                        (.of_ne (TokenContent.ne_semiSemi_of_isIdent
                          hIdent))
                · exact hEnd false w (.refl w) hRest' hFenced'
          · exact hBack false

theorem wp_isLongIdentEquals
    {Q : Bool → Abs → Prop}
    (hUnmarked : Unmarked t.pending)
    (hSame : Q false t)
    (hPost : content ≠ .Real .SemiSemi → ∀ b u, t.Frames u →
      u.pending = t.pending → Q b u) :
    wp trusted bounded (isLongIdentEquals content) Q t := by
  unfold isLongIdentEquals
  split
  · next hStart =>
      have hToken : content ≠ .Real .SemiSemi := by
        rintro rfl
        simp [TokenContent.isIdent] at hStart
      rw [wp_bind, wp_core, coreContract]
      intro n hn
      exact wp_isLongIdentEqualsLoop hn hUnmarked (hPost hToken)
  · exact hSame

------------------------------------------------------------
-- Cutting Tokens
------------------------------------------------------------

/- The tail of a closing operator covers what follows its `>`s. -/
theorem typarsCloseTail_spec
    {after : List Char}
    {tail : Token}
    (hTail : typarsCloseTail after = some (some tail)) :
    (∀ k, cutLength tail = some k → k = after.length) ∧
      (∀ text, tail ≠ .IntDotDot text) ∧ tail ≠ .SemiSemi := by
  unfold typarsCloseTail at hTail
  split at hTail
  case h_15 =>
    split at hTail
    · cases hTail
      simp [cutLength]
    · cases hTail
  all_goals
    cases hTail <;> simp [cutLength]

/- A closing operator is made of its `>`s and its tail. -/
theorem typarsCloseOpSplit_tail
    {tail : Option Token}
    (hSplit : typarsCloseOpSplit text = some ⟨count, tail⟩) :
    1 ≤ count ∧ count ≤ text.length ∧
      typarsCloseTail (text.drop count) = some tail := by
  unfold typarsCloseOpSplit at hSplit
  split at hSplit
  · next hHead =>
      dsimp only at hSplit
      split at hSplit
      · next tail' hTail =>
          simp only [Option.some.injEq, TyparsCloseSplit.mk.injEq]
            at hSplit
          rcases hSplit with ⟨hCount, rfl⟩
          rw [hCount] at hTail
          refine ⟨?_, ?_, hTail⟩
          · rw [← hCount]
            cases text with
            | nil =>
                cases hHead
            | cons first rest =>
                cases hHead
                exact Nat.succ_le_succ (Nat.zero_le _)
          · rw [← hCount]
            exact (List.takeWhile_sublist _).length_le
      · cases hSplit
  · cases hSplit

/- A closing operator is at least as long as its `>`s. -/
theorem typarsCloseOpSplit_spec
    {tail : Option Token}
    (hSplit : typarsCloseOpSplit text = some ⟨count, tail⟩) :
    count ≤ text.length ∧
      ∀ token, tail = some token →
        (∀ k, cutLength token = some k → k = text.length - count) ∧
          (∀ text', token ≠ .IntDotDot text') ∧
          token ≠ .SemiSemi := by
  rcases typarsCloseOpSplit_tail hSplit with ⟨-, hCount, hTail⟩
  refine ⟨hCount, ?_⟩
  rintro token rfl
  have hSpec := typarsCloseTail_spec hTail
  rwa [List.length_drop] at hSpec

section

variable (hGood : t.GoodTok trusted bounded tt)

include hGood

/- The `>`s of a closing operator are good tokens. -/
theorem greaterTup_good
    {i : Nat}
    (hToken : tt.token = .Real (.Op text))
    (hi : i < text.length) :
    t.GoodTok trusted bounded (greaterTup tt res i) := by
  refine hGood.piece i (i + 1) hToken rfl (.inl rfl) (.inl rfl) ?_ ?_ ?_
  · intro _ _
    exact ⟨rfl, rfl, rfl, Nat.le_succ i, hi⟩
  · intro token' m hToken' hCut'
    cases hToken'
    cases hCut'
  · intro text' hText
    cases hText

theorem wp_delayGreaters
    (hToken : tt.token = .Real (.Op text))
    (hCount : count ≤ text.length)
    (hPost : ∀ u, t.Frames u →
      u.pending = (greaters tt res count).map fresh ++ t.pending →
      Q () u) :
    wp trusted bounded (delayGreaters tt res count) Q t := by
  induction count generalizing t with
  | zero =>
      exact hPost t (.refl t) rfl
  | succ count ih =>
      rw [delayGreaters, wp_bind, wp_delayToken]
      refine ⟨greaterTup_good hGood hToken hCount,
        .of_ne (fun h => by cases h), ?_⟩
      refine ih (hGood.mono fun _ => id) (by omega) ?_
      intro u hFrame hPending
      refine hPost u ((Abs.Frames.delay t _).trans hFrame) ?_
      rw [hPending]
      simp [greaters, List.range_succ, Abs.delay, fresh]

/- A pair is put back as its halves. -/
theorem wp_delayPairSplitAt1
    {token head tail : Token}
    (hToken : tt.token = .Real token)
    (hPair : PairCut res token head tail)
    (hPost : 1 ≤ tt.stop.col → ∀ u, t.Frames u →
      u.pending = fresh (pairHead tt head) ::
        fresh (pairTail tt tail) :: t.pending →
      Q () u) :
    wp trusted bounded (delayPairSplitAt1 tt head tail) Q t := by
  have hKind : cutLength token = some 2 ∧ cutLength head = none ∧
      head ≠ .SemiSemi ∧ tail ≠ .SemiSemi ∧
      (∀ k, cutLength tail = some k → k = 1) ∧
      ∀ text, tail ≠ .IntDotDot text := by
    cases hPair <;> simp [cutLength]
  rcases hKind with ⟨hCut, hHead, hHeadNe, hTailNe, hTail, hDigits⟩
  have hOne : 1 ≤ 2 := by decide
  simp only [delayPairSplitAt1, wp_bind, wp_delayToken, wp_sub]
  refine ⟨hGood.after hToken hCut hOne hTail hDigits, .of_ne ?_, ?_, ?_⟩
  · intro hSemi
    cases hSemi
    exact hTailNe rfl
  · intro hCol
    refine ⟨?_, .of_ne ?_, hPost hCol _
      ((Abs.Frames.delay t _).trans (.delay _ _)) rfl⟩
    · refine Abs.GoodTok.mono (u := t.delay _) ?_ (fun _ => id)
      refine hGood.piece 0 1 hToken hCut (.inl rfl) (.inr rfl)
        ?_ ?_ ?_
      · intro hEnd hSpan
        rw [hEnd]
        exact ⟨rfl, rfl, rfl, Nat.zero_le 1, hOne⟩
      · intro token' m hToken' hCut'
        cases hToken'
        rw [hHead] at hCut'
        cases hCut'
      · intro text hText
        cases hText
        cases hHead
    · intro hSemi
      cases hSemi
      exact hHeadNe rfl
  · exact fun hTrusted => (hGood.room hToken hCut hOne hTrusted).2

/- The tail of a closing operator, plain or fused. -/
theorem wp_closeTail
    {Q : TokenTup → Abs → Prop}
    {tail : Token}
    (hToken : tt.token = .Real (.Op text))
    (hSplit : typarsCloseOpSplit text = some ⟨count, some tail⟩)
    (hPlain : ∀ u, t.Frames u → u.pending = t.pending →
      u.GoodTok trusted bounded (closePlain tt count tail) →
      Q (closePlain tt count tail) u)
    (hFused : ∀ d rest, t.pending = d :: rest →
      Fused tt d.tup text count → tailIsPipe tt.token = true →
      ∀ u, t.Frames u → u.pending = rest →
      u.GoodTok trusted bounded (closeFused tt d.tup count) →
      Q (closeFused tt d.tup count) u) :
    wp trusted bounded (closeTail tt count tail) Q t := by
  rcases typarsCloseOpSplit_spec hSplit with ⟨hCount, hTail⟩
  rcases hTail tail rfl with ⟨hLength, hDigits, -⟩
  have hPlainGood : t.GoodTok trusted bounded
      (closePlain tt count tail) :=
    hGood.after hToken rfl hCount hLength hDigits
  unfold closeTail
  dsimp only
  split
  · next hPipe =>
      rw [hPipe] at hSplit
      rw [wp_bind]
      refine wp_look ?_
      intro u hFrame hPending hNext
      -- where the closer does not touch, the tail stays plain
      have hPlain' : wp trusted bounded
          (pure (closePlain tt count tail)) Q u :=
        hPlain u hFrame hPending (hPlainGood.mono hFrame.known)
      unfold Abs.next at hNext ⊢
      cases hShape : t.pending with
      | nil =>
          exact hPlain'
      | cons d rest =>
          dsimp only [List.head?_cons, Option.map_some]
          split
          · next hTouches =>
              rw [wp_bind]
              refine wp_take ?_ ?_
              · intro hEmpty
                rw [hPending, hShape] at hEmpty
                cases hEmpty
              · intro d' rest' hPending' w hFrame' hRest hGood' _
                rw [hPending, hShape] at hPending'
                cases hPending'
                simp only [wp_bind, wp_expect_some]
                refine hFused d rest hShape
                  ⟨hToken, hSplit, hTouches.1, hTouches.2⟩ ?_ w
                  (hFrame.trans hFrame') hRest ?_
                · simp [tailIsPipe, hToken, hSplit]
                · refine .uncut ?_ hGood'.stopPos ?_
                  · exact ((hPlainGood.mono hFrame.known).mono
                      hFrame'.known).startPos
                  · intro token hFusedToken
                    simp only [closeFused, TokenContent.Real.injEq]
                      at hFusedToken
                    rw [← hFusedToken]
                    unfold fusedCloser
                    split <;> rfl
          · exact hPlain'
  · exact hPlain t (.refl t) rfl hPlainGood

/- A closing operator is put back as its pieces. -/
theorem wp_smashCloseOp
    {split : TyparsCloseSplit}
    (hToken : tt.token = .Real (.Op text))
    (hSplit : typarsCloseOpSplit text = some split)
    (hBase : Recut res base t.pending)
    (hPipe : tailIsPipe tt.token = true → base = t.pending)
    (hPost : ∀ u, t.Frames u →
      Recut res (fresh tt :: base) u.pending → Q () u) :
    wp trusted bounded (smashCloseOp tt split res) Q t := by
  rcases split with ⟨count, tail⟩
  rcases typarsCloseOpSplit_spec hSplit with ⟨hCount, hTail⟩
  unfold smashCloseOp
  cases tail with
  | none =>
      refine wp_delayGreaters hGood hToken hCount ?_
      intro u hFrame hPending
      refine hPost u hFrame ?_
      rw [hPending]
      exact .cut (.close hToken hSplit) hBase
  | some tail =>
      simp only [wp_bind]
      refine wp_closeTail hGood hToken hSplit ?_ ?_
      · intro u hFrame hPending hPiece
        rw [wp_delayToken]
        refine ⟨hPiece, .of_ne ?_, ?_⟩
        · intro hSemi
          cases hSemi
          exact (hTail _ rfl).2.2 rfl
        · refine wp_delayGreaters ((hGood.mono hFrame.known).mono
            fun _ => id) hToken hCount ?_
          intro w hFrame' hPending'
          refine hPost w ((hFrame.trans (.delay u _)).trans hFrame') ?_
          have hShape : w.pending = (greaters tt res count ++
              [closePlain tt count tail]).map fresh ++ t.pending := by
            rw [hPending', Abs.delay, hPending]
            simp [fresh]
          rw [hShape]
          exact .cut (.closeTail hToken hSplit) hBase
      · intro d rest hPending hFused hIsPipe u hFrame hRest hPiece
        rw [wp_delayToken]
        refine ⟨hPiece, .of_ne ?_, ?_⟩
        · intro hSemi
          simp only [closeFused, TokenContent.Real.injEq,
            fusedCloser] at hSemi
          split at hSemi <;> cases hSemi
        · refine wp_delayGreaters ((hGood.mono hFrame.known).mono
            fun _ => id) hToken hCount ?_
          intro w hFrame' hPending'
          refine hPost w ((hFrame.trans (.delay u _)).trans hFrame') ?_
          have hShape : w.pending = (greaters tt res count ++
              [closeFused tt d.tup count]).map fresh ++ rest := by
            rw [hPending', Abs.delay, hRest]
            simp [fresh]
          rw [hShape, hPipe hIsPipe, hPending]
          exact .fuse hFused (.refl rest)

/- How the scan puts back one token. -/
theorem wp_smashTyparToken
    (hFenced : t.Fenced tt)
    (hBase : Recut res base t.pending)
    (hPipe : tailIsPipe tt.token = true → base = t.pending)
    (hPost : ∀ u, t.Frames u →
      Recut res (fresh tt :: base) u.pending → Q () u) :
    wp trusted bounded (smashTyparToken tt res) Q t := by
  -- the two common ways back: as it is, and as a pair
  have hKeep : wp trusted bounded (delayToken tt) Q t := by
    rw [wp_delayToken]
    exact ⟨hGood, hFenced, hPost _ (.delay t _) (.cut .keep hBase)⟩
  have hPair : ∀ {token head tail : Token},
      tt.token = .Real token → PairCut res token head tail →
      wp trusted bounded (delayPairSplitAt1 tt head tail) Q t := by
    intro token head tail hToken hCut
    refine wp_delayPairSplitAt1 hGood hToken hCut ?_
    intro hCol u hFrame hPending
    refine hPost u hFrame ?_
    rw [hPending]
    exact .cut (.pair hToken hCut hCol) hBase
  unfold smashTyparToken
  split
  · next hToken =>
      exact hPair hToken .quote
  · next hToken =>
      exact hPair hToken .attribute
  · next flag hToken =>
      rw [wp_delayToken]
      refine ⟨.uncut hGood.startPos hGood.stopPos ?_,
        .of_ne (fun h => by cases h), hPost _ (.delay t _)
          (.cut (.greater hToken) hBase)⟩
      intro token hGreater
      cases hGreater
      rfl
  · next text hToken =>
      split
      · next hText =>
          rw [hText] at hToken
          exact hPair hToken .lessSlash
      · split
        · next hText =>
            rw [hText] at hToken
            exact hPair hToken .lessHat
        · split
          · next hText =>
              rw [hText] at hToken
              exact hPair hToken .greaterColon
          · split
            · exact hKeep
            · next split hSplit =>
                exact wp_smashCloseOp hGood hToken hSplit hBase hPipe
                  hPost
  · exact hKeep

end

------------------------------------------------------------
-- Scanning for a Type Application
------------------------------------------------------------

/- A `|` tail is always classified as a closing operator. -/
theorem classify_of_tailIsPipe
    (hPipe : tailIsPipe content = true) :
    ∃ count, classifyTyparScanToken content =
      .CloseOpSplit count true := by
  unfold tailIsPipe at hPipe
  split at hPipe
  · next text =>
      cases hSplit : typarsCloseOpSplit text with
      | none =>
          rw [hSplit] at hPipe
          cases hPipe
      | some split =>
          rw [hSplit] at hPipe
          simp only [Option.any_some, beq_iff_eq] at hPipe
          have hHead : text.head? = some '>' := by
            by_contra hOther
            simp [typarsCloseOpSplit, hOther] at hSplit
          have hOpener : isOpenerOp text = false := by
            cases text with
            | nil =>
                cases hHead
            | cons c rest =>
                cases hHead
                rfl
          refine ⟨split.greaterCount, ?_⟩
          simp [classifyTyparScanToken, classifyTyparScanOp, hOpener,
            hHead, hSplit, hPipe]
  · cases hPipe

/- A token that does not end the scan. -/
def Calm
    (entry : TokenTup × Bool) :
    Prop :=
  entry.1.token ≠ .Real .SemiSemi ∧
    (entry.2 = true → tailIsPipe entry.1.token = false)

/-
  The tokens a scan took from `pending`, the last one first, with
  `rest` left behind them.
-/
structure Taken
    (trusted : Prop)
    (bounded : Pos → Prop)
    (u : Abs)
    (pending : List Delayed)
    (taken : List (TokenTup × Bool))
    (rest : List Delayed) :
    Prop where
  pending : pending =
    (taken.reverse.map fun entry => fresh entry.1) ++ rest
  good : ∀ entry ∈ taken, u.GoodTok trusted bounded entry.1
  calm : ∀ entry ∈ taken, Calm entry

theorem Taken.nil
    (u : Abs)
    (pending : List Delayed) :
    Taken trusted bounded u pending [] pending := by
  refine ⟨rfl, ?_, ?_⟩
  · intro entry hMem
    cases hMem
  · intro entry hMem
    cases hMem

/- A token taken before the others. -/
theorem Taken.before
    (hTaken : Taken trusted bounded u pending taken rest)
    (hGood : u.GoodTok trusted bounded entry.1)
    (hCalm : Calm entry) :
    Taken trusted bounded u (fresh entry.1 :: pending)
      (taken ++ [entry]) rest := by
  refine ⟨?_, ?_, ?_⟩
  · rw [hTaken.pending]
    simp
  · intro e hMem
    rcases List.mem_append.1 hMem with hMem | hMem
    · exact hTaken.good e hMem
    · rw [List.mem_singleton.1 hMem]
      exact hGood
  · intro e hMem
    rcases List.mem_append.1 hMem with hMem | hMem
    · exact hTaken.calm e hMem
    · rw [List.mem_singleton.1 hMem]
      exact hCalm

/- How a scan of `pending` ends. -/
inductive ScanEnds
    (trusted : Prop)
    (bounded : Pos → Prop)
    (pending : List Delayed)
    (u : Abs)
    (scan : TyparScan) :
    List (TokenTup × Bool) → Prop
  | exhausted
      {taken : List (TokenTup × Bool)}
      (hTaken : Taken trusted bounded u pending taken u.pending)
      (hFails : scan.succeeded = false)
      (hParen : scan.adjLparenAfterClose = false) :
      ScanEnds trusted bounded pending u scan taken
  | stopped
      {tok : TokenTup}
      {taken : List (TokenTup × Bool)}
      (hTaken : Taken trusted bounded u pending taken
        (fresh tok :: u.pending))
      (hGood : u.GoodTok trusted bounded tok)
      (hFenced : u.Fenced tok)
      (hParen : scan.adjLparenAfterClose = true →
        scan.succeeded = true ∧ Calm (tok, true) ∧
          ∃ next, u.next = some next ∧ next.token = .Real .LParen) :
      ScanEnds trusted bounded pending u scan ((tok, true) :: taken)

theorem ScanEnds.before
    (hEnds : ScanEnds trusted bounded pending u scan taken)
    (hGood : u.GoodTok trusted bounded entry.1)
    (hCalm : Calm entry) :
    ScanEnds trusted bounded (fresh entry.1 :: pending) u scan
      (taken ++ [entry]) := by
  cases hEnds with
  | exhausted hTaken hFails hParen =>
      exact .exhausted (hTaken.before hGood hCalm) hFails hParen
  | stopped hTaken hGood' hFenced hParen =>
      exact .stopped (hTaken.before hGood hCalm) hGood' hFenced hParen

/- The closer behind a `|` tail is taken with it. -/
theorem wp_popPipeTrailer
    {Q : List (TokenTup × Bool) → Abs → Prop}
    (hUnmarked : Unmarked t.pending)
    (hNone : ∀ u, t.Frames u → u.pending = t.pending → Q [] u)
    (hSome : ∀ tok rest, t.pending = fresh tok :: rest →
      Calm (tok, false) → ∀ u, t.Frames u → u.pending = rest →
      u.GoodTok trusted bounded tok → Q [(tok, false)] u) :
    wp trusted bounded (popPipeTrailer tt) Q t := by
  unfold popPipeTrailer
  split
  · rw [wp_bind]
    refine wp_look ?_
    intro u hFrame hPending hNext
    unfold Abs.next
    cases hShape : t.pending with
    | nil =>
        exact hNone u hFrame hPending
    | cons d rest =>
        dsimp only [List.head?_cons, Option.map_some]
        split
        · next hCloser =>
            rw [wp_bind]
            refine wp_take ?_ ?_
            · intro hEmpty
              rw [hPending, hShape] at hEmpty
              cases hEmpty
            · intro d' rest' hPending' w hFrame' hRest hGood _
              rw [hPending, hShape] at hPending'
              cases hPending'
              rw [hShape] at hUnmarked
              simp only [wp_bind, wp_expect_some, wp_pure]
              refine hSome d.tup rest ?_ ⟨?_, fun h => by cases h⟩ w
                (hFrame.trans hFrame') hRest hGood
              · rw [hShape, ← hUnmarked.head]
              · rcases hCloser.2 with hToken | hToken <;>
                  simp [hToken]
        · exact hNone u hFrame hPending
  · exact hNone t (.refl t) rfl

/- The scan goes on behind calm tokens only. -/
theorem calm_of_classify
    {tok : TokenTup}
    {smash : Bool}
    (hGoesOn : classifyTyparScanToken tok.token ≠ .Fail)
    (hSmash : smash = true → ∀ count,
      classifyTyparScanToken tok.token ≠ .CloseOpSplit count true) :
    Calm (tok, smash) := by
  refine ⟨?_, ?_⟩
  · intro hSemi
    apply hGoesOn
    rw [show tok.token = .Real .SemiSemi from hSemi]
    rfl
  · intro hSmashed
    cases hPipe : tailIsPipe tok.token with
    | false =>
        rfl
    | true =>
        rcases classify_of_tailIsPipe hPipe with ⟨count, hClass⟩
        exact absurd hClass (hSmash hSmashed count)

/-
  The scan takes tokens until it is decided.  The induction is on the
  bound, which exceeds the tokens left.
-/
theorem wp_typarScanLoop
    {Q : TyparScan → Abs → Prop}
    {headEnd : Pos}
    {nParen : Int}
    (hFuel : t.pending.length < fuel)
    (hUnmarked : Unmarked t.pending)
    (hPost : ∀ scan taken u, t.Frames u →
      scan.stack = taken ++ stack →
      ScanEnds trusted bounded t.pending u scan taken → Q scan u) :
    wp trusted bounded
      (typarScanLoop indentation headEnd fuel nParen stack) Q t := by
  induction fuel generalizing t nParen stack with
  | zero =>
      omega
  | succ fuel ih =>
      rw [typarScanLoop, wp_bind]
      refine wp_take ?_ ?_
      · intro hEmpty u hFrame hPending
        refine hPost _ [] u hFrame rfl (.exhausted ?_ rfl rfl)
        rw [hEmpty, hPending]
        exact .nil u []
      · intro d rest hPending u hFrame hRest hGood hFenced
        have hLength : rest.length < fuel := by
          rw [hPending, List.length_cons] at hFuel
          omega
        have hFirst : t.pending = fresh d.tup :: rest := by
          rw [hPending] at hUnmarked
          rw [hPending, ← hUnmarked.head]
        have hUnmarkedRest : Unmarked rest := by
          rw [hPending] at hUnmarked
          exact hUnmarked.tail
        -- the token ends the scan
        have hStop : ∀ succeeded adj w, u.Frames w →
            w.pending = u.pending → w.Fenced d.tup →
            (adj = true → succeeded = true ∧ Calm (d.tup, true) ∧
              ∃ next, w.next = some next ∧
                next.token = .Real .LParen) →
            Q ⟨(d.tup, true) :: stack, succeeded, adj⟩ w := by
          intro succeeded adj w hFrame' hPending' hFenced' hParen
          refine hPost _ [(d.tup, true)] w (hFrame.trans hFrame') rfl
            (.stopped ?_ (hGood.mono hFrame'.known) hFenced' hParen)
          rw [hPending', hRest, hFirst]
          exact .nil w _
        have hStopPlain : ∀ succeeded,
            Q ⟨(d.tup, true) :: stack, succeeded, false⟩ u :=
          fun succeeded => hStop succeeded false u (.refl u) rfl
            hFenced (fun h => by cases h)
        -- the token is behind the scan
        have hBehind : ∀ smash n w, Calm (d.tup, smash) →
            u.Frames w → w.pending = rest →
            wp trusted bounded (typarScanLoop indentation headEnd fuel
              n ((d.tup, smash) :: stack)) Q w := by
          intro smash n w hCalm hFrame' hPending'
          refine ih (hPending' ▸ hLength) (hPending' ▸ hUnmarkedRest) ?_
          intro scan taken x hFrame'' hStack hEnds
          have hFrames := hFrame'.trans hFrame''
          refine hPost scan (taken ++ [(d.tup, smash)]) x
            (hFrame.trans hFrames) ?_ ?_
          · rw [hStack, List.append_assoc]
            rfl
          · rw [hFirst]
            rw [hPending'] at hEnds
            exact hEnds.before (hGood.mono hFrames.known) hCalm
        have hGoOn : ∀ smash n, Calm (d.tup, smash) →
            wp trusted bounded (typarScanLoop indentation headEnd fuel
              n ((d.tup, smash) :: stack)) Q u :=
          fun smash n hCalm => hBehind smash n u hCalm (.refl u) hRest
        -- the token closes the application; `(` may follow
        have hClose : Calm (d.tup, true) →
            wp trusted bounded (do
              let adj ← nextTokenIsAdjacentLparen d.tup
              return (⟨(d.tup, true) :: stack, true, adj⟩ :
                TyparScan)) Q u := by
          intro hCalm
          rw [nextTokenIsAdjacentLparen, wp_bind]
          refine wp_nextTokenIsAdjacent ?_
          intro b w hFrame' hPending' hNext
          refine hStop true b w hFrame' hPending' (.of_ne hCalm.1) ?_
          intro hAdj
          rcases hNext hAdj with ⟨next, hSome, hToken⟩
          refine ⟨rfl, hCalm, next, ?_, hToken⟩
          rw [← hSome]
          exact congrArg (fun l : List Delayed =>
            l.head?.map Delayed.tup) hPending'
        dsimp only
        split
        · exact hStopPlain false
        · split
          · exact hStopPlain false
          · next hClass =>
              exact hGoOn _ _ (calm_of_classify (by simp [hClass])
                (by simp [hClass]))
          · next hClass =>
              exact hGoOn _ _ (calm_of_classify (by simp [hClass])
                (by simp [hClass]))
          · next hClass =>
              split
              · exact hStopPlain false
              · exact hGoOn _ _ (calm_of_classify (by simp [hClass])
                  (by simp [hClass]))
          · next hClass =>
              have hCalm : Calm (d.tup, true) :=
                calm_of_classify (by simp [hClass]) (by simp [hClass])
              split
              · exact hGoOn _ _ hCalm
              · exact hClose hCalm
          · next hClass =>
              split
              · exact hGoOn _ _ (calm_of_classify (by simp [hClass])
                  (by simp))
              · exact hStopPlain true
          · next count hasTail hClass =>
              split
              · have hCalm : Calm (d.tup, !hasTail) := by
                  refine calm_of_classify (by simp [hClass]) ?_
                  intro hNoTail count' hSplit
                  rw [hClass] at hSplit
                  cases hSplit
                  cases hNoTail
                rw [wp_bind]
                refine wp_popPipeTrailer (hRest ▸ hUnmarkedRest) ?_ ?_
                · intro w hFrame' hPending'
                  exact hBehind _ _ w hCalm hFrame'
                    (hPending'.trans hRest)
                · intro tok rest' hPending' hTokCalm w hFrame' hRest'
                    hTokGood
                  rw [hRest] at hPending'
                  rw [hPending'] at hLength hUnmarkedRest
                  rw [List.length_cons] at hLength
                  refine ih (hRest' ▸ by omega)
                    (hRest' ▸ hUnmarkedRest.tail) ?_
                  intro scan taken x hFrame'' hStack hEnds
                  have hFrames := hFrame'.trans hFrame''
                  refine hPost scan
                    (taken ++ [(tok, false)] ++ [(d.tup, !hasTail)]) x
                    (hFrame.trans hFrames) ?_ ?_
                  · rw [hStack]
                    simp
                  · rw [hFirst, hPending']
                    rw [hRest'] at hEnds
                    exact (hEnds.before
                      (hTokGood.mono hFrame''.known) hTokCalm).before
                      (hGood.mono hFrames.known) hCalm
              · split
                · exact hStopPlain true
                · next hTail =>
                    refine hClose (calm_of_classify (by simp [hClass])
                      ?_)
                    intro _ count' hSplit
                    rw [hClass] at hSplit
                    cases hSplit
                    exact hTail rfl
          · next hClass =>
              split
              · exact hStopPlain false
              · exact hGoOn _ _ (calm_of_classify (by simp [hClass])
                  (by simp [hClass]))

/- Putting back the taken tokens cuts some of them. -/
theorem wp_unwindTyparScan
    (hGood : ∀ entry ∈ taken, t.GoodTok trusted bounded entry.1)
    (hCalm : ∀ entry ∈ taken, Calm entry)
    (hBase : Recut res base t.pending)
    (hPost : ∀ u, t.Frames u →
      Recut res ((taken.reverse.map fun entry => fresh entry.1) ++ base)
        u.pending →
      wp trusted bounded (unwindTyparScan stack res) Q u) :
    wp trusted bounded (unwindTyparScan (taken ++ stack) res) Q t := by
  induction taken generalizing t base with
  | nil =>
      exact hPost t (.refl t) hBase
  | cons entry taken ih =>
      rcases entry with ⟨tt, smash⟩
      have hTokGood := hGood _ List.mem_cons_self
      have hTokCalm := hCalm _ List.mem_cons_self
      -- whichever way the token went back, the rest follows
      have hRest : ∀ u, t.Frames u →
          Recut res (fresh tt :: base) u.pending →
          wp trusted bounded (unwindTyparScan (taken ++ stack) res)
            Q u := by
        intro u hFrame hRecut
        refine ih ?_ ?_ hRecut ?_
        · intro e hMem
          exact (hGood e (List.mem_cons_of_mem _ hMem)).mono
            hFrame.known
        · intro e hMem
          exact hCalm e (List.mem_cons_of_mem _ hMem)
        · intro w hFrame' hRecut'
          refine hPost w (hFrame.trans hFrame') ?_
          simpa using hRecut'
      rw [List.cons_append, unwindTyparScan]
      cases smash with
      | true =>
          rw [if_pos rfl, wp_bind]
          refine wp_smashTyparToken hTokGood (.of_ne hTokCalm.1) hBase
            ?_ hRest
          intro hPipe
          rw [hTokCalm.2 rfl] at hPipe
          cases hPipe
      | false =>
          rw [if_neg (by simp), wp_bind, wp_delayToken]
          exact ⟨hTokGood, .of_ne hTokCalm.1,
            hRest _ (.delay t _) (.cut .keep hBase)⟩

/- A scan that stopped puts back the last token first. -/
theorem wp_unwind_of_scanEnds
    (hEnds : ScanEnds trusted bounded pending t scan taken)
    (hPost : ∀ u, t.Frames u →
      Recut scan.succeeded pending u.pending →
      wp trusted bounded (unwindTyparScan stack scan.succeeded) Q u) :
    wp trusted bounded
      (unwindTyparScan (taken ++ stack) scan.succeeded) Q t := by
  cases hEnds with
  | exhausted hTaken hFails _ =>
      refine wp_unwindTyparScan hTaken.good hTaken.calm
        (.refl t.pending) ?_
      rw [← hTaken.pending]
      exact hPost
  | stopped hTaken hGood hFenced _ =>
      rw [List.cons_append, unwindTyparScan, if_pos rfl, wp_bind]
      refine wp_smashTyparToken hGood hFenced (.refl _)
        (fun _ => rfl) ?_
      intro u hFrame hRecut
      refine wp_unwindTyparScan
        (fun e hMem => (hTaken.good e hMem).mono hFrame.known)
        hTaken.calm hRecut ?_
      intro w hFrame' hRecut'
      refine hPost w (hFrame.trans hFrame') ?_
      rw [hTaken.pending]
      exact hRecut'

/- A scan that ended at `(` queues the application virtual first. -/
theorem wp_unwind_withParen
    {tok next : TokenTup}
    (hTaken : Taken trusted bounded t pending taken
      (fresh tok :: t.pending))
    (hGood : t.GoodTok trusted bounded tok)
    (hCalm : Calm (tok, true))
    (hNext : t.next = some next)
    (hParen : next.token = .Real .LParen)
    (hRes : res = true)
    (hFrame : t.Frames u)
    (hSame : u.pending = t.pending)
    (hNextGood : u.GoodTok trusted bounded next)
    (hPost : ∀ w, t.Frames w → Recut res pending w.pending →
      wp trusted bounded (unwindTyparScan stack res) Q w) :
    wp trusted bounded
      (unwindTyparScan
        ((next.asVirtual .HighPrecedenceParenApp, false) ::
          ((tok, true) :: taken ++ stack)) res) Q u := by
  have hApp : Recut res t.pending
      (fresh (next.asVirtual .HighPrecedenceParenApp) ::
        t.pending) := by
    unfold Abs.next at hNext
    cases hPending : t.pending with
    | nil =>
        rw [hPending] at hNext
        cases hNext
    | cons d rest =>
        rw [hPending] at hNext
        cases hNext
        exact .app hRes hParen
  rw [unwindTyparScan, if_neg (by simp), wp_bind, wp_delayToken]
  refine ⟨hNextGood.asVirtual _, .of_ne (fun h => by cases h), ?_⟩
  rw [List.cons_append, unwindTyparScan, if_pos rfl, wp_bind]
  rw [← hSame] at hApp
  refine wp_smashTyparToken ((hGood.mono hFrame.known).mono fun _ => id)
    (.of_ne hCalm.1) hApp ?_ ?_
  · intro hPipe
    rw [hCalm.2 rfl] at hPipe
    cases hPipe
  · intro w hFrame' hRecut
    have hFrames := (hFrame.trans (.delay u _)).trans hFrame'
    refine wp_unwindTyparScan
      (fun e hMem => (hTaken.good e hMem).mono hFrames.known)
      hTaken.calm hRecut ?_
    intro x hFrame'' hRecut'
    refine hPost x (hFrames.trans hFrame'') ?_
    rw [hTaken.pending, ← hSame]
    exact hRecut'

/- The opener goes back as, or behind, a `<`. -/
theorem wp_smash_opener
    (hOpener : isTyparOpener tt.token = true)
    (hGood : t.GoodTok trusted bounded tt)
    (hBase : Recut res base t.pending)
    (hPost : ∀ u less flag rest, t.Frames u →
      Recut res (fresh tt :: base) u.pending →
      u.pending = less :: rest →
      less.tup.token = .Real (.Less flag) → Q () u) :
    wp trusted bounded (smashTyparToken tt res) Q t := by
  have hPair : ∀ {token tail : Token},
      tt.token = .Real token → PairCut res token (.Less res) tail →
      wp trusted bounded (delayPairSplitAt1 tt (.Less res) tail)
        Q t := by
    intro token tail hToken hCut
    refine wp_delayPairSplitAt1 hGood hToken hCut ?_
    intro hCol u hFrame hPending
    refine hPost u _ res _ hFrame ?_ hPending rfl
    rw [hPending]
    exact .cut (.pair hToken hCut hCol) hBase
  unfold isTyparOpener at hOpener
  split at hOpener
  · next flag hToken =>
      simp only [smashTyparToken, hToken, wp_delayToken]
      refine ⟨hGood, .of_ne (by simp [hToken]), ?_⟩
      exact hPost _ _ flag _ (.delay t _) (.cut .keep hBase) rfl hToken
  · next hToken =>
      simp only [smashTyparToken, hToken]
      exact hPair hToken .quote
  · next text hToken =>
      simp only [isOpenerOp, Bool.or_eq_true, beq_iff_eq] at hOpener
      rcases hOpener with rfl | rfl
      · simp only [smashTyparToken, hToken, if_true]
        exact hPair hToken .lessSlash
      · simp only [smashTyparToken, hToken, if_true]
        exact hPair hToken .lessHat
  · cases hOpener

/- What a scan for a type application leaves behind. -/
structure Scanned
    (t : Abs)
    (res : Bool)
    (u : Abs) :
    Prop where
  frame : t.Frames u
  recut : Recut res t.pending u.pending
  less : res = true → ∃ d flag rest, u.pending = d :: rest ∧
    d.tup.token = .Real (.Less flag)

theorem wp_peekAdjacentTypars
    {Q : Bool → Abs → Prop}
    (hUnmarked : Unmarked t.pending)
    (hPost : ∀ res u, Scanned t res u → Q res u) :
    wp trusted bounded (peekAdjacentTypars indentation tt) Q t := by
  -- nothing was taken
  have hIdle : ∀ u, t.Frames u → u.pending = t.pending →
      Q false u := by
    intro u hFrame hPending
    refine hPost false u ⟨hFrame, ?_, fun h => by cases h⟩
    rw [hPending]
    exact .refl _
  rw [peekAdjacentTypars, wp_bind]
  refine wp_look ?_
  intro u hFrame hPending _
  unfold Abs.next
  cases hShape : t.pending with
  | nil =>
      exact hIdle u hFrame hPending
  | cons d rest =>
      rw [hShape] at hUnmarked
      dsimp only [List.head?_cons, Option.map_some]
      split
      · next hOpener =>
          rw [Bool.and_eq_true] at hOpener
          have hFirst : t.pending = fresh d.tup :: rest := by
            rw [hShape, ← hUnmarked.head]
          rw [wp_bind]
          refine wp_take ?_ ?_
          · intro hEmpty
            rw [hPending, hShape] at hEmpty
            cases hEmpty
          · intro d' rest' hPending' w hFrame' hRest hGood _
            rw [hPending, hShape] at hPending'
            cases hPending'
            -- the opener goes back last
            have hLast : ∀ res x, w.Frames x →
                Recut res rest x.pending →
                wp trusted bounded (unwindTyparScan [(d.tup, true)] res)
                  (fun _ y => Q res y) x := by
              intro res x hFrame'' hRecut
              rw [unwindTyparScan, if_pos rfl, wp_bind]
              refine wp_smash_opener hOpener.1
                (hGood.mono hFrame''.known) hRecut ?_
              intro y less flag rest'' hFrameEnd hRecut' hHead hLess
              refine hPost res y ⟨((hFrame.trans hFrame').trans
                hFrame'').trans hFrameEnd, ?_, ?_⟩
              · rw [hFirst]
                exact hRecut'
              · exact fun _ => ⟨less, flag, rest'', hHead, hLess⟩
            simp only [wp_bind, wp_expect_some, wp_core, coreContract]
            intro fuel hFuel
            refine wp_typarScanLoop hFuel (hRest ▸ hUnmarked.tail) ?_
            intro scan taken x hFrame'' hStack hEnds
            rw [hRest] at hEnds
            rw [hStack]
            split
            · next hAdj =>
                cases hEnds with
                | exhausted _ _ hParen =>
                    rw [hParen] at hAdj
                    cases hAdj
                | stopped hTaken hTokGood _ hParen =>
                    rcases hParen hAdj with
                      ⟨hSucceeded, hCalm, next, hNext, hLparen⟩
                    rw [wp_bind]
                    refine wp_look ?_
                    intro y hPeek hSame hGoodNext
                    have hNextGood := hGoodNext next hNext
                    rw [hNext]
                    simp only [wp_bind, wp_expect_some, wp_pure]
                    exact wp_unwind_withParen hTaken
                      hTokGood hCalm hNext hLparen hSucceeded hPeek
                      hSame hNextGood fun z hFrameEnd hRecut =>
                        hLast _ z (hFrame''.trans hFrameEnd) hRecut
            · simp only [wp_bind, wp_pure]
              exact wp_unwind_of_scanEnds hEnds fun y hFrameEnd hRecut =>
                hLast _ y (hFrame''.trans hFrameEnd) hRecut
      · exact hIdle u hFrame hPending

end Lookahead

end LexFilter

end Borzoi
