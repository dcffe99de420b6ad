import Borzoi.LexFilter.Refinement.Decisions

/-
  The first rules of an iteration perform moves.
-/

namespace Borzoi

namespace LexFilter

open Lexer
open FilterM

section Heads

variable {trusted : Prop} {bounded : Pos → Prop} {useBlockRule : Bool}
variable {P : TokenTup → View → Prop} {t : Abs} {tt : TokenTup}

variable {prev : ModuleHeadPrev} {headPos : Pos} {Q : Prop}
variable {close token : Token} {virt : Virtual}

/- Putting back the halves of a glued token is a cut. -/
theorem wp_restartWithPair
    {first second : TokenTup}
    (hGlued : Glued tt first second)
    (hFirst : t.GoodTok trusted bounded first)
    (hSecond : t.GoodTok trusted bounded second)
    (hFirstNe : first.token ≠ .Real .SemiSemi)
    (hSecondNe : second.token ≠ .Real .SemiSemi) :
    wp trusted bounded (restartWithPair first second)
      (Decides trusted bounded useBlockRule Q tt t.view) t := by
  simp only [restartWithPair, wp_bind, wp_delayToken, wp_pure]
  exact ⟨hSecond, .of_ne hSecondNe, hFirst, .of_ne hFirstNe,
    .restart (.cut hGlued)⟩

section

variable (hGood : t.GoodTok trusted bounded tt)

include hGood

theorem wp_splitQuoteDot
    (hToken : tt.token = .Real token)
    (hKind : (token = .RQuoteDot ∧ close = .RQuote) ∨
      (token = .RQuoteRawDot ∧ close = .RQuoteRaw)) :
    wp trusted bounded (splitQuoteDot tt close)
      (Decides trusted bounded useBlockRule Q tt t.view) t := by
  have hLength : ∃ n, cutLength token = some n ∧ 1 ≤ n ∧
      cutLength close = none ∧ close ≠ .SemiSemi := by
    rcases hKind with ⟨rfl, rfl⟩ | ⟨rfl, rfl⟩
    · exact ⟨3, rfl, by decide, rfl, by decide⟩
    · exact ⟨4, rfl, by decide, rfl, by decide⟩
  rcases hLength with ⟨n, hCut, hn, hClose, hSemi⟩
  simp only [splitQuoteDot, wp_bind, wp_sub]
  refine ⟨fun hByte => ⟨fun hCol => ?_, ?_⟩, ?_⟩
  · refine wp_restartWithPair (.quoteDot hToken hKind hByte hCol)
      (hGood.front hToken hCut hn hClose) ?_ (by simpa using hSemi)
      (by simp)
    exact hGood.back hToken hCut hn (.inl rfl) (by simp [cutLength])
      (by simp)
  · exact fun hTrusted => (hGood.room hToken hCut hn hTrusted).2
  · exact fun hTrusted => (hGood.room hToken hCut hn hTrusted).1

theorem wp_splitQuoteBar
    (hToken : tt.token = .Real token)
    (hKind : (token = .RQuoteBarRBrace ∧ close = .RQuote) ∨
      (token = .RQuoteRawBarRBrace ∧ close = .RQuoteRaw)) :
    wp trusted bounded (splitQuoteBar tt close)
      (Decides trusted bounded useBlockRule Q tt t.view) t := by
  have hLength : ∃ n, cutLength token = some n ∧ 2 ≤ n ∧
      cutLength close = none ∧ close ≠ .SemiSemi := by
    rcases hKind with ⟨rfl, rfl⟩ | ⟨rfl, rfl⟩
    · exact ⟨4, rfl, by decide, rfl, by decide⟩
    · exact ⟨5, rfl, by decide, rfl, by decide⟩
  rcases hLength with ⟨n, hCut, hn, hClose, hSemi⟩
  simp only [splitQuoteBar, wp_bind, wp_sub]
  refine ⟨fun hByte => ⟨fun hCol => ?_, ?_⟩, ?_⟩
  · refine wp_restartWithPair (.quoteBar hToken hKind hByte hCol)
      (hGood.front hToken hCut hn hClose) ?_ (by simpa using hSemi)
      (by simp)
    exact hGood.after hToken hCut (by omega) (by simp [cutLength])
      (by simp)
  · exact fun hTrusted => (hGood.room hToken hCut hn hTrusted).2
  · exact fun hTrusted => (hGood.room hToken hCut hn hTrusted).1

theorem wp_splitIntDotDot
    {text : List Char}
    (hToken : tt.token = .Real (.IntDotDot text)) :
    wp trusted bounded (splitIntDotDot tt text)
      (Decides trusted bounded useBlockRule Q tt t.view) t := by
  have hCut : cutLength (.IntDotDot text) = some text.length := rfl
  have hDigits : trusted → 2 ≤ text.length :=
    fun hTrusted => (hGood.2.2 hTrusted).digits text hToken
  simp only [splitIntDotDot, wp_bind, wp_sub]
  refine ⟨fun hLength => ⟨fun hByte => ⟨fun hCol => ?_, ?_⟩, ?_⟩,
    hDigits⟩
  · refine wp_restartWithPair (.intDotDot hToken hByte hCol)
      (hGood.front hToken hCut hLength rfl) ?_ (by simp) (by simp)
    exact hGood.back hToken hCut hLength (.inr rfl)
      (by simp [cutLength]) (by simp)
  · exact fun hTrusted =>
      (hGood.room hToken hCut (hDigits hTrusted) hTrusted).2
  · exact fun hTrusted =>
      (hGood.room hToken hCut (hDigits hTrusted) hTrusted).1

theorem wp_splitDotDotHat
    (hToken : tt.token = .Real .DotDotHat) :
    wp trusted bounded (splitDotDotHat tt)
      (Decides trusted bounded useBlockRule Q tt t.view) t := by
  have hCut : cutLength .DotDotHat = some 3 := rfl
  have hOne : 1 ≤ 3 := by decide
  simp only [splitDotDotHat, wp_bind, wp_sub]
  refine ⟨fun hByte => ⟨fun hCol => ?_, ?_⟩, ?_⟩
  · refine wp_restartWithPair (.dotDotHat hToken hByte hCol)
      (hGood.front hToken hCut hOne rfl) ?_ (by simp) (by simp)
    refine hGood.back hToken hCut hOne (.inr rfl) ?_ (by simp)
    intro k hk
    cases hk
    rfl
  · exact fun hTrusted => (hGood.room hToken hCut hOne hTrusted).2
  · exact fun hTrusted => (hGood.room hToken hCut hOne hTrusted).1

end

theorem splitRule_holds :
    Holds trusted bounded useBlockRule P splitRule := by
  intro tt t hReady _
  unfold splitRule
  split
  · next hToken =>
      exact wp_splitQuoteDot hReady.good hToken (.inl ⟨rfl, rfl⟩)
  · next hToken =>
      exact wp_splitQuoteDot hReady.good hToken (.inr ⟨rfl, rfl⟩)
  · next hToken =>
      exact wp_splitQuoteBar hReady.good hToken (.inl ⟨rfl, rfl⟩)
  · next hToken =>
      exact wp_splitQuoteBar hReady.good hToken (.inr ⟨rfl, rfl⟩)
  · next text hToken =>
      exact wp_splitIntDotDot hReady.good hToken
  · next hToken =>
      simp only [wp_bind, wp_core, coreContract]
      intro b
      cases b with
      | none =>
          exact wp_splitDotDotHat hReady.good hToken
      | some b =>
          dsimp only
          split
          · exact hReady.pass trivial
          · exact wp_splitDotDotHat hReady.good hToken
  · exact hReady.pass trivial

/- An application virtual goes between an identifier and a bracket. -/
theorem wp_restartWithApp
    {tok : TokenTup}
    (hReady : t.Ready trusted bounded tt)
    (hIdent : tt.token.isIdent = true)
    (hToken : tt.token ≠ .Real .SemiSemi)
    (hNext : t.next = some tok)
    (hOpen : tok.token.isAnyOf [.LParen, .LBrack] = true)
    (hVirt : virt ∈ [Virtual.HighPrecedenceBrackApp,
      .HighPrecedenceParenApp]) :
    wp trusted bounded (restartWithApp virt tt)
      (Decides trusted bounded useBlockRule Q tt t.view) t := by
  rw [restartWithApp, wp_bind]
  refine hReady.wp_peek hToken ?_
  intro u hPeek hGood
  have hTok := hGood tok hNext
  rw [hNext]
  unfold Abs.next at hNext
  cases hPending : t.pending with
  | nil =>
      rw [hPending] at hNext
      cases hNext
  | cons d rest =>
      rw [hPending] at hNext
      cases hNext
      simp only [wp_bind, wp_expect_some, wp_delayToken, wp_pure]
      refine ⟨hTok.asVirtual virt, .of_ne (by simp [TokenTup.asVirtual,
        TokenTup.withToken]), hPeek.ready.good, .of_ne hToken, ?_⟩
      have hPending' : u.view.pending = d :: rest := by
        rw [hPeek.view]
        exact hPending
      rw [← hPeek.view]
      exact .restart (.app hIdent hPending' hOpen hVirt)

theorem highPrecedenceAppRule_holds :
    Holds trusted bounded useBlockRule P highPrecedenceAppRule := by
  intro tt t hReady _
  unfold highPrecedenceAppRule
  split
  · next hIdent =>
      have hToken := TokenContent.ne_semiSemi_of_isIdent hIdent
      rw [wp_bind]
      refine wp_nextTokenIsAdjacent ?_
      intro b u hFrame hPending hBrack
      have hPeek := hReady.peeked hFrame hPending hToken
      rw [← hPeek.view]
      cases b with
      | true =>
          rcases hBrack rfl with ⟨tok, hNext, hTok⟩
          rw [← Abs.next_of_view hPeek.view] at hNext
          refine wp_restartWithApp hPeek.ready hIdent hToken hNext ?_
            List.mem_cons_self
          rw [hTok]
          rfl
      | false =>
          simp only [Bool.false_eq_true, if_false, wp_bind]
          refine wp_nextTokenIsAdjacent ?_
          intro b w hFrame' hPending' hParen
          have hPeek' := hPeek.ready.peeked hFrame' hPending' hToken
          rw [← hPeek'.view]
          cases b with
          | true =>
              rcases hParen rfl with ⟨tok, hNext, hTok⟩
              rw [← Abs.next_of_view hPeek'.view] at hNext
              refine wp_restartWithApp hPeek'.ready hIdent hToken hNext
                ?_ (List.mem_cons_of_mem _ List.mem_cons_self)
              rw [hTok]
              rfl
          | false =>
              exact hPeek'.ready.pass trivial
  · exact hReady.pass trivial

/- A pop that queues the token again. -/
theorem wp_popAndClose
    {closing : Option Virtual}
    (hReady : t.Ready trusted bounded tt)
    (hAct : Act useBlockRule tt t.view (closed useBlockRule closing tt)
      { t.view with
        pending := fresh tt :: t.view.pending
        stack := t.view.stack.tail }) :
    wp trusted bounded (popAndClose closing tt)
      (Decides trusted bounded useBlockRule Q tt t.view) t := by
  unfold popAndClose
  rw [wp_bind, wp_popCtxt]
  cases closing with
  | none =>
      simp only [wp_bind, wp_delayToken, wp_pure]
      exact ⟨hReady.good, hReady.fenced, .restart hAct⟩
  | some virt =>
      simp only [wp_bind, wp_insertToken, wp_pure]
      exact ⟨hReady.good, hReady.fenced, hReady.emit rfl hAct⟩

/- The virtual is inserted in front of the token. -/
theorem wp_insertTokenFromPrevToCurrent
    {Q : TokenTup → Abs → Prop}
    (hGood : t.GoodTok trusted bounded tt)
    (hFenced : t.Fenced tt)
    (hPost : ∀ out, out.token = .Virtual virt →
      Q out (t.delay ⟨tt, false⟩)) :
    wp trusted bounded (insertTokenFromPrevToCurrent virt tt) Q t := by
  unfold insertTokenFromPrevToCurrent
  split <;>
    simp only [wp_bind, wp_pure, wp_core, coreContract,
      wp_delayToken] <;>
    exact ⟨hGood, hFenced, hPost _ rfl⟩

/- The end of file arrives on an empty stack. -/
def Unforced
    (tt : TokenTup)
    (v : View) :
    Prop :=
  tt.token = .Eof → v.stack = []

theorem forceClosureRule_meets :
    Meets trusted bounded useBlockRule P Unforced
      forceClosureRule := by
  intro tt t hReady _
  rw [forceClosureRule, wp_bind, wp_offsideStack]
  intro _
  split
  · next hForce =>
      cases hStack : t.stack with
      | nil =>
          rw [hStack] at hForce
          cases hForce
      | cons ctxt rest =>
          simp only [List.head?_cons, wp_bind, wp_expect_some]
          refine wp_popAndClose hReady (.force ?_ hForce)
          exact congrArg List.head? hStack
  · next hForce =>
      refine hReady.pass ?_
      intro hEof
      by_contra hStack
      apply hForce
      have hStack' : t.stack ≠ [] := hStack
      simp [tokenForcesHeadContextClosure, hStack', hEof]

theorem semiSemiResetRule_holds :
    Holds trusted bounded useBlockRule P semiSemiResetRule := by
  intro tt t hReady _
  rw [semiSemiResetRule, wp_bind, wp_offsideStack]
  intro _
  split
  · next hReset =>
      simp only [wp_bind, wp_core, coreContract, wp_setLastRealEnd,
        wp_pure]
      exact .emit (.reset hReset.1 hReset.2)
        (.inr (hReady.fenced hReset.1))
  · exact hReady.pass trivial

theorem passThroughRule_holds :
    Holds trusted bounded useBlockRule P passThroughRule := by
  intro tt t hReady _
  simp only [passThroughRule, wp_bind, wp_core, coreContract,
    hReady.idle, Nat.lt_irrefl, if_false, wp_pure]
  exact hReady.pass trivial

/- `predispatch` performs moves and leaves the end of file last. -/
theorem predispatch_meets :
    Meets trusted bounded useBlockRule P Unforced predispatch := by
  refine passThroughRule_holds.firstOf_cons ?_
  refine splitRule_holds.firstOf_cons ?_
  refine highPrecedenceAppRule_holds.firstOf_cons ?_
  refine forceClosureRule_meets.firstOf_cons ?_
  refine semiSemiResetRule_holds.firstOf_cons ?_
  exact fun _ _ hReady hFacts => hReady.pass hFacts.1.2

theorem joinInRewrite_holds :
    Holds trusted bounded useBlockRule P joinInRewrite := by
  intro tt t hReady _
  rw [joinInRewrite, wp_bind, wp_offsideStack]
  intro _
  split
  · next hJoin =>
      simp only [wp_bind, wp_setLastRealEnd, wp_pure]
      refine hReady.emit rfl (.settle ?_ ?_ (.virtual ?_ ?_))
      · simp [hJoin.1, TokenContent.isDummy]
      · simp [hJoin.1]
      · simp [hJoin.1, TokenContent.isAnyOf, replacedTokens]
      · simp [keywordVirtuals]
  · exact hReady.pass trivial

------------------------------------------------------------
-- Namespace and Module Heads
------------------------------------------------------------

@[simp] theorem wp_replaceCtxt
    (trigger : Span)
    (ctxt : Context)
    (Q : Unit → Abs → Prop) :
    wp trusted bounded (replaceCtxt trigger ctxt) Q t ↔
      t.GoodPos trusted bounded ctxt.startPos ∧
        Q () { t with stack := ctxt :: t.stack.tail } := by
  simp only [replaceCtxt, wp_bind, wp_popCtxt, wp_pushCtxt]
  exact Iff.rfl

/- The top of the stack is not the head of a declaration. -/
def Headless
    (_ : TokenTup)
    (v : View) :
    Prop :=
  topIsHead v.stack = false

/- The body of a namespace or a module opens at the token. -/
theorem openBody_act
    {head body : Context}
    {first : Bool}
    {anchor : TokenTup}
    {u : Abs}
    (hHead : t.stack.head? = some head)
    (hKind : head.isHead = true)
    (hBody : body.isPlain = true)
    (hAnchor : anchor = tt ∨ ∃ d rest,
      fresh tt :: t.pending = d :: rest ∧ anchor = d.tup)
    (hView : u.view = View.openBlock
      { t.view with
        pending := fresh tt :: t.pending
        stack := body :: t.stack.tail } first anchor .Yes) :
    Act useBlockRule tt t.view (.Again false) u.view := by
  have hAnchor' : anchor = tt := by
    rcases hAnchor with rfl | ⟨d, rest, hPending, rfl⟩
    · rfl
    · cases hPending
      rfl
  rw [hView, hAnchor']
  exact .openBody hHead hKind hBody

theorem isReal_of_namespaceHeadContinues
    {prev : NamespacePrev}
    (hContinues : namespaceHeadContinues prev tt = true) :
    tt.token.isReal = true := by
  cases prev with
  | Keyword =>
      simp only [namespaceHeadContinues, Bool.or_eq_true] at hContinues
      rcases hContinues with hIdent | hAny
      · exact TokenContent.isReal_of_isIdent hIdent
      · exact TokenContent.isReal_of_isAnyOf hAny
  | Ident =>
      simp only [namespaceHeadContinues, beq_iff_eq] at hContinues
      rw [hContinues]
      rfl

theorem namespaceHeadRule_meets :
    Meets trusted bounded useBlockRule P
      (fun _ v => ∀ pos prev,
        v.stack.head? ≠ some (.NamespaceHead pos prev))
      namespaceHeadRule := by
  intro tt t hReady _
  rw [namespaceHeadRule, wp_bind, wp_head]
  intro hStack
  split
  · next headPos prev hHead =>
      have hPos : t.GoodPos trusted bounded headPos :=
        hStack _ (List.mem_of_mem_head? hHead)
      split
      · next hContinues =>
          simp only [wp_bind, wp_replaceCtxt, wp_pure]
          simp only [Bool.and_eq_true] at hContinues
          exact ⟨hPos, hReady.emit rfl
            (.shift (isReal_of_namespaceHeadContinues hContinues.1)
              (.replaceHead hHead rfl rfl) .asIs)⟩
      · simp only [wp_bind, wp_popCtxt, wp_delayToken, wp_pushCtxt]
        refine ⟨hReady.good, hReady.fenced, hPos, ?_⟩
        refine wp_pushCtxtSeqBlockAt (fun h => by cases h) ?_ ?_
        · intro u first anchor _ hAnchor hView
          exact .restartWithoutBlockRule
            (openBody_act hHead rfl rfl hAnchor hView)
        · rintro - (hEmpty | hGated)
          · cases hEmpty
          · cases hGated
  · next hOther =>
      exact hReady.pass hOther

theorem isReal_of_moduleHeadContinues
    (hContinues : moduleHeadContinues prev tt = true) :
    tt.token.isReal = true := by
  cases prev with
  | Module =>
      simp only [moduleHeadContinues, Bool.or_eq_true] at hContinues
      rcases hContinues with hIdent | hAny
      · exact TokenContent.isReal_of_isIdent hIdent
      · exact TokenContent.isReal_of_isAnyOf hAny
  | RecOrDot =>
      simp only [moduleHeadContinues, Bool.or_eq_true] at hContinues
      rcases hContinues with hIdent | hAny
      · exact TokenContent.isReal_of_isIdent hIdent
      · exact TokenContent.isReal_of_isAnyOf hAny
  | Ident =>
      simp only [moduleHeadContinues, beq_iff_eq] at hContinues
      rw [hContinues]
      rfl
  | Global =>
      cases hContinues

/- Inside the attributes of a module head nothing is decided. -/
theorem wp_moduleAttributeStep
    {nested : Bool}
    (hReady : t.Ready trusted bounded tt)
    (hEof : Unforced tt t.view)
    (hPos : t.GoodPos trusted bounded headPos)
    (hHead : t.stack.head? =
      some (.ModuleHead headPos prev true nested)) :
    wp trusted bounded (moduleAttributeStep headPos prev nested tt)
      (Decides trusted bounded useBlockRule Q tt t.view) t := by
  have hAttrs : inModuleAttributes t.stack = true := by
    cases hStack : t.stack with
    | nil =>
        rw [hStack] at hHead
        cases hHead
    | cons ctxt rest =>
        rw [hStack] at hHead
        cases hHead
        rfl
  unfold moduleAttributeStep
  split
  · next hClose =>
      simp only [wp_bind, wp_replaceCtxt, wp_pure]
      refine ⟨hPos, hReady.emit rfl
        (.shift ?_ (.replaceHead hHead rfl rfl) .asIs)⟩
      rw [hClose]
      rfl
  · split
    · next hSwallow =>
        have hReal := TokenContent.isReal_of_isAnyOf hSwallow
        simp only [wp_bind, wp_setLastRealEnd, wp_pure]
        refine .restart (.settle (fun _ => hAttrs) hEof (.swallow ?_))
        rcases (TokenContent.isAnyOf_iff _ _).1 hSwallow with
          ⟨token, hMem, hToken⟩
        rw [hToken]
        revert hMem
        simp only [List.mem_cons, List.not_mem_nil, or_false]
        rintro (rfl | rfl) <;> rfl
    · exact hReady.emit rfl (.settle (fun _ => hAttrs) hEof .asIs)

/- A foreign token ends a module head. -/
theorem wp_endModuleHead
    {head : Context}
    (hReady : t.Ready trusted bounded tt)
    (hPos : t.GoodPos trusted bounded headPos)
    (hHead : t.stack.head? = some head)
    (hKind : head.isHead = true) :
    wp trusted bounded (endModuleHead headPos tt)
      (Decides trusted bounded useBlockRule Q tt t.view) t := by
  unfold endModuleHead
  simp only [wp_bind, wp_popCtxt, wp_offsideStack]
  intro _
  split
  · simp only [wp_bind, wp_delayToken, wp_pushCtxt]
    refine ⟨hReady.good, hReady.fenced, hPos, ?_⟩
    refine wp_pushCtxtSeqBlock ?_ ?_
    · exact hReady.good.mono fun _ => id
    · intro u first anchor _ hAnchor hView
      exact .restartWithoutBlockRule
        (openBody_act hHead hKind rfl hAnchor hView)
  · rw [wp_bind]
    refine wp_insertTokenFromPrevToCurrent ?_ ?_ ?_
    · exact hReady.good.mono fun _ => id
    · exact hReady.fenced
    · intro out hOut
      exact hReady.emit rfl (.endHead hHead hKind hOut)

theorem wp_moduleHeadStep
    {attrs nested : Bool}
    (hReady : t.Ready trusted bounded tt)
    (hPos : t.GoodPos trusted bounded headPos)
    (hHead : t.stack.head? =
      some (.ModuleHead headPos prev attrs nested)) :
    wp trusted bounded (moduleHeadStep headPos prev nested tt)
      (Decides trusted bounded useBlockRule Q tt t.view) t := by
  unfold moduleHeadStep
  dsimp only
  split
  · next hEquals =>
      have hReal := TokenContent.isReal_of_isAnyOf hEquals
      simp only [wp_bind, wp_replaceCtxt]
      refine ⟨hPos, wp_pushCtxtSeqBlock ?_ ?_⟩
      · exact hReady.good.mono fun _ => id
      · intro u first anchor _ _ hView
        refine hReady.emit (congrArg View.initialized hView) ?_
        rw [hView]
        exact .shift hReal (.replaceBlock hHead (.inr rfl) rfl) .asIs
  · split
    · next hAccess =>
        have hReal := TokenContent.isReal_of_isAnyOf hAccess.2.2
        refine hReady.emit rfl (.settle ?_ ?_ .asIs)
        · intro hDummy
          rw [TokenContent.isDummy_of_isReal hReal] at hDummy
          cases hDummy
        · exact fun hEof => absurd hEof
            (TokenContent.ne_eof_of_isReal hReal)
    · split
      · next hAttribute =>
          simp only [wp_bind, wp_replaceCtxt, wp_pure]
          refine ⟨hPos, hReady.emit rfl
            (.shift ?_ (.replaceHead hHead rfl rfl) .asIs)⟩
          rw [hAttribute.2.2]
          rfl
      · split
        · next hContinues =>
            simp only [Bool.and_eq_true] at hContinues
            simp only [wp_bind, wp_replaceCtxt, wp_pure]
            exact ⟨hPos, hReady.emit rfl
              (.shift (isReal_of_moduleHeadContinues hContinues.1)
                (.replaceHead hHead rfl rfl) .asIs)⟩
        · exact wp_endModuleHead hReady hPos hHead rfl

theorem moduleHeadRule_meets :
    Meets trusted bounded useBlockRule Unforced
      (fun _ v => ∀ pos prev attrs nested,
        v.stack.head? ≠ some (.ModuleHead pos prev attrs nested))
      moduleHeadRule := by
  intro tt t hReady hEof
  rw [moduleHeadRule, wp_bind, wp_head]
  intro hStack
  split
  · next headPos prev attrs nested hHead =>
      have hPos : t.GoodPos trusted bounded headPos :=
        hStack _ (List.mem_of_mem_head? hHead)
      split
      · next hAttrs =>
          simp only [Bool.and_eq_true] at hAttrs
          rw [hAttrs.1] at hHead
          exact wp_moduleAttributeStep hReady hEof hPos hHead
      · exact wp_moduleHeadStep hReady hPos hHead
  · next hOther =>
      exact hReady.pass hOther

/- After the head transitions the top of the stack is no head. -/
theorem headTransitions_meets :
    Meets trusted bounded useBlockRule Unforced Headless
      headTransitions := by
  refine namespaceHeadRule_meets.firstOf_cons ?_
  refine (moduleHeadRule_meets.imp fun _ _ h => h.1).firstOf_cons ?_
  intro tt t hReady hFacts
  refine hReady.pass ?_
  rcases hFacts with ⟨⟨-, hNamespace⟩, hModule⟩
  unfold Headless topIsHead
  cases hHead : t.view.stack.head? with
  | none =>
      rfl
  | some ctxt =>
      cases ctxt with
      | NamespaceHead pos prev =>
          exact absurd hHead (hNamespace pos prev)
      | ModuleHead pos prev attrs nested =>
          exact absurd hHead (hModule pos prev attrs nested)
      | _ =>
          rfl

end Heads

end LexFilter

end Borzoi
